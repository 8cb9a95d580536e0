import NorthOS.Names

/-!
The file-system calls between begin_op and end_op. Each leaves the file system good, with
the references of the process after it, and logs at most eight blocks beside those of the
bitmap. The directories that a call looks into have room for an entry in front of the
double-indirect blocks.
-/
namespace NorthOS.Fs

open LittleEndian Halting Comp

variable {near : Prop} {i j k m n cwd ip dp : ℕ} {s t u : State} {A A' A'' : Files}
  {σ σ' σ'' : Slots} {E E' L K K' : Multiset ℕ} {X : Set ℕ} {D D' : Finset ℕ} {name path : Name}

/-- The end of a call: the references of processes are `E'`, those of `K` kept their
inodes, and `c` blocks were logged beside those of the bitmap. -/
def Done (near : Prop) (c : ℕ) (K : Multiset ℕ) (s : State) (A : Files) (σ : Slots) (t : State)
    (E' : Multiset ℕ) : Prop :=
  ∃ (D : Finset ℕ) (A' : Files) (σ' : Slots), D.card ≤ c ∧ Does near K (bitmapAnd D) s A σ t A' σ' E' 0

section Steps

theorem Does.within {Q : Multiset ℕ} {F : Finset ℕ}
    (h : Does near K (bitmapAnd D) s A σ t A' σ' E L)
    (hD : D ⊆ F) (hK : ∀ j ∈ Q, j ∈ K) : Does near Q (bitmapAnd F) s A σ t A' σ' E L :=
  h.mono hK (bitmapAnd_mono hD)

/-- A part of the call that logs nothing. -/
theorem Does.silent (h : Does near K ∅ s A σ t A' σ' E L) (hK : ∀ j ∈ K', j ∈ K) :
    Does near K' X s A σ t A' σ' E L := h.mono hK (Set.empty_subset X)

theorem Does.done (h : Does near K (bitmapAnd D) s A σ t A' σ' E' 0) {c : ℕ} (hc : D.card ≤ c) :
    Done near c K s A σ t E' := ⟨D, A', σ', hc, h⟩

theorem Does.doneSilent (h : Does near K ∅ s A σ t A' σ' E' 0) {c : ℕ} (hK : ∀ j ∈ K', j ∈ K) :
    Done near c K' s A σ t E' :=
  (h.silent (X := bitmapAnd ∅) hK).done (Nat.zero_le c)

theorem Does.promote (h : Does near K X s A σ t A' σ' E (i ::ₘ L)) :
    Does near K X s A σ t A' σ' (i ::ₘ E) L := ⟨h.good.promote, h.keeps, h.types, h.logged⟩

theorem Good.incLink (h : Good near s A σ E L) (hi : i ∈ E) (hat : At σ i n) :
    Gives (Fs.incLink i s) fun _ t =>
      Does near (E + L) (bitmapAnd {IBLOCK n mkfsSuperblock}) s A σ t
      (Function.update A n { A n with nlink := addShort (A n).nlink 1 }) σ E L :=
  h.setNlink hi hat (g := fun x => addShort x 1) fun x => addShort_lt x 1

theorem Good.decLink (h : Good near s A σ E L) (hi : i ∈ E) (hat : At σ i n) :
    Gives (Fs.decLink i s) fun _ t =>
      Does near (E + L) (bitmapAnd {IBLOCK n mkfsSuperblock}) s A σ t
      (Function.update A n { A n with nlink := addShort (A n).nlink (2 ^ 16 - 1) }) σ E L :=
  h.setNlink hi hat (g := fun x => addShort x (2 ^ 16 - 1)) fun x => addShort_lt x _

end Steps

section Link

/-- The second half of sys_link, for an inode that the call holds for the process. -/
theorem Good.linkNew (h : Good near s A σ (ip ::ₘ E) 0) (hcwd : cwd ∈ E) (hat : At σ ip n)
    (hroom : Roomy A (looked A true (σ cwd).inum name)) :
    Gives (Fs.linkNew cwd ip name s) fun ok t => ∃ (D : Finset ℕ) (A' : Files) (σ' : Slots),
      D.card ≤ 3 ∧ Does near (if ok then E else ip ::ₘ E)
        (bitmapAnd (insert (IBLOCK n mkfsSuperblock) D)) s A σ t A' σ'
        (if ok then E else ip ::ₘ E) 0 := by
  unfold Fs.linkNew
  refine Ends.bind (h.nameiparent (Multiset.mem_cons_of_mem hcwd) hroom) fun r t _ hwalk => ?_
  obtain ⟨σ₁, ⟨hwalk, _⟩, hsize⟩ := hwalk
  cases r with
  | none => exact ⟨∅, A, σ₁, Nat.zero_le _, hwalk.silent fun _ => mem_refs⟩
  | some q =>
    obtain ⟨dp, name⟩ := q
    have hsize : (A (σ₁ dp).inum).size < nearBytes := hsize _ rfl
    have hwalk : Does near (ip ::ₘ E + 0) ∅ s A σ t A σ₁ (ip ::ₘ E) (dp ::ₘ 0) := hwalk
    dsimp only
    refine Ends.bind (hwalk.good.ilock mem_held) fun _ u _ hlock => ?_
    obtain ⟨σ₂, hlock, hatd, _⟩ := hlock
    have hdoes := hwalk.trans (hlock.mono (fun _ => mem_held_of) (Set.Subset.refl _))
    have hgood := hdoes.good
    obtain ⟨_, _, _⟩ := hgood.shows.fields hatd
    refine Ends.bind (Q := fun d v => u.icache dp = d ∧ u = v) ⟨rfl, rfl⟩ ?_
    rintro d _ _ ⟨rfl, rfl⟩
    refine Ends.bind (Q := fun x v => u.icache ip = x ∧ u = v) ⟨rfl, rfl⟩ ?_
    rintro x _ _ ⟨rfl, rfl⟩
    have hip : ip ∈ ip ::ₘ E := Multiset.mem_cons_self ip E
    have hat' : At σ₂ ip n := hat.keep hgood (mem_refs hip) hdoes.keeps (mem_refs hip)
    obtain ⟨_, hinum, _⟩ := hgood.shows.fields hat'
    have hlt : n < maxInodes := by
      rw [← hat'.inum]
      exact (hgood.shows.range hat'.slot hat'.ref).2
    by_cases hdev : (u.icache dp).dev ≠ (u.icache ip).dev
    · rw [if_pos hdev]
      refine Ends.bind hgood.unlockPutBack fun _ w _ hput => ?_
      obtain ⟨σ₃, hput⟩ := hput
      exact ⟨∅, A, σ₃, Nat.zero_le _, (hdoes.trans hput).silent fun _ => mem_refs⟩
    · rw [if_neg hdev, hinum]
      refine Ends.bind (hgood.dirlink hatd (fun _ => hsize) hlt) fun r v _ hlink => ?_
      obtain ⟨D, A₁, σ₃, hcard, hlink, _⟩ := hlink
      generalize (σ₁ dp).inum = m at *
      have hcard' : (insert (IBLOCK m mkfsSuperblock) D).card ≤ 3 :=
        Nat.le_trans (Finset.card_insert_le _ _) (Nat.succ_le_succ hcard)
      have hall : Does near (ip ::ₘ E)
          (bitmapAnd (insert (IBLOCK n mkfsSuperblock) (insert (IBLOCK m mkfsSuperblock) D)))
          s A σ v A₁ σ₃ (ip ::ₘ E) (dp ::ₘ 0) :=
        (hdoes.silent fun _ => mem_refs).trans
          (hlink.within (Finset.subset_insert _ _) fun _ => mem_refs)
      split
      · refine Ends.bind hlink.good.unlockPutBack fun _ w _ hput => ?_
        obtain ⟨σ₄, hput⟩ := hput
        exact ⟨_, A₁, σ₄, hcard', hall.trans (hput.silent fun _ => mem_refs)⟩
      · refine Ends.bind hlink.good.unlockPutBack fun _ w _ hput => ?_
        obtain ⟨σ₄, hput⟩ := hput
        have hback := hall.trans (hput.silent fun _ => mem_refs)
        have hat₄ : At σ₄ ip n :=
          hat.keep hback.good (mem_refs hip) hback.keeps hip
        refine Ends.bind hback.good.iput fun _ x _ hlast => ?_
        obtain ⟨A₂, σ₅, hlast, _⟩ := hlast
        rw [hat₄.inum] at hlast
        refine ⟨_, A₂, σ₅, hcard',
          (hback.mono (fun _ => Multiset.mem_cons_of_mem) (Set.Subset.refl _)).trans ?_⟩
        exact hlast.within (Finset.singleton_subset_iff.mpr (Finset.mem_insert_self _ _))
          fun _ => id

theorem Good.link (h : Good near s A σ E 0) (hcwd : cwd ∈ E)
    (hold : Roomy A (looked A false (σ cwd).inum path))
    (hnew : ∀ v ∈ resolve A (σ cwd).inum path, (A v).type ≠ T_DIR →
      Roomy A (looked A true (σ cwd).inum name)) :
    Gives (Fs.link cwd path name s) fun _ t => Done near 4 E s A σ t E := by
  unfold Fs.link
  refine Ends.bind (h.namei hcwd hold) fun r t _ hname => ?_
  obtain ⟨σ₁, hname, hto⟩ := hname
  cases r with
  | none => exact hname.doneSilent fun _ => mem_refs
  | some ip =>
    have hname : Does near (E + 0) ∅ s A σ t A σ₁ E (ip ::ₘ 0) := hname
    dsimp only
    refine Ends.bind (hname.good.ilock mem_held) fun _ u _ hlock => ?_
    obtain ⟨σ₂, hlock, hat, _⟩ := hlock
    have hdoes := hname.trans (hlock.mono (fun _ => mem_held_of) (Set.Subset.refl _))
    have hkept : (σ₂ cwd).inum = (σ cwd).inum := (hdoes.keeps cwd (mem_refs hcwd)).1
    obtain ⟨_, _, htype, _⟩ := hdoes.good.shows.fields hat
    rw [Option.map_some] at hto
    generalize (σ₁ ip).inum = n at *
    refine Ends.bind (Q := fun type v => (A n).type = type ∧ u = v) ⟨htype.symm, rfl⟩ ?_
    rintro type _ _ ⟨rfl, rfl⟩
    by_cases hdir : (A n).type = T_DIR
    · rw [if_pos hdir]
      refine Ends.bind hdoes.good.unlockPutBack fun _ v _ hput => ?_
      obtain ⟨σ₃, hput⟩ := hput
      exact (hdoes.trans hput).doneSilent fun _ => mem_refs
    · rw [if_neg hdir]
      have hroom := Roomy.setNlink (n := n) (x := addShort (A n).nlink 1) (hnew n hto hdir)
      rw [← hkept] at hroom
      have hself : ip ∈ ip ::ₘ E := Multiset.mem_cons_self ip E
      have hheld := hdoes.promote
      refine Ends.bind (hheld.good.incLink hself hat) fun _ v _ hinc => ?_
      refine Ends.bind hinc.good.iunlock fun _ w _ hunlock => ?_
      have hcount : Does near E (bitmapAnd {IBLOCK n mkfsSuperblock}) s A σ w
          (Function.update A n { A n with nlink := addShort (A n).nlink 1 }) σ₂ (ip ::ₘ E) 0 := by
        refine (hheld.silent fun _ => mem_refs).trans ?_
        refine (hinc.trans hunlock.quiet).mono (fun j hj => ?_) (Set.Subset.refl _)
        exact mem_refs (Multiset.mem_cons_of_mem hj)
      refine Ends.bind (hcount.good.linkNew hcwd hat hroom) fun ok x _ hnew => ?_
      obtain ⟨D, A₁, σ₃, hcard, hnew⟩ := hnew
      have hcard' : (insert (IBLOCK n mkfsSuperblock) D).card ≤ 4 :=
        Nat.le_trans (Finset.card_insert_le _ _) (Nat.succ_le_succ hcard)
      have hfirst := hcount.within (F := insert (IBLOCK n mkfsSuperblock) D)
        (Finset.singleton_subset_iff.mpr (Finset.mem_insert_self _ _)) fun _ => id
      cases ok with
      | true => exact (hfirst.trans hnew).done hcard'
      | false =>
        -- the link count is taken back
        have hnew : Does near (ip ::ₘ E) _ w _ σ₂ x A₁ σ₃ (ip ::ₘ E) 0 := hnew
        have hback := hfirst.trans
            (hnew.mono (fun _ => Multiset.mem_cons_of_mem) (Set.Subset.refl _))
        have hat₃ : At σ₃ ip n := hat.keep hback.good (mem_refs hself) hnew.keeps hself
        refine Ends.bind (hback.good.ilock (mem_refs hself)) fun _ y _ hlock' => ?_
        obtain ⟨σ₄, hlock', hat₄, _⟩ := hlock'
        rw [hat₃.inum] at hat₄
        refine Ends.bind (hlock'.good.decLink hself hat₄) fun _ z _ hdec => ?_
        refine Ends.bind hdec.good.unlockPut fun _ z' _ hput => ?_
        obtain ⟨A₂, σ₅, hput, _⟩ := hput
        rw [hat₄.inum] at hput
        have hone : ({IBLOCK n mkfsSuperblock} : Finset ℕ) ⊆ insert (IBLOCK n mkfsSuperblock) D :=
          Finset.singleton_subset_iff.mpr (Finset.mem_insert_self _ _)
        have hmem : ∀ j ∈ E, j ∈ ip ::ₘ E + 0 := fun j hj => mem_refs (Multiset.mem_cons_of_mem hj)
        have hlast := (hlock'.silent hmem).trans
            ((hdec.within hone hmem).trans (hput.within hone fun _ => id))
        exact (hback.trans hlast).done hcard'

end Link

section Unlink

theorem Good.isdirempty (h : Good near s A σ E L) (hat : At σ i n) (hdir : (A n).type = T_DIR)
    (hsmall : (A n).size < nearBytes) :
    Gives (Fs.isdirempty i s) fun _ t => s = t := by
  obtain ⟨_, _, _, _, _, _, hsize⟩ := h.shows.fields hat
  unfold Fs.isdirempty
  refine Ends.bind (Q := fun size u => (A n).size = size ∧ s = u) ⟨hsize.symm, rfl⟩ ?_
  rintro size _ _ ⟨rfl, rfl⟩
  have hscan := h.shows.scanDirents hat hdir (Nat.le_of_lt hsmall) (g := (· != 0))
    (k := 2) (f := (A n).entries + 1) (Nat.le_add_left _ _)
  rw [Nat.mul_comm] at hscan
  refine Ends.bind hscan ?_
  rintro off _ _ ⟨rfl, _⟩
  exact rfl

/-- The end of sys_unlink. -/
theorem Good.removeEntry (h : Good near s A σ E (ip ::ₘ dp ::ₘ 0)) (hatd : At σ dp m)
    (hat : At σ ip n) (hdir : (A m).type = T_DIR) (hsmall : (A m).size < nearBytes)
    (hk : k < (A m).entries) :
    Gives (Fs.removeEntry dp ip (direntSize * k) s) fun _ t => Done near 4 E s A σ t E := by
  have hend := Node.entry_end hk
  have hzero : get (fun _ => 0) 0 2 = 0 := get_zero fun _ _ _ => rfl
  unfold Fs.removeEntry
  refine Ends.bind (h.writeEntry hatd hdir (Nat.le_of_lt hsmall) (k := k) (by omega) (by omega)
    (by rw [hzero]; decide)) fun r t _ hwrite => ?_
  obtain ⟨_, D, hcard, hwrote⟩ := hwrite
  generalize hA₁ : Function.update A m _ = A₁ at hwrote
  refine Ends.bind (Q := fun _ u => t = u) (gives_ensure fun _ => rfl) ?_
  rintro _ _ _ rfl
  refine Ends.bind (Q := fun _ u => t = u) rfl ?_
  rintro type _ _ rfl
  set B := insert (IBLOCK n mkfsSuperblock) (insert (IBLOCK m mkfsSuperblock) D) with hB
  have hcardB : B.card ≤ 4 := by
    refine Nat.le_trans (Finset.card_insert_le _ _) (Nat.succ_le_succ ?_)
    exact Nat.le_trans (Finset.card_insert_le _ _) (Nat.succ_le_succ hcard)
  have hn : ({IBLOCK n mkfsSuperblock} : Finset ℕ) ⊆ B :=
    Finset.singleton_subset_iff.mpr (Finset.mem_insert_self _ _)
  have hm : ({IBLOCK m mkfsSuperblock} : Finset ℕ) ⊆ B :=
    Finset.singleton_subset_iff.mpr (Finset.mem_insert_of_mem (Finset.mem_insert_self _ _))
  have hdp : dp ∈ dp ::ₘ ip ::ₘ E := Multiset.mem_cons_self _ _
  have hip : ip ∈ ip ::ₘ E := Multiset.mem_cons_self _ _
  have hipd : ip ∈ dp ::ₘ ip ::ₘ E := Multiset.mem_cons_of_mem hip
  have hheld : Does near (dp ::ₘ ip ::ₘ E) (bitmapAnd B) s A σ t A₁ σ (dp ::ₘ ip ::ₘ E) 0 := by
    refine ((hwrote.within (Finset.subset_insert _ _) fun j hj => ?_).promote).promote
    rcases Multiset.mem_cons.mp hj with rfl | hj
    · exact Multiset.mem_add.mpr (Or.inr (Multiset.mem_cons_of_mem (Multiset.mem_cons_self _ _)))
    · rcases Multiset.mem_cons.mp hj with rfl | hj
      · exact mem_held
      · exact mem_refs hj
  have hdec : Gives ((if type = T_DIR then Fs.decLink dp else pure () : M Unit) t) fun _ u =>
      ∃ A₂, Does near (dp ::ₘ ip ::ₘ E) (bitmapAnd B) s A σ u A₂ σ (dp ::ₘ ip ::ₘ E) 0 := by
    split
    · refine (hheld.good.decLink hdp hatd).mono fun _ u hu => ?_
      exact ⟨_, hheld.trans (hu.within hm fun _ => mem_refs)⟩
    · exact ⟨A₁, hheld⟩
  refine Ends.bind hdec fun _ u _ hu => ?_
  obtain ⟨A₂, hu⟩ := hu
  refine Ends.bind hu.good.unlockPut fun _ v _ hput => ?_
  obtain ⟨A₃, σ₁, hput, _⟩ := hput
  rw [hatd.inum] at hput
  have hone := (hu.mono (fun _ => Multiset.mem_cons_of_mem) (Set.Subset.refl _)).trans
    (hput.within hm fun _ => id)
  have hat₁ : At σ₁ ip n := hat.keep hone.good (mem_refs hip) hone.keeps hip
  refine Ends.bind (hone.good.decLink hip hat₁) fun _ w _ hless => ?_
  refine Ends.bind hless.good.unlockPut fun _ x _ hlast => ?_
  obtain ⟨A₄, σ₂, hlast, _⟩ := hlast
  rw [hat₁.inum] at hlast
  have hall := (hone.trans (hless.within hn fun _ => mem_refs)).mono
    (fun _ => Multiset.mem_cons_of_mem) (Set.Subset.refl _)
  exact (hall.trans (hlast.within hn fun _ => id)).done hcardB

/-- The inode that sys_unlink takes a link from. -/
def victim (A : Files) (n : ℕ) (path : Name) : Option ℕ :=
  match parent A n path with
  | none => none
  | some (m, name) =>
    if namecmp name dot ∨ namecmp name dotdot then none else ((A m).find name).map (A m).inumAt

theorem Good.unlink (h : Good near s A σ E 0) (hcwd : cwd ∈ E)
    (hroom : Roomy A (looked A true (σ cwd).inum path))
    (hvictim : ∀ v ∈ victim A (σ cwd).inum path, (A v).type = T_DIR → (A v).size < nearBytes) :
    Gives (Fs.unlink cwd path s) fun _ t => Done near 4 E s A σ t E := by
  unfold Fs.unlink
  refine Ends.bind (h.nameiparent hcwd hroom) fun r t _ hwalk => ?_
  obtain ⟨σ₁, ⟨hwalk, hto⟩, hsize⟩ := hwalk
  cases r with
  | none => exact hwalk.doneSilent fun _ => mem_refs
  | some q =>
    obtain ⟨dp, name⟩ := q
    have hsize : (A (σ₁ dp).inum).size < nearBytes := hsize _ rfl
    rw [Option.map_some] at hto
    have hwalk : Does near (E + 0) ∅ s A σ t A σ₁ E (dp ::ₘ 0) := hwalk
    dsimp only
    refine Ends.bind (hwalk.good.ilock mem_held) fun _ u _ hlock => ?_
    obtain ⟨σ₂, hlock, hatd, _⟩ := hlock
    have hdoes := hwalk.trans (hlock.mono (fun _ => mem_held_of) (Set.Subset.refl _))
    generalize (σ₁ dp).inum = m at *
    by_cases hdots : namecmp name dot = true ∨ namecmp name dotdot = true
    · rw [if_pos hdots]
      refine Ends.bind hdoes.good.unlockPutBack fun _ v _ hput => ?_
      obtain ⟨σ₃, hput⟩ := hput
      exact (hdoes.trans hput).doneSilent fun _ => mem_refs
    · rw [if_neg hdots]
      refine Ends.bind (hdoes.good.dirlookup hatd fun _ => Nat.le_of_lt hsize)
        fun r v _ hfound => ?_
      obtain ⟨hdir, hfound⟩ := hfound
      cases hfind : (A m).find name with
      | none =>
        rw [hfind] at hfound
        obtain ⟨rfl, hlook⟩ := hfound
        have hseen := hdoes.trans (hlook.mono (fun _ => mem_held_of) (Set.Subset.refl _))
        refine Ends.bind hseen.good.unlockPutBack fun _ w _ hput => ?_
        obtain ⟨σ₃, hput⟩ := hput
        exact (hseen.trans hput).doneSilent fun _ => mem_refs
      | some k =>
        rw [hfind] at hfound
        obtain ⟨ip, σ₃, rfl, hlook, hnum⟩ := hfound
        have hbelow : (A (σ₃ ip).inum).type = T_DIR → (A (σ₃ ip).inum).size < nearBytes := by
          apply hvictim
          rw [victim, hto]
          dsimp only
          rw [if_neg hdots, hfind, hnum]
          rfl
        have hseen := hdoes.trans (hlook.mono (fun _ => mem_held_of) (Set.Subset.refl _))
        dsimp only
        refine Ends.bind (hseen.good.ilock mem_held) fun _ w _ hlock' => ?_
        obtain ⟨σ₄, hlock', hat, _⟩ := hlock'
        have hboth := hseen.trans
          (hlock'.mono (fun _ hj => mem_held_of (mem_held_of hj)) (Set.Subset.refl _))
        have hatd₃ : At σ₃ dp m := hatd.keep hlook.good (mem_held_of mem_held) hlook.keeps mem_held
        have hatd₄ : At σ₄ dp m :=
          hatd₃.keep hlock'.good (mem_held_of mem_held) hlock'.keeps (mem_held_of mem_held)
        obtain ⟨_, _, htype, _⟩ := hboth.good.shows.fields hat
        generalize (σ₃ ip).inum = n at *
        refine Ends.bind (Q := fun _ x => w = x) (gives_ensure fun _ => rfl) ?_
        rintro _ _ _ rfl
        refine Ends.bind (Q := fun type x => (A n).type = type ∧ w = x) ⟨htype.symm, rfl⟩ ?_
        rintro type _ _ ⟨rfl, rfl⟩
        have hempty : Gives ((if (A n).type = T_DIR then Fs.isdirempty ip else pure true : M Bool) w)
            fun _ x => w = x := by
          split
          · rename_i htdir
            exact hboth.good.isdirempty hat htdir (hbelow htdir)
          · exact rfl
        refine Ends.bind hempty ?_
        rintro empty _ _ rfl
        cases empty with
        | true =>
          refine (hboth.good.removeEntry hatd₄ hat hdir hsize (Node.find_some hfind).1).mono
            fun _ x hx => ?_
          obtain ⟨D, A', σ', hcard, hremove⟩ := hx
          exact ((hboth.silent fun _ => mem_refs).trans hremove).done hcard
        | false =>
          refine Ends.bind hboth.good.unlockPutBack fun _ x _ hput => ?_
          obtain ⟨σ₅, hput⟩ := hput
          have hback := hboth.trans (hput.mono (fun _ => mem_held_of) (Set.Subset.refl _))
          refine Ends.bind hback.good.unlockPutBack fun _ y _ hput' => ?_
          obtain ⟨σ₆, hput'⟩ := hput'
          exact (hback.trans hput').doneSilent fun _ => mem_refs

end Unlink

section Create

/-- What dirlink does to the directory, and that it spares the other files. -/
theorem linked_size {inum : ℕ} (hA : A' = A ∨ ∃ k, direntSize * k ≤ (A n).size ∧ A' =
    Function.update A n ((A n).written (direntSize * k) direntSize (dirent inum name))) :
    (A' n).size ≤ (A n).size + direntSize ∧ ∀ m, m ≠ n → A' m = A m := by
  rcases hA with rfl | ⟨k, hk, rfl⟩
  · exact ⟨Nat.le_add_right _ _, fun _ _ => rfl⟩
  · refine ⟨?_, fun m hm => Function.update_of_ne hm _ _⟩
    rw [Function.update_self]
    show max (A n).size (direntSize * k + direntSize) ≤ _
    omega

/-- The entries of a new directory. -/
theorem Good.createDots (h : Good near s A σ E 0) (hdp : dp ∈ E) (hip : ip ∈ E) (hatd : At σ dp m)
    (hat : At σ ip n) (hmn : m ≠ n) (hempty : (A n).size = 0) :
    Gives (Fs.createDots dp ip s) fun _ t => ∃ (D : Finset ℕ) (A' : Files) (σ' : Slots),
      D.card ≤ 4 ∧ Does near E (bitmapAnd (insert (IBLOCK m mkfsSuperblock)
        (insert (IBLOCK n mkfsSuperblock) D))) s A σ t A' σ' E 0 ∧ (A' m).size = (A m).size := by
  have hlt : ∀ {u A' σ' k i}, Good near u A' σ' E 0 → At σ' i k → k < maxInodes := by
    intro u A' σ' k i hg ha
    rw [← ha.inum]
    exact (hg.shows.range ha.slot ha.ref).2
  have hbig : nearBytes = 1069056 := rfl
  have hsixteen : direntSize = 16 := rfl
  unfold Fs.createDots
  refine Ends.bind (h.incLink hdp hatd) fun _ t _ hinc => ?_
  set A₁ := Function.update A m { A m with nlink := addShort (A m).nlink 1 } with hA₁
  have hsize₁ : (A₁ n).size = 0 := by
    rw [hA₁, Function.update_of_ne hmn.symm]
    exact hempty
  obtain ⟨_, hinum, _⟩ := hinc.good.shows.fields hat
  refine Ends.bind (Q := fun k u => n = k ∧ t = u) ⟨hinum.symm, rfl⟩ ?_
  rintro k _ _ ⟨rfl, rfl⟩
  refine Ends.bind (hinc.good.dirlink hat (fun _ => by omega) (hlt h hat)) fun r u _ hlink => ?_
  obtain ⟨D₁, A₂, σ₁, hcard₁, hlink, hA₂⟩ := hlink
  obtain ⟨hsize₂, hother₂⟩ := linked_size hA₂
  refine Ends.bind (Q := fun _ v => u = v) (gives_ensure fun _ => rfl) ?_
  rintro _ _ _ rfl
  have hatd₁ : At σ₁ dp m := hatd.keep hlink.good (mem_refs hdp) hlink.keeps (mem_refs hdp)
  have hat₁ : At σ₁ ip n := hat.keep hlink.good (mem_refs hip) hlink.keeps (mem_refs hip)
  obtain ⟨_, hinumd, _⟩ := hlink.good.shows.fields hatd₁
  refine Ends.bind (Q := fun k v => m = k ∧ u = v) ⟨hinumd.symm, rfl⟩ ?_
  rintro k _ _ ⟨rfl, rfl⟩
  refine Ends.bind (hlink.good.dirlink hat₁ (fun _ => by omega) (hlt hlink.good hatd₁))
    fun r' v _ hlink' => ?_
  obtain ⟨D₂, A₃, σ₂, hcard₂, hlink', hA₃⟩ := hlink'
  obtain ⟨hsize₃, hother₃⟩ := linked_size hA₃
  refine gives_ensure fun _ => ?_
  refine ⟨D₁ ∪ D₂, A₃, σ₂, ?_, ?_, ?_⟩
  · exact Nat.le_trans (Finset.card_union_le _ _) (Nat.add_le_add hcard₁ hcard₂)
  · have hn : IBLOCK n mkfsSuperblock ∈ insert (IBLOCK m mkfsSuperblock)
        (insert (IBLOCK n mkfsSuperblock) (D₁ ∪ D₂)) :=
      Finset.mem_insert_of_mem (Finset.mem_insert_self _ _)
    have hsub : D₁ ∪ D₂ ⊆ insert (IBLOCK m mkfsSuperblock)
        (insert (IBLOCK n mkfsSuperblock) (D₁ ∪ D₂)) :=
      (Finset.subset_insert _ _).trans (Finset.subset_insert _ _)
    have h₁ := hinc.within (Finset.singleton_subset_iff.mpr (Finset.mem_insert_self
      (IBLOCK m mkfsSuperblock) (insert (IBLOCK n mkfsSuperblock) (D₁ ∪ D₂)))) fun _ =>
      mem_refs (L := 0)
    have h₂ := hlink.within (Finset.insert_subset hn (Finset.subset_union_left.trans hsub))
      fun _ => mem_refs
    have h₃ := hlink'.within (Finset.insert_subset hn (Finset.subset_union_right.trans hsub))
      fun _ => mem_refs
    exact h₁.trans (h₂.trans h₃)
  · rw [hother₃ m hmn, hother₂ m hmn, hA₁, Function.update_self]

/-- The part of create that makes an inode. -/
theorem Good.createNew (h : Good near s A σ E (dp ::ₘ 0)) (hatd : At σ dp m)
    (hsize : (A m).size < nearBytes)
    {type major minor : ℕ} (htype : type < 2 ^ 16) (hmajor : major < 2 ^ 16)
    (hminor : minor < 2 ^ 16) : Gives (Fs.createNew dp name type major minor s) fun ip t =>
      ∃ (D : Finset ℕ) (A' : Files) (σ' : Slots) (n : ℕ), D.card ≤ 8 ∧
        Does near E (bitmapAnd D) s A σ t A' σ' (ip ::ₘ E) 0 ∧ At σ' ip n ∧
        IBLOCK n mkfsSuperblock ∈ D ∧ (A' n).type = type := by
  obtain ⟨hdev, _⟩ := h.shows.fields hatd
  unfold Fs.createNew
  refine Ends.bind (Q := fun d u => d = ROOTDEV ∧ s = u) ⟨hdev, rfl⟩ ?_
  rintro d _ _ ⟨rfl, rfl⟩
  refine Ends.bind (h.ialloc htype) fun ip t _ hlock => ?_
  refine Ends.bind hlock fun _ u _ hnew => ?_
  obtain ⟨n, σ₁, hnew, hat, hfree, hlt⟩ := hnew
  have hmn : m ≠ n := by
    rintro rfl
    have hloaded := h.shows.typed hatd.slot hatd.ref hatd.valid
    rw [hatd.inum] at hloaded
    exact hloaded hfree
  have hatd₁ : At σ₁ dp m := hatd.keep hnew.good mem_held hnew.keeps mem_held
  set A₁ := Function.update A n (Node.fresh type) with hA₁
  have hself : (A₁ n) = Node.fresh type := Function.update_self ..
  have hheld := hnew.promote
  have hdp : dp ∈ dp ::ₘ ip ::ₘ E := Multiset.mem_cons_self _ _
  have hip : ip ∈ ip ::ₘ E := Multiset.mem_cons_self _ _
  have hipd : ip ∈ dp ::ₘ ip ::ₘ E := Multiset.mem_cons_of_mem hip
  have hamend := hheld.good.amend hipd hat
    (f := fun x => { x with major := major, minor := minor, nlink := 1 }) (fun _ => rfl) rfl
    hmajor hminor (by decide)
  refine gives_bind₂ hamend fun _ v hamend => ?_
  set A₂ := Function.update A₁ n { A₁ n with major := major, minor := minor, nlink := 1 } with hA₂
  have hself₂ : (A₂ n).type = type ∧ (A₂ n).size = 0 := by
    rw [hA₂, Function.update_self]
    show (A₁ n).type = type ∧ (A₁ n).size = 0
    rw [hself]
    exact ⟨rfl, rfl⟩
  have hsize₂ : (A₂ m).size = (A m).size := by
    rw [hA₂, Function.update_of_ne hmn, hA₁, Function.update_of_ne hmn]
  have hdots : Gives ((if type = T_DIR then Fs.createDots dp ip else pure () : M Unit) v) fun _ w =>
      ∃ (D : Finset ℕ) (A₃ : Files) (σ₂ : Slots), D.card ≤ 4 ∧ Does near (dp ::ₘ ip ::ₘ E)
        (bitmapAnd (insert (IBLOCK m mkfsSuperblock) (insert (IBLOCK n mkfsSuperblock) D)))
        v A₂ σ₁ w A₃ σ₂ (dp ::ₘ ip ::ₘ E) 0 ∧ (A₃ m).size = (A₂ m).size := by
    split
    · exact hamend.good.createDots hdp hipd hatd₁ hat hmn hself₂.2
    · exact ⟨∅, A₂, σ₁, Nat.zero_le _, Does.start hamend.good, rfl⟩
  refine Ends.bind hdots fun _ w _ hdots => ?_
  obtain ⟨D₁, A₃, σ₂, hcard₁, hdots, hsize₃⟩ := hdots
  have hat₂ : At σ₂ ip n := hat.keep hdots.good (mem_refs hipd) hdots.keeps hipd
  have hatd₂ : At σ₂ dp m := hatd₁.keep hdots.good (mem_refs hdp) hdots.keeps hdp
  obtain ⟨_, hinum, _⟩ := hdots.good.shows.fields hat₂
  refine Ends.bind (Q := fun k x => n = k ∧ w = x) ⟨hinum.symm, rfl⟩ ?_
  rintro k _ _ ⟨rfl, rfl⟩
  refine Ends.bind (hdots.good.dirlink hatd₂ (fun _ => by omega) hlt) fun r x _ hlink => ?_
  obtain ⟨D₂, A₄, σ₃, hcard₂, hlink, _⟩ := hlink
  refine Ends.bind (Q := fun _ y => x = y) (gives_ensure fun _ => rfl) ?_
  rintro _ _ _ rfl
  refine Ends.bind hlink.good.unlockPut fun _ y _ hput => ?_
  obtain ⟨A₅, σ₄, hput, _⟩ := hput
  have hatd₃ : At σ₃ dp m := hatd₂.keep hlink.good (mem_refs hdp) hlink.keeps (mem_refs hdp)
  rw [hatd₃.inum] at hput
  -- what follows ialloc, with the blocks of the two inodes and of three entries
  set B := insert (IBLOCK m mkfsSuperblock) (insert (IBLOCK n mkfsSuperblock) (D₁ ∪ D₂)) with hB
  have hm : IBLOCK m mkfsSuperblock ∈ B := Finset.mem_insert_self _ _
  have hn : IBLOCK n mkfsSuperblock ∈ B := Finset.mem_insert_of_mem (Finset.mem_insert_self _ _)
  have hsub : D₁ ∪ D₂ ⊆ B := (Finset.subset_insert _ _).trans (Finset.subset_insert _ _)
  have hrest : Does near (ip ::ₘ E) (bitmapAnd B) u A₁ σ₁ y A₅ σ₄ (ip ::ₘ E) 0 := by
    have h₁ := hamend.within (Finset.singleton_subset_iff.mpr hn) (Q := ip ::ₘ E)
      fun _ hj => mem_refs (Multiset.mem_cons_of_mem hj)
    have h₂ := hdots.within (Finset.insert_subset hm (Finset.insert_subset hn
      (Finset.subset_union_left.trans hsub))) (Q := ip ::ₘ E) fun _ => Multiset.mem_cons_of_mem
    have h₃ := hlink.within (Finset.insert_subset hm (Finset.subset_union_right.trans hsub))
      (Q := ip ::ₘ E) fun _ hj => mem_refs (Multiset.mem_cons_of_mem hj)
    have h₄ := hput.within (Finset.singleton_subset_iff.mpr hm) (Q := ip ::ₘ E) fun _ => id
    exact h₁.trans (h₂.trans (h₃.trans h₄))
  have hat₄ : At σ₄ ip n := hat.keep hrest.good (mem_refs hip) hrest.keeps hip
  refine ⟨B, A₅, σ₄, n, ?_, ?_, hat₄, hn, ?_⟩
  · have hunion := Finset.card_union_le D₁ D₂
    have hin := Finset.card_insert_le (IBLOCK n mkfsSuperblock) (D₁ ∪ D₂)
    have hin' := Finset.card_insert_le (IBLOCK m mkfsSuperblock)
        (insert (IBLOCK n mkfsSuperblock) (D₁ ∪ D₂))
    rw [hB]
    omega
  · have hfirst := hheld.within (Finset.singleton_subset_iff.mpr hn) (Q := E) fun _ => mem_refs
    refine (show Does near E (bitmapAnd B) s A σ u A₁ σ₁ (dp ::ₘ ip ::ₘ E) 0 from hfirst).trans ?_
    exact hrest.mono (fun _ => Multiset.mem_cons_of_mem) (Set.Subset.refl _)
  · have hkept := hrest.types ip hip hat.valid
    rw [hat.inum, hself] at hkept
    exact hkept

/-- A call that holds a loaded inode, whose block is among the `c` logged ones. -/
def Takes (near : Prop) (c : ℕ) (K : Multiset ℕ) (s : State) (A : Files) (σ : Slots) (t : State)
    (E : Multiset ℕ) (ip : ℕ) (P : ℕ → Prop) : Prop :=
  ∃ (D : Finset ℕ) (A' : Files) (σ' : Slots) (n : ℕ), D.card ≤ c ∧
    Does near K (bitmapAnd D) s A σ t A' σ' (ip ::ₘ E) 0 ∧ At σ' ip n ∧
    IBLOCK n mkfsSuperblock ∈ D ∧ P (A' n).type

variable {P : ℕ → Prop} {c : ℕ}

/-- Giving the inode back at the end. -/
theorem Takes.put (h : Takes near c E s A σ t E ip P) :
    Gives (Fs.iunlockput ip t) fun _ u => Done near c E s A σ u E := by
  obtain ⟨D, A', σ', n, hcard, hdoes, hat, hmem, _⟩ := h
  refine hdoes.good.unlockPut.mono fun _ u hput => ?_
  obtain ⟨A'', σ'', hput, _⟩ := hput
  rw [hat.inum] at hput
  exact (hdoes.trans (hput.within (Finset.singleton_subset_iff.mpr hmem) fun _ => id)).done hcard

/-- A loaded inode that the call found, without logging anything. -/
theorem Does.takes (h : Does near K ∅ s A σ t A' σ' E (ip ::ₘ 0)) (hat : At σ' ip n) (hc : 0 < c)
    (hP : P (A' n).type) (hK : ∀ j ∈ K', j ∈ K) : Takes near c K' s A σ t E ip P :=
  ⟨{IBLOCK n mkfsSuperblock}, A', σ', n, by rwa [Finset.card_singleton], (h.promote).silent hK, hat,
    Finset.mem_singleton_self _, hP⟩

/-- A file that create returns for T_FILE is one. -/
theorem Good.create (h : Good near s A σ E 0) (hcwd : cwd ∈ E)
    (hroom : Roomy A (looked A true (σ cwd).inum path))
    {type major minor : ℕ} (htype : type < 2 ^ 16) (hmajor : major < 2 ^ 16)
    (hminor : minor < 2 ^ 16) : Gives (Fs.create cwd path type major minor s) fun r t =>
      match r with
      | none => Done near 8 E s A σ t E
      | some ip => Takes near 8 E s A σ t E ip (· = type) := by
  unfold Fs.create
  refine Ends.bind (h.nameiparent hcwd hroom) fun r t _ hwalk => ?_
  obtain ⟨σ₁, ⟨hwalk, _⟩, hsize⟩ := hwalk
  cases r with
  | none => exact hwalk.doneSilent fun _ => mem_refs
  | some q =>
    obtain ⟨dp, name⟩ := q
    have hsize : (A (σ₁ dp).inum).size < nearBytes := hsize _ rfl
    have hwalk : Does near (E + 0) ∅ s A σ t A σ₁ E (dp ::ₘ 0) := hwalk
    dsimp only
    refine Ends.bind (hwalk.good.ilock mem_held) fun _ u _ hlock => ?_
    obtain ⟨σ₂, hlock, hatd, _⟩ := hlock
    have hdoes := hwalk.trans (hlock.mono (fun _ => mem_held_of) (Set.Subset.refl _))
    generalize (σ₁ dp).inum = m at *
    refine Ends.bind (hdoes.good.dirlookup hatd fun _ => Nat.le_of_lt hsize) fun r v _ hfound => ?_
    obtain ⟨_, hfound⟩ := hfound
    cases hfind : (A m).find name with
    | none =>
      rw [hfind] at hfound
      obtain ⟨rfl, hlook⟩ := hfound
      have hseen := hdoes.trans (hlook.mono (fun _ => mem_held_of) (Set.Subset.refl _))
      refine Ends.bind (hseen.good.createNew hatd hsize htype hmajor hminor) fun ip w _ hnew => ?_
      obtain ⟨D, A₁, σ₃, n, hcard, hnew, hat, hmem, hkind⟩ := hnew
      exact ⟨D, A₁, σ₃, n, hcard, (hseen.silent fun _ => mem_refs).trans hnew, hat, hmem, hkind⟩
    | some k =>
      rw [hfind] at hfound
      obtain ⟨ip, σ₃, rfl, hlook, _⟩ := hfound
      have hseen := hdoes.trans (hlook.mono (fun _ => mem_held_of) (Set.Subset.refl _))
      have hgood := hseen.good
      rw [Multiset.cons_swap] at hgood
      dsimp only
      refine Ends.bind hgood.unlockPutBack fun _ w _ hput => ?_
      obtain ⟨σ₄, hput⟩ := hput
      have hback := hseen.trans (hput.mono (fun _ => mem_held_of) (Set.Subset.refl _))
      refine Ends.bind (hback.good.ilock mem_held) fun _ x _ hlock' => ?_
      obtain ⟨σ₅, hlock', hat, _⟩ := hlock'
      have hall := hback.trans (hlock'.mono (fun _ => mem_held_of) (Set.Subset.refl _))
      generalize (σ₄ ip).inum = n at *
      obtain ⟨_, _, hkind, _⟩ := hall.good.shows.fields hat
      refine Ends.bind (Q := fun old y => (A n).type = old ∧ x = y) ⟨hkind.symm, rfl⟩ ?_
      rintro old _ _ ⟨rfl, rfl⟩
      by_cases hfile : type = T_FILE ∧ (A n).type = T_FILE
      · rw [if_pos hfile]
        exact hall.takes (c := 8) (P := (· = type)) hat (by decide) (hfile.2.trans hfile.1.symm)
          fun _ => mem_refs
      · rw [if_neg hfile]
        refine Ends.bind hall.good.unlockPutBack fun _ y _ hput' => ?_
        obtain ⟨σ₆, hput'⟩ := hput'
        exact (hall.trans hput').doneSilent fun _ => mem_refs

theorem Good.makeNode (h : Good near s A σ E 0) (hcwd : cwd ∈ E)
    (hroom : Roomy A (looked A true (σ cwd).inum path))
    {type major minor : ℕ} (htype : type < 2 ^ 16) (hmajor : major < 2 ^ 16)
    (hminor : minor < 2 ^ 16) :
    Gives (Fs.makeNode cwd path type major minor s) fun _ t => Done near 8 E s A σ t E := by
  unfold Fs.makeNode
  refine Ends.bind (h.create hcwd hroom htype hmajor hminor) fun r t _ hnew => ?_
  cases r with
  | none => exact hnew
  | some ip => exact Ends.bind (Takes.put hnew) fun _ u _ hput => hput

theorem Good.mkdir (h : Good near s A σ E 0) (hcwd : cwd ∈ E)
    (hroom : Roomy A (looked A true (σ cwd).inum path)) :
    Gives (Fs.mkdir cwd path s) fun _ t => Done near 8 E s A σ t E :=
  h.makeNode hcwd hroom (by decide) (by decide) (by decide)

theorem Good.mknod (h : Good near s A σ E 0) (hcwd : cwd ∈ E)
    (hroom : Roomy A (looked A true (σ cwd).inum path)) {major minor : ℕ} :
    Gives (Fs.mknod cwd path major minor s) fun _ t => Done near 8 E s A σ t E :=
  h.makeNode hcwd hroom (by decide) (Nat.mod_lt _ (Nat.two_pow_pos 16))
    (Nat.mod_lt _ (Nat.two_pow_pos 16))

end Create

section Open

/-- A directory is opened for reading only. -/
theorem Good.openInode (h : Good near s A σ E 0) (hcwd : cwd ∈ E) {omode : ℕ}
    (hroom : Roomy A (looked A (decide (omode &&& O_CREATE ≠ 0)) (σ cwd).inum path)) :
    Gives (Fs.openInode cwd path omode s) fun r t =>
      match r with
      | none => Done near 8 E s A σ t E
      | some ip => Takes near 8 E s A σ t E ip fun type => omode ≠ 0 → type ≠ T_DIR := by
  unfold Fs.openInode
  by_cases hcreate : omode &&& O_CREATE ≠ 0
  · rw [if_pos hcreate]
    rw [decide_eq_true hcreate] at hroom
    refine (h.create hcwd hroom (by decide) (by decide) (by decide)).mono fun r t hnew => ?_
    cases r with
    | none => exact hnew
    | some ip =>
      obtain ⟨D, A', σ', n, hcard, hdoes, hat, hmem, hfile⟩ := hnew
      refine ⟨D, A', σ', n, hcard, hdoes, hat, hmem, fun _ => ?_⟩
      rw [hfile]
      decide
  · rw [if_neg hcreate]
    rw [decide_eq_false hcreate] at hroom
    refine Ends.bind (h.namei hcwd hroom) fun r t _ hname => ?_
    obtain ⟨σ₁, hname, _⟩ := hname
    cases r with
    | none => exact hname.doneSilent fun _ => mem_refs
    | some ip =>
      have hname : Does near (E + 0) ∅ s A σ t A σ₁ E (ip ::ₘ 0) := hname
      dsimp only
      refine Ends.bind (hname.good.ilock mem_held) fun _ u _ hlock => ?_
      obtain ⟨σ₂, hlock, hat, _⟩ := hlock
      have hdoes := hname.trans (hlock.mono (fun _ => mem_held_of) (Set.Subset.refl _))
      obtain ⟨_, _, htype, _⟩ := hdoes.good.shows.fields hat
      generalize (σ₁ ip).inum = n at *
      refine Ends.bind (Q := fun type v => (A n).type = type ∧ u = v) ⟨htype.symm, rfl⟩ ?_
      rintro type _ _ ⟨rfl, rfl⟩
      by_cases hdir : (A n).type = T_DIR ∧ omode ≠ 0
      · rw [if_pos hdir]
        refine Ends.bind hdoes.good.unlockPutBack fun _ v _ hput => ?_
        obtain ⟨σ₃, hput⟩ := hput
        exact (hdoes.trans hput).doneSilent fun _ => mem_refs
      · rw [if_neg hdir]
        exact hdoes.takes (c := 8) (P := fun type => omode ≠ 0 → type ≠ T_DIR) hat (by decide)
          (fun hmode htype => hdir ⟨htype, hmode⟩) fun _ => mem_refs

/-- A file that was opened refers to a loaded inode, which is no directory if the file is
writable. -/
def Opens (near : Prop) (c : ℕ) (s : State) (A : Files) (σ : Slots) (t : State) (E : Multiset ℕ)
    (f : File) : Prop :=
  ∃ (D : Finset ℕ) (A' : Files) (σ' : Slots) (n : ℕ), D.card ≤ c ∧
    Does near E (bitmapAnd D) s A σ t A' σ' (f.ip ::ₘ E) 0 ∧ At σ' f.ip n ∧
    (f.writable = true → (A' n).type ≠ T_DIR)

theorem Good.openFile (h : Good near s A σ E 0) (hcwd : cwd ∈ E) {omode : ℕ} {room : Bool}
    (hroom : Roomy A (looked A (decide (omode &&& O_CREATE ≠ 0)) (σ cwd).inum path)) :
    Gives (Fs.openFile cwd path omode room s) fun r t =>
      match r with
      | none => Done near 8 E s A σ t E
      | some f => Opens near 8 s A σ t E f := by
  unfold Fs.openFile
  refine Ends.bind (h.openInode hcwd hroom) fun r t _ hopen => ?_
  cases r with
  | none => exact hopen
  | some ip =>
    dsimp only
    by_cases hfree : room = true
    · rw [if_pos hfree]
      obtain ⟨D, A', σ', n, hcard, hdoes, hat, hmem, hkind⟩ := hopen
      refine Ends.bind hdoes.good.iunlock fun _ u _ hunlock => ?_
      refine ⟨D, A', σ', n, hcard, hdoes.trans (hunlock.silent fun j hj => ?_), hat,
        fun hwrite => ?_⟩
      · exact mem_refs (Multiset.mem_cons_of_mem hj)
      · apply hkind
        rintro rfl
        rw [decide_eq_true_eq, Nat.zero_and, Nat.zero_and] at hwrite
        rcases hwrite with hwrite | hwrite
        · exact hwrite rfl
        · exact hwrite rfl
    · rw [if_neg hfree]
      exact Ends.bind (Takes.put hopen) fun _ u _ hput => hput

end Open

section Last

/-- exit and the last close of a file. -/
theorem Good.putInode (h : Good near s A σ (ip ::ₘ E) 0) :
    Gives (Fs.putInode ip s) fun _ t => Done near 1 E s A σ t E := by
  refine h.iput.mono fun _ t hput => ?_
  obtain ⟨A', σ', hput, _⟩ := hput
  exact hput.done (Finset.card_singleton _).le

/-- The new working directory takes the place of the old one. -/
theorem Good.chdir (h : Good near s A σ (cwd ::ₘ E) 0)
    (hroom : Roomy A (looked A false (σ cwd).inum path)) :
    Gives (Fs.chdir cwd path s) fun r t =>
      Done near 1 E s A σ t (r.getD cwd ::ₘ E) := by
  have hself : cwd ∈ cwd ::ₘ E := Multiset.mem_cons_self cwd E
  have hrest : ∀ j ∈ E, j ∈ cwd ::ₘ E + 0 := fun j hj => mem_refs (Multiset.mem_cons_of_mem hj)
  unfold Fs.chdir
  refine Ends.bind (h.namei hself hroom) fun r t _ hname => ?_
  obtain ⟨σ₁, hname, _⟩ := hname
  cases r with
  | none => exact hname.doneSilent hrest
  | some ip =>
    have hname : Does near (cwd ::ₘ E + 0) ∅ s A σ t A σ₁ (cwd ::ₘ E) (ip ::ₘ 0) := hname
    dsimp only
    refine Ends.bind (hname.good.ilock mem_held) fun _ u _ hlock => ?_
    obtain ⟨σ₂, hlock, hat, _⟩ := hlock
    have hdoes := hname.trans (hlock.mono (fun _ => mem_held_of) (Set.Subset.refl _))
    refine Ends.bind (Q := fun _ v => u = v) rfl ?_
    rintro type _ _ rfl
    by_cases hdir : type ≠ T_DIR
    · rw [if_pos hdir]
      refine Ends.bind hdoes.good.unlockPutBack fun _ v _ hput => ?_
      obtain ⟨σ₃, hput⟩ := hput
      exact (hdoes.trans hput).doneSilent hrest
    · rw [if_neg hdir]
      refine Ends.bind hdoes.good.iunlock fun _ v _ hunlock => ?_
      have hheld : Does near E ∅ s A σ v A σ₂ (cwd ::ₘ ip ::ₘ E) 0 := by
        rw [Multiset.cons_swap]
        exact ((hdoes.trans (hunlock.mono (fun _ => mem_held_of) (Set.Subset.refl _))).promote).mono
          hrest (Set.Subset.refl _)
      refine Ends.bind hheld.good.iput fun _ w _ hput => ?_
      obtain ⟨A', σ₃, hput, _⟩ := hput
      have hlast := hput.mono (Q := E) (fun _ => Multiset.mem_cons_of_mem) (Set.Subset.refl _)
      exact (hheld.quiet.trans hlast).done (Finset.card_singleton _).le

end Last

end NorthOS.Fs
