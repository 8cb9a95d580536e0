import NorthOS.PathElements
import NorthOS.References

/-!
Names: what dirlookup, dirlink and namex do to a file system with references. A path is
walked from inode to inode over the entries of directories, and the walk changes nothing
but the references of the call.
-/
namespace NorthOS.Fs

open LittleEndian Halting Comp

variable {near : Prop} {i j k n : ℕ} {s t u : State} {A A' : Files} {σ σ' : Slots}
  {E L K : Multiset ℕ} {X : Set ℕ} {name : Name}

section Entries

/-- dirlookup finds the first entry with the name and gets a reference to its inode. -/
theorem Good.dirlookup (h : Good near s A σ E L) (hat : At σ i n)
    (hsmall : (A n).type = T_DIR → (A n).size ≤ nearBytes) :
    Gives (Fs.dirlookup i name s) fun r t => (A n).type = T_DIR ∧
      match (A n).find name with
      | none => r = none ∧ Does near (E + L) ∅ s A σ t A σ E L
      | some k => ∃ j σ', r = some (j, direntSize * k) ∧
          Does near (E + L) ∅ s A σ t A σ' E (j ::ₘ L) ∧ (σ' j).inum = (A n).inumAt k := by
  refine (h.shows.dirlookup hat hsmall).mono fun r t hfound => ?_
  obtain ⟨hdir, hfound⟩ := hfound
  refine ⟨hdir, ?_⟩
  cases hfind : (A n).find name with
  | none =>
    rw [hfind] at hfound
    obtain ⟨rfl, rfl⟩ := hfound
    exact ⟨rfl, Does.start h⟩
  | some k =>
    rw [hfind] at hfound
    obtain ⟨j, rfl, hget⟩ := hfound
    obtain ⟨hk, hne⟩ := Node.find_some hfind
    obtain ⟨σ', hdoes, hinum⟩ :=
      (h.iget (Nat.pos_of_ne_zero hne) (h.dirs.inum n k hdir hk)).of_ok hget
    exact ⟨j, σ', rfl, hdoes, hinum⟩

/-- The entry that dirlink writes: the first free one, or one behind the last. -/
theorem Good.scanFree (h : Good near s A σ E L) (hat : At σ i n) (hdir : (A n).type = T_DIR)
    (hsmall : (A n).size ≤ nearBytes) :
    Gives (Fs.scanDirents i (· == 0) ((A n).size / direntSize + 1) 0 s) fun off t =>
      s = t ∧ off = direntSize * (A n).firstFree := by
  refine (h.shows.scanDirents hat hdir hsmall (k := 0) (Nat.le_of_eq (Nat.zero_add _).symm)).mono ?_
  rintro off t ⟨hsame, k, hoff, hstops⟩
  rw [Node.firstFree_of_stops hstops]
  exact ⟨hsame, hoff⟩

/-- dirlink leaves a directory that has the name, or writes a new entry into it. -/
theorem Good.linkEntry (h : Good near s A σ E L) (hat : At σ i n)
    (hsmall : (A n).type = T_DIR → (A n).size ≤ nearBytes)
    (hroom : (A n).type = T_DIR → (A n).find name = none →
      direntSize * (A n).firstFree + direntSize ≤ nearBytes)
    {inum : ℕ} (hinum : inum < maxInodes) :
    Gives (Fs.dirlink i name inum s) fun r t => (A n).type = T_DIR ∧
      match (A n).find name with
      | some _ => r = -1 ∧ ∃ σ', Does near (E + L) ∅ s A σ t A σ' E L
      | none => r = 0 ∧ ∃ D : Finset ℕ, D.card ≤ 2 ∧
          Does near (E + L) (bitmapAnd (insert (IBLOCK n mkfsSuperblock) D)) s A σ t
            (Function.update A n ((A n).written (direntSize * (A n).firstFree) direntSize
              (dirent inum name))) σ E L := by
  unfold Fs.dirlink
  refine Ends.bind (h.dirlookup hat hsmall) fun r t _ hfound => ?_
  obtain ⟨hdir, hfound⟩ := hfound
  cases hfind : (A n).find name with
  | some k =>
    rw [hfind] at hfound
    obtain ⟨j, σ₁, rfl, hdoes, _⟩ := hfound
    refine Ends.bind hdoes.good.putBack fun _ u _ hput => ?_
    obtain ⟨σ₂, hput⟩ := hput
    exact ⟨hdir, rfl, σ₂, hdoes.trans hput⟩
  | none =>
    rw [hfind] at hfound
    obtain ⟨rfl, hdoes⟩ := hfound
    have ht := hdoes.good
    obtain ⟨_, _, _, _, _, _, hcached⟩ := ht.shows.fields hat
    refine Ends.bind (Q := fun size u => (A n).size = size ∧ t = u) ⟨hcached.symm, rfl⟩ ?_
    rintro size _ _ ⟨rfl, rfl⟩
    refine Ends.bind (ht.scanFree hat hdir (hsmall hdir)) ?_
    rintro off _ _ ⟨rfl, rfl⟩
    have hput : get (dirent inum name) 0 2 < maxInodes := by
      have hmax : maxInodes = 208 := rfl
      rw [dirent, get_put_of_lt (show inum < 256 ^ 2 by omega)]
      exact hinum
    refine Ends.bind (ht.writeEntry hat hdir (hsmall hdir) Node.firstFree_end
      (hroom hdir hfind) hput) fun r u _ hwrite => ?_
    obtain ⟨rfl, D, hcard, hwrote⟩ := hwrite
    refine Ends.bind (Q := fun _ w => u = w) (gives_ensure fun _ => rfl) ?_
    rintro _ _ _ rfl
    exact ⟨hdir, rfl, D, hcard, hdoes.quiet.trans hwrote⟩

/-- A directory that does not reach up to the double-indirect blocks has room for an entry. -/
theorem Node.room_of_lt {x : Node} (h : x.size < nearBytes) :
    direntSize * x.firstFree + direntSize ≤ nearBytes := by
  have hk : direntSize * x.firstFree ≤ x.size := firstFree_end
  have hnear : nearBytes = direntSize * 66816 := rfl
  rw [hnear] at h ⊢
  rw [← Nat.mul_succ]
  exact Nat.mul_le_mul_left _ (Nat.lt_of_mul_lt_mul_left (Nat.lt_of_le_of_lt hk h))

theorem Good.dirlink (h : Good near s A σ E L) (hat : At σ i n)
    (hroom : (A n).type = T_DIR → (A n).size < nearBytes) {inum : ℕ} (hinum : inum < maxInodes) :
    Gives (Fs.dirlink i name inum s) fun _ t => ∃ (D : Finset ℕ) (A' : Files) (σ' : Slots),
      D.card ≤ 2 ∧ Does near (E + L) (bitmapAnd (insert (IBLOCK n mkfsSuperblock) D)) s A σ t
      A' σ' E L ∧ (A' = A ∨ ∃ k, direntSize * k ≤ (A n).size ∧ A' = Function.update A n
        ((A n).written (direntSize * k) direntSize (dirent inum name))) := by
  refine (h.linkEntry hat (fun hdir => Nat.le_of_lt (hroom hdir))
    (fun hdir _ => Node.room_of_lt (hroom hdir)) hinum).mono fun r t hdone => ?_
  obtain ⟨hdir, hdone⟩ := hdone
  cases hfind : (A n).find name with
  | some k =>
    rw [hfind] at hdone
    obtain ⟨_, σ', hdone⟩ := hdone
    exact ⟨∅, A, σ', Nat.zero_le _, hdone.quiet, Or.inl rfl⟩
  | none =>
    rw [hfind] at hdone
    obtain ⟨_, D, hcard, hdone⟩ := hdone
    exact ⟨D, _, σ, hcard, hdone, Or.inr ⟨_, Node.firstFree_end, rfl⟩⟩

end Entries

section Paths

/-- The walk of namex over the entries of directories: the inode that it comes to, and
the last element of the path where it stops in front of it. -/
def walk (A : Files) (nameiparent : Bool) : ℕ → ℕ → Name → Name → Option (ℕ × Name)
  | 0, _, _, _ => none
  | fuel + 1, n, path, name =>
    match skipelem path with
    | none => if nameiparent then none else some (n, name)
    | some (name, path) =>
      if (A n).type ≠ T_DIR then none
      else if nameiparent ∧ path = [] then some (n, name)
      else match (A n).find name with
        | none => none
        | some k => walk A nameiparent fuel ((A n).inumAt k) path name

/-- The directories that namex and its caller look into on the way. -/
def visited (A : Files) (nameiparent : Bool) : ℕ → ℕ → Name → List ℕ
  | 0, _, _ => []
  | fuel + 1, n, path =>
    match skipelem path with
    | none => []
    | some (name, path) =>
      if (A n).type ≠ T_DIR then []
      else if nameiparent ∧ path = [] then [n]
      else n :: match (A n).find name with
        | none => []
        | some k => visited A nameiparent fuel ((A n).inumAt k) path

/-- These directories have room for an entry in front of the double-indirect blocks. -/
def Roomy (A : Files) (l : List ℕ) : Prop := ∀ n ∈ l, (A n).size < nearBytes

/-- The inode from which namex walks. -/
def origin (n : ℕ) (path : Name) : ℕ := if path.head? = some slash then ROOTINO else n

/-- The inode that a path names for a process with working directory `n`. -/
def resolve (A : Files) (n : ℕ) (path : Name) : Option ℕ :=
  (walk A false (path.length + 1) (origin n path) path []).map Prod.fst

/-- What namex returns: the walk's end, with a reference of the call to its inode. -/
structure Walked (near : Prop) (s : State) (A : Files) (σ : Slots) (t : State) (σ' : Slots)
    (E L : Multiset ℕ) (r w : Option (ℕ × Name)) : Prop where
  does : Does near (E + L) ∅ s A σ t A σ' E (r.elim L fun q => q.1 ::ₘ L)
  walk : w = r.map fun q => ((σ' q.1).inum, q.2)

/-- The loop of namex with a reference of the call to the inode of slot `i`. -/
theorem Good.namexLoop {nameiparent : Bool} {fuel : ℕ} {path : Name}
    (h : Good near s A σ E (i ::ₘ L)) (hfuel : path.length < fuel)
    (hroom : Roomy A (visited A nameiparent fuel (σ i).inum path)) :
    Gives (Fs.namexLoop nameiparent fuel i path name s) fun r t => ∃ σ',
      Walked near s A σ t σ' E L r (walk A nameiparent fuel (σ i).inum path name) := by
  induction fuel generalizing i s σ path name with
  | zero => exact absurd hfuel (Nat.not_lt_zero _)
  | succ fuel ih =>
    unfold Fs.namexLoop walk
    unfold visited at hroom
    cases hskip : skipelem path with
    | none =>
      cases nameiparent with
      | true =>
        refine Ends.bind h.putBack fun _ t _ hput => ?_
        obtain ⟨σ', hput⟩ := hput
        exact ⟨σ', hput, rfl⟩
      | false => exact ⟨σ, Does.start h, rfl⟩
    | some q =>
      obtain ⟨elem, rest⟩ := q
      have hshort := skipelem_lt hskip
      rw [hskip] at hroom
      dsimp only at hroom ⊢
      refine Ends.bind (h.ilock mem_held) fun _ t _ hlock => ?_
      obtain ⟨σ₁, hlock, hat, _⟩ := hlock
      have hkept : (σ₁ i).inum = (σ i).inum := hat.inum
      obtain ⟨_, _, htype, _⟩ := hlock.good.shows.fields hat
      refine Ends.bind (Q := fun type u => (A (σ i).inum).type = type ∧ t = u) ⟨htype.symm, rfl⟩ ?_
      rintro type _ _ ⟨rfl, rfl⟩
      by_cases hdir : (A (σ i).inum).type ≠ T_DIR
      · rw [if_pos hdir, if_pos hdir]
        refine Ends.bind hlock.good.unlockPutBack fun _ u _ hput => ?_
        obtain ⟨σ₂, hput⟩ := hput
        exact ⟨σ₂, (hlock.mono (fun _ => mem_held_of) (Set.Subset.refl _)).trans hput, rfl⟩
      · rw [if_neg hdir, if_neg hdir]
        rw [if_neg hdir] at hroom
        by_cases hparent : nameiparent = true ∧ rest = []
        · rw [if_pos hparent, if_pos hparent]
          refine Ends.bind hlock.good.iunlock fun _ u _ hunlock => ?_
          refine ⟨σ₁, (hlock.trans hunlock).mono (fun _ => mem_held_of) (Set.Subset.refl _), ?_⟩
          rw [Option.map_some, hkept]
        · rw [if_neg hparent, if_neg hparent]
          rw [if_neg hparent] at hroom
          have hsmall := hroom _ (List.mem_cons_self ..)
          refine Ends.bind (hlock.good.dirlookup hat fun _ => Nat.le_of_lt hsmall)
            fun r u _ hfound => ?_
          obtain ⟨_, hfound⟩ := hfound
          cases hfind : (A (σ i).inum).find elem with
          | none =>
            rw [hfind] at hfound
            obtain ⟨rfl, hdoes⟩ := hfound
            refine Ends.bind hdoes.good.unlockPutBack fun _ w _ hput => ?_
            obtain ⟨σ₂, hput⟩ := hput
            exact ⟨σ₂, ((hlock.trans hdoes).mono (fun _ => mem_held_of) (Set.Subset.refl _)).trans
              hput, rfl⟩
          | some k =>
            rw [hfind] at hfound hroom
            obtain ⟨next, σ₂, rfl, hdoes, hnext⟩ := hfound
            have hgood := hdoes.good
            rw [Multiset.cons_swap] at hgood
            refine Ends.bind hgood.unlockPutBack fun _ w _ hput => ?_
            obtain ⟨σ₃, hput⟩ := hput
            have hto : Does near (E + L) ∅ s A σ w A σ₃ E (next ::ₘ L) :=
              ((hlock.trans hdoes).mono (fun _ => mem_held_of) (Set.Subset.refl _)).trans
                (hput.mono (fun _ => mem_held_of) (Set.Subset.refl _))
            have hnext' : (σ₃ next).inum = (A (σ i).inum).inumAt k :=
              (hput.keeps next mem_held).1.trans hnext
            have hrest : Roomy A (visited A nameiparent fuel (σ₃ next).inum rest) := by
              rw [hnext']
              exact fun m hm => hroom m (List.mem_cons_of_mem _ hm)
            refine (ih hto.good (by omega) hrest).mono fun r x hx => ?_
            obtain ⟨σ₄, hx⟩ := hx
            rw [hnext'] at hx
            exact ⟨σ₄, hto.trans hx.does, hx.walk⟩

/-- The directories that a process with working directory `n` looks into for a path. -/
def looked (A : Files) (nameiparent : Bool) (n : ℕ) (path : Name) : List ℕ :=
  visited A nameiparent (path.length + 1) (origin n path) path

/-- nameiparent leaves its caller to look into the last directory. -/
theorem walk_mem_visited {fuel : ℕ} {path name' : Name} {m : ℕ}
    (h : walk A true fuel n path name = some (m, name')) : m ∈ visited A true fuel n path := by
  induction fuel generalizing n path name with
  | zero => cases h
  | succ fuel ih =>
    unfold walk at h
    unfold visited
    cases hskip : skipelem path with
    | none =>
      rw [hskip] at h
      cases h
    | some q =>
      obtain ⟨elem, rest⟩ := q
      rw [hskip] at h
      dsimp only at h ⊢
      by_cases hdir : (A n).type ≠ T_DIR
      · rw [if_pos hdir] at h
        cases h
      · rw [if_neg hdir] at h ⊢
        by_cases hparent : true = true ∧ rest = []
        · rw [if_pos hparent] at h ⊢
          obtain ⟨rfl, _⟩ := Prod.mk.inj (Option.some.inj h)
          exact List.mem_singleton_self n
        · rw [if_neg hparent] at h ⊢
          cases hfind : (A n).find elem with
          | none =>
            rw [hfind] at h
            cases h
          | some k =>
            rw [hfind] at h
            exact List.mem_cons_of_mem _ (ih h)

theorem Good.namex {cwd : ℕ} {path : Name} {nameiparent : Bool} (h : Good near s A σ E L)
    (hcwd : cwd ∈ E) (hroom : Roomy A (looked A nameiparent (σ cwd).inum path)) :
    Gives (Fs.namex cwd path nameiparent s) fun r t => ∃ σ', Walked near s A σ t σ' E L r
      (walk A nameiparent (path.length + 1) (origin (σ cwd).inum path) path []) := by
  have hmem : cwd ∈ E + L := Multiset.mem_add.mpr (Or.inl hcwd)
  have hstart : Gives ((if path.head? = some slash then Fs.iget ROOTDEV ROOTINO
      else do
        Fs.idup cwd
        pure cwd : M ℕ) s) fun i t => ∃ σ', Does near (E + L) ∅ s A σ t A σ' E (i ::ₘ L) ∧
          (σ' i).inum = origin (σ cwd).inum path := by
    unfold origin
    split
    · exact h.iget (by decide) (by decide)
    · refine Ends.bind (h.idup hmem) fun _ t _ hdup => ?_
      exact hdup
  unfold Fs.namex
  refine Ends.bind hstart fun i t _ hget => ?_
  obtain ⟨σ₁, hget, hinum⟩ := hget
  rw [looked, ← hinum] at hroom
  refine (hget.good.namexLoop (Nat.lt_succ_self _) hroom).mono fun r u hwalk => ?_
  obtain ⟨σ₂, hwalk⟩ := hwalk
  rw [hinum] at hwalk
  exact ⟨σ₂, hget.trans hwalk.does, hwalk.walk⟩

/-- namei returns a reference of the call to the inode that the path names. -/
theorem Good.namei {cwd : ℕ} {path : Name} (h : Good near s A σ E L) (hcwd : cwd ∈ E)
    (hroom : Roomy A (looked A false (σ cwd).inum path)) :
    Gives (Fs.namei cwd path s) fun r t => ∃ σ',
      Does near (E + L) ∅ s A σ t A σ' E (r.elim L (· ::ₘ L)) ∧
        resolve A (σ cwd).inum path = r.map fun i => (σ' i).inum := by
  unfold Fs.namei
  refine Ends.bind (h.namex hcwd hroom) fun r t _ hwalk => ?_
  obtain ⟨σ', hwalk⟩ := hwalk
  refine ⟨σ', ?_, ?_⟩
  · cases r with
    | none => exact hwalk.does
    | some q => exact hwalk.does
  · unfold resolve
    rw [hwalk.walk, Option.map_map, Option.map_map]
    rfl

/-- Link counts do not matter for the way. -/
theorem visited_nlink {nameiparent : Bool} {fuel m x : ℕ} {path : Name} :
    visited (Function.update A n { A n with nlink := x }) nameiparent fuel m path =
      visited A nameiparent fuel m path := by
  have hsame : ∀ l, (Function.update A n { A n with nlink := x } l).type = (A l).type ∧
      (Function.update A n { A n with nlink := x } l).find = (A l).find ∧
      (Function.update A n { A n with nlink := x } l).inumAt = (A l).inumAt := by
    intro l
    by_cases hl : l = n
    · rw [hl, Function.update_self]
      exact ⟨rfl, rfl, rfl⟩
    · rw [Function.update_of_ne hl]
      exact ⟨rfl, rfl, rfl⟩
  induction fuel generalizing m path with
  | zero => rfl
  | succ fuel ih =>
    obtain ⟨htype, hfind, hinum⟩ := hsame m
    unfold visited
    rw [htype, hfind, hinum]
    simp only [ih]

theorem Roomy.setNlink {nameiparent : Bool} {m x : ℕ} {path : Name}
    (h : Roomy A (looked A nameiparent m path)) :
    Roomy (Function.update A n { A n with nlink := x })
      (looked (Function.update A n { A n with nlink := x }) nameiparent m path) := by
  rw [looked, visited_nlink]
  intro l hl
  have hsize := h l hl
  by_cases hln : l = n
  · rw [hln] at hsize ⊢
    rw [Function.update_self]
    exact hsize
  · rw [Function.update_of_ne hln]
    exact hsize

/-- The directory that a path's last element is in, and the element. -/
def parent (A : Files) (n : ℕ) (path : Name) : Option (ℕ × Name) :=
  walk A true (path.length + 1) (origin n path) path []

/-- The inode of an entry; what is not a directory has none. -/
def child (A : Files) (n : ℕ) (name : Name) : Option ℕ :=
  if (A n).type = T_DIR then ((A n).find name).map (A n).inumAt else none

/-- The walk goes from child to child, over the elements of the path. -/
theorem walk_eq_fold {fuel : ℕ} {path : Name} (hfuel : path.length < fuel) :
    (walk A false fuel n path name).map Prod.fst = (components path).foldlM (child A) n := by
  induction fuel generalizing n path name with
  | zero => exact absurd hfuel (Nat.not_lt_zero _)
  | succ fuel ih =>
    rw [components_skipelem]
    unfold walk
    cases hskip : skipelem path with
    | none => rfl
    | some q =>
      obtain ⟨elem, rest⟩ := q
      have hshort := skipelem_lt hskip
      dsimp only
      rw [List.foldlM_cons, child]
      by_cases hdir : (A n).type = T_DIR
      · rw [if_neg (not_not.mpr hdir), if_pos hdir, if_neg (by simp)]
        cases hfind : (A n).find elem with
        | none => rfl
        | some k => exact ih (by omega)
      · rw [if_pos hdir, if_neg hdir]
        rfl

theorem resolve_eq_fold (A : Files) (n : ℕ) (path : Name) :
    resolve A n path = (components path).foldlM (child A) (origin n path) :=
  walk_eq_fold (Nat.lt_succ_self _)

/-- nameiparent walks as far as the directory of the last element. -/
theorem walk_parent_eq_fold {fuel : ℕ} {path elem : Name} {elems : List Name}
    (hfuel : path.length < fuel) (h : components path = elems ++ [elem]) :
    walk A true fuel n path name = (elems.foldlM (child A) n).bind fun d =>
      if (A d).type = T_DIR then some (d, elem) else none := by
  induction fuel generalizing n path name elems with
  | zero => exact absurd hfuel (Nat.not_lt_zero _)
  | succ fuel ih =>
    rw [components_skipelem] at h
    unfold walk
    cases hskip : skipelem path with
    | none =>
      rw [hskip] at h
      simp at h
    | some q =>
      obtain ⟨first, rest⟩ := q
      have hshort := skipelem_lt hskip
      rw [hskip] at h
      dsimp only at h ⊢
      cases elems with
      | nil =>
        obtain ⟨rfl, hnil⟩ := List.cons.inj h
        have hstop : true = true ∧ rest = [] := ⟨rfl, (skipelem_rest hskip).mp hnil⟩
        rw [ite_not, if_pos hstop]
        rfl
      | cons second elems =>
        obtain ⟨rfl, hmore⟩ := List.cons.inj h
        have hgo : ¬ (true = true ∧ rest = []) := by
          rintro ⟨_, rfl⟩
          rw [components_nil] at hmore
          simp at hmore
        rw [if_neg hgo, List.foldlM_cons, child]
        by_cases hdir : (A n).type = T_DIR
        · rw [if_neg (not_not.mpr hdir), if_pos hdir]
          cases hfind : (A n).find first with
          | none => rfl
          | some k => exact ih (by omega) hmore
        · rw [if_pos hdir, if_neg hdir]
          rfl

theorem parent_eq_fold {path elem : Name} {elems : List Name}
    (h : components path = elems ++ [elem]) :
    parent A n path = (elems.foldlM (child A) (origin n path)).bind fun d =>
      if (A d).type = T_DIR then some (d, elem) else none :=
  walk_parent_eq_fold (Nat.lt_succ_self _) h

theorem Good.nameiparent {cwd : ℕ} {path : Name} (h : Good near s A σ E L) (hcwd : cwd ∈ E)
    (hroom : Roomy A (looked A true (σ cwd).inum path)) :
    Gives (Fs.nameiparent cwd path s) fun r t => ∃ σ',
      Walked near s A σ t σ' E L r (parent A (σ cwd).inum path) ∧
        ∀ q ∈ r, (A (σ' q.1).inum).size < nearBytes := by
  refine (h.namex hcwd hroom).mono fun r t hwalk => ?_
  obtain ⟨σ', hwalk⟩ := hwalk
  refine ⟨σ', hwalk, fun q hq => ?_⟩
  have hto := hwalk.walk
  rw [Option.mem_def.mp hq, Option.map_some] at hto
  exact hroom _ (walk_mem_visited hto)

end Paths

end NorthOS.Fs
