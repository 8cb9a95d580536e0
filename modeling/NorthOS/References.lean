import Mathlib.Data.Multiset.AddSub
import NorthOS.Entries
import NorthOS.Sysfile
import NorthOS.Logged

/-!
The references to the inode cache. Those in `E` belong to processes and open files, and
those in `L` to the running call. An inode that has no links left is kept by a reference
of `E`, so that a call gives its own references back without freeing anything.
-/
namespace NorthOS.Fs

open LittleEndian Halting Comp

/-- No block is logged, and the hint stays. -/
structure Quiet (s t : State) : Prop where
  log : t.log = s.log
  hint : t.last_alloc_hint = s.last_alloc_hint

/-- The entries of directories name inodes, and with `near` all files end in front of the
double-indirect blocks. -/
structure Dirs (near : Prop) (A : Files) : Prop where
  small : near → ∀ n, (A n).size ≤ nearBytes
  inum : ∀ n k, (A n).type = T_DIR → k < (A n).entries → (A n).inumAt k < maxInodes

/-- A file system between two steps of a call, with the references to its slots. -/
structure Good (near : Prop) (s : State) (A : Files) (σ : Slots) (E L : Multiset ℕ) : Prop where
  shows : Shows near s A σ
  hint : s.last_alloc_hint < nblocks
  inside : ∀ i ∈ E + L, i < NINODE
  refs : ∀ i, i < NINODE → (σ i).ref = (E + L).count i
  dirs : Dirs near A
  linked : ∀ n, (A n).type ≠ 0 → (A n).nlink = 0 → ∃ i ∈ E, At σ i n

/-- The slots of `K` keep their inodes, and loaded ones stay loaded. -/
def Keeps (K : Multiset ℕ) (σ σ' : Slots) : Prop :=
  ∀ i ∈ K, (σ' i).inum = (σ i).inum ∧ ((σ i).valid = true → (σ' i).valid = true)

/-- What a call did up to here: the state is good, the slots of `K` kept their inodes and
these their types, and only blocks of `X` were logged. -/
structure Does (near : Prop) (K : Multiset ℕ) (X : Set ℕ) (s : State) (A : Files) (σ : Slots)
    (t : State) (A' : Files) (σ' : Slots) (E L : Multiset ℕ) : Prop where
  good : Good near t A' σ' E L
  keeps : Keeps K σ σ'
  types : ∀ i ∈ K, (σ i).valid = true → (A' (σ i).inum).type = (A (σ i).inum).type
  logged : Logged X s t

variable {near : Prop} {i j k n : ℕ} {s t u : State} {A A' A'' : Files} {σ σ' σ'' : Slots}
  {E E' E'' L L' L'' K K' : Multiset ℕ} {X Y : Set ℕ}

theorem mem_refs (hj : j ∈ E) : j ∈ E + L := Multiset.mem_add.mpr (Or.inl hj)

theorem mem_held : i ∈ E + i ::ₘ L := by
  rw [Multiset.add_cons]
  exact Multiset.mem_cons_self i _

theorem mem_held_of (hj : j ∈ E + L) : j ∈ E + i ::ₘ L := by
  rw [Multiset.add_cons]
  exact Multiset.mem_cons_of_mem hj

section Quiet

theorem quiet_composes : Composes Quiet where
  refl := fun _ => ⟨rfl, rfl⟩
  trans := fun h h' => ⟨h'.log.trans h.log, h'.hint.trans h.hint⟩

theorem Quiet.logged (h : Quiet s t) : Logged X s t := by
  constructor
  · rw [h.log]
    exact id
  · rw [h.log]
    exact fun _ hb => Or.inl hb

theorem setSlot_quiet {f : Inode → Inode} : Within (fun _ => False) Quiet (setSlot i f) :=
  within_update fun _ => ⟨rfl, rfl⟩

theorem ensure_quiet {p : State → Bool} {e : Halt} :
    Within (fun _ => False) Quiet (ensure p e : M Unit) := within_ensure quiet_composes id

theorem bread_quiet {dev b : ℕ} : Within (fun _ => False) Quiet (bread dev b) := by
  unfold bread
  refine ensure_quiet.bind quiet_composes fun _ => ensure_quiet.bind quiet_composes fun _ => ?_
  refine Within.bind quiet_composes (within_update fun _ => ⟨rfl, rfl⟩) fun _ => ?_
  exact within_look quiet_composes

theorem brelse_quiet {dev b : ℕ} : Within (fun _ => False) Quiet (brelse dev b) :=
  ensure_quiet.bind quiet_composes fun _ => within_update fun _ => ⟨rfl, rfl⟩

theorem iunlock_quiet : Within (fun _ => False) Quiet (iunlock i) :=
  ensure_quiet.bind quiet_composes fun _ => setSlot_quiet

theorem ilock_quiet : Within (fun _ => False) Quiet (ilock i) := by
  unfold ilock
  refine ensure_quiet.bind quiet_composes fun _ => ensure_quiet.bind quiet_composes fun _ => ?_
  refine setSlot_quiet.bind quiet_composes fun _ => ?_
  refine (within_look quiet_composes).bind quiet_composes fun ip => ?_
  refine Within.ite (within_pure quiet_composes) ?_
  refine (within_look quiet_composes).bind quiet_composes fun sb => ?_
  refine bread_quiet.bind quiet_composes fun data => setSlot_quiet.bind quiet_composes fun _ => ?_
  refine brelse_quiet.bind quiet_composes fun _ => setSlot_quiet.bind quiet_composes fun _ => ?_
  exact ensure_quiet

theorem iget_quiet {dev : ℕ} : Within (fun _ => False) Quiet (iget dev n) := by
  intro s
  refine gives_iff.mpr fun i t hrun => ?_
  obtain ⟨_, ⟨_, rfl⟩ | ⟨_, _, rfl⟩⟩ := iget_cases hrun
  · exact ⟨rfl, rfl⟩
  · exact ⟨rfl, rfl⟩

end Quiet

section Does

theorem Keeps.refl (K : Multiset ℕ) (σ : Slots) : Keeps K σ σ := fun _ _ => ⟨rfl, id⟩

theorem Keeps.trans (h : Keeps K σ σ') (h' : Keeps K σ' σ'') : Keeps K σ σ'' := fun i hi =>
  ⟨(h' i hi).1.trans (h i hi).1, fun hv => (h' i hi).2 ((h i hi).2 hv)⟩

theorem Keeps.mono (h : Keeps K σ σ') (hK : ∀ i ∈ K', i ∈ K) : Keeps K' σ σ' :=
  fun i hi => h i (hK i hi)

theorem Does.trans (h : Does near K X s A σ t A' σ' E L)
    (h' : Does near K X t A' σ' u A'' σ'' E' L') :
    Does near K X s A σ u A'' σ'' E' L' where
  good := h'.good
  keeps := h.keeps.trans h'.keeps
  types := by
    intro i hi hvalid
    obtain ⟨hinum, hvalid'⟩ := h.keeps i hi
    have hlast := h'.types i hi (hvalid' hvalid)
    rw [hinum] at hlast
    rw [hlast, h.types i hi hvalid]
  logged := h.logged.trans h'.logged

theorem Does.mono {Q : Multiset ℕ} (h : Does near K X s A σ t A' σ' E L) (hK : ∀ i ∈ Q, i ∈ K)
    (hX : X ⊆ Y) : Does near Q Y s A σ t A' σ' E L :=
  ⟨h.good, h.keeps.mono hK, fun i hi => h.types i (hK i hi), h.logged.mono hX⟩

/-- What was done without logging, in a call that logs blocks. -/
theorem Does.quiet (h : Does near K ∅ s A σ t A' σ' E L) : Does near K X s A σ t A' σ' E L :=
  h.mono (fun _ => id) (Set.empty_subset X)

theorem Does.start (h : Good near s A σ E L) : Does near K X s A σ s A σ E L :=
  ⟨h, Keeps.refl K σ, fun _ _ _ => rfl, Logged.refl X s⟩

end Does

section Good

theorem Good.lt (h : Good near s A σ E L) (hi : i ∈ E + L) : i < NINODE := h.inside i hi

theorem Good.pos (h : Good near s A σ E L) (hi : i ∈ E + L) : 0 < (σ i).ref := by
  rw [h.refs i (h.lt hi)]
  exact Multiset.count_pos.mpr hi

/-- A slot that keeps a loaded inode and a reference. -/
theorem At.keep (hat : At σ i n) (h : Good near t A' σ' E L) (hi : i ∈ E + L) (hK : Keeps K σ σ')
    (hmem : i ∈ K) : At σ' i n :=
  ⟨hat.slot, h.pos hi, (hK i hmem).2 hat.valid, (hK i hmem).1.trans hat.inum⟩

/-- The references of a call may as well be those of a process. -/
theorem Good.promote (h : Good near s A σ E (i ::ₘ L)) : Good near s A σ (i ::ₘ E) L := by
  have hsum : i ::ₘ E + L = E + i ::ₘ L := by rw [Multiset.cons_add, Multiset.add_cons]
  refine ⟨h.shows, h.hint, ?_, ?_, h.dirs, ?_⟩
  · rw [hsum]
    exact h.inside
  · rw [hsum]
    exact h.refs
  · intro n htype hnlink
    obtain ⟨j, hj, hat⟩ := h.linked n htype hnlink
    exact ⟨j, Multiset.mem_cons_of_mem hj, hat⟩

theorem Good.ready (h : Good near s A σ E L) : Ready i (σ i).inum s := by
  obtain ⟨v, hv, _, rfl⟩ := h.shows
  exact ⟨hv.sb, h.hint, rfl⟩

/-- Other references of the running call, and nothing else. -/
theorem Good.moved {R : Multiset ℕ} (h : Good near s A σ E L) (hshows : Shows near t A σ')
    (hquiet : Quiet s t) (hkeeps : Keeps (E + L) σ σ') (hinside : ∀ i ∈ R, i < NINODE)
    (hrefs : ∀ i, i < NINODE → (σ' i).ref = (E + R).count i) :
    Does near (E + L) ∅ s A σ t A σ' E R := by
  refine ⟨⟨hshows, ?_, ?_, hrefs, h.dirs, ?_⟩, hkeeps, fun _ _ _ => rfl, hquiet.logged⟩
  · rw [hquiet.hint]
    exact h.hint
  · intro i hi
    rcases Multiset.mem_add.mp hi with hi | hi
    · exact h.lt (Multiset.mem_add.mpr (Or.inl hi))
    · exact hinside i hi
  · intro n htype hnlink
    obtain ⟨j, hj, hat⟩ := h.linked n htype hnlink
    obtain ⟨hinum, hvalid⟩ := hkeeps j (Multiset.mem_add.mpr (Or.inl hj))
    refine ⟨j, hj, hat.slot, ?_, hvalid hat.valid, hinum.trans hat.inum⟩
    rw [hrefs j hat.slot]
    exact Multiset.count_pos.mpr (Multiset.mem_add.mpr (Or.inl hj))

theorem keeps_update {x : Slot}
    (h : i ∈ K → x.inum = (σ i).inum ∧ ((σ i).valid = true → x.valid = true)) :
    Keeps K σ (Function.update σ i x) := by
  intro j hj
  by_cases hji : j = i
  · rw [hji, Function.update_self]
    exact h (hji ▸ hj)
  · rw [Function.update_of_ne hji]
    exact ⟨rfl, id⟩

/-- The counts when slot `i` gets one more reference. -/
theorem refs_cons (h : ∀ j, j < NINODE → (σ j).ref = K.count j) {x : Slot}
    (hx : x.ref = (σ i).ref + 1) :
    ∀ j, j < NINODE → (Function.update σ i x j).ref = (i ::ₘ K).count j := by
  intro j hj
  by_cases hji : j = i
  · rw [hji, Function.update_self, Multiset.count_cons_self, hx, h i (hji ▸ hj)]
  · rw [Function.update_of_ne hji, Multiset.count_cons_of_ne hji, h j hj]

theorem refs_erase (h : ∀ j, j < NINODE → (σ j).ref = (i ::ₘ K).count j) {x : Slot}
    (hx : x.ref = (σ i).ref - 1) :
    ∀ j, j < NINODE → (Function.update σ i x j).ref = K.count j := by
  intro j hj
  by_cases hji : j = i
  · rw [hji, Function.update_self, hx, h i (hji ▸ hj), Multiset.count_cons_self, Nat.add_sub_cancel]
  · rw [Function.update_of_ne hji, h j hj, Multiset.count_cons_of_ne hji]

theorem refs_same (h : ∀ j, j < NINODE → (σ j).ref = K.count j) {x : Slot}
    (hx : x.ref = (σ i).ref) :
    ∀ j, j < NINODE → (Function.update σ i x j).ref = K.count j := by
  intro j hj
  by_cases hji : j = i
  · rw [hji, Function.update_self, hx, h i (hji ▸ hj)]
  · rw [Function.update_of_ne hji, h j hj]

/-- A reference of the call for the inode `n`. -/
theorem Good.iget (h : Good near s A σ E L) (hpos : 0 < n) (hlt : n < maxInodes) :
    Gives (Fs.iget ROOTDEV n s) fun i t => ∃ σ',
      Does near (E + L) ∅ s A σ t A σ' E (i ::ₘ L) ∧ (σ' i).inum = n := by
  refine ((h.shows.iget hpos hlt).gives.and (iget_quiet s)).mono ?_
  rintro i t ⟨⟨σ', hshows, hi, hcases⟩, hquiet⟩
  have hinside : ∀ j ∈ i ::ₘ L, j < NINODE := by
    intro j hj
    rcases Multiset.mem_cons.mp hj with rfl | hj
    · exact hi
    · exact h.lt (Multiset.mem_add.mpr (Or.inr hj))
  rcases hcases with ⟨_, hinum, rfl⟩ | ⟨_, href, rfl⟩
  · refine ⟨_, h.moved hshows hquiet (keeps_update fun _ => ⟨rfl, id⟩) hinside ?_, ?_⟩
    · rw [Multiset.add_cons]
      exact refs_cons h.refs rfl
    · rw [Function.update_self]
      exact hinum
  · have hnew : i ∉ E + L := by
      intro hmem
      have hpos := h.pos hmem
      omega
    refine ⟨_, h.moved hshows hquiet (keeps_update fun hmem => absurd hmem hnew) hinside ?_, ?_⟩
    · rw [Multiset.add_cons]
      exact refs_cons h.refs (by rw [href])
    · rw [Function.update_self]

theorem Good.idup (h : Good near s A σ E L) (hi : i ∈ E + L) :
    Gives (Fs.idup i s) fun _ t => ∃ σ',
      Does near (E + L) ∅ s A σ t A σ' E (i ::ₘ L) ∧ (σ' i).inum = (σ i).inum := by
  refine ((h.shows.idup (h.pos hi)).gives.and (setSlot_quiet s)).mono ?_
  rintro _ t ⟨hshows, hquiet⟩
  refine ⟨_, h.moved hshows hquiet (keeps_update fun _ => ⟨rfl, id⟩) ?_ ?_, ?_⟩
  · intro j hj
    rcases Multiset.mem_cons.mp hj with rfl | hj
    · exact h.lt hi
    · exact h.lt (Multiset.mem_add.mpr (Or.inr hj))
  · rw [Multiset.add_cons]
    exact refs_cons h.refs rfl
  · rw [Function.update_self]

theorem Good.ilock (h : Good near s A σ E L) (hi : i ∈ E + L) :
    Gives (Fs.ilock i s) fun _ t => ∃ σ', Does near (E + L) ∅ s A σ t A σ' E L ∧
      At σ' i (σ i).inum ∧ (A (σ i).inum).type ≠ 0 := by
  refine ((h.shows.locked (h.lt hi)).and (ilock_quiet s)).mono ?_
  rintro _ t ⟨⟨href, htype, hshows⟩, hquiet⟩
  refine ⟨_, h.moved hshows hquiet (keeps_update fun _ => ⟨rfl, fun _ => rfl⟩) ?_ ?_, ?_, htype⟩
  · exact fun j hj => h.lt (Multiset.mem_add.mpr (Or.inr hj))
  · exact refs_same h.refs rfl
  · refine ⟨h.lt hi, ?_, ?_, ?_⟩ <;> rw [Function.update_self]
    exact href

theorem Good.iunlock (h : Good near s A σ E L) :
    Gives (Fs.iunlock i s) fun _ t => Does near (E + L) ∅ s A σ t A σ E L := by
  refine (h.shows.iunlock.gives.and (iunlock_quiet s)).mono ?_
  rintro _ t ⟨hshows, hquiet⟩
  refine h.moved hshows hquiet (Keeps.refl _ σ) ?_ h.refs
  exact fun j hj => h.lt (Multiset.mem_add.mpr (Or.inr hj))

theorem type_update {x : Node} {m : ℕ} (hx : x.type = (A n).type) :
    (Function.update A n x m).type = (A m).type := by
  by_cases hm : m = n
  · rw [hm, Function.update_self, hx]
  · rw [Function.update_of_ne hm]

theorem Dirs.update (h : Dirs near A) {x : Node}
    (hsmall : near → x.size ≤ nearBytes)
    (hinum : ∀ k, x.type = T_DIR → k < x.entries → x.inumAt k < maxInodes) :
    Dirs near (Function.update A n x) := by
  constructor
  · intro hnear m
    by_cases hmn : m = n
    · rw [hmn, Function.update_self]
      exact hsmall hnear
    · rw [Function.update_of_ne hmn]
      exact h.small hnear m
  · intro m k hm hk
    by_cases hmn : m = n
    · rw [hmn, Function.update_self] at hm hk ⊢
      exact hinum k hm hk
    · rw [Function.update_of_ne hmn] at hm hk ⊢
      exact h.inum m k hm hk

/-- The branch of iput that frees nothing. -/
theorem iput_quiet (h : ¬ ((s.icache i).valid = true ∧ (s.icache i).nlink = 0 ∧
      (s.icache i).ref = 1)) :
    Gives (Fs.iput i s) fun _ t => Quiet s t := by
  have hlock : ∀ b, Within (fun _ => False) Quiet (setSlot i fun ip => { ip with locked := b }) :=
    fun _ => setSlot_quiet
  unfold Fs.iput
  refine Ends.bind (Q := fun _ u => s = u) (gives_ensure fun _ => rfl) ?_
  rintro _ _ _ rfl
  refine Ends.bind (Q := fun _ u => s.setSlot i (fun ip => { ip with locked := true }) = u) rfl ?_
  rintro _ _ _ rfl
  refine Ends.bind (Q := fun ip u => ip = { s.icache i with locked := true } ∧
    s.setSlot i (fun ip => { ip with locked := true }) = u) ⟨setSlot_self .., rfl⟩ ?_
  rintro _ _ _ ⟨rfl, rfl⟩
  have hrest : Within (fun _ => False) Quiet (do
      setSlot i fun ip => { ip with locked := false }
      setSlot i fun ip => { ip with ref := ip.ref - 1 } : M Unit) :=
    setSlot_quiet.bind quiet_composes fun _ => setSlot_quiet
  rw [if_neg h]
  refine (hrest _).mono fun _ t ht => ?_
  exact ⟨ht.log, ht.hint⟩

/-- The slot's references as they stand in the cache. -/
theorem Shows.free_iff (h : Shows near s A σ) (hi : i < NINODE) :
    ((s.icache i).valid = true ∧ (s.icache i).nlink = 0 ∧ (s.icache i).ref = 1) ↔
      (σ i).valid = true ∧ (A (σ i).inum).nlink = 0 ∧ (σ i).ref = 1 := by
  have hslot : s.slots i = σ i := by
    obtain ⟨v, _, _, hσ⟩ := h
    rw [hσ]
  have hvalid : (s.icache i).valid = (σ i).valid := by rw [← hslot]; rfl
  have href : (s.icache i).ref = (σ i).ref := by rw [← hslot]; rfl
  rw [hvalid, href]
  constructor
  · rintro ⟨hv, hnlink, hr⟩
    obtain ⟨_, _, _, _, _, hfield, _⟩ := h.fields ⟨hi, by omega, hv, rfl⟩
    exact ⟨hv, hfield.symm.trans hnlink, hr⟩
  · rintro ⟨hv, hnlink, hr⟩
    obtain ⟨_, _, _, _, _, hfield, _⟩ := h.fields ⟨hi, by omega, hv, rfl⟩
    exact ⟨hv, hfield.trans hnlink, hr⟩

/-- A call that gives its own reference back frees nothing. -/
theorem Good.putBack (h : Good near s A σ E (i ::ₘ L)) :
    Gives (Fs.iput i s) fun _ t => ∃ σ', Does near (E + L) ∅ s A σ t A σ' E L := by
  have hmem : i ∈ E + i ::ₘ L := mem_held
  have hi := h.lt hmem
  have hcount : (σ i).ref = (E + L).count i + 1 := by
    rw [h.refs i hi, Multiset.add_cons, Multiset.count_cons_self]
  have hkept : ¬ ((σ i).valid = true ∧ (A (σ i).inum).nlink = 0 ∧ (σ i).ref = 1) := by
    rintro ⟨hvalid, hnlink, hone⟩
    have htype := h.shows.typed hi (h.pos hmem) hvalid
    obtain ⟨j, hj, hat⟩ := h.linked _ htype hnlink
    have hji := h.shows.unique hat.slot hi hat.ref (h.pos hmem) hat.inum
    have hin : i ∈ E + L := Multiset.mem_add.mpr (Or.inl (hji ▸ hj))
    have hpos := Multiset.count_pos.mpr hin
    omega
  have hquiet := iput_quiet (fun hc => hkept ((h.shows.free_iff hi).mp hc))
  refine ((h.shows.iput hi (h.pos hmem)).gives.and hquiet).mono ?_
  rintro _ t ⟨hshows, hq⟩
  rw [putFiles, if_neg hkept, putSlots_kept hkept] at hshows
  have hdoes := h.moved (R := L) hshows hq (keeps_update fun _ => ⟨rfl, id⟩) ?_ ?_
  · exact ⟨_, hdoes.mono (fun _ => mem_held_of) (Set.Subset.refl _)⟩
  · intro j hj
    exact h.lt (Multiset.mem_add.mpr (Or.inr (Multiset.mem_cons_of_mem hj)))
  · refine refs_erase ?_ rfl
    rw [← Multiset.add_cons]
    exact h.refs

/-- A process gives a reference back; the last one of an inode without links frees it. -/
theorem Good.iput (h : Good near s A σ (i ::ₘ E) 0) :
    Gives (Fs.iput i s) fun _ t => ∃ A' σ',
      Does near E (bitmapAnd {IBLOCK (σ i).inum mkfsSuperblock}) s A σ t A' σ' E 0 ∧
        (A' = A ∨ A' = Function.update A (σ i).inum (A (σ i).inum).freed) := by
  have hmem : i ∈ i ::ₘ E + 0 := Multiset.mem_add.mpr (Or.inl (Multiset.mem_cons_self i E))
  have hi := h.lt hmem
  have hlogs : Logs i (σ i).inum (bitmapAnd {IBLOCK (σ i).inum mkfsSuperblock}) (Fs.iput i) :=
    iput_logs (fun _ hb => Or.inl hb) (bitmapAnd_self (Finset.mem_singleton_self _))
  have hrefs : ∀ j, j < NINODE → (σ j).ref = (i ::ₘ E).count j := by
    intro j hj
    rw [h.refs j hj, Multiset.add_zero]
  have hinside : ∀ j ∈ E + 0, j < NINODE := by
    intro j hj
    rw [Multiset.add_zero] at hj
    exact h.lt (Multiset.mem_add.mpr (Or.inl (Multiset.mem_cons_of_mem hj)))
  refine ((h.shows.iput hi (h.pos hmem)).gives.and (hlogs s)).mono ?_
  rintro _ t ⟨hshows, hlog⟩
  obtain ⟨hready, hlogged⟩ := hlog h.ready
  by_cases hfree : (σ i).valid = true ∧ (A (σ i).inum).nlink = 0 ∧ (σ i).ref = 1
  · -- the last reference
    have hnot : i ∉ E := by
      intro hin
      have hcount := hrefs i hi
      have hpos := Multiset.count_pos.mpr hin
      rw [Multiset.count_cons_self, hfree.2.2] at hcount
      omega
    have hkeeps : Keeps E σ (putSlots A σ i) := keeps_update fun hin => absurd hin hnot
    have hcounts : ∀ j, j < NINODE → (putSlots A σ i j).ref = (E + 0).count j := by
      rw [Multiset.add_zero]
      exact refs_erase hrefs rfl
    rw [putFiles, if_pos hfree] at hshows
    refine ⟨_, _, ⟨⟨hshows, hready.hint, hinside, hcounts, ?_, ?_⟩, hkeeps, ?_, hlogged⟩,
      Or.inr rfl⟩
    · have hdir : (A (σ i).inum).freed.type ≠ T_DIR := by
        show (0 : ℕ) ≠ T_DIR
        decide
      exact h.dirs.update (fun _ => Nat.zero_le _) fun k he => absurd he hdir
    · intro m htype hnlink
      have hm : m ≠ (σ i).inum := by
        rintro rfl
        rw [Function.update_self] at htype
        exact htype rfl
      rw [Function.update_of_ne hm] at htype hnlink
      obtain ⟨j, hj, hat⟩ := h.linked m htype hnlink
      have hji : j ≠ i := by
        rintro rfl
        exact hm hat.inum.symm
      refine ⟨j, (Multiset.mem_cons.mp hj).resolve_left hji, ?_⟩
      refine ⟨hat.slot, ?_, ?_, ?_⟩ <;> rw [putSlots, Function.update_of_ne hji]
      · exact hat.ref
      · exact hat.valid
      · exact hat.inum
    · intro j hj _
      have hji : j ≠ i := by
        rintro rfl
        exact hnot hj
      rw [Function.update_of_ne]
      intro he
      have hj' : j ∈ i ::ₘ E + 0 := Multiset.mem_add.mpr (Or.inl (Multiset.mem_cons_of_mem hj))
      exact hji (h.shows.unique (h.lt hj') hi (h.pos hj') (h.pos hmem) he)
  · have hkeeps : Keeps (i ::ₘ E) σ (Function.update σ i { σ i with ref := (σ i).ref - 1 }) :=
      keeps_update fun _ => ⟨rfl, id⟩
    have hcounts : ∀ j, j < NINODE →
        (Function.update σ i { σ i with ref := (σ i).ref - 1 } j).ref = (E + 0).count j := by
      rw [Multiset.add_zero]
      exact refs_erase hrefs rfl
    rw [putFiles, if_neg hfree, putSlots_kept hfree] at hshows
    refine ⟨_, _, ⟨⟨hshows, hready.hint, hinside, hcounts, h.dirs, ?_⟩,
      hkeeps.mono fun j hj => Multiset.mem_cons_of_mem hj, fun _ _ _ => rfl, hlogged⟩, Or.inl rfl⟩
    intro m htype hnlink
    obtain ⟨j, hj, hat⟩ := h.linked m htype hnlink
    have hjE : j ∈ E := by
      rcases Multiset.mem_cons.mp hj with rfl | hj
      · by_contra hnot
        apply hfree
        refine ⟨hat.valid, by rw [hat.inum]; exact hnlink, ?_⟩
        rw [hrefs j hat.slot, Multiset.count_cons_self, Multiset.count_eq_zero_of_notMem hnot]
      · exact hj
    obtain ⟨hinum, hvalid⟩ := hkeeps j hj
    refine ⟨j, hjE, hat.slot, ?_, hvalid hat.valid, hinum.trans hat.inum⟩
    rw [hcounts j hat.slot, Multiset.add_zero]
    exact Multiset.count_pos.mpr hjE

theorem Good.unlockPutBack (h : Good near s A σ E (i ::ₘ L)) :
    Gives (Fs.iunlockput i s) fun _ t => ∃ σ', Does near (E + L) ∅ s A σ t A σ' E L := by
  refine Ends.bind h.iunlock fun _ t _ hunlock => ?_
  refine hunlock.good.putBack.mono fun _ u hput => ?_
  obtain ⟨σ', hput⟩ := hput
  exact ⟨σ', (hunlock.mono (fun _ => mem_held_of) (Set.Subset.refl _)).trans hput⟩

theorem Good.unlockPut (h : Good near s A σ (i ::ₘ E) 0) :
    Gives (Fs.iunlockput i s) fun _ t => ∃ A' σ',
      Does near E (bitmapAnd {IBLOCK (σ i).inum mkfsSuperblock}) s A σ t A' σ' E 0 ∧
        (A' = A ∨ A' = Function.update A (σ i).inum (A (σ i).inum).freed) := by
  refine Ends.bind h.iunlock fun _ t _ hunlock => ?_
  refine hunlock.good.iput.mono fun _ u hput => ?_
  obtain ⟨A', σ', hput, hA⟩ := hput
  refine ⟨A', σ', (hunlock.quiet.mono (fun j hj => ?_) (Set.Subset.refl _)).trans hput, hA⟩
  exact Multiset.mem_add.mpr (Or.inl (Multiset.mem_cons_of_mem hj))

theorem Shows.ranges (h : Shows near s A σ) (n : ℕ) :
    (A n).major < 2 ^ 16 ∧ (A n).minor < 2 ^ 16 ∧ (A n).nlink < 2 ^ 16 := by
  obtain ⟨v, hv, rfl, _⟩ := h
  exact ⟨(hv.inRange n).major, (hv.inRange n).minor, (hv.inRange n).nlink⟩

/-- Assignments to the device numbers and the link count of an inode that a process
refers to, followed by iupdate. -/
theorem Good.amend (h : Good near s A σ E L) (hi : i ∈ E) (hat : At σ i n) {f : Inode → Inode}
    {major minor nlink : ℕ} (hinum : ∀ ip, (f ip).inum = ip.inum)
    (hf : f (s.icache i) = { s.icache i with major := major, minor := minor, nlink := nlink })
    (hmajor : major < 2 ^ 16) (hminor : minor < 2 ^ 16) (hnlink : nlink < 2 ^ 16) :
    Gives ((do
      setSlot i f
      iupdate i : M Unit) s) fun _ t =>
        Does near (E + L) (bitmapAnd {IBLOCK n mkfsSuperblock}) s A σ t
          (Function.update A n { A n with major := major, minor := minor, nlink := nlink })
          σ E L := by
  have hlogs : Logs i n (bitmapAnd {IBLOCK n mkfsSuperblock}) (do
      setSlot i f
      iupdate i : M Unit) :=
    Logs.bind (setSlot_logs hinum) fun _ =>
      iupdate_logs (bitmapAnd_self (Finset.mem_singleton_self _))
  refine ((h.shows.amend hat hf hmajor hminor hnlink).gives.and (hlogs s)).mono ?_
  rintro _ t ⟨hshows, hlog⟩
  have hready : Ready i n s := by
    rw [← hat.inum]
    exact h.ready
  obtain ⟨hready', hlogged⟩ := hlog hready
  refine ⟨⟨hshows, hready'.hint, h.inside, h.refs, ?_, ?_⟩, Keeps.refl _ σ, ?_, hlogged⟩
  · exact h.dirs.update (fun hnear => h.dirs.small hnear n) fun k => h.dirs.inum n k
  · intro m htype hzero
    by_cases hm : m = n
    · exact ⟨i, hi, hm ▸ hat⟩
    · rw [Function.update_of_ne hm] at htype hzero
      exact h.linked m htype hzero
  · exact fun j _ _ => type_update rfl

/-- The same for the link count alone. -/
theorem Good.setNlink (h : Good near s A σ E L) (hi : i ∈ E) (hat : At σ i n) {g : ℕ → ℕ}
    (hg : ∀ x, g x < 2 ^ 16) :
    Gives ((do
      setSlot i fun ip => { ip with nlink := g ip.nlink }
      iupdate i : M Unit) s) fun _ t =>
        Does near (E + L) (bitmapAnd {IBLOCK n mkfsSuperblock}) s A σ t
          (Function.update A n { A n with nlink := g (A n).nlink }) σ E L := by
  obtain ⟨_, _, _, hmajor, hminor, hnlink, _⟩ := h.shows.fields hat
  obtain ⟨hmajor', hminor', _⟩ := h.shows.ranges n
  have hf : { s.icache i with nlink := g (s.icache i).nlink } =
      { s.icache i with major := (A n).major, minor := (A n).minor, nlink := g (A n).nlink } := by
    rw [← hmajor, ← hminor, ← hnlink]
  exact h.amend hi hat (f := fun ip => { ip with nlink := g ip.nlink }) (fun _ => rfl) hf hmajor'
    hminor' (hg _)

theorem addShort_lt (x d : ℕ) : addShort x d < 2 ^ 16 := Nat.mod_lt _ (Nat.two_pow_pos 16)

/-- Writing an entry of a directory. -/
theorem Good.writeEntry (h : Good near s A σ E L) (hat : At σ i n) (hdir : (A n).type = T_DIR)
    (hsmall : (A n).size ≤ nearBytes) {k : ℕ} {de : Bytes} (hk : direntSize * k ≤ (A n).size)
    (hend : direntSize * k + direntSize ≤ nearBytes) (hinum : get de 0 2 < maxInodes) :
    Gives (writei i de (direntSize * k) direntSize s) fun r t => r = direntSize ∧
      ∃ D : Finset ℕ, D.card ≤ 2 ∧
        Does near (E + L) (bitmapAnd (insert (IBLOCK n mkfsSuperblock) D)) s A σ t
          (Function.update A n ((A n).written (direntSize * k) direntSize de)) σ E L := by
  have hdev : (A n).type ≠ T_DEV := by
    rw [hdir]
    decide
  have hlogs : Gives (writei i de (direntSize * k) direntSize s) fun _ t =>
      ∃ D : Finset ℕ, D.card ≤ 2 * 1 ∧ LogsAt i n
        (bitmapAnd (insert (IBLOCK n mkfsSuperblock) D)) s t := by
    refine writei_logs ?_ fun o u _ ho => bmap_near_logs (lt_smallBlocks ?_)
    · unfold BSIZE direntSize
      omega
    · rw [← nearBytes_eq]
      omega
  refine ((h.shows.writei hat hdev hk hend hsmall).gives.and hlogs).mono ?_
  rintro r t ⟨⟨hr, hshows⟩, D, hcard, hlog⟩
  have hready : Ready i n s := by
    rw [← hat.inum]
    exact h.ready
  obtain ⟨hready', hlogged⟩ := hlog hready
  refine ⟨hr, D, hcard, ⟨hshows, hready'.hint, h.inside, h.refs, ?_, ?_⟩, Keeps.refl _ σ,
    fun j _ _ => type_update rfl, hlogged⟩
  · refine h.dirs.update (fun _ => ?_) fun l _ hl => ?_
    · show max (A n).size (direntSize * k + direntSize) ≤ nearBytes
      omega
    · by_cases hlk : l = k
      · rw [hlk, Node.inumAt_written_self]
        exact hinum
      · rw [Node.inumAt_written_other hlk]
        exact h.dirs.inum n l hdir (Node.entries_written hk hl hlk)
  · intro m htype hzero
    by_cases hm : m = n
    · rw [hm] at htype hzero ⊢
      rw [Function.update_self] at htype hzero
      exact h.linked n htype hzero
    · rw [Function.update_of_ne hm] at htype hzero
      exact h.linked m htype hzero

/-- The scan of ialloc logs the block of the inode that it takes. -/
theorem scanInodes_logs {type fuel m : ℕ} (hsb : s.sb = mkfsSuperblock)
    (hhint : s.last_alloc_hint < nblocks) :
    Gives (scanInodes ROOTDEV type fuel m s) fun i t => t.last_alloc_hint < nblocks ∧
      Logged (bitmapAnd {IBLOCK (t.icache i).inum mkfsSuperblock}) s t := by
  induction fuel generalizing m s with
  | zero => exact id
  | succ fuel ih =>
    have hready : Ready 0 (s.icache 0).inum s := ⟨hsb, hhint, rfl⟩
    unfold scanInodes
    refine Ends.bind (Q := fun sb u => sb = mkfsSuperblock ∧ s = u) ⟨hsb, rfl⟩ ?_
    rintro sb _ _ ⟨rfl, rfl⟩
    have hread : Logs 0 (s.icache 0).inum ∅ (bread ROOTDEV (IBLOCK m mkfsSuperblock)) := bread_logs
    refine Ends.bind (hread s) fun data t _ hst => ?_
    have hrelse : Logs 0 (s.icache 0).inum ∅ (brelse ROOTDEV (IBLOCK m mkfsSuperblock)) :=
      brelse_logs
    split
    · have hset : Logs 0 (s.icache 0).inum (bitmapAnd {IBLOCK m mkfsSuperblock})
          (setData ROOTDEV (IBLOCK m mkfsSuperblock) fun b =>
            put (splice b (dinodeOffset m) (fun _ => 0) 0 128) (dinodeOffset m) 2 type) :=
              setData_logs
      refine Ends.bind (hset t) fun _ t₁ _ h₁ => ?_
      have hlog : Logs 0 (s.icache 0).inum (bitmapAnd {IBLOCK m mkfsSuperblock})
          (logWrite (IBLOCK m mkfsSuperblock)) :=
        logWrite_logs (bitmapAnd_self (Finset.mem_singleton_self _))
      refine Ends.bind (hlog t₁) fun _ t₂ _ h₂ => ?_
      refine Ends.bind (hrelse t₂) fun _ t₃ _ h₃ => ?_
      have hbegin := hst.mono (Set.empty_subset (bitmapAnd {IBLOCK m mkfsSuperblock}))
      have hend := h₃.mono (Set.empty_subset (bitmapAnd {IBLOCK m mkfsSuperblock}))
      have hst₃ := logsAt_composes.trans hbegin
          (logsAt_composes.trans h₁ (logsAt_composes.trans h₂ hend))
      obtain ⟨hready₃, hlogged₃⟩ := hst₃ hready
      refine gives_iff.mpr fun i u hrun => ?_
      have hquiet := (iget_quiet t₃).of_ok hrun
      have hinum : (u.icache i).inum = m := by
        obtain ⟨_, ⟨⟨_, _, hinum⟩, rfl⟩ | ⟨_, _, rfl⟩⟩ := iget_cases hrun
        · rw [setSlot_self]
          exact hinum
        · rw [setSlot_self]
          rfl
      rw [hinum]
      exact ⟨by rw [hquiet.hint]; exact hready₃.hint, hlogged₃.trans hquiet.logged⟩
    · refine Ends.bind (hrelse t) fun _ t₁ _ h₁ => ?_
      obtain ⟨hready₁, hlogged₁⟩ := logsAt_composes.trans hst h₁ hready
      refine (ih hready₁.sb hready₁.hint).mono fun i u hu => ⟨hu.1, ?_⟩
      exact (hlogged₁.mono (Set.empty_subset _)).trans hu.2

/-- ialloc and ilock: the call refers to a loaded inode that was free. -/
theorem Good.ialloc (h : Good near s A σ E L) {type : ℕ} (htype : type < 2 ^ 16) :
    Gives (Fs.ialloc ROOTDEV type s) fun i t => Gives (Fs.ilock i t) fun _ u => ∃ n σ',
      Does near (E + L) (bitmapAnd {IBLOCK n mkfsSuperblock}) s A σ u
        (Function.update A n (Node.fresh type)) σ' (i ::ₘ E) L ∧
      At σ' i n ∧ (A n).type = 0 ∧ n < maxInodes := by
  obtain ⟨v, hv, _, _⟩ := h.shows
  have hlogs : Gives (Fs.ialloc ROOTDEV type s) fun i t => t.last_alloc_hint < nblocks ∧
      Logged (bitmapAnd {IBLOCK (t.icache i).inum mkfsSuperblock}) s t := by
    refine Ends.bind (Q := fun _ u => s = u) rfl ?_
    rintro sb _ _ rfl
    exact scanInodes_logs hv.sb h.hint
  refine ((h.shows.ialloc htype).gives.and hlogs).mono ?_
  rintro i t ⟨⟨n, σ₁, hpos, hlt, hfree, hshows, hi, hcases⟩, hhint, hlogged⟩
  obtain ⟨x, rfl, hxinum, hxref, hxold⟩ : ∃ x, σ₁ = Function.update σ i x ∧ x.inum = n ∧
      x.ref = (σ i).ref + 1 ∧ (i ∈ E + L → x.inum = (σ i).inum) := by
    rcases hcases with ⟨_, hinum, hσ⟩ | ⟨_, href, hσ⟩
    · exact ⟨_, hσ, hinum, rfl, fun _ => rfl⟩
    · refine ⟨_, hσ, rfl, by rw [href], fun hmem => ?_⟩
      have hpos := h.pos hmem
      omega
  have hinum : (t.icache i).inum = n := by
    obtain ⟨w, _, _, hσ⟩ := hshows
    show (t.slots i).inum = n
    rw [hσ, Function.update_self]
    exact hxinum
  rw [hinum] at hlogged
  refine ((hshows.locked hi).and (ilock_quiet t)).mono ?_
  rintro _ u ⟨⟨_, _, hshows'⟩, hquiet⟩
  rw [Function.update_self, Function.update_idem] at hshows'
  have hkeeps : Keeps (E + L) σ (Function.update σ i { x with valid := true }) :=
    keeps_update fun hmem => ⟨hxold hmem, fun _ => rfl⟩
  have hrefs : ∀ j, j < NINODE →
      (Function.update σ i { x with valid := true } j).ref = (i ::ₘ E + L).count j := by
    rw [Multiset.cons_add]
    exact refs_cons h.refs hxref
  have hat : At (Function.update σ i { x with valid := true }) i n := by
    refine ⟨hi, ?_, ?_, ?_⟩ <;> rw [Function.update_self]
    · show 0 < x.ref
      omega
    · exact hxinum
  refine ⟨n, _, ⟨⟨hshows', ?_, ?_, hrefs, ?_, ?_⟩, hkeeps, ?_, hlogged.trans hquiet.logged⟩, hat,
    hfree, hlt⟩
  · rw [hquiet.hint]
    exact hhint
  · intro j hj
    rw [Multiset.cons_add] at hj
    rcases Multiset.mem_cons.mp hj with rfl | hj
    · exact hi
    · exact h.lt hj
  · refine h.dirs.update (fun _ => Nat.zero_le _) fun k _ hk => ?_
    have hnone : (Node.fresh type).entries = 0 := Nat.zero_div direntSize
    omega
  · intro m hm hzero
    by_cases hmn : m = n
    · exact ⟨i, Multiset.mem_cons_self i E, hmn ▸ hat⟩
    · rw [Function.update_of_ne hmn] at hm hzero
      obtain ⟨j, hj, hatj⟩ := h.linked m hm hzero
      have hmem : j ∈ E + L := Multiset.mem_add.mpr (Or.inl hj)
      refine ⟨j, Multiset.mem_cons_of_mem hj, hatj.slot, ?_, (hkeeps j hmem).2 hatj.valid,
        (hkeeps j hmem).1.trans hatj.inum⟩
      rw [hrefs j hatj.slot, Multiset.cons_add]
      exact Multiset.count_pos.mpr (Multiset.mem_cons_of_mem hmem)
  · intro j hj hvalid
    rw [Function.update_of_ne]
    intro he
    exact h.shows.typed (h.lt hj) (h.pos hj) hvalid (he ▸ hfree)

end Good

end NorthOS.Fs
