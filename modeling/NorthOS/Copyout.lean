import NorthOS.Paging

/-!
copyout, which writes through a page table that need not be the one in use. uva2ka does not
test what walkpgdir returns: where a page table is missing it takes the word at address 0 for the
entry. Elsewhere copyout does what it says.
-/
namespace NorthOS.Paging

open Halting Halting.Comp LittleEndian
open Vm (PGSIZE wrap PDX PTX PGROUNDDOWN)

/-- The page that user code reaches at an address. -/
def Pgdir.userPage (d : Pgdir) (va : ℕ) : Option ℕ := userFrame (d.pte va)

/-- Where byte `k` of a range is in memory. -/
def Pgdir.At (d : Pgdir) (va k page i : ℕ) : Prop :=
  d.userPage (wrap (va + k)) = some page ∧ i = wrap (va + k) % PGSIZE

/-- The range lies in user pages. -/
def Pgdir.Covered (d : Pgdir) (va len : ℕ) : Prop :=
  ∀ k, k < len → (d.userPage (wrap (va + k))).isSome

/-- What copyout promises: success exactly for a range in user pages, which then holds the
buffer, no other byte written, and no entry read that does not exist. -/
structure Copied (d : Pgdir) (va : ℕ) (p : List UInt8) (m : Memory) (r : ℤ) (m' : Memory) : Prop where
  result : r = 0 ∧ d.Covered va p.length ∨ r = -1 ∧ ¬ d.Covered va p.length
  holds : r = 0 → ∀ k page i, k < p.length → d.At va k page i → m'.bytes page i = p.getD k 0
  only : ∀ page i, m'.bytes page i ≠ m.bytes page i → ∃ k, k < p.length ∧ d.At va k page i
  nulls : m'.nulls = m.nulls

def Copies (m : Memory) (d : Pgdir) (va : ℕ) (p : List UInt8) : Prop :=
  ∃ r m', copyout d va p m = .ok (r, m') ∧ Copied d va p m r m'

/-- As far as the range is in user pages, and one byte on, the page tables are there. -/
def Walkable (d : Pgdir) (va len : ℕ) : Prop :=
  ∀ k, k < len → d.Covered va k → (d.table (PDX (wrap (va + k)))).isSome

/-- Where two bytes of the range are one byte of memory, the buffer has the same for both. -/
def Consistent (d : Pgdir) (va : ℕ) (p : List UInt8) : Prop :=
  d.Covered va p.length → ∀ j k page i, j < p.length → k < p.length → d.At va j page i →
    d.At va k page i → p.getD j 0 = p.getD k 0

variable {d : Pgdir} {m m' : Memory} {a b va k len page i : ℕ} {p : List UInt8} {r : ℤ}

section Addresses

/-- What is left of the page of an address. -/
def room (va : ℕ) : ℕ := PGSIZE - (va - PGROUNDDOWN va)

def next (va : ℕ) : ℕ := wrap (PGROUNDDOWN va + PGSIZE)

theorem walk_congr (h : a / PGSIZE % 2 ^ 20 = b / PGSIZE % 2 ^ 20) (d : Pgdir) :
    d.walk a = d.walk b := by
  have hpdx : PDX a = PDX b := by
    unfold PDX
    unfold PGSIZE at h
    omega
  have hptx : PTX a = PTX b := by
    unfold PTX
    unfold PGSIZE at h
    omega
  unfold Pgdir.walk
  rw [hpdx, hptx]

/-- The bytes up to the end of the page have one entry. -/
theorem walk_room (hk : k < room va) (d : Pgdir) :
    d.walk (wrap (va + k)) = d.walk (PGROUNDDOWN va) := by
  refine walk_congr ?_ d
  unfold room PGROUNDDOWN at hk
  unfold PGROUNDDOWN wrap
  unfold PGSIZE at hk ⊢
  omega

theorem room_pos (va : ℕ) : 0 < room va := by
  unfold room PGROUNDDOWN PGSIZE
  omega

theorem wrap_next (hk : room va ≤ k) : wrap (va + k) = wrap (next va + (k - room va)) := by
  unfold room PGROUNDDOWN at hk
  unfold next room PGROUNDDOWN wrap
  unfold PGSIZE at hk ⊢
  omega

theorem offset_room (hk : k < room va) : wrap (va + k) % PGSIZE = va - PGROUNDDOWN va + k := by
  unfold room PGROUNDDOWN at hk
  unfold PGROUNDDOWN wrap
  unfold PGSIZE at hk ⊢
  omega

theorem userPage_room (hk : k < room va) (d : Pgdir) :
    d.userPage (wrap (va + k)) = d.userPage (PGROUNDDOWN va) := by
  unfold Pgdir.userPage Pgdir.pte
  rw [walk_room hk]

theorem at_room (hk : k < room va) : d.At va k page i ↔
    d.userPage (PGROUNDDOWN va) = some page ∧ i = va - PGROUNDDOWN va + k := by
  unfold Pgdir.At
  rw [userPage_room hk, offset_room hk]

theorem at_next (hk : room va ≤ k) : d.At va k page i ↔ d.At (next va) (k - room va) page i := by
  unfold Pgdir.At
  rw [wrap_next hk]

/-- A range is in user pages when its first part is and the rest is. -/
theorem covered_split (hlen : 0 < len) : d.Covered va len ↔
    (d.userPage (PGROUNDDOWN va)).isSome ∧ d.Covered (next va) (len - min (room va) len) := by
  have hpos := room_pos va
  constructor
  · intro h
    refine ⟨?_, fun k hk => ?_⟩
    · have hfirst := h 0 hlen
      rwa [userPage_room hpos] at hfirst
    · have hrest := h (k + room va) (by omega)
      rwa [wrap_next (by omega), Nat.add_sub_cancel] at hrest
  · rintro ⟨hfirst, hrest⟩ k hk
    by_cases hin : k < room va
    · rw [userPage_room hin]
      exact hfirst
    · rw [wrap_next (by omega)]
      exact hrest (k - room va) (by omega)

end Addresses

section Steps

def Memory.write (m : Memory) (page at_ : ℕ) (p : List UInt8) : Memory :=
  { m with bytes := Function.update m.bytes page fun i =>
      if at_ ≤ i ∧ i < at_ + p.length then p.getD (i - at_) 0 else m.bytes page i }

theorem write_self {at_ : ℕ} (h : at_ ≤ i ∧ i < at_ + p.length) :
    (m.write page at_ p).bytes page i = p.getD (i - at_) 0 := by
  unfold Memory.write
  dsimp only
  rw [Function.update_self, if_pos h]

theorem write_other {at_ q : ℕ} (h : (m.write page at_ p).bytes q i ≠ m.bytes q i) :
    q = page ∧ at_ ≤ i ∧ i < at_ + p.length := by
  unfold Memory.write at h
  dsimp only at h
  by_cases hq : q = page
  · subst hq
    rw [Function.update_self] at h
    by_contra hc
    exact h (if_neg fun hin => hc ⟨rfl, hin⟩)
  · rw [Function.update_of_ne hq] at h
    exact absurd rfl h

theorem copyout_nil : copyout d va [] = pure 0 := by
  rw [copyout, if_pos rfl]

theorem copyout_cons (hp : p ≠ []) : copyout d va p = (do
    match ← uva2ka d (PGROUNDDOWN va) with
    | none => pure (-1)
    | some page => do
      memmove page (va - PGROUNDDOWN va) (p.take (min (room va) p.length))
      copyout d (next va) (p.drop (min (room va) p.length))) := by
  rw [copyout, if_neg hp]
  rfl

theorem uva2ka_found {uva : ℕ} (h : (d.table (PDX uva)).isSome) :
    uva2ka d uva = pure (d.userPage uva) := by
  obtain ⟨t, ht⟩ := Option.isSome_iff_exists.mp h
  have hwalk : d.walk uva = some (t.pte (PTX uva)) := by
    unfold Pgdir.walk
    rw [ht]
    rfl
  unfold uva2ka Pgdir.userPage Pgdir.pte
  rw [hwalk]
  rfl

theorem copyout_blocked (hp : p ≠ []) (ht : (d.table (PDX (PGROUNDDOWN va))).isSome)
    (hpage : d.userPage (PGROUNDDOWN va) = none) : copyout d va p m = .ok (-1, m) := by
  rw [copyout_cons hp, uva2ka_found ht, hpage]
  rfl

theorem copyout_page (hp : p ≠ []) (ht : (d.table (PDX (PGROUNDDOWN va))).isSome)
    (hpage : d.userPage (PGROUNDDOWN va) = some page) :
    copyout d va p m = copyout d (next va) (p.drop (min (room va) p.length))
      (m.write page (va - PGROUNDDOWN va) (p.take (min (room va) p.length))) := by
  rw [copyout_cons hp, uva2ka_found ht, hpage]
  rfl

theorem table_of_userPage {uva : ℕ} (h : (d.userPage uva).isSome) :
    (d.table (PDX uva)).isSome := by
  unfold Pgdir.userPage Pgdir.pte Pgdir.walk at h
  cases ht : d.table (PDX uva) with
  | none =>
    rw [ht] at h
    exact absurd h (by simp [userFrame])
  | some t => rfl

theorem pdx_rounddown (va : ℕ) : PDX (PGROUNDDOWN va) = PDX (wrap va) := by
  unfold PDX PGROUNDDOWN wrap PGSIZE
  omega

theorem Walkable.first (h : Walkable d va len) (hlen : 0 < len) :
    (d.table (PDX (PGROUNDDOWN va))).isSome := by
  rw [pdx_rounddown]
  exact h 0 hlen fun k hk => absurd hk (Nat.not_lt_zero k)

/-- Behind a page that user code reaches the walk goes on. -/
theorem walkable_next (hpage : (d.userPage (PGROUNDDOWN va)).isSome) :
    Walkable d va len ↔ Walkable d (next va) (len - min (room va) len) := by
  have hpos := room_pos va
  constructor
  · intro h k hk hcov
    have htable := h (k + room va) (by omega) ((covered_split (by omega)).mpr ⟨hpage, ?_⟩)
    · rwa [wrap_next (by omega), Nat.add_sub_cancel] at htable
    · have hrest : k + room va - min (room va) (k + room va) = k := by omega
      rw [hrest]
      exact hcov
  · intro h k hk hcov
    by_cases hin : k < room va
    · refine table_of_userPage ?_
      rw [userPage_room hin]
      exact hpage
    · rw [wrap_next (by omega)]
      refine h _ (by omega) ?_
      have hrest : k - min (room va) k = k - room va := by omega
      by_cases hk0 : 0 < k
      · rw [← hrest]
        exact ((covered_split hk0).mp hcov).2
      · omega

end Steps

section Promise

theorem getD_drop (n : ℕ) : (p.drop n).getD k 0 = p.getD (k + n) 0 := by
  rw [List.getD_eq_getElem?_getD, List.getD_eq_getElem?_getD, List.getElem?_drop, Nat.add_comm]

theorem getD_take {n : ℕ} (hk : k < n) : (p.take n).getD k 0 = p.getD k 0 := by
  rw [List.getD_eq_getElem?_getD, List.getD_eq_getElem?_getD, List.getElem?_take_of_lt hk]

/-- A byte of the rest is a byte of the range. -/
theorem at_rest (hk : k < (p.drop (min (room va) p.length)).length) :
    (d.At (next va) k page i ↔ d.At va (k + room va) page i) ∧ k + room va < p.length ∧
      (p.drop (min (room va) p.length)).getD k 0 = p.getD (k + room va) 0 := by
  rw [List.length_drop] at hk
  have hmin : min (room va) p.length = room va := by omega
  refine ⟨?_, by omega, ?_⟩
  · rw [at_next (Nat.le_add_left _ _), Nat.add_sub_cancel]
  · rw [hmin, getD_drop]

theorem Consistent.rest (h : Consistent d va p) (hp : 0 < p.length)
    (hpage : (d.userPage (PGROUNDDOWN va)).isSome) :
    Consistent d (next va) (p.drop (min (room va) p.length)) := by
  intro hcov j k page i hj hk hatj hatk
  rw [List.length_drop] at hcov
  obtain ⟨hj', hlj, hgetj⟩ := at_rest hj
  obtain ⟨hk', hlk, hgetk⟩ := at_rest hk
  rw [hgetj, hgetk]
  exact h ((covered_split hp).mpr ⟨hpage, hcov⟩) _ _ page i hlj hlk (hj'.mp hatj) (hk'.mp hatk)

/-- One page is written, and the rest is copied. -/
theorem Copied.cons (hp : 0 < p.length) (hcons : Consistent d va p)
    (hpage : d.userPage (PGROUNDDOWN va) = some page)
    (h : Copied d (next va) (p.drop (min (room va) p.length))
      (m.write page (va - PGROUNDDOWN va) (p.take (min (room va) p.length))) r m') :
    Copied d va p m r m' := by
  have hsome : (d.userPage (PGROUNDDOWN va)).isSome := Option.isSome_of_eq_some hpage
  have hsplit : d.Covered va p.length ↔ _ ∧ _ := covered_split hp
  have hresult := h.result
  rw [List.length_drop] at hresult
  have hcov : d.Covered va p.length ↔ d.Covered (next va) (p.length - min (room va) p.length) :=
    hsplit.trans (and_iff_right hsome)
  refine ⟨?_, ?_, ?_, h.nulls⟩
  · rw [hcov]
    exact hresult
  · intro hr k q i hk hat
    by_cases hin : k < room va
    swap
    · have hrest : k - room va < (p.drop (min (room va) p.length)).length := by
        rw [List.length_drop]
        omega
      obtain ⟨_, _, hget⟩ : (d.At (next va) (k - room va) q i ↔ _) ∧ _ ∧
          (p.drop (min (room va) p.length)).getD (k - room va) 0 = p.getD (k - room va + room va) 0 :=
        at_rest hrest
      have hholds := h.holds hr _ q i hrest ((at_next (by omega)).mp hat)
      rw [hget, Nat.sub_add_cancel (by omega)] at hholds
      exact hholds
    · obtain ⟨hq, hi⟩ := (at_room hin).mp hat
      obtain rfl := Option.some.inj (hpage.symm.trans hq)
      by_cases hsame : m'.bytes page i =
          (m.write page (va - PGROUNDDOWN va) (p.take (min (room va) p.length))).bytes page i
      · have hlen : (p.take (min (room va) p.length)).length = min (room va) p.length := by
          rw [List.length_take]
          omega
        rw [hsame, write_self (by omega), getD_take (by omega), hi, Nat.add_sub_cancel_left]
      · -- the byte is written again for another byte of the range
        obtain ⟨j, hj, hatj⟩ := h.only page i hsame
        obtain ⟨hj', hlj, hgetj⟩ := at_rest hj
        rw [h.holds hr j page i hj hatj, hgetj]
        rcases hresult with ⟨_, hrest⟩ | ⟨hr', _⟩
        · exact hcons (hcov.mpr hrest) _ k page i hlj hk (hj'.mp hatj) hat
        · exact absurd (hr.symm.trans hr') (by decide)
  · intro q i hne
    by_cases hsame : m'.bytes q i =
        (m.write page (va - PGROUNDDOWN va) (p.take (min (room va) p.length))).bytes q i
    · rw [hsame] at hne
      obtain ⟨rfl, hlo, hhi⟩ := write_other hne
      rw [List.length_take] at hhi
      refine ⟨i - (va - PGROUNDDOWN va), by omega, (at_room (by omega)).mpr ⟨hpage, by omega⟩⟩
    · obtain ⟨j, hj, hatj⟩ := h.only q i hsame
      obtain ⟨hj', hlj, _⟩ := at_rest hj
      exact ⟨_, hlj, hj'.mp hatj⟩

/-- Where all that it walks over is there, copyout does what it says. -/
theorem Walkable.copies (h : Walkable d va p.length) (hcons : Consistent d va p) (m : Memory) :
    Copies m d va p := by
  induction hn : p.length using Nat.strong_induction_on generalizing va p m with
  | _ n ih =>
    by_cases hp : p = []
    · subst hp
      refine ⟨0, m, by rw [copyout_nil]; rfl, .inl ⟨rfl, fun k hk => absurd hk (Nat.not_lt_zero k)⟩,
        fun _ k _ _ hk => absurd hk (Nat.not_lt_zero k), fun _ _ hne => absurd rfl hne, rfl⟩
    have hlen : 0 < p.length := List.length_pos_iff.mpr hp
    have hpos := room_pos va
    cases hpage : d.userPage (PGROUNDDOWN va) with
    | none =>
      refine ⟨-1, m, copyout_blocked hp (h.first hlen) hpage, .inr ⟨rfl, fun hcov => ?_⟩,
        fun hr => absurd hr (by decide), fun _ _ hne => absurd rfl hne, rfl⟩
      have hfirst := ((covered_split hlen).mp hcov).1
      rw [hpage] at hfirst
      exact absurd hfirst Bool.false_ne_true
    | some page =>
      have hsome : (d.userPage (PGROUNDDOWN va)).isSome := Option.isSome_of_eq_some hpage
      have hrest := (walkable_next hsome).mp h
      rw [← List.length_drop] at hrest
      obtain ⟨r, m', hrun, hcopied⟩ := ih _ (by rw [List.length_drop]; omega) hrest
        (hcons.rest hlen hsome) (m.write page (va - PGROUNDDOWN va)
          (p.take (min (room va) p.length))) rfl
      exact ⟨r, m', (copyout_page hp (h.first hlen) hpage).trans hrun,
        hcopied.cons hlen hcons hpage⟩

/-- No step takes an entry back from the count. -/
theorem nulls_composes : Composes fun s t : Memory => s.nulls ≤ t.nulls where
  refl := fun _ => Nat.le_refl _
  trans := Nat.le_trans

abbrev Counts {A : Type} (x : M A) : Prop := Within (fun _ => False) (fun s t => s.nulls ≤ t.nulls) x

theorem kernelPage_counts (frame : ℕ) : Counts (kernelPage frame) := by
  unfold kernelPage
  refine (within_look nulls_composes).bind nulls_composes fun m' => ?_
  split
  · exact within_halt id
  · exact (within_halt id).ite (within_pure nulls_composes)

theorem nullEntry_counts (m : Memory) : Gives (nullEntry m) fun _ m' => m.nulls < m'.nulls := by
  unfold nullEntry
  refine Ends.bind (Q := fun _ t => m.nulls < t.nulls) (ends_update.mpr (Nat.lt_succ_self _)) ?_
  intro _ t _ ht
  refine Ends.bind (Q := fun _ u => m.nulls < u.nulls) (ends_look.mpr ht) ?_
  intro m' u _ hu
  cases m'.cr3.pte 0 with
  | none => exact id
  | some e => exact hu

theorem memmove_counts (page at_ : ℕ) (p : List UInt8) : Counts (memmove page at_ p) :=
  fun m => Nat.le_refl m.nulls

theorem uva2ka_missing {uva : ℕ} (h : d.table (PDX uva) = none) (m : Memory) :
    Gives (uva2ka d uva m) fun _ m' => m.nulls < m'.nulls := by
  have hwalk : d.walk uva = none := by
    unfold Pgdir.walk
    rw [h]
    rfl
  unfold uva2ka
  rw [hwalk]
  refine Ends.bind (nullEntry_counts m) fun e t _ ht => ?_
  cases userFrame e with
  | none => exact ht
  | some frame =>
    refine Ends.bind (kernelPage_counts frame t) fun page u _ hu => ?_
    exact lt_of_lt_of_le ht hu

theorem uva2ka_counts (uva : ℕ) : Counts (uva2ka d uva) := by
  intro m
  cases ht : d.table (PDX uva) with
  | none => exact (uva2ka_missing ht m).mono fun _ _ => Nat.le_of_lt
  | some t =>
    rw [uva2ka_found (Option.isSome_of_eq_some ht)]
    exact within_pure nulls_composes m

theorem copyout_counts (va : ℕ) (p : List UInt8) : Counts (copyout d va p) := by
  induction hn : p.length using Nat.strong_induction_on generalizing va p with
  | _ n ih =>
    by_cases hp : p = []
    · subst hp
      rw [copyout_nil]
      exact within_pure nulls_composes
    have hlen : 0 < p.length := List.length_pos_iff.mpr hp
    have hpos := room_pos va
    rw [copyout_cons hp]
    refine (uva2ka_counts _).bind nulls_composes fun page => ?_
    split
    · exact within_pure nulls_composes
    · refine (memmove_counts _ _ _).bind nulls_composes fun _ => ?_
      exact ih _ (by rw [List.length_drop]; omega) _ _ rfl

/-- Where a page table is missing on the way, an entry of it is read. -/
theorem copyout_strays (h : ¬ Walkable d va p.length) (m : Memory) :
    Gives (copyout d va p m) fun _ m' => m.nulls < m'.nulls := by
  induction hn : p.length using Nat.strong_induction_on generalizing va p m with
  | _ n ih =>
    have hp : p ≠ [] := by
      rintro rfl
      exact h fun k hk => absurd hk (Nat.not_lt_zero k)
    have hlen : 0 < p.length := List.length_pos_iff.mpr hp
    have hpos := room_pos va
    cases ht : d.table (PDX (PGROUNDDOWN va)) with
    | none =>
      rw [copyout_cons hp]
      refine Ends.bind (uva2ka_missing ht m) fun page t _ hlt => ?_
      cases page with
      | none => exact hlt
      | some page =>
        refine Ends.bind (memmove_counts _ _ _ t) fun _ u _ hu => ?_
        exact (copyout_counts _ _ u).mono fun _ _ hle => lt_of_lt_of_le hlt (hu.trans hle)
    | some t =>
      have htable := Option.isSome_of_eq_some ht
      cases hpage : d.userPage (PGROUNDDOWN va) with
      | none =>
        refine absurd (fun k hk hcov => ?_) h
        by_cases hk0 : 0 < k
        · have hfirst := ((covered_split hk0).mp hcov).1
          rw [hpage] at hfirst
          exact absurd hfirst Bool.false_ne_true
        · obtain rfl : k = 0 := by omega
          rw [Nat.add_zero, ← pdx_rounddown]
          exact htable
      | some page =>
        rw [copyout_page hp htable hpage]
        have hrest := mt (walkable_next (Option.isSome_of_eq_some hpage)).mpr h
        rw [← List.length_drop] at hrest
        exact ih _ (by rw [List.length_drop]; omega) hrest _ rfl

/-- The free list, the failures of kalloc to come and the page table in use are the same. -/
structure SameLists (m m' : Memory) : Prop where
  freelist : m'.freelist = m.freelist
  fails : m'.fails = m.fails
  cr3 : m'.cr3 = m.cr3

theorem lists_composes : Composes SameLists where
  refl := fun _ => ⟨rfl, rfl, rfl⟩
  trans := fun h h' =>
    ⟨h'.freelist.trans h.freelist, h'.fails.trans h.fails, h'.cr3.trans h.cr3⟩

abbrev WritesOnly {A : Type} (x : M A) : Prop := Within (fun _ => False) SameLists x

theorem uva2ka_writes (uva : ℕ) : WritesOnly (uva2ka d uva) := by
  have hnull : WritesOnly nullEntry := by
    unfold nullEntry
    refine (within_update fun _ => ⟨rfl, rfl, rfl⟩).bind lists_composes fun _ => ?_
    refine (within_look lists_composes).bind lists_composes fun m' => ?_
    split
    · exact within_halt id
    · exact within_pure lists_composes
  have hkernel : ∀ frame, WritesOnly (kernelPage frame) := by
    intro frame
    unfold kernelPage
    refine (within_look lists_composes).bind lists_composes fun m' => ?_
    split
    · exact within_halt id
    · exact (within_halt id).ite (within_pure lists_composes)
  unfold uva2ka
  split
  · exact within_pure lists_composes
  · refine hnull.bind lists_composes fun e => ?_
    split
    · exact within_pure lists_composes
    · exact (hkernel _).bind lists_composes fun _ => within_pure lists_composes

theorem copyout_writes (va : ℕ) (p : List UInt8) : WritesOnly (copyout d va p) := by
  induction hn : p.length using Nat.strong_induction_on generalizing va p with
  | _ n ih =>
    by_cases hp : p = []
    · subst hp
      rw [copyout_nil]
      exact within_pure lists_composes
    have hlen : 0 < p.length := List.length_pos_iff.mpr hp
    have hpos := room_pos va
    rw [copyout_cons hp]
    refine (uva2ka_writes _).bind lists_composes fun page => ?_
    split
    · exact within_pure lists_composes
    · refine Within.bind lists_composes (fun m => ⟨rfl, rfl, rfl⟩) fun _ => ?_
      exact ih _ (by rw [List.length_drop]; omega) _ _ rfl

/-- Success means that no page table that is there refused a byte. -/
theorem copyout_zero (va : ℕ) (p : List UInt8) (m : Memory) :
    Gives (copyout d va p m) fun r _ => (r = 0 ∨ r = -1) ∧ (r = 0 → ∀ k, k < p.length →
      (d.table (PDX (wrap (va + k)))).isSome → (d.userPage (wrap (va + k))).isSome) := by
  induction hn : p.length using Nat.strong_induction_on generalizing va p m with
  | _ n ih =>
    by_cases hp : p = []
    · subst hp
      rw [copyout_nil]
      refine ends_pure.mpr ⟨.inl rfl, fun _ k hk => ?_⟩
      rw [← hn] at hk
      exact absurd hk (Nat.not_lt_zero k)
    have hlen : 0 < p.length := List.length_pos_iff.mpr hp
    have hpos := room_pos va
    have htable : ∀ k, k < room va → d.table (PDX (wrap (va + k))) =
        d.table (PDX (PGROUNDDOWN va)) := by
      intro k hk
      have hpdx : PDX (wrap (va + k)) = PDX (PGROUNDDOWN va) := by
        unfold room PGROUNDDOWN at hk
        unfold PDX PGROUNDDOWN wrap
        unfold PGSIZE at hk ⊢
        omega
      rw [hpdx]
    have hfound : Gives (uva2ka d (PGROUNDDOWN va) m) fun page _ => page.isSome →
        (d.table (PDX (PGROUNDDOWN va))).isSome → (d.userPage (PGROUNDDOWN va)).isSome := by
      by_cases ht : (d.table (PDX (PGROUNDDOWN va))).isSome
      · rw [uva2ka_found ht]
        exact ends_pure.mpr fun h _ => h
      · exact gives_iff.mpr fun _ _ _ _ hc => absurd hc ht
    rw [copyout_cons hp]
    refine Ends.bind hfound fun page t _ hpage => ?_
    cases page with
    | none => exact ends_pure.mpr ⟨.inr rfl, fun hr => absurd hr (by decide)⟩
    | some page =>
      refine Ends.bind (memmove_counts _ _ _ t) fun _ u _ _ => ?_
      refine (ih _ (by rw [List.length_drop]; omega) _ _ u rfl).mono fun r v hr =>
        ⟨hr.1, fun hz => ?_⟩
      intro k hk hpresent
      by_cases hin : k < room va
      · rw [htable k hin] at hpresent
        rw [userPage_room hin]
        exact hpage rfl hpresent
      · rw [wrap_next (by omega)] at hpresent ⊢
        exact hr.2 hz _ (by rw [List.length_drop]; omega) hpresent

/-- copyout does what it says exactly where the page tables that it walks over are there, and two
bytes that go to one place are the same. -/
theorem copies_iff (m : Memory) (d : Pgdir) (va : ℕ) (p : List UInt8) :
    Copies m d va p ↔ Walkable d va p.length ∧ Consistent d va p := by
  constructor
  · rintro ⟨r, m', hrun, hcopied⟩
    refine ⟨?_, fun hcov j k page i hj hk hatj hatk => ?_⟩
    · by_contra hmissing
      have hlt := (copyout_strays hmissing m).of_ok hrun
      rw [hcopied.nulls] at hlt
      exact absurd hlt (Nat.lt_irrefl _)
    · have hr : r = 0 := by
        rcases hcopied.result with ⟨hr, _⟩ | ⟨_, hnot⟩
        · exact hr
        · exact absurd hcov hnot
      rw [← hcopied.holds hr j page i hj hatj, hcopied.holds hr k page i hk hatk]
  · rintro ⟨hwalk, hcons⟩
    exact hwalk.copies hcons m

/-- A process of one page; beyond it only the kernel's own mappings. -/
def onePage : Pgdir where
  page := 0x120
  table := fun i =>
    if i = 0 then some ⟨0x121, fun j => if j = 0 then some (.mk' 0x122 (PTE_W ||| PTE_U)) else none⟩
    else if (512 ≤ i ∧ i < 544) ∨ 1008 ≤ i then
      some ⟨0x130 + i, fun j => some (.mk' (if i < 544 then (i - 512) * 1024 + j else i * 1024 + j) PTE_W)⟩
    else none

/-- One byte at an address between the kernel's memory and its devices. -/
theorem not_copies : ¬ ∀ (m : Memory) (d : Pgdir) (va : ℕ) (p : List UInt8), Copies m d va p := by
  intro h
  let m : Memory := ⟨[], [], fun _ _ => 0, onePage, 0⟩
  obtain ⟨r, m', hrun, hcopied⟩ := h m onePage 0x90000000 [1]
  have hmissing : ¬ Walkable onePage 0x90000000 [(1 : UInt8)].length := by
    intro hwalk
    have htable := hwalk 0 (by decide) fun k hk => absurd hk (Nat.not_lt_zero k)
    exact absurd htable (by decide)
  have hlt := (copyout_strays hmissing m).of_ok hrun
  rw [hcopied.nulls] at hlt
  exact absurd hlt (Nat.lt_irrefl _)

end Promise

end NorthOS.Paging
