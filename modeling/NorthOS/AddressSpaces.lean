import Mathlib.Algebra.BigOperators.Group.Finset.Basic
import NorthOS.PageEntries

/-!
Shrinking an address space: deallocuvm frees the pages of its range, each once and none besides,
and freevm all that the address space has. What an address space has are its directory, its tables,
and the pages that user addresses are mapped to.
-/
namespace NorthOS.Paging

open Halting Halting.Comp
open Vm (PGSIZE NPDENTRIES NPTENTRIES KERNBASE EXTMEM PHYSTOP DEVSPACE wrap PDX PTX PGROUNDUP PGROUNDDOWN
  roundUp roundUp_aligned le_roundUp roundUp_le roundUp_le_kernbase pgroundup_eq pdx_kernbase pdx_user)

/-- `d'` is `d` without the pages from `lo` to `hi`. -/
def Cut (d d' : Pgdir) (lo hi : ℕ) : Prop :=
  ∀ va, va < 2 ^ 32 → d'.pte va = if lo ≤ va ∧ va < hi then none else d.pte va

/-- The frames of the pages that are mapped from `lo` to `hi`, in the order of their addresses. -/
def Pgdir.frames (d : Pgdir) (lo hi : ℕ) : List ℕ :=
  (List.range' lo ((hi - lo) / PGSIZE) PGSIZE).filterMap fun va => (d.pte va).map Pte.frame

variable {K : Kernel} {m m' : Memory} {d d' d₁ : Pgdir} {held : Multiset ℕ} {e e' : Pte}
  {a b i va va' page lo hi oldsz newsz : ℕ}

section Frames

variable {ι : Type} [DecidableEq ι] {S : Finset ι} {f : ι → Multiset ℕ}

/-- Where nothing is twice, it is in one summand. -/
theorem sum_unique (h : (∑ i ∈ S, f i).Nodup) {i j : ι} (hi : i ∈ S) (hj : j ∈ S) (hfi : page ∈ f i)
    (hfj : page ∈ f j) : i = j := by
  by_contra hne
  rw [← Finset.add_sum_erase S f hi] at h
  refine Multiset.disjoint_left.mp (Multiset.nodup_add.mp h).2.2 hfi ?_
  exact Multiset.mem_sum.mpr ⟨j, Finset.mem_erase.mpr ⟨fun hc => hne hc.symm, hj⟩, hfj⟩

theorem summand_nodup (h : (∑ i ∈ S, f i).Nodup) {i : ι} (hi : i ∈ S) : (f i).Nodup := by
  rw [← Finset.add_sum_erase S f hi] at h
  exact (Multiset.nodup_add.mp h).1

/-- What the entry of a directory has. -/
@[irreducible] def Pgdir.tablePages (d : Pgdir) (i : ℕ) : Multiset ℕ :=
  (d.forget.table i).elim 0 (Vm.Table.pages i)

theorem mem_range_iff (n : ℕ) : ∃ S : Finset ℕ, S = Finset.range n ∧ ∀ i, i ∈ S ↔ i < n :=
  ⟨_, rfl, fun _ => Finset.mem_range⟩

theorem pages_eq (d : Pgdir) : ∃ S : Finset ℕ, (∀ i, i ∈ S ↔ i < NPDENTRIES) ∧
    d.pages = d.page ::ₘ ∑ i ∈ S, d.tablePages i := by
  obtain ⟨S, hS, hmem⟩ := mem_range_iff NPDENTRIES
  refine ⟨S, hmem, ?_⟩
  unfold Pgdir.pages Vm.Pgdir.pages Pgdir.tablePages
  rw [← hS]
  rfl

theorem tablePages_eq {t : Table} (ht : d.table i = some t) (hi : i < PDX KERNBASE) :
    ∃ S : Finset ℕ, (∀ j, j ∈ S ↔ j < NPTENTRIES) ∧ d.tablePages i =
      t.page ::ₘ ∑ j ∈ S, ((t.pte j).map Pte.frame).elim 0 fun pa => {pa} := by
  obtain ⟨S, hS, hmem⟩ := mem_range_iff NPTENTRIES
  refine ⟨S, hmem, ?_⟩
  unfold Pgdir.tablePages
  rw [forget_table, ht, Option.map_some, Option.elim_some]
  unfold Vm.Table.pages Vm.Table.user
  rw [if_pos hi, ← hS]
  rfl

theorem page_mem (d : Pgdir) : d.page ∈ d.pages := by
  obtain ⟨S, _, hpages⟩ := pages_eq d
  rw [hpages]
  exact Multiset.mem_cons_self d.page _

theorem pages_none (page : ℕ) : (⟨page, fun _ => none⟩ : Pgdir).pages = {page} := by
  unfold Pgdir.pages
  exact Vm.pages_bare page

theorem mem_pages (hi : i < NPDENTRIES) (h : page ∈ d.tablePages i) : page ∈ d.pages := by
  obtain ⟨S, hmem, hpages⟩ := pages_eq d
  rw [hpages]
  exact Multiset.mem_cons_of_mem (Multiset.mem_sum.mpr ⟨i, (hmem i).mpr hi, h⟩)

theorem table_mem {t : Table} (hi : i < NPDENTRIES) (ht : d.table i = some t) :
    t.page ∈ d.pages := by
  refine mem_pages hi ?_
  unfold Pgdir.tablePages
  rw [forget_table, ht]
  unfold Vm.Table.pages
  exact Multiset.mem_cons_self t.page _

theorem pdx_lt (va : ℕ) : PDX va < NPDENTRIES := Nat.mod_lt _ (by decide)

theorem ptx_lt (va : ℕ) : PTX va < NPTENTRIES := Nat.mod_lt _ (by decide)

theorem frame_mem_tablePages (h : d.pte va = some e) (hva : va < KERNBASE) :
    e.frame ∈ d.tablePages (PDX va) := by
  rw [pte_eq] at h
  obtain ⟨t, ht, hpte⟩ := Option.bind_eq_some_iff.mp h
  obtain ⟨S, hmem, hpages⟩ := tablePages_eq ht (pdx_user hva)
  rw [hpages]
  refine Multiset.mem_cons_of_mem (Multiset.mem_sum.mpr ⟨PTX va, (hmem _).mpr (ptx_lt va), ?_⟩)
  rw [hpte]
  exact Multiset.mem_singleton_self e.frame

/-- The address space has the pages that user addresses are mapped to. -/
theorem frame_mem (h : d.pte va = some e) (hva : va < KERNBASE) : e.frame ∈ d.pages :=
  mem_pages (pdx_lt va) (frame_mem_tablePages h hva)

/-- No page is mapped at two places. -/
theorem frame_unique (hd : d.pages.Nodup) (h : d.pte va = some e) (h' : d.pte va' = some e')
    (hva : va < KERNBASE) (hva' : va' < KERNBASE) (heq : e.frame = e'.frame) :
    va / PGSIZE = va' / PGSIZE := by
  have hmem := frame_mem_tablePages h hva
  have hmem' := frame_mem_tablePages h' hva'
  rw [← heq] at hmem'
  obtain ⟨S, hS, hpages⟩ := pages_eq d
  rw [hpages] at hd
  have hsum := (Multiset.nodup_cons.mp hd).2
  have hpdx : PDX va = PDX va' :=
    sum_unique hsum ((hS _).mpr (pdx_lt va)) ((hS _).mpr (pdx_lt va')) hmem hmem'
  have htable := summand_nodup hsum ((hS _).mpr (pdx_lt va))
  rw [pte_eq] at h h'
  rw [← hpdx] at h'
  obtain ⟨t, ht, hpte⟩ := Option.bind_eq_some_iff.mp h
  rw [ht, Option.bind_some] at h'
  obtain ⟨T, hT, huser⟩ := tablePages_eq ht (pdx_user hva)
  rw [huser] at htable
  have hptx : PTX va = PTX va' := by
    have hfirst : PTX va ∈ T := (hT _).mpr (ptx_lt va)
    have hsecond : PTX va' ∈ T := (hT _).mpr (ptx_lt va')
    refine sum_unique (Multiset.nodup_cons.mp htable).2 hfirst hsecond (?_ : e.frame ∈ _) ?_
    · rw [hpte]
      exact Multiset.mem_singleton_self e.frame
    · rw [h', heq]
      exact Multiset.mem_singleton_self e'.frame
  unfold PDX at hpdx
  unfold PTX at hptx
  unfold KERNBASE at hva hva'
  unfold PGSIZE
  omega

theorem outside_zero (K : Kernel) : K.outside 0 = true := by
  have habove := K.above
  have hends := K.ends
  unfold EXTMEM at habove
  unfold Vm.Layout.outside
  rw [Nat.zero_mul, decide_eq_true (show 0 < K.kernelEnd by omega), Bool.true_or]

end Frames

section Ranges

theorem pte_page (hal : a % PGSIZE = 0) (hle : a ≤ va) (hlt : va < a + PGSIZE) (d : Pgdir) :
    d.pte va = d.pte a := by
  have hpdx : PDX va = PDX a := by
    unfold PDX
    unfold PGSIZE at hal hlt
    omega
  have hptx : PTX va = PTX a := by
    unfold PTX
    unfold PGSIZE at hal hlt
    omega
  rw [pte_eq, pte_eq, hpdx, hptx]

/-- A table that is missing maps none of its pages. -/
theorem pte_missing (ht : d.table (PDX a) = none) (hle : a ≤ va)
    (hlt : va < (a / 2 ^ 22 + 1) * 2 ^ 22) : d.pte va = none := by
  have hpdx : PDX va = PDX a := by
    unfold PDX
    omega
  rw [pte_eq, hpdx, ht]
  rfl

theorem frames_empty (h : hi ≤ lo) : d.frames lo hi = [] := by
  unfold Pgdir.frames
  rw [Nat.sub_eq_zero_of_le h, Nat.zero_div]
  rfl

theorem filterMap_range'_succ (f : ℕ → Option ℕ) (n step : ℕ) :
    (List.range' lo (n + 1) step).filterMap f =
      (f lo).toList ++ (List.range' (lo + step) n step).filterMap f := by
  rw [List.range'_succ, List.filterMap_cons]
  cases f lo <;> rfl

theorem frames_cons (h : lo + PGSIZE ≤ hi) :
    d.frames lo hi = ((d.pte lo).map Pte.frame).toList ++ d.frames (lo + PGSIZE) hi := by
  have hcount : (hi - lo) / PGSIZE = (hi - (lo + PGSIZE)) / PGSIZE + 1 := by
    unfold PGSIZE at h ⊢
    omega
  unfold Pgdir.frames
  rw [hcount, filterMap_range'_succ]

theorem frames_append {mid : ℕ} (hlo : (mid - lo) % PGSIZE = 0) (hle : lo ≤ mid) (hhi : mid ≤ hi) :
    d.frames lo hi = d.frames lo mid ++ d.frames mid hi := by
  obtain ⟨n, rfl⟩ : ∃ n, mid = lo + PGSIZE * n :=
    ⟨(mid - lo) / PGSIZE, by rw [Nat.mul_div_cancel' (Nat.dvd_of_mod_eq_zero hlo)]; omega⟩
  have hfirst : (lo + PGSIZE * n - lo) / PGSIZE = n := by
    rw [Nat.add_sub_cancel_left, Nat.mul_div_cancel_left _ (by decide)]
  have hcount : (hi - lo) / PGSIZE = n + (hi - (lo + PGSIZE * n)) / PGSIZE := by
    unfold PGSIZE at hhi ⊢
    omega
  unfold Pgdir.frames
  rw [hfirst, hcount, ← List.range'_append, List.filterMap_append]

theorem frames_none (h : ∀ va, lo ≤ va → va < hi → d.pte va = none) : d.frames lo hi = [] := by
  unfold Pgdir.frames
  refine List.filterMap_eq_nil_iff.mpr fun va hva => ?_
  obtain ⟨k, hk, rfl⟩ := List.mem_range'.mp hva
  rw [h _ (by omega) ?_]
  · rfl
  · unfold PGSIZE at hk ⊢
    omega

theorem frames_congr (h : ∀ va, lo ≤ va → va < hi → d'.pte va = d.pte va) :
    d'.frames lo hi = d.frames lo hi := by
  unfold Pgdir.frames
  refine List.filterMap_congr fun va hva => ?_
  obtain ⟨k, hk, rfl⟩ := List.mem_range'.mp hva
  rw [h _ (by omega) ?_]
  unfold PGSIZE at hk ⊢
  omega

theorem frames_mem {frame : ℕ} (h : frame ∈ d.frames lo hi) :
    ∃ va e, lo ≤ va ∧ va < hi ∧ d.pte va = some e ∧ e.frame = frame := by
  obtain ⟨va, hva, hmap⟩ := List.mem_filterMap.mp h
  obtain ⟨k, hk, rfl⟩ := List.mem_range'.mp hva
  obtain ⟨e, he, rfl⟩ := Option.map_eq_some_iff.mp hmap
  refine ⟨_, e, Nat.le_add_right _ _, ?_, he, rfl⟩
  unfold PGSIZE at hk ⊢
  omega

theorem mem_frames (hlo : lo % PGSIZE = 0) (hhi : hi % PGSIZE = 0) (hle : lo ≤ va) (hlt : va < hi)
    (h : d.pte va = some e) : e.frame ∈ d.frames lo hi := by
  have hbase : lo + (va - lo) / PGSIZE * PGSIZE ≤ va := by
    unfold PGSIZE
    omega
  have hpage : d.pte va = d.pte (lo + (va - lo) / PGSIZE * PGSIZE) := by
    refine pte_page ?_ hbase ?_ d
    · rw [Nat.add_mul_mod_self_right]
      exact hlo
    · unfold PGSIZE
      omega
  refine List.mem_filterMap.mpr ⟨lo + (va - lo) / PGSIZE * PGSIZE, ?_, ?_⟩
  · refine List.mem_range'.mpr ⟨(va - lo) / PGSIZE, ?_, by rw [Nat.mul_comm]⟩
    unfold PGSIZE at hlo hhi ⊢
    omega
  · rw [← hpage, h]
    rfl

end Ranges

section Dealloc

theorem Cut.empty (d : Pgdir) (h : hi ≤ lo) : Cut d d lo hi := by
  intro va _
  rw [if_neg (by omega)]

/-- Where nothing is mapped there is nothing to cut. -/
theorem Cut.skip {next : ℕ} (hnone : ∀ va, lo ≤ va → va < next → d.pte va = none) (hle : lo ≤ next)
    (h : Cut d d' next hi) : Cut d d' lo hi := by
  intro va hva
  rw [h va hva]
  by_cases hin : lo ≤ va ∧ va < next
  · rw [hnone va hin.1 hin.2, ite_self, ite_self]
  · exact ite_congr (propext (by omega)) (fun _ => rfl) fun _ => rfl

/-- One page, and then the rest. -/
theorem Cut.cons (ht : (d.table (PDX a)).isSome) (hal : a % PGSIZE = 0) (ha : a < 2 ^ 32)
    (h : Cut (d.setPte a none) d' (a + PGSIZE) hi) (hle : a + PGSIZE ≤ hi) : Cut d d' a hi := by
  intro va hva
  rw [h va hva, setPte_page ht hal ha hva]
  by_cases hin : a ≤ va ∧ va < a + PGSIZE
  · rw [if_pos hin, ite_self, if_pos (by omega)]
  · rw [if_neg hin]
    exact ite_congr (propext (by omega)) (fun _ => rfl) fun _ => rfl

/-- The frames behind a part where nothing is mapped. -/
theorem frames_skip {next : ℕ} (hnone : ∀ va, lo ≤ va → va < next → d.pte va = none)
    (hlo : (next - lo) % PGSIZE = 0) (hle : lo ≤ next) : d.frames lo hi = d.frames next hi := by
  by_cases hhi : next ≤ hi
  · rw [frames_append hlo hle hhi, frames_none hnone, List.nil_append]
  · have hall : d.frames lo hi = [] := frames_none fun va h h' => hnone va h (by omega)
    have hrest : d.frames next hi = [] := frames_empty (by omega)
    rw [hall, hrest]

theorem deallocLoop_returns (hal : a % PGSIZE = 0) (hold : oldsz ≤ KERNBASE)
    (hin : ∀ va e, a ≤ va → va < oldsz → d.pte va = some e → K.outside e.frame = false)
    (m : Memory) :
    Returns (deallocLoop K d a oldsz m) fun d' m' => Gave m m' ∧ Cut d d' a (roundUp oldsz) ∧
      m'.freelist = (d.frames a (roundUp oldsz)).reverse ++ m.freelist := by
  induction hn : oldsz - a using Nat.strong_induction_on generalizing d a m with
  | _ n ih =>
    rw [deallocLoop]
    split
    · rename_i hlt
      have hround := le_roundUp oldsz
      have hup := roundUp_aligned oldsz
      have ha : a < KERNBASE := by omega
      have hnext : (a + PGSIZE) % PGSIZE = 0 := by
        rw [Nat.add_mod_right]
        exact hal
      have hpage : a + PGSIZE ≤ roundUp oldsz := by
        unfold PGSIZE at hal hup ⊢
        omega
      have hless : oldsz - (a + PGSIZE) < n := by
        unfold PGSIZE
        omega
      cases hwalk : d.walk a with
      | none =>
        -- the table is missing, and the loop goes on behind it
        have hnone : ∀ va, a ≤ va → va < (a / 2 ^ 22 + 1) * 2 ^ 22 → d.pte va = none :=
          fun _ hle hlt => pte_missing (walk_none hwalk) hle hlt
        have hbehind : (a / 2 ^ 22 + 1) * 2 ^ 22 % PGSIZE = 0 := by
          unfold PGSIZE
          omega
        have hsub : ((a / 2 ^ 22 + 1) * 2 ^ 22 - a) % PGSIZE = 0 := by
          unfold PGSIZE at hal ⊢
          omega
        have hle : a ≤ (a / 2 ^ 22 + 1) * 2 ^ 22 := by omega
        refine (ih _ ?_ hbehind (fun va e hva => hin va e (by omega)) m rfl).mono fun d' m' h => ?_
        · omega
        · obtain ⟨hgave, hcut, hlist⟩ := h
          exact ⟨hgave, hcut.skip hnone hle, by rw [hlist, frames_skip hnone hsub hle]⟩
      | some x =>
        obtain ⟨hpte, htable⟩ := walk_some hwalk
        cases x with
        | none =>
          have hnone : ∀ va, a ≤ va → va < a + PGSIZE → d.pte va = none := fun va hle hlt => by
            rw [pte_page hal hle hlt, hpte]
          have hsub : (a + PGSIZE - a) % PGSIZE = 0 := by
            rw [Nat.add_sub_cancel_left, Nat.mod_self]
          have hle : a ≤ a + PGSIZE := Nat.le_add_right _ _
          refine (ih _ hless hnext (fun va e hva => hin va e (by omega)) m rfl).mono
            fun d' m' h => ?_
          obtain ⟨hgave, hcut, hlist⟩ := h
          exact ⟨hgave, hcut.skip hnone hle, by rw [hlist, frames_skip hnone hsub hle]⟩
        | some e =>
          have hinside := hin a e (Nat.le_refl a) hlt hpte
          have hzero : e.frame ≠ 0 := fun hc => by
            rw [hc, outside_zero] at hinside
            cases hinside
          dsimp only
          rw [if_neg hzero]
          refine Ends.bind (kfree_returns hinside m) fun _ t _ h => ?_
          obtain ⟨hgave, hfree⟩ := h
          have h32 : a < 2 ^ 32 := by
            unfold KERNBASE at ha
            omega
          have hrest : ∀ va, a + PGSIZE ≤ va → va < 2 ^ 32 →
              (d.setPte a none).pte va = d.pte va := by
            intro va hle hva
            rw [setPte_page htable hal h32 hva, if_neg (by omega)]
          refine (ih _ hless hnext (fun va e' hva hlt' he' => ?_) t rfl).mono fun d' m' h => ?_
          · rw [hrest va hva (by unfold KERNBASE at hold; omega)] at he'
            exact hin va e' (by omega) hlt' he'
          · obtain ⟨hgave', hcut, hlist⟩ := h
            refine ⟨hgave.trans hgave', Cut.cons htable hal h32 hcut hpage, ?_⟩
            have hframes : (d.setPte a none).frames (a + PGSIZE) (roundUp oldsz) =
                d.frames (a + PGSIZE) (roundUp oldsz) :=
              frames_congr fun va hle hlt' => hrest va hle (by
                have := roundUp_le_kernbase hold
                unfold KERNBASE at this
                omega)
            rw [hlist, hfree, hframes, frames_cons hpage, hpte, Option.map_some, Option.toList_some,
              List.singleton_append, List.reverse_cons, List.append_assoc, List.singleton_append]
    · rename_i hge
      have hle := roundUp_le hal (Nat.le_of_not_lt hge)
      refine ends_pure.mpr ⟨Gave.refl m, Cut.empty d hle, ?_⟩
      rw [frames_empty hle]
      rfl

/-- The pages between the two sizes are free then, in the order that they were freed, and are not
mapped any more. -/
theorem deallocuvm_returns (hold : oldsz ≤ KERNBASE) (hnew : newsz ≤ oldsz)
    (hin : ∀ va e, roundUp newsz ≤ va → va < oldsz → d.pte va = some e → K.outside e.frame = false)
    (m : Memory) :
    Returns (deallocuvm K d oldsz newsz m) fun r m' => r.2 = newsz ∧ Gave m m' ∧
      Cut d r.1 (roundUp newsz) (roundUp oldsz) ∧
      m'.freelist = (d.frames (roundUp newsz) (roundUp oldsz)).reverse ++ m.freelist := by
  unfold deallocuvm
  split
  · have heq : newsz = oldsz := by omega
    refine ends_pure.mpr ⟨heq.symm, Gave.refl m, Cut.empty d (by rw [heq]), ?_⟩
    rw [frames_empty (by rw [heq])]
    rfl
  · rw [pgroundup_eq (by omega)]
    refine Ends.bind (deallocLoop_returns (roundUp_aligned newsz) hold hin m) fun d' t _ h => ?_
    exact ends_pure.mpr ⟨rfl, h⟩

variable {others : Multiset ℕ}

theorem frames_inside (hs : Sound K m (d.pages + others)) (hva : va < KERNBASE)
    (h : d.pte va = some e) : K.outside e.frame = false :=
  hs.held_inside (Multiset.mem_add.mpr (.inl (frame_mem h hva)))

theorem frame_not_free (hs : Sound K m (d.pages + others)) (hva : va < KERNBASE)
    (h : d.pte va = some e) : e.frame ∉ m.freelist :=
  hs.not_free (Multiset.mem_add.mpr (.inl (frame_mem h hva)))

theorem freeTables_returns {is : List ℕ}
    (hin : ∀ i ∈ is, ∀ t, d.table i = some t → K.outside t.page = false) (m : Memory) :
    Returns (freeTables K d is m) fun _ m' => Gave m m' := by
  induction is generalizing m with
  | nil => exact ends_pure.mpr (Gave.refl m)
  | cons i rest ih =>
    have hrest := ih fun j hj => hin j (List.mem_cons_of_mem i hj)
    unfold freeTables
    cases ht : d.table i with
    | none => exact hrest m
    | some t =>
      refine Ends.bind (kfree_returns (hin i List.mem_cons_self t ht) m) fun _ u _ hu => ?_
      exact (hrest u).mono fun _ _ hgave => hu.1.trans hgave

/-- All that the address space had is free. -/
theorem freevm_returns (hs : Sound K m (d.pages + others)) :
    Returns (freevm K d m) fun _ m' => Gave m m' ∧ Conserves m d.pages m' 0 := by
  refine Ends.and ?_ (freevm_conserves m)
  unfold freevm
  generalize hall : List.range NPDENTRIES = is
  have hdealloc := deallocuvm_returns (Nat.le_refl KERNBASE) (Nat.zero_le KERNBASE)
    (fun va e _ hva he => frames_inside hs hva he) m
  refine Ends.bind (hdealloc.and (deallocuvm_conserves (Nat.le_refl KERNBASE) m))
    fun r t _ ht => ?_
  obtain ⟨⟨_, hgave, _, _⟩, hconserves⟩ := ht
  have hs' := hs.of_conserves (hconserves.add others)
  have htables : ∀ i ∈ is, ∀ t, r.1.table i = some t → K.outside t.page = false := by
    intro i hi t ht
    rw [← hall] at hi
    exact hs'.held_inside (Multiset.mem_add.mpr (.inl (table_mem (List.mem_range.mp hi) ht)))
  refine Ends.bind (freeTables_returns htables t) fun _ u _ hu => ?_
  have hpage := hs'.held_inside (Multiset.mem_add.mpr (.inl (page_mem r.1)))
  exact (kfree_returns hpage u).mono fun _ _ h => (hgave.trans hu).trans h.1

end Dealloc

section Tables

/-- `d'` has the tables of `d`, and perhaps more. -/
def Grows (d d' : Pgdir) : Prop :=
  d'.page = d.page ∧ ∀ i t, d.table i = some t → ∃ t', d'.table i = some t' ∧ t'.page = t.page

theorem Grows.refl (d : Pgdir) : Grows d d := ⟨rfl, fun _ t ht => ⟨t, ht, rfl⟩⟩

theorem Grows.trans (h : Grows d d') (h' : Grows d' d₁) : Grows d d₁ := by
  refine ⟨h'.1.trans h.1, fun i t ht => ?_⟩
  obtain ⟨t', ht', hpage⟩ := h.2 i t ht
  obtain ⟨t₁, ht₁, hpage₁⟩ := h'.2 i t' ht'
  exact ⟨t₁, ht₁, hpage₁.trans hpage⟩

variable {perm : BitVec 12} {n pa : ℕ}

end Tables

end NorthOS.Paging
