import Mathlib.Data.Finset.Card
import NorthOS.Copyuvm

/-!
Where there are free pages enough. Each table that walkpgdir makes is one that is missing no more, so
with a page for each missing table and one for each page that is asked for, nothing fails. Tables
are made for the addresses that are mapped and for no others.
-/
namespace NorthOS.Paging

open Halting Halting.Comp
open Vm (PGSIZE NPDENTRIES KERNBASE EXTMEM PHYSTOP DEVSPACE wrap PDX PTX PGROUNDUP PGROUNDDOWN roundUp
  pgroundup_eq pdx_kernbase)

/-- All entries of a directory. -/
@[irreducible] def entries : Finset ℕ := Finset.range NPDENTRIES

theorem mem_entries {i : ℕ} : i ∈ entries ↔ i < NPDENTRIES := by
  unfold entries
  exact Finset.mem_range

/-- How many tables are missing. -/
def Pgdir.missing (d : Pgdir) : ℕ := (entries.filter fun i => (d.table i).isNone).card

/-- A page is free for each table that is missing, and `n` pages more; and kalloc finds them. -/
structure Plenty (m : Memory) (d : Pgdir) (n : ℕ) : Prop where
  fails : m.fails = []
  pages : d.missing + n ≤ m.freelist.length

variable {K : Kernel} {m m' : Memory} {d d' : Pgdir} {perm : BitVec 12}
    {a i n va pa page oldsz newsz : ℕ}
  {ks : List Mapping}

section Missing

theorem missing_setTable (h : d.table (PDX va) = none) (page : ℕ) :
    (d.setTable va page).missing + 1 = d.missing := by
  have hmem : PDX va ∈ entries.filter fun i => (d.table i).isNone := by
    refine Finset.mem_filter.mpr ⟨mem_entries.mpr (pdx_lt va), ?_⟩
    rw [h]
    rfl
  have herase : (entries.filter fun i => ((d.setTable va page).table i).isNone) =
      (entries.filter fun i => (d.table i).isNone).erase (PDX va) := by
    ext i
    rw [Finset.mem_filter, Finset.mem_erase, Finset.mem_filter]
    unfold Pgdir.setTable
    dsimp only
    by_cases hi : i = PDX va
    · rw [hi, Function.update_self]
      simp
    · rw [Function.update_of_ne hi]
      simp [hi]
  unfold Pgdir.missing
  rw [herase]
  exact Finset.card_erase_add_one hmem

theorem missing_setPte (x : Option Pte) : (d.setPte va x).missing = d.missing := by
  unfold Pgdir.missing
  simp only [table_setPte]

theorem missing_le (d : Pgdir) : d.missing ≤ NPDENTRIES := by
  have hcard : entries.card = NPDENTRIES := by
    unfold entries
    exact Finset.card_range NPDENTRIES
  rw [← hcard]
  exact Finset.card_filter_le entries _

end Missing

section Plenty

theorem kalloc_plenty (hfails : m.fails = []) (hfree : 0 < m.freelist.length) :
    Gives (kalloc m) fun r m' => r.isSome ∧ m'.fails = [] ∧
      m'.freelist.length + 1 = m.freelist.length := by
  unfold kalloc
  split
  · rename_i h
    rw [hfails] at h
    cases h
  · rename_i h _
    rw [h] at hfree
    exact absurd hfree (Nat.lt_irrefl 0)
  · rename_i page rest hlist _
    refine ⟨rfl, ?_, ?_⟩
    · show m.fails.tail = []
      rw [hfails]
      rfl
    · rw [hlist]
      rfl

theorem walkpgdir_plenty (h : Plenty m d n) :
    Gives (walkpgdir d va m) fun r m' => ∃ d', r = some d' ∧ Plenty m' d' n := by
  unfold walkpgdir
  cases ht : d.table (PDX va) with
  | some t => exact ends_pure.mpr ⟨d, rfl, h⟩
  | none =>
    have hone := missing_setTable ht
    have hpages := h.pages
    have hpos : 0 < m.freelist.length := by
      have := hone 0
      omega
    refine Ends.bind (kalloc_plenty h.fails hpos) fun page t _ ht => ?_
    obtain ⟨hsome, hfails, hlength⟩ := ht
    cases page with
    | none => cases hsome
    | some page =>
      refine Ends.bind (memset_returns page 0 t).gives ?_
      rintro _ _ _ rfl
      refine ends_pure.mpr ⟨_, rfl, hfails, ?_⟩
      have := hone page
      dsimp only
      omega

theorem mapLoop_plenty {k : ℕ} (h : Plenty m d n) :
    Gives (mapLoop perm k d a pa m) fun r m' => r.2 = true ∧ Plenty m' r.1 n := by
  induction k generalizing d a pa m with
  | zero => exact ends_pure.mpr ⟨rfl, h⟩
  | succ k ih =>
    unfold mapLoop
    refine Ends.bind (walkpgdir_plenty h) fun r t _ ht => ?_
    obtain ⟨d', rfl, h'⟩ := ht
    dsimp only
    split
    · exact id
    · refine ih ⟨h'.fails, ?_⟩
      rw [missing_setPte]
      exact h'.pages

theorem setupLoop_plenty (h : Plenty m d n) :
    Gives (setupLoop K ks d m) fun r m' => ∃ d', r = some d' ∧ Plenty m' d' n := by
  induction ks generalizing d m with
  | nil => exact ends_pure.mpr ⟨d, rfl, h⟩
  | cons k rest ih =>
    obtain ⟨⟨virt, phys_start, phys_end⟩, perm⟩ := k
    unfold setupLoop
    refine Ends.bind (mapLoop_plenty h) fun r t _ ht => ?_
    dsimp only
    rw [if_pos ht.1]
    exact ih ht.2

theorem setupkvm_plenty (hfails : m.fails = []) (hfree : NPDENTRIES + 1 + n ≤ m.freelist.length) :
    Gives (setupkvm K m) fun r m' => ∃ d, r = some d ∧ Plenty m' d n := by
  unfold setupkvm
  refine Ends.bind (kalloc_plenty hfails (by omega)) fun page t _ ht => ?_
  obtain ⟨hsome, hfails', hlength⟩ := ht
  cases page with
  | none => cases hsome
  | some page =>
    refine Ends.bind (memset_returns page 0 t).gives ?_
    rintro _ _ _ rfl
    refine setupLoop_plenty ⟨hfails', ?_⟩
    have := missing_le ⟨page, fun _ => none⟩
    dsimp only
    omega

/-- `c` pages reach from `a` to the new size. -/
theorem allocLoop_plenty {c : ℕ} (h : Plenty m d (n + c)) (hc : newsz ≤ a + c * PGSIZE) :
    Gives (allocLoop K d a oldsz newsz m) fun r m' => r.2 = newsz ∧ Plenty m' r.1 n := by
  induction hk : newsz - a using Nat.strong_induction_on generalizing d a m c with
  | _ k ih =>
    have hpages := h.pages
    rw [allocLoop]
    split
    · rename_i hlt
      obtain ⟨c, rfl⟩ : ∃ c', c = c' + 1 := Nat.exists_eq_succ_of_ne_zero fun hzero => by
        rw [hzero] at hc
        omega
      refine Ends.bind (kalloc_plenty h.fails (by omega)) fun mem t _ ht => ?_
      obtain ⟨hsome, hfails, hlength⟩ := ht
      cases mem with
      | none => cases hsome
      | some mem =>
        refine Ends.bind (memset_returns mem 0 t).gives ?_
        rintro _ _ _ rfl
        have hless : Plenty { t with bytes := Function.update t.bytes mem fun _ => 0 } d (n + c) :=
          ⟨hfails, by dsimp only; omega⟩
        refine Ends.bind (mapLoop_plenty hless) fun r u _ hu => ?_
        dsimp only
        rw [if_pos hu.1]
        refine ih _ ?_ hu.2 ?_ rfl
        · unfold PGSIZE
          omega
        · rw [Nat.add_mul] at hc
          omega
    · exact ends_pure.mpr ⟨rfl, h.fails, by dsimp only; omega⟩

theorem allocuvm_plenty {c : ℕ} (h : Plenty m d (n + c)) (hle : oldsz ≤ newsz)
    (hnew : newsz < KERNBASE) (hc : newsz ≤ roundUp oldsz + c * PGSIZE) :
    Gives (allocuvm K d oldsz newsz m) fun r m' => r.2 = newsz ∧ Plenty m' r.1 n := by
  unfold allocuvm
  rw [if_neg (by omega), if_neg (by omega), pgroundup_eq (by omega)]
  exact allocLoop_plenty h hc

end Plenty

section Tables

theorem table_none (h : (d.table i).isNone) : d.table i = none := Option.isNone_iff_eq_none.mp h

theorem walkpgdir_tables (hi : PDX va ≠ i) (h : d.table i = none) (m : Memory) :
    Gives (walkpgdir d va m) fun r _ => ∀ d', r = some d' → d'.table i = none := by
  unfold walkpgdir
  cases d.table (PDX va) with
  | some t =>
    refine ends_pure.mpr ?_
    rintro _ ⟨⟩
    exact h
  | none =>
    refine Ends.bind (refines_kalloc m) fun page t _ _ => ?_
    cases page with
    | none => exact ends_pure.mpr nofun
    | some page =>
      refine Ends.bind (memset_freelist page 0 t) fun _ u _ _ => ends_pure.mpr ?_
      rintro _ ⟨⟩
      unfold Pgdir.setTable
      dsimp only
      rw [Function.update_of_ne hi.symm]
      exact h

theorem mapLoop_tables {k : ℕ} (hi : ∀ j, j < k → PDX (a + j * PGSIZE) ≠ i) (h : d.table i = none)
    (m : Memory) : Gives (mapLoop perm k d a pa m) fun r _ => r.1.table i = none := by
  induction k generalizing d a pa m with
  | zero => exact ends_pure.mpr h
  | succ k ih =>
    have hfirst : PDX a ≠ i := by
      have hzero := hi 0 (Nat.succ_pos k)
      rwa [Nat.zero_mul, Nat.add_zero] at hzero
    unfold mapLoop
    refine Ends.bind (walkpgdir_tables hfirst h m) fun r t _ ht => ?_
    cases r with
    | none => exact ends_pure.mpr h
    | some d' =>
      dsimp only
      split
      · exact id
      · refine ih (fun j hj => ?_) ?_ t
        · have hnext := hi (j + 1) (by omega)
          rw [Nat.add_mul, Nat.one_mul, Nat.add_comm (j * PGSIZE), ← Nat.add_assoc] at hnext
          exact hnext
        · refine table_none ?_
          rw [table_setPte, ht d' rfl]
          rfl

theorem deallocLoop_tables (h : d.table i = none) (m : Memory) :
    Gives (deallocLoop K d a oldsz m) fun d' _ => d'.table i = none := by
  induction hn : oldsz - a using Nat.strong_induction_on generalizing d a m with
  | _ n ih =>
    rw [deallocLoop]
    split
    · have hless : oldsz - (a + PGSIZE) < n := by
        unfold PGSIZE
        omega
      cases d.walk a with
      | none => exact ih _ (by omega) h m rfl
      | some x =>
        cases x with
        | none => exact ih _ hless h m rfl
        | some e =>
          dsimp only
          split
          · exact id
          · refine Ends.bind (refines_kfree K e.frame m) fun _ t _ _ => ?_
            refine ih _ hless (table_none ?_) t rfl
            rw [table_setPte, h]
            rfl
    · exact ends_pure.mpr h

theorem deallocuvm_tables (h : d.table i = none) (m : Memory) :
    Gives (deallocuvm K d oldsz newsz m) fun r _ => r.1.table i = none := by
  unfold deallocuvm
  split
  · exact ends_pure.mpr h
  · exact Ends.bind (deallocLoop_tables h m) fun d' t _ hd => ends_pure.mpr hd

theorem allocLoop_tables (hnew : newsz ≤ KERNBASE) (hal : a % PGSIZE = 0) (hi : PDX KERNBASE ≤ i)
    (h : d.table i = none) (m : Memory) :
    Gives (allocLoop K d a oldsz newsz m) fun r _ => r.1.table i = none := by
  induction hn : newsz - a using Nat.strong_induction_on generalizing d a m with
  | _ n ih =>
    rw [allocLoop]
    split
    · refine Ends.bind (refines_kalloc m) fun mem t _ _ => ?_
      cases mem with
      | none => exact Ends.bind (deallocuvm_tables h t) fun r u _ hr => ends_pure.mpr hr
      | some mem =>
        have hmap : ∀ j, j < (PGROUNDDOWN (a + PGSIZE - 1) - PGROUNDDOWN a) / PGSIZE + 1 →
            PDX (PGROUNDDOWN a + j * PGSIZE) ≠ i := by
          intro j hj
          rw [pdx_kernbase] at hi
          unfold PGROUNDDOWN at hj ⊢
          unfold PDX
          unfold PGSIZE at hal hj ⊢
          unfold KERNBASE at hnew
          omega
        refine Ends.bind (memset_freelist mem 0 t) fun _ u _ _ => ?_
        refine Ends.bind (mapLoop_tables hmap h u) fun r v _ hr => ?_
        dsimp only
        split
        · refine ih _ ?_ ?_ hr v rfl
          · unfold PGSIZE
            omega
          · rw [Nat.add_mod_right]
            exact hal
        · refine Ends.bind (deallocuvm_tables hr v) fun r' w _ hr' => ?_
          exact Ends.bind (refines_kfree K mem w) fun _ x _ _ => ends_pure.mpr hr'
    · exact ends_pure.mpr h

theorem allocuvm_tables (hi : PDX KERNBASE ≤ i) (h : d.table i = none) (m : Memory) :
    Gives (allocuvm K d oldsz newsz m) fun r _ => r.1.table i = none := by
  unfold allocuvm
  split
  · exact ends_pure.mpr h
  · split
    · exact ends_pure.mpr h
    · refine allocLoop_tables (by omega) ?_ hi h m
      unfold PGROUNDUP
      exact Nat.mul_mod_left _ _

theorem setupLoop_tables (hks : ∀ k ∈ ks, k.Fits ∧ ∀ va, k.Within va → PDX va ≠ i)
    (h : d.table i = none) (m : Memory) :
    Gives (setupLoop K ks d m) fun r _ => ∀ d', r = some d' → d'.table i = none := by
  induction ks generalizing d m with
  | nil =>
    refine ends_pure.mpr ?_
    rintro _ ⟨⟩
    exact h
  | cons k rest ih =>
    obtain ⟨hfits, hout⟩ := hks k List.mem_cons_self
    have hmap : ∀ j, j < (PGROUNDDOWN (k.1.1 + k.size - 1) - PGROUNDDOWN k.1.1) / PGSIZE + 1 →
        PDX (PGROUNDDOWN k.1.1 + j * PGSIZE) ≠ i := by
      intro j hj
      have hstart := hfits.start
      have hwhole := hfits.whole
      have hpos := hfits.above.2.1
      refine hout _ ?_
      unfold Mapping.Within
      unfold PGROUNDDOWN at hj ⊢
      unfold PGSIZE at hstart hwhole hj ⊢
      omega
    unfold setupLoop
    refine Ends.bind (mapLoop_tables hmap h m) fun r t _ hr => ?_
    dsimp only
    split
    · exact ih (fun k' hk' => hks k' (List.mem_cons_of_mem k hk')) hr t
    · exact Ends.bind (freevm_refines K r.1 t) fun _ u _ _ =>
        ends_pure.mpr of_none

/-- Between the kernel's memory and the devices no page tables are made. -/
theorem setupkvm_tables (hlo : KERNBASE + PHYSTOP ≤ va) (hhi : va < DEVSPACE) (m : Memory) :
    Gives (setupkvm K m) fun r _ => ∀ d, r = some d → d.table (PDX va) = none := by
  have hout : ∀ k : Mapping, k ∈ K.kmap → k.Fits ∧ ∀ va', k.Within va' → PDX va' ≠ PDX va := by
    intro k hk
    refine ⟨kmap_fits hk, fun va' hin => ?_⟩
    have habove := K.above
    have hbelow := K.below
    unfold EXTMEM at habove
    unfold PHYSTOP at hbelow hlo
    unfold KERNBASE at hlo
    unfold DEVSPACE at hhi
    unfold PDX
    rcases kmap_cases hk with rfl | rfl | rfl | rfl <;>
      simp only [Mapping.Within, Mapping.size, wrap, KERNBASE, EXTMEM, PHYSTOP, DEVSPACE] at hin <;>
        omega
  unfold setupkvm
  refine Ends.bind (refines_kalloc m) fun page t _ _ => ?_
  cases page with
  | none => exact ends_pure.mpr of_none
  | some page =>
    exact Ends.bind (memset_freelist page 0 t) fun _ u _ _ => setupLoop_tables hout rfl u

end Tables

end NorthOS.Paging
