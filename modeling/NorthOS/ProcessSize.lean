import Mathlib.Order.Interval.Set.Basic
import NorthOS.PageTables

/-!
What growproc makes of an address space. The pages of a process are those from 0 to its size;
on any outcome of the allocator its size and its pages are to change together, and both not
at all when growproc fails.
-/
namespace NorthOS.Vm

open Pool

/-- PGROUNDUP of a number that is far from the end of the unsigned integers. -/
def roundUp (sz : ℕ) : ℕ := (sz + PGSIZE - 1) / PGSIZE * PGSIZE

/-- The user part that is mapped. -/
def Pgdir.userPages (d : Pgdir) : Set ℕ := {va | va < KERNBASE ∧ (d.pte va).isSome}

/-- The pages of a process of this size and no others are mapped. -/
def Pgdir.Exact (d : Pgdir) (sz : ℕ) : Prop := d.userPages = Set.Iio (roundUp sz)

/-- No page of a process is page 0, which the allocator was never given. -/
structure Pgdir.Covers (d : Pgdir) (sz : ℕ) : Prop where
  exact : d.Exact sz
  frames : ∀ va ∈ d.userPages, d.pte va ≠ some 0

/-- growproc does what it says, however its calls to the allocator end. -/
def Grows (d : Pgdir) (sz : ℕ) (n : ℤ) : Prop :=
  ∀ d' sz' r, (growproc d sz n).Yields (d', sz', r) →
    (r = 0 → (sz' : ℤ) = sz + n ∧ d'.Exact sz') ∧
    (r = -1 → sz' = sz ∧ ∀ va, va < 2 ^ 32 → d'.pte va = d.pte va)

variable {d d' : Pgdir} {t : Table} {a va pa sz oldsz newsz mem : ℕ} {n : ℤ}

section Entries

theorem pte_setTable (h : d.table (PDX a) = none) (page : ℕ) : (d.setTable a page).pte = d.pte := by
  funext va
  unfold Pgdir.pte Pgdir.setTable
  dsimp only
  by_cases hva : PDX va = PDX a
  · rw [hva, Function.update_self, h]
    rfl
  · rw [Function.update_of_ne hva]

theorem setPte_pte (ht : d.table (PDX a) = some t) (x : Option ℕ) (va : ℕ) :
    (d.setPte a x).pte va = if PDX va = PDX a ∧ PTX va = PTX a then x else d.pte va := by
  by_cases hp : PDX va = PDX a
  · by_cases hq : PTX va = PTX a
    · have hsame : (d.setPte a x).pte va = (d.setPte a x).pte a := by
        unfold Pgdir.pte
        rw [hp, hq]
      rw [if_pos ⟨hp, hq⟩, hsame]
      exact pte_setPte ht x
    · rw [if_neg fun h => hq h.2]
      unfold Pgdir.pte Pgdir.setPte
      dsimp only
      rw [hp, Function.update_self, ht]
      exact Function.update_of_ne hq _ _
  · rw [if_neg fun h => hp h.1]
    unfold Pgdir.pte Pgdir.setPte
    dsimp only
    rw [Function.update_of_ne hp]

/-- Two addresses have the same entry when they are in the same page. -/
theorem same_page (hal : a % PGSIZE = 0) (ha : a < 2 ^ 32) (hva : va < 2 ^ 32) :
    (PDX va = PDX a ∧ PTX va = PTX a) ↔ a ≤ va ∧ va < a + PGSIZE := by
  unfold PDX PTX
  unfold PGSIZE at hal ⊢
  omega

theorem setPte_page (ht : d.table (PDX a) = some t) (hal : a % PGSIZE = 0) (ha : a < 2 ^ 32)
    (hva : va < 2 ^ 32) (x : Option ℕ) :
    (d.setPte a x).pte va = if a ≤ va ∧ va < a + PGSIZE then x else d.pte va := by
  rw [setPte_pte ht, if_congr (same_page hal ha hva) rfl rfl]

theorem walkpgdir_yields (h : (walkpgdir d a).Yields (some d')) :
    d'.pte = d.pte ∧ ∃ t, d'.table (PDX a) = some t := by
  unfold walkpgdir at h
  split at h
  · rename_i t ht
    obtain rfl := Option.some.inj (Prog.yields_pure.mp h)
    exact ⟨rfl, t, ht⟩
  · rename_i ht
    obtain ⟨r, hr⟩ := Prog.yields_alloc.mp h
    cases r with
    | none => cases Prog.yields_pure.mp hr
    | some page =>
      obtain rfl := Option.some.inj (Prog.yields_pure.mp hr)
      exact ⟨pte_setTable ht page, _, Function.update_self _ _ _⟩

/-- Mapping one page maps it, or nothing. -/
theorem mappages_yields {ok : Bool} (hal : a % PGSIZE = 0) (ha : a < 2 ^ 32)
    (h : (mappages d a PGSIZE mem).Yields (d', ok)) :
    (ok = true ∧ ∀ va, va < 2 ^ 32 →
      d'.pte va = if a ≤ va ∧ va < a + PGSIZE then some mem else d.pte va) ∨
    (ok = false ∧ d'.pte = d.pte) := by
  have hone : (PGROUNDDOWN (a + PGSIZE - 1) - PGROUNDDOWN a) / PGSIZE + 1 = 1 := by
    unfold PGROUNDDOWN PGSIZE
    unfold PGSIZE at hal
    omega
  have hdown : PGROUNDDOWN a = a := by
    unfold PGROUNDDOWN
    exact Nat.div_mul_cancel (Nat.dvd_of_mod_eq_zero hal)
  unfold mappages at h
  rw [hone, hdown] at h
  unfold mapLoop at h
  obtain ⟨w, hw, h⟩ := Prog.yields_bind.mp h
  cases w with
  | none =>
    obtain ⟨rfl, rfl⟩ := Prod.mk.inj (Prog.yields_pure.mp h)
    exact Or.inr ⟨rfl, rfl⟩
  | some d₁ =>
    obtain ⟨hpte, t, ht⟩ := walkpgdir_yields hw
    dsimp only at h
    split at h
    · exact absurd h id
    · obtain ⟨rfl, rfl⟩ := Prod.mk.inj (Prog.yields_pure.mp h)
      refine Or.inl ⟨rfl, fun va hva => ?_⟩
      rw [setPte_page ht hal ha hva, hpte]

end Entries

section Dealloc

theorem roundUp_aligned (sz : ℕ) : roundUp sz % PGSIZE = 0 := Nat.mul_mod_left _ _

theorem le_roundUp (sz : ℕ) : sz ≤ roundUp sz := by
  unfold roundUp PGSIZE
  omega

theorem roundUp_le (hal : a % PGSIZE = 0) (h : sz ≤ a) : roundUp sz ≤ a := by
  unfold roundUp
  unfold PGSIZE at hal ⊢
  omega

theorem roundUp_le_kernbase (h : sz ≤ KERNBASE) : roundUp sz ≤ KERNBASE :=
  roundUp_le (by decide) h

theorem pgroundup_eq (h : sz ≤ KERNBASE) : PGROUNDUP sz = roundUp sz := by
  unfold PGROUNDUP roundUp wrap PGSIZE
  unfold KERNBASE at h
  rw [Nat.mod_eq_of_lt (by omega)]

/-- What remains when the pages from `a` to `hi` are taken away. -/
def Cut (d d' : Pgdir) (a hi : ℕ) : Prop :=
  ∀ va, va < 2 ^ 32 → d'.pte va = if a ≤ va ∧ va < hi then none else d.pte va

theorem Cut.cons {hi : ℕ} (h : Cut d₁ d' (a + PGSIZE) hi)
    (hpage : ∀ va, va < 2 ^ 32 → d₁.pte va = if a ≤ va ∧ va < a + PGSIZE then none else d.pte va)
    (hle : a + PGSIZE ≤ hi) : Cut d d' a hi := by
  intro va hva
  rw [h va hva, hpage va hva]
  split
  · rename_i hin
    rw [if_pos ⟨by omega, hin.2⟩]
  · rename_i hout
    split
    · rename_i hin
      rw [if_pos ⟨hin.1, by omega⟩]
    · rename_i hin
      rw [if_neg fun hcut => ?_]
      by_cases hva' : va < a + PGSIZE
      · exact hin ⟨hcut.1, hva'⟩
      · exact hout ⟨by omega, hcut.2⟩

/-- A table that is missing maps none of its pages. -/
theorem pte_missing (ht : d.table (PDX a) = none) (hle : a ≤ va)
    (hlt : va < (a / 2 ^ 22 + 1) * 2 ^ 22) : d.pte va = none := by
  have hpdx : PDX va = PDX a := by
    unfold PDX
    omega
  unfold Pgdir.pte
  rw [hpdx, ht]
  rfl

theorem pte_found (ht : d.table (PDX a) = some t) : d.pte a = t.pte (PTX a) := by
  unfold Pgdir.pte
  rw [ht]
  rfl

/-- The loop takes away the pages from `a` on, up to the last that begins below the old size. -/
theorem deallocLoop_yields (hold : oldsz ≤ KERNBASE) (hal : a % PGSIZE = 0)
    (h : (deallocLoop d a oldsz).Yields d') : Cut d d' a (roundUp oldsz) := by
  induction hm : oldsz - a using Nat.strong_induction_on generalizing d a with
  | _ m ih =>
    have hround := roundUp_le_kernbase hold
    rw [deallocLoop] at h
    split at h
    · rename_i hlt
      have hpage : a + PGSIZE ≤ roundUp oldsz := by
        unfold roundUp
        unfold PGSIZE at hal ⊢
        omega
      have hal' : (a + PGSIZE) % PGSIZE = 0 := by
        unfold PGSIZE at hal ⊢
        omega
      have hless : oldsz - (a + PGSIZE) < m := by
        unfold PGSIZE
        omega
      have ha : a < 2 ^ 32 := by
        unfold KERNBASE at hold
        omega
      split at h
      · rename_i ht
        have hnext := ih _ (by omega) (by unfold PGSIZE; omega) h rfl
        intro va hva
        rw [hnext va hva]
        by_cases hskip : a ≤ va ∧ va < (a / 2 ^ 22 + 1) * 2 ^ 22
        · rw [pte_missing ht hskip.1 hskip.2, ite_self, ite_self]
        · refine if_congr ?_ rfl rfl
          constructor
          · intro hin
            exact ⟨by omega, hin.2⟩
          · intro hin
            exact ⟨by omega, hin.2⟩
      · rename_i t ht
        split at h
        · rename_i hnone
          refine (ih _ hless hal' h rfl).cons (fun va hva => ?_) hpage
          split
          · rename_i hin
            rw [pte_page hal hin.1 hin.2, pte_found ht, hnone]
          · rfl
        · split at h
          · exact absurd h id
          · have hfree := Prog.yields_free.mp h
            exact (ih _ hless hal' hfree rfl).cons
              (fun va hva => setPte_page ht hal ha hva none) hpage
    · rename_i hge
      obtain rfl : d = d' := h
      have hle : roundUp oldsz ≤ a := roundUp_le hal (by omega)
      intro va _
      rw [if_neg fun hin => ?_]
      omega

/-- Without page 0 among the pages that it frees the loop does not panic. -/
theorem deallocLoop_returns (hold : oldsz ≤ KERNBASE) (hal : a % PGSIZE = 0)
    (hframes : ∀ va, va < KERNBASE → d.pte va ≠ some 0) :
    ∃ d', (deallocLoop d a oldsz).Yields d' := by
  induction hm : oldsz - a using Nat.strong_induction_on generalizing d a with
  | _ m ih =>
    rw [deallocLoop]
    split
    · rename_i hlt
      have hal' : (a + PGSIZE) % PGSIZE = 0 := by
        unfold PGSIZE at hal ⊢
        omega
      have hless : oldsz - (a + PGSIZE) < m := by
        unfold PGSIZE
        omega
      split
      · exact ih _ (by omega) (by unfold PGSIZE; omega) hframes rfl
      · rename_i t ht
        split
        · exact ih _ hless hal' hframes rfl
        · rename_i pa hpa
          have hpte := hframes a (by omega)
          rw [pte_found ht, hpa] at hpte
          rw [if_neg fun h0 => hpte (congrArg some h0)]
          have hrest : ∀ va, va < KERNBASE → (d.setPte a none).pte va ≠ some 0 := by
            intro va hva
            rw [setPte_pte ht]
            split
            · exact (Option.some_ne_none 0).symm
            · exact hframes va hva
          obtain ⟨d', hd'⟩ := ih _ hless hal' hrest rfl
          exact ⟨d', Prog.yields_free.mpr hd'⟩
    · exact ⟨d, Prog.yields_pure.mpr rfl⟩

theorem deallocuvm_yields {r : ℕ} (hold : oldsz ≤ KERNBASE) (hlt : newsz < oldsz)
    (h : (deallocuvm d oldsz newsz).Yields (d', r)) :
    r = newsz ∧ Cut d d' (roundUp newsz) (roundUp oldsz) := by
  unfold deallocuvm at h
  rw [if_neg (by omega), pgroundup_eq (by omega)] at h
  obtain ⟨d₁, hd₁, h⟩ := Prog.yields_bind.mp h
  obtain ⟨rfl, rfl⟩ := Prod.mk.inj (Prog.yields_pure.mp h)
  exact ⟨rfl, deallocLoop_yields hold (roundUp_aligned newsz) hd₁⟩

end Dealloc

section Alloc

/-- `d'` is `d` with pages mapped from `lo` up to `a`. -/
def Grown (d d' : Pgdir) (lo a : ℕ) : Prop :=
  ∀ va, va < 2 ^ 32 → if lo ≤ va ∧ va < a then (d'.pte va).isSome else d'.pte va = d.pte va

theorem Grown.refl (d : Pgdir) (a : ℕ) : Grown d d a a := by
  intro va _
  rw [if_neg fun h => ?_]
  omega

theorem Grown.congr {d₁ d₂ : Pgdir} {lo : ℕ} (h : Grown d d₁ lo a) (hpte : d₂.pte = d₁.pte) :
    Grown d d₂ lo a := by
  intro va hva
  rw [hpte]
  exact h va hva

theorem Grown.snoc {d₁ d₂ : Pgdir} {lo : ℕ} (h : Grown d d₁ lo a) (hlo : lo ≤ a)
    (hpage : ∀ va, va < 2 ^ 32 → d₂.pte va = if a ≤ va ∧ va < a + PGSIZE then some mem else d₁.pte va) :
    Grown d d₂ lo (a + PGSIZE) := by
  intro va hva
  have hbefore := h va hva
  rw [hpage va hva]
  by_cases hin : a ≤ va ∧ va < a + PGSIZE
  · rw [if_pos ⟨by omega, hin.2⟩, if_pos hin]
    rfl
  · rw [if_neg hin]
    by_cases hold : lo ≤ va ∧ va < a
    · rw [if_pos ⟨hold.1, by omega⟩]
      rw [if_pos hold] at hbefore
      exact hbefore
    · rw [if_neg fun hnew => ?_]
      · rw [if_neg hold] at hbefore
        exact hbefore
      · by_cases hva' : va < a
        · exact hold ⟨hnew.1, hva'⟩
        · exact hin ⟨by omega, hnew.2⟩

/-- What was mapped on the way is taken away again. -/
theorem Grown.undo {d₁ : Pgdir} {lo hi : ℕ} (h : Grown d d₁ lo a) (ha : a ≤ hi)
    (hclear : ∀ va, lo ≤ va → va < hi → d.pte va = none) (hcut : Cut d₁ d' lo hi) :
    ∀ va, va < 2 ^ 32 → d'.pte va = d.pte va := by
  intro va hva
  have hbefore := h va hva
  rw [hcut va hva]
  split
  · rename_i hin
    exact (hclear va hin.1 hin.2).symm
  · rename_i hout
    rw [if_neg fun hin => hout ⟨hin.1, by omega⟩] at hbefore
    exact hbefore

/-- The loop maps the pages up to the new size, or in the end none. -/
theorem allocLoop_yields {d₀ : Pgdir} {r : ℕ} (hnew : newsz < KERNBASE) (hle : oldsz ≤ newsz)
    (hal : a % PGSIZE = 0) (hlo : roundUp oldsz ≤ a) (hhi : a ≤ roundUp newsz)
    (hclear : ∀ va, roundUp oldsz ≤ va → va < KERNBASE → d₀.pte va = none)
    (hd : Grown d₀ d (roundUp oldsz) a) (h : (allocLoop d a oldsz newsz).Yields (d', r)) :
    (r = newsz ∧ Grown d₀ d' (roundUp oldsz) (roundUp newsz)) ∨
    (r = 0 ∧ ∀ va, va < 2 ^ 32 → d'.pte va = d₀.pte va) := by
  have hold := le_roundUp oldsz
  have hround := roundUp_le_kernbase hnew.le
  induction hm : newsz - a using Nat.strong_induction_on generalizing d a with
  | _ m ih =>
    rw [allocLoop] at h
    split at h
    · rename_i hlt
      have hundo : ∀ {d₁ d₂ : Pgdir} {z : ℕ}, Grown d₀ d₁ (roundUp oldsz) a →
          (deallocuvm d₁ newsz oldsz).Yields (d₂, z) → ∀ va, va < 2 ^ 32 →
          d₂.pte va = d₀.pte va := by
        intro d₁ d₂ z hgrown hdealloc
        obtain ⟨_, hcut⟩ := deallocuvm_yields hnew.le (by omega) hdealloc
        exact hgrown.undo hhi (fun va hva hva' => hclear va hva (by omega)) hcut
      obtain ⟨mem, h⟩ := Prog.yields_alloc.mp h
      cases mem with
      | none =>
        obtain ⟨⟨d₁, z⟩, hdealloc, h⟩ := Prog.yields_bind.mp h
        obtain ⟨rfl, rfl⟩ := Prod.mk.inj (Prog.yields_pure.mp h)
        exact Or.inr ⟨rfl, hundo hd hdealloc⟩
      | some mem =>
        obtain ⟨⟨d₁, ok⟩, hmap, h⟩ := Prog.yields_bind.mp h
        have ha : a < 2 ^ 32 := by
          unfold KERNBASE at hnew
          omega
        dsimp only at h
        rcases mappages_yields hal ha hmap with ⟨rfl, hpage⟩ | ⟨rfl, hpte⟩
        · rw [if_pos rfl] at h
          refine ih _ ?_ ?_ ?_ ?_ (hd.snoc hlo hpage) h rfl
          · unfold PGSIZE
            omega
          · unfold PGSIZE at hal ⊢
            omega
          · omega
          · unfold roundUp
            unfold PGSIZE at hal ⊢
            omega
        · rw [if_neg (by decide)] at h
          obtain ⟨⟨d₂, z⟩, hdealloc, h⟩ := Prog.yields_bind.mp h
          obtain ⟨rfl, rfl⟩ := Prod.mk.inj (Prog.yields_pure.mp (Prog.yields_free.mp h))
          exact Or.inr ⟨rfl, hundo (hd.congr hpte) hdealloc⟩
    · rename_i hge
      obtain ⟨rfl, rfl⟩ := Prod.mk.inj (Prog.yields_pure.mp h)
      have hend : a = roundUp newsz := Nat.le_antisymm hhi (roundUp_le hal (by omega))
      rw [← hend]
      exact Or.inl ⟨rfl, hd⟩

end Alloc

section Sizes

theorem Pgdir.Exact.mem_iff (h : d.Exact sz) :
    (va < KERNBASE ∧ (d.pte va).isSome) ↔ va < roundUp sz := by
  have hmem : va ∈ d.userPages ↔ va ∈ Set.Iio (roundUp sz) := by rw [h]
  exact hmem

/-- No process is larger than the user part. -/
theorem Pgdir.Exact.le (h : d.Exact sz) : sz ≤ KERNBASE := by
  by_contra hgt
  have hround := le_roundUp sz
  have hmem : KERNBASE < KERNBASE ∧ (d.pte KERNBASE).isSome := h.mem_iff.mpr (by omega)
  exact absurd hmem.1 (Nat.lt_irrefl _)

theorem Pgdir.Exact.clear (h : d.Exact sz) (hva : roundUp sz ≤ va) (hlt : va < KERNBASE) :
    d.pte va = none := by
  by_contra hsome
  have hmem := h.mem_iff.mp ⟨hlt, Option.isSome_iff_ne_none.mpr hsome⟩
  omega

theorem Pgdir.Exact.grown (h : d.Exact sz) (hle : sz ≤ newsz) (hnew : newsz ≤ KERNBASE)
    (hd : Grown d d' (roundUp sz) (roundUp newsz)) : d'.Exact newsz := by
  have hround := roundUp_le_kernbase hnew
  have hmono : roundUp sz ≤ roundUp newsz := by
    unfold roundUp PGSIZE
    omega
  ext va
  constructor
  · intro ⟨hlt, hsome⟩
    have hpte := hd va (by unfold KERNBASE at hlt; omega)
    show va < roundUp newsz
    by_contra hge
    rw [if_neg fun hin => hge hin.2] at hpte
    rw [hpte] at hsome
    have hmem := h.mem_iff.mp ⟨hlt, hsome⟩
    omega
  · intro hva
    have hlt : va < KERNBASE := Nat.lt_of_lt_of_le hva hround
    have hpte := hd va (by unfold KERNBASE at hlt; omega)
    refine ⟨hlt, ?_⟩
    split at hpte
    · exact hpte
    · rename_i hout
      rw [hpte]
      refine (h.mem_iff.mpr ?_).2
      by_contra hge
      exact hout ⟨by omega, hva⟩

theorem Pgdir.Exact.cut (h : d.Exact sz) (hle : newsz ≤ sz)
    (hd : Cut d d' (roundUp newsz) (roundUp sz)) : d'.Exact newsz := by
  have hmono : roundUp newsz ≤ roundUp sz := by
    unfold roundUp PGSIZE
    omega
  have hround := roundUp_le_kernbase h.le
  ext va
  constructor
  · intro ⟨hlt, hsome⟩
    rw [hd va (by unfold KERNBASE at hlt; omega)] at hsome
    show va < roundUp newsz
    split at hsome
    · cases hsome
    · rename_i hout
      have hmem := h.mem_iff.mp ⟨hlt, hsome⟩
      by_contra hge
      exact hout ⟨by omega, hmem⟩
  · intro hva
    have hva' : va < roundUp newsz := hva
    obtain ⟨hlt, hsome⟩ := h.mem_iff.mpr (Nat.lt_of_lt_of_le hva' hmono)
    refine ⟨hlt, ?_⟩
    rw [hd va (by unfold KERNBASE at hlt; omega), if_neg (by omega)]
    exact hsome

end Sizes

section Results

theorem grows_more (h : d.Exact sz) (hpos : 0 < n) (hn : n < 2 ^ 31) : Grows d sz n := by
  intro d' sz' r hy
  have hsz := h.le
  unfold KERNBASE at hsz
  have hnew : ((sz + n) % 2 ^ 32).toNat = (sz + n).toNat := by omega
  unfold growproc at hy
  dsimp only at hy
  rw [if_pos hpos, hnew] at hy
  obtain ⟨⟨d₁, z⟩, hy₁, hy⟩ := Prog.yields_bind.mp hy
  dsimp only at hy
  unfold allocuvm at hy₁
  have hfail : z = 0 → (∀ va, va < 2 ^ 32 → d₁.pte va = d.pte va) →
      (r = 0 → (sz' : ℤ) = sz + n ∧ d'.Exact sz') ∧
      (r = -1 → sz' = sz ∧ ∀ va, va < 2 ^ 32 → d'.pte va = d.pte va) := by
    intro hz hsame
    rw [if_pos hz] at hy
    cases Prog.yields_pure.mp hy
    exact ⟨nofun, fun _ => ⟨rfl, hsame⟩⟩
  split at hy₁
  · cases Prog.yields_pure.mp hy₁
    exact hfail rfl fun _ _ => rfl
  · rename_i hbelow
    rw [if_neg (by omega), pgroundup_eq h.le] at hy₁
    have hle : sz ≤ (sz + n).toNat := by omega
    have hlt : (sz + n).toNat < KERNBASE := by omega
    have hmono : roundUp sz ≤ roundUp (sz + n).toNat := by
      unfold roundUp PGSIZE
      omega
    rcases allocLoop_yields hlt hle (roundUp_aligned sz) le_rfl hmono
      (fun va hva hva' => h.clear hva hva') (.refl d _) hy₁ with ⟨rfl, hgrown⟩ | ⟨rfl, hsame⟩
    · rw [if_neg (by omega)] at hy
      cases Prog.yields_pure.mp hy
      exact ⟨fun _ => ⟨by omega, h.grown hle hlt.le hgrown⟩, nofun⟩
    · exact hfail rfl hsame

theorem grows_zero (h : d.Exact sz) : Grows d sz 0 := by
  intro d' sz' r hy
  unfold growproc at hy
  dsimp only at hy
  rw [if_neg (by decide), if_neg (by decide)] at hy
  cases Prog.yields_pure.mp hy
  exact ⟨fun _ => ⟨by omega, h⟩, nofun⟩

theorem grows_less (h : d.Exact sz) (hneg : n < 0) (hpos : 0 < sz + n) : Grows d sz n := by
  intro d' sz' r hy
  have hsz := h.le
  unfold KERNBASE at hsz
  have hnew : ((sz + n) % 2 ^ 32).toNat = (sz + n).toNat := by omega
  have hlt : (sz + n).toNat < sz := by omega
  unfold growproc at hy
  dsimp only at hy
  rw [if_neg (by omega), if_pos hneg, hnew] at hy
  obtain ⟨⟨d₁, z⟩, hy₁, hy⟩ := Prog.yields_bind.mp hy
  obtain ⟨rfl, hcut⟩ := deallocuvm_yields h.le hlt hy₁
  dsimp only at hy
  rw [if_neg (by omega)] at hy
  cases Prog.yields_pure.mp hy
  exact ⟨fun _ => ⟨by omega, h.cut hlt.le hcut⟩, nofun⟩

/-- Below zero the new size wraps and is no smaller; nothing is done. -/
theorem growproc_below (h : d.Exact sz) (hn : -2 ^ 31 ≤ n) (hneg : sz + n < 0) :
    growproc d sz n = pure (if sz = 0 then (d, sz, -1) else (d, sz, 0)) := by
  have hsz := h.le
  unfold KERNBASE at hsz
  have hnew : sz ≤ ((sz + n) % 2 ^ 32).toNat := by omega
  unfold growproc
  dsimp only
  rw [if_neg (by omega), if_pos (by omega)]
  unfold deallocuvm
  rw [if_pos hnew]
  rfl

/-- To the size 0 the pages are taken away, and growproc takes that for a failure. -/
theorem growproc_away (h : d.Covers sz) (hpos : 0 < sz) :
    ∃ d', (growproc d sz (-sz)).Yields (d', sz, -1) ∧ Cut d d' 0 (roundUp sz) := by
  have hframes : ∀ va, va < KERNBASE → d.pte va ≠ some 0 := by
    intro va hva h0
    exact h.frames va ⟨hva, by rw [h0]; rfl⟩ h0
  have hround : PGROUNDUP 0 = 0 := by decide
  obtain ⟨d', hd'⟩ := deallocLoop_returns (a := 0) h.exact.le (by decide) hframes
  refine ⟨d', ?_, deallocLoop_yields h.exact.le (by decide) hd'⟩
  have hnew : (((sz : ℤ) + -sz) % 2 ^ 32).toNat = 0 := by omega
  unfold growproc
  dsimp only
  rw [if_neg (by omega), if_pos (by omega), hnew]
  unfold deallocuvm
  rw [if_neg (by omega), hround]
  refine Prog.yields_bind.mpr ⟨(d', 0), Prog.yields_bind.mpr ⟨d', hd', Prog.yields_pure.mpr rfl⟩,
    ?_⟩
  exact Prog.yields_pure.mpr rfl

/-- growproc keeps its word but for a process that gives up as much as it has, or more. -/
theorem grows_iff (h : d.Covers sz) (hlo : -2 ^ 31 ≤ n) (hhi : n < 2 ^ 31) :
    Grows d sz n ↔ sz = 0 ∨ 0 < sz + n := by
  constructor
  · intro hgrows
    by_contra hcond
    obtain ⟨hsz, hsum⟩ := not_or.mp hcond
    rcases lt_or_eq_of_le (not_lt.mp hsum) with hneg | hzero
    · have heq := growproc_below h.exact hlo hneg
      rw [if_neg hsz] at heq
      have hy : (growproc d sz n).Yields (d, sz, 0) := by
        rw [heq]
        exact Prog.yields_pure.mpr rfl
      have hsize := ((hgrows d sz 0 hy).1 rfl).1
      omega
    · obtain rfl : n = -sz := by omega
      obtain ⟨d', hy, hcut⟩ := growproc_away h (Nat.pos_of_ne_zero hsz)
      have hsame := ((hgrows d' sz (-1) hy).2 rfl).2 0 (by omega)
      have hround := le_roundUp sz
      obtain ⟨_, hmapped⟩ := h.exact.mem_iff.mpr (show 0 < roundUp sz by omega)
      rw [hcut 0 (by omega), if_pos ⟨le_rfl, by omega⟩] at hsame
      rw [← hsame] at hmapped
      cases hmapped
  · intro hcond
    rcases lt_trichotomy n 0 with hneg | rfl | hpos
    · rcases hcond with rfl | hsum
      · intro d' sz' r hy
        rw [growproc_below h.exact hlo (by omega), if_pos rfl] at hy
        cases Prog.yields_pure.mp hy
        exact ⟨nofun, fun _ => ⟨rfl, fun _ _ => rfl⟩⟩
      · exact grows_less h.exact hneg hsum
    · exact grows_zero h.exact
    · exact grows_more h.exact hpos hhi

/-- A process of one page. -/
def onePage : Pgdir where
  page := 0x120
  table := fun i => if i = 0 then some ⟨0x121, fun j => if j = 0 then some 0x122 else none⟩ else none

theorem onePage_covers : onePage.Covers PGSIZE := by
  have hpte : ∀ va, onePage.pte va = if PDX va = 0 ∧ PTX va = 0 then some 0x122 else none := by
    intro va
    unfold Pgdir.pte onePage
    dsimp only
    by_cases hp : PDX va = 0
    · rw [if_pos hp, if_congr (and_iff_right hp) rfl rfl]
      rfl
    · rw [if_neg hp, if_neg fun h => hp h.1]
      rfl
  constructor
  · ext va
    show va < KERNBASE ∧ (onePage.pte va).isSome ↔ va < roundUp PGSIZE
    have hround : roundUp PGSIZE = 4096 := by decide
    have hpage : va < KERNBASE → ((PDX va = 0 ∧ PTX va = 0) ↔ va < 4096) := by
      unfold KERNBASE PDX PTX
      omega
    have hbig : 4096 < KERNBASE := by decide
    rw [hpte, hround]
    by_cases hva : va < 4096
    · have hlt := hva.trans hbig
      rw [if_pos ((hpage hlt).mpr hva)]
      exact ⟨fun _ => hva, fun _ => ⟨hlt, rfl⟩⟩
    · constructor
      · intro ⟨hlt, hsome⟩
        rw [if_neg fun h => hva ((hpage hlt).mp h)] at hsome
        cases hsome
      · intro h
        exact absurd h hva
  · intro va _
    rw [hpte]
    split <;> simp

/-- A process gives up all of its memory but one byte. -/
theorem grows_onePage : Grows onePage PGSIZE (-4095) :=
  (grows_iff onePage_covers (by decide) (by decide)).mpr (Or.inr (by decide))

/-- A process gives up all of its memory: its page is gone, and growproc reports a failure. -/
theorem not_grows :
    ¬ ∀ (d : Pgdir) (sz : ℕ) (n : ℤ), d.Covers sz → -2 ^ 31 ≤ n → n < 2 ^ 31 → Grows d sz n := by
  intro h
  obtain ⟨d', hy, hcut⟩ := growproc_away onePage_covers (by decide)
  have hsame := ((h onePage PGSIZE (-PGSIZE) onePage_covers (by decide) (by decide) d' _ _ hy).2
      rfl).2 0
    (by decide)
  rw [hcut 0 (by decide), if_pos (by decide)] at hsame
  cases hsame

end Results

end NorthOS.Vm
