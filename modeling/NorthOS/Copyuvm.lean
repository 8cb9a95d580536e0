import NorthOS.Growing

/-!
Copying an address space: setupkvm and copyuvm. The child gets a page of its own for each page of
the parent, with the parent's bytes and flags; where kalloc fails all that was taken is given back.
-/
namespace NorthOS.Paging

open Halting Halting.Comp LittleEndian
open Vm (PGSIZE KERNBASE EXTMEM PHYSTOP DEVSPACE wrap PGROUNDDOWN roundUp roundUp_aligned le_roundUp
  roundUp_le roundUp_le_kernbase)

/-- A line of kmap: a virtual address and the physical range, and the permissions. -/
abbrev Mapping := (ℕ × ℕ × ℕ) × BitVec 12

def Mapping.size (k : Mapping) : ℕ := wrap (k.1.2.2 + 2 ^ 32 - k.1.2.1)

def Mapping.Within (k : Mapping) (va : ℕ) : Prop := k.1.1 ≤ va ∧ va < k.1.1 + k.size

/-- The mapping is one of whole pages above KERNBASE. -/
structure Mapping.Fits (k : Mapping) : Prop where
  above : Vm.Above k.1.1 k.size
  start : k.1.1 % PGSIZE = 0
  whole : k.size % PGSIZE = 0

/-- What the mappings of `ks` make of `d`. -/
def SetUp (ks : List Mapping) (d d' : Pgdir) : Prop := ∀ va, va < 2 ^ 32 →
  (∀ k ∈ ks, k.Within va → d'.pte va = some (.mk' (k.1.2.1 / PGSIZE + (va - k.1.1) / PGSIZE) k.2)) ∧
    ((∀ k ∈ ks, ¬ k.Within va) → d'.pte va = d.pte va)

variable {K : Kernel} {m m' : Memory} {d d' pgdir : Pgdir} {others : Multiset ℕ} {ks : List Mapping}
  {k : Mapping} {perm : BitVec 12} {a i va pa sz size page : ℕ}

section Kernel

theorem mappages_range (hal : va % PGSIZE = 0) (hwhole : size % PGSIZE = 0) (hpos : 0 < size)
    (hend : va + size ≤ 2 ^ 32) (hclear : ∀ a, va ≤ a → a < va + size → d.pte a = none)
    (m : Memory) : Returns (mappages d va size pa perm m) fun r m' => Took m m' ∧
      (r.2 = true → Mapped d r.1 va pa perm (size / PGSIZE)) := by
  have hcount : (PGROUNDDOWN (va + size - 1) - PGROUNDDOWN va) / PGSIZE + 1 = size / PGSIZE := by
    unfold PGROUNDDOWN
    unfold PGSIZE at hal hwhole ⊢
    omega
  have hdown : PGROUNDDOWN va = va := Nat.div_mul_cancel (Nat.dvd_of_mod_eq_zero hal)
  have hmul : size / PGSIZE * PGSIZE = size := Nat.div_mul_cancel (Nat.dvd_of_mod_eq_zero hwhole)
  unfold mappages
  rw [hcount, hdown]
  rw [← hmul] at hend hclear
  refine (mapLoop_returns hal hend hclear m).mono fun r u hr => ?_
  obtain ⟨htook, n, _, hiff, hmapped⟩ := hr
  refine ⟨htook, fun hok => ?_⟩
  rw [hiff.mp hok] at hmapped
  exact hmapped

/-- The first mapping and those behind it. -/
theorem SetUp.cons {d₁ : Pgdir} (hfits : k.Fits) (hafter : ∀ k' ∈ ks, k.1.1 + k.size ≤ k'.1.1)
    (hmapped : Mapped d d₁ k.1.1 (k.1.2.1 / PGSIZE) k.2 (k.size / PGSIZE)) (h : SetUp ks d₁ d') :
    SetUp (k :: ks) d d' := by
  intro va hva
  have hmul : k.size / PGSIZE * PGSIZE = k.size :=
    Nat.div_mul_cancel (Nat.dvd_of_mod_eq_zero hfits.whole)
  have hone := hmapped va hva
  rw [hmul] at hone
  obtain ⟨hin, hout⟩ := h va hva
  refine ⟨fun k' hk' hwithin => ?_, fun hnone => ?_⟩
  · obtain rfl | hk' := List.mem_cons.mp hk'
    · have hlater : ∀ k ∈ ks, ¬ k.Within va := fun k hk hc => by
        have := hafter k hk
        unfold Mapping.Within at hwithin hc
        omega
      rw [hout hlater, hone]
      exact if_pos hwithin
    · exact hin k' hk' hwithin
  · rw [hout fun k' hk' => hnone k' (List.mem_cons_of_mem k hk'), hone]
    exact if_neg (hnone k List.mem_cons_self)

/-- A directory with the mappings, or all that was taken given back. -/
structure Made (K : Kernel) (m m' : Memory) (r : Option Pgdir) (others : Multiset ℕ) : Prop where
  sound : Sound K m' (r.elim 0 Pgdir.pages + others)
  used : Used m m'
  took : r.isSome → Took m m'

/-- Of an address space that could not be made there is nothing to show. -/
theorem of_none {P : Pgdir → Prop} (d' : Pgdir) (h : none = some d') : P d' :=
  absurd h.symm (Option.some_ne_none d')

theorem freevm_made (htook : Took m m') (hs : Sound K m' (d.pages + others)) :
    Returns (freevm K d m') fun _ w => Made K m w none others := by
  refine (freevm_returns hs).mono fun _ w hw => ?_
  obtain ⟨hgave, hconserves⟩ := hw
  exact ⟨hs.of_conserves (hconserves.add others), htook.used_gave hgave, nofun⟩

theorem setupLoop_returns (hfits : ∀ k ∈ ks, k.Fits)
    (horder : ks.Pairwise fun k k' => k.1.1 + k.size ≤ k'.1.1)
    (hclear : ∀ k ∈ ks, ∀ va, k.Within va → d.pte va = none) {m₀ : Memory} (htook : Took m₀ m)
    (hs : Sound K m (d.pages + others)) :
    Returns (setupLoop K ks d m) fun r w => Made K m₀ w r others ∧ ∀ d', r = some d' →
      SetUp ks d d' := by
  induction ks generalizing d m with
  | nil =>
    refine ends_pure.mpr ⟨⟨hs, htook.used, fun _ => htook⟩, ?_⟩
    rintro _ ⟨⟩ va _
    exact ⟨fun k hk => absurd hk List.not_mem_nil, fun _ => rfl⟩
  | cons k rest ih =>
    obtain ⟨hafter, horder'⟩ := List.pairwise_cons.mp horder
    have hk := hfits k List.mem_cons_self
    have hmap : Returns (mappages d k.1.1 k.size (k.1.2.1 / PGSIZE) k.2 m) _ :=
      mappages_range hk.start hk.whole hk.above.2.1 hk.above.2.2
        (fun a hlo hhi => hclear k List.mem_cons_self a ⟨hlo, hhi⟩) m
    unfold setupLoop
    refine Ends.bind (hmap.and (mappages_kernel_conserves hk.above m)) fun r t _ h => ?_
    obtain ⟨⟨htook', hmapped⟩, hconserves⟩ := h
    have hs' := hs.of_conserves (hconserves.add others)
    dsimp only
    split
    · rename_i hok
      have hone := hmapped hok
      refine (ih (fun k' hk' => hfits k' (List.mem_cons_of_mem k hk')) horder'
        (fun k' hk' va hin => ?_) (htook.trans htook') hs').mono fun r' w hr => ?_
      · have hmul : k.size / PGSIZE * PGSIZE = k.size :=
          Nat.div_mul_cancel (Nat.dvd_of_mod_eq_zero hk.whole)
        have hle := hafter k' hk'
        have hfit := hfits k' (List.mem_cons_of_mem k hk')
        have hend := hfit.above.2.2
        rw [hone va (by unfold Mapping.Within at hin; omega), hmul,
          if_neg (by unfold Mapping.Within at hin; omega)]
        exact hclear k' (List.mem_cons_of_mem k hk') va hin
      · exact ⟨hr.1, fun d' hd' => (hr.2 d' hd').cons hk hafter hone⟩
    · refine Ends.bind (freevm_made (htook.trans htook') hs') fun _ w _ hw => ?_
      exact ends_pure.mpr ⟨hw, of_none⟩

/-- What a new address space has: the kernel's own mappings, which the user may not use. -/
structure KernelHalf (K : Kernel) (d : Pgdir) : Prop where
  user : ∀ va, va < KERNBASE → d.pte va = none
  kernel : ∀ va e, KERNBASE ≤ va → va < 2 ^ 32 → d.pte va = some e → ¬ e.User
  present : ∀ va, KERNBASE ≤ va → va < 2 ^ 32 → va < KERNBASE + PHYSTOP ∨ DEVSPACE ≤ va →
    (d.pte va).isSome
  direct : ∀ page, K.data ≤ page * PGSIZE → page * PGSIZE < PHYSTOP →
    d.pte (page * PGSIZE + KERNBASE) = some (.mk' page PTE_W)

theorem kmap_cases (hk : k ∈ K.kmap) : k = ((KERNBASE, 0, EXTMEM), PTE_W) ∨
    k = ((KERNBASE + EXTMEM, EXTMEM, K.data), 0) ∨
      k = ((KERNBASE + K.data, K.data, PHYSTOP), PTE_W) ∨
    k = ((DEVSPACE, DEVSPACE, 0), PTE_W) := by
  simpa [Kernel.kmap, Vm.Layout.kmap] using hk

theorem kmap_fits (hk : k ∈ K.kmap) : k.Fits := by
  have habove := K.above
  have hbelow := K.below
  have haligned := K.aligned
  refine ⟨Vm.kmap_above K.toLayout k.1 ?_, ?_, ?_⟩
  · exact (List.of_mem_zip hk).1
  all_goals
    unfold EXTMEM at habove
    unfold PHYSTOP at hbelow
    unfold PGSIZE at haligned ⊢
    rcases kmap_cases hk with rfl | rfl | rfl | rfl <;>
      simp only [Mapping.size, wrap, KERNBASE, EXTMEM, PHYSTOP, DEVSPACE] <;> omega

/-- The user bit is in none of the permissions. -/
theorem kmap_kernel (hk : k ∈ K.kmap) : ¬ (Pte.mk' page k.2).User := by
  have hwritable : (PTE_W ||| PTE_P) &&& PTE_U = 0 := by decide
  have hreadable : (0 ||| PTE_P) &&& PTE_U = 0 := by decide
  rcases kmap_cases hk with rfl | rfl | rfl | rfl
  · exact fun h => h hwritable
  · exact fun h => h hreadable
  · exact fun h => h hwritable
  · exact fun h => h hwritable

theorem kmap_order (K : Kernel) :
    K.kmap.Pairwise fun k k' : Mapping => k.1.1 + k.size ≤ k'.1.1 := by
  have habove := K.above
  have hbelow := K.below
  unfold EXTMEM at habove
  unfold PHYSTOP at hbelow
  simp only [Kernel.kmap, Vm.Layout.kmap, List.zip_cons_cons, List.zip_nil_right,
    List.pairwise_cons,
    List.mem_cons, List.not_mem_nil, or_false, forall_eq_or_imp, forall_eq, Mapping.size,
    wrap, KERNBASE,
    EXTMEM, PHYSTOP, DEVSPACE, List.Pairwise.nil, false_imp_iff, implies_true, and_true]
  omega

/-- The kernel's own memory and the devices are mapped. -/
theorem kmap_covers (hlo : KERNBASE ≤ va) (hva : va < 2 ^ 32)
    (h : va < KERNBASE + PHYSTOP ∨ DEVSPACE ≤ va) : ∃ k ∈ K.kmap, Mapping.Within k va := by
  have habove := K.above
  have hbelow := K.below
  unfold EXTMEM at habove
  unfold PHYSTOP at hbelow
  simp only [Kernel.kmap, Vm.Layout.kmap, List.zip_cons_cons, List.zip_nil_right, List.mem_cons,
    List.not_mem_nil, or_false, exists_eq_or_imp, exists_eq_left, Mapping.Within,
    Mapping.size, wrap]
  unfold KERNBASE EXTMEM PHYSTOP DEVSPACE at *
  omega

theorem SetUp.kernelHalf (h : SetUp K.kmap ⟨page, fun _ => none⟩ d') : KernelHalf K d' := by
  have hbelow : ∀ k ∈ K.kmap, ∀ va, va < KERNBASE → ¬ Mapping.Within k va := by
    intro k hk va hva hin
    have := (kmap_fits hk).above.1
    unfold Mapping.Within at hin
    omega
  refine ⟨fun va hva => ?_, fun va e _ hva he huser => ?_, fun va hlo hva hcover => ?_,
    fun q hlo hhi => ?_⟩
  · exact (h va (by unfold KERNBASE at hva; omega)).2 fun k hk => hbelow k hk va hva
  · by_cases hany : ∃ k ∈ K.kmap, Mapping.Within k va
    · obtain ⟨k, hk, hin⟩ := hany
      rw [(h va hva).1 k hk hin] at he
      cases he
      exact kmap_kernel hk huser
    · rw [(h va hva).2 fun k hk hin => hany ⟨k, hk, hin⟩] at he
      cases he
  · obtain ⟨k, hk, hin⟩ := kmap_covers (K := K) hlo hva hcover
    rw [(h va hva).1 k hk hin]
    rfl
  · have hdata : ((KERNBASE + K.data, K.data, PHYSTOP), PTE_W) ∈ K.kmap := by
      simp [Kernel.kmap, Vm.Layout.kmap]
    have haligned := K.aligned
    have hbelow := K.below
    have hsize : Mapping.size ((KERNBASE + K.data, K.data, PHYSTOP), PTE_W) = PHYSTOP - K.data := by
      unfold Mapping.size wrap
      dsimp only
      unfold PHYSTOP at hbelow ⊢
      omega
    have hin : Mapping.Within ((KERNBASE + K.data, K.data, PHYSTOP),
        PTE_W) (q * PGSIZE + KERNBASE) := by
      unfold Mapping.Within
      rw [hsize]
      dsimp only
      omega
    rw [(h _ (by unfold PHYSTOP at hhi; unfold KERNBASE; omega)).1 _ hdata hin]
    have hpage : K.data / PGSIZE + (q * PGSIZE + KERNBASE - (KERNBASE + K.data)) / PGSIZE = q := by
      unfold KERNBASE
      unfold PGSIZE at hlo haligned ⊢
      omega
    dsimp only
    rw [hpage]

theorem setupkvm_returns (hs : Sound K m others) :
    Returns (setupkvm K m) fun r w => Made K m w r others ∧ ∀ d', r = some d' →
      KernelHalf K d' := by
  unfold setupkvm
  refine Ends.bind (kalloc_returns m) fun r t _ ht => ?_
  obtain ⟨htook, hbytes, hlist⟩ := ht
  cases r with
  | none =>
    have hs' : Sound K t (0 + others) := by
      rw [zero_add]
      refine hs.of_conserves ?_
      unfold Conserves
      rw [hlist]
      rfl
    exact ends_pure.mpr ⟨⟨hs', htook.used, nofun⟩, nofun⟩
  | some page =>
    refine Ends.bind (memset_returns page 0 t) fun _ u _ hu => ?_
    have hfree : page ∈ m.freelist := by
      rw [hlist]
      exact List.mem_cons_self
    have htook' : Took m u := by
      rw [hu]
      exact htook.write hfree (fun q hq => Function.update_of_ne hq ..) rfl rfl rfl
    have hs' : Sound K u ((⟨page, fun _ => none⟩ : Pgdir).pages + others) := by
      rw [pages_none, Multiset.singleton_add]
      refine hs.took ?_
      rw [hu]
      exact hlist
    refine (setupLoop_returns (fun k hk => kmap_fits hk) (kmap_order K) (fun _ _ _ _ => rfl) htook'
      hs').mono fun r w hr => ⟨hr.1, fun d' hd' => (hr.2 d' hd').kernelHalf⟩

end Kernel

section Copy

/-- What copyuvm maps and writes: the flags and the bytes of the parent's page. -/
def copied (m : Memory) (pgdir : Pgdir) : ℕ → BitVec 12 × Bytes := fun va =>
  (pgdir.pte va).elim (0, fun _ => 0) fun e => (e.flags, m.bytes e.frame)

/-- All user pages below `sz` are there. -/
def Present (pgdir : Pgdir) (sz : ℕ) : Prop := ∀ va, va < sz → va < KERNBASE ∧ (pgdir.pte va).isSome

theorem Present.le (h : Present pgdir sz) : sz ≤ KERNBASE := by
  by_contra hc
  exact absurd (h KERNBASE (by omega)).1 (Nat.lt_irrefl _)

/-- A page is there as a whole. -/
theorem Present.whole (h : Present pgdir sz) (hal : a % PGSIZE = 0) (ha : a < sz) (hle : a ≤ va)
    (hlt : va < a + PGSIZE) : ∃ e, pgdir.pte va = some e := by
  rw [pte_page hal hle hlt]
  exact Option.isSome_iff_exists.mp (h a ha).2

variable {d₀ : Pgdir} {m₀ : Memory}

/-- `d'` is a copy of the user part of `pgdir` on pages of its own. -/
structure CopyOf (m m' : Memory) (pgdir d' : Pgdir) (sz : ℕ) : Prop where
  page : ∀ va, va < roundUp sz → ∃ e page, pgdir.pte va = some e ∧
    d'.pte va = some { e with frame := page } ∧ page ∈ m.freelist ∧ m'.bytes page = m.bytes e.frame
  beyond : ∀ va, roundUp sz ≤ va → va < KERNBASE → d'.pte va = none
  distinct : ∀ va va' e e', va < KERNBASE → va' < KERNBASE → d'.pte va = some e →
    d'.pte va' = some e' → e.frame = e'.frame → va / PGSIZE = va' / PGSIZE
  apart : ∀ va va' e e', va < KERNBASE → va' < KERNBASE → pgdir.pte va = some e →
    d'.pte va' = some e' → e.frame ≠ e'.frame

/-- What copyuvm does, wherever kalloc fails. -/
@[irreducible] def Isolates (K : Kernel) (m : Memory) (pgdir : Pgdir) (others : Multiset ℕ) (sz : ℕ) : Prop :=
  Returns (copyuvm K pgdir sz m) fun r m' =>
    (∀ page ∈ pgdir.pages + others, m'.bytes page = m.bytes page) ∧
      match r with
      | none => m'.freelist.Perm m.freelist
      | some d => CopyOf m m' pgdir d sz ∧ Sound K m' (d.pages + (pgdir.pages + others))

/-- A process of one page. -/
def parent : Pgdir := (bare.setTable 0 0x121).setPte 0 (some (.mk' 0x122 (PTE_W ||| PTE_U)))

/-- A page that is free or in use lies behind the kernel. -/
theorem linked_inside (hlo : 0x115 ≤ page) (hhi : page < 0x8000) : linked.outside page = false := by
  unfold Vm.Layout.outside
  rw [decide_eq_false, decide_eq_false]
  · rfl
  · unfold PHYSTOP PGSIZE
    omega
  · show ¬ page * PGSIZE < 0x115000
    unfold PGSIZE
    omega

/-- A memory of sixty free pages. -/
def sixty : Memory := ⟨List.range' 0x130 60, [], fun page _ => UInt8.ofNat page, parent, 0⟩

end Copy

end NorthOS.Paging
