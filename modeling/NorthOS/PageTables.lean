import Mathlib.Algebra.BigOperators.Group.Finset.Basic
import Mathlib.Data.Multiset.AddSub
import Mathlib.Tactic.Abel
import Mathlib.Tactic.Common
import NorthOS.Pool

/-!
Address spaces: vm.c and the part of exec that builds one. A page of memory is known by its
number. A page directory is a tree of the pages that it is made of and of those that it maps;
of an entry only the page is kept. What each function takes from the allocator and gives back
to it is a program over the pool of free pages.
-/
namespace NorthOS.Vm

open Pool

def PGSIZE : ℕ := 4096
def NPDENTRIES : ℕ := 1024
def NPTENTRIES : ℕ := 1024
def KERNBASE : ℕ := 0x80000000
def EXTMEM : ℕ := 0x100000
def PHYSTOP : ℕ := 0x8000000
def DEVSPACE : ℕ := 0xFC000000

/-- Unsigned integers. -/
def wrap (n : ℕ) : ℕ := n % 2 ^ 32

def PDX (va : ℕ) : ℕ := va / 2 ^ 22 % 1024
def PTX (va : ℕ) : ℕ := va / 2 ^ 12 % 1024
def PGROUNDUP (sz : ℕ) : ℕ := wrap (sz + PGSIZE - 1) / PGSIZE * PGSIZE
def PGROUNDDOWN (a : ℕ) : ℕ := a / PGSIZE * PGSIZE

/-- What the linker knows: the physical addresses of the kernel's data and of its end. -/
structure Layout where
  data : ℕ
  kernelEnd : ℕ
  above : EXTMEM < data
  below : data < PHYSTOP

structure Table where
  page : ℕ
  pte : ℕ → Option ℕ

structure Pgdir where
  page : ℕ
  table : ℕ → Option Table

abbrev M (α : Type) : Type := Prog ℕ α

namespace Pgdir

def pte (d : Pgdir) (va : ℕ) : Option ℕ := (d.table (PDX va)).bind fun t => t.pte (PTX va)

def setPte (d : Pgdir) (va : ℕ) (x : Option ℕ) : Pgdir :=
  { d with
    table := Function.update d.table (PDX va)
      ((d.table (PDX va)).map fun t => { t with pte := Function.update t.pte (PTX va) x }) }

def setTable (d : Pgdir) (va page : ℕ) : Pgdir :=
  { d with table := Function.update d.table (PDX va) (some ⟨page, fun _ => none⟩) }

end Pgdir

/-- With `alloc`, a table that is missing is made. -/
def walkpgdir (d : Pgdir) (va : ℕ) : M (Option Pgdir) :=
  match d.table (PDX va) with
  | some _ => pure (some d)
  | none => do
    match ← Prog.alloc with
    | none => pure none
    | some pgtab => pure (some (d.setTable va pgtab))

/-- The loop of mappages over `n` pages; a page that is mapped already is a panic. -/
def mapLoop : ℕ → Pgdir → ℕ → ℕ → M (Pgdir × Bool)
  | 0, d, _, _ => pure (d, true)
  | n + 1, d, a, pa => do
    match ← walkpgdir d a with
    | none => pure (d, false)
    | some d =>
      if (d.pte a).isSome then .halt
      else mapLoop n (d.setPte a (some pa)) (a + PGSIZE) (pa + 1)

/-- `pa` is a page. -/
def mappages (d : Pgdir) (va size pa : ℕ) : M (Pgdir × Bool) :=
  mapLoop ((PGROUNDDOWN (va + size - 1) - PGROUNDDOWN va) / PGSIZE + 1) d (PGROUNDDOWN va) pa

def deallocLoop (d : Pgdir) (a oldsz : ℕ) : M Pgdir :=
  if a < oldsz then
    match d.table (PDX a) with
    | none => deallocLoop d ((a / 2 ^ 22 + 1) * 2 ^ 22) oldsz
    | some t =>
      match t.pte (PTX a) with
      | none => deallocLoop d (a + PGSIZE) oldsz
      | some pa =>
        if pa = 0 then .halt
        else do
          Prog.free pa
          deallocLoop (d.setPte a none) (a + PGSIZE) oldsz
  else pure d
termination_by oldsz - a
decreasing_by
  · omega
  · unfold PGSIZE
    omega
  · unfold PGSIZE
    omega

/-- The address space, and its new size. -/
def deallocuvm (d : Pgdir) (oldsz newsz : ℕ) : M (Pgdir × ℕ) :=
  if oldsz ≤ newsz then pure (d, oldsz)
  else do
    let d ← deallocLoop d (PGROUNDUP newsz) oldsz
    pure (d, newsz)

/-- The loop of freevm over the tables. -/
def freeTables (d : Pgdir) : List ℕ → M PUnit
  | [] => pure ⟨⟩
  | i :: rest => do
    match d.table i with
    | some t => Prog.free t.page
    | none => pure ⟨⟩
    freeTables d rest

def freevm (d : Pgdir) : M PUnit := do
  let (d, _) ← deallocuvm d KERNBASE 0
  freeTables d (List.range NPDENTRIES)
  Prog.free d.page

/-- The mappings of the kernel: a virtual address and the physical range. -/
def Layout.kmap (L : Layout) : List (ℕ × ℕ × ℕ) :=
  [(KERNBASE, 0, EXTMEM), (KERNBASE + EXTMEM, EXTMEM, L.data), (KERNBASE + L.data, L.data, PHYSTOP),
    (DEVSPACE, DEVSPACE, 0)]

def setupLoop : List (ℕ × ℕ × ℕ) → Pgdir → M (Option Pgdir)
  | [], d => pure (some d)
  | (virt, phys_start, phys_end) :: rest, d => do
    let (d, ok) ← mappages d virt (wrap (phys_end + 2 ^ 32 - phys_start)) (phys_start / PGSIZE)
    if ok then setupLoop rest d
    else do
      freevm d
      pure none

def setupkvm (L : Layout) : M (Option Pgdir) := do
  match ← Prog.alloc with
  | none => pure none
  | some pgdir => setupLoop L.kmap ⟨pgdir, fun _ => none⟩

def allocLoop (d : Pgdir) (a oldsz newsz : ℕ) : M (Pgdir × ℕ) :=
  if a < newsz then do
    match ← Prog.alloc with
    | none => do
      let (d, _) ← deallocuvm d newsz oldsz
      pure (d, 0)
    | some mem => do
      let (d, ok) ← mappages d a PGSIZE mem
      if ok then allocLoop d (a + PGSIZE) oldsz newsz
      else do
        let (d, _) ← deallocuvm d newsz oldsz
        Prog.free mem
        pure (d, 0)
  else pure (d, newsz)
termination_by newsz - a
decreasing_by
  unfold PGSIZE
  omega

/-- The address space, and its new size or 0. -/
def allocuvm (d : Pgdir) (oldsz newsz : ℕ) : M (Pgdir × ℕ) :=
  if KERNBASE ≤ newsz then pure (d, 0)
  else if newsz < oldsz then pure (d, oldsz)
  else allocLoop d (PGROUNDUP oldsz) oldsz newsz

/-- The loop of copyuvm; a page that the parent has not is a panic. -/
def copyLoop (pgdir : Pgdir) (sz : ℕ) (d : Pgdir) (i : ℕ) : M (Option Pgdir) :=
  if i < sz then
    match pgdir.pte i with
    | none => .halt
    | some _ => do
      match ← Prog.alloc with
      | none => do
        freevm d
        pure none
      | some mem => do
        let (d, ok) ← mappages d i PGSIZE mem
        if ok then copyLoop pgdir sz d (i + PGSIZE)
        else do
          Prog.free mem
          freevm d
          pure none
  else pure (some d)
termination_by sz - i
decreasing_by
  unfold PGSIZE
  omega

def copyuvm (L : Layout) (pgdir : Pgdir) (sz : ℕ) : M (Option Pgdir) := do
  match ← setupkvm L with
  | none => pure none
  | some d => copyLoop pgdir sz d 0

/-- The address space and size after growproc, and its result. -/
def growproc (d : Pgdir) (sz : ℕ) (n : ℤ) : M (Pgdir × ℕ × ℤ) :=
  let newsz := ((sz + n) % 2 ^ 32).toNat
  if 0 < n then do
    let (d, r) ← allocuvm d sz newsz
    pure (if r = 0 then (d, sz, -1) else (d, r, 0))
  else if n < 0 then do
    let (d, r) ← deallocuvm d sz newsz
    pure (if r = 0 then (d, sz, -1) else (d, r, 0))
  else pure (d, sz, 0)

/-- A program header as exec reads it: `read` tells that it was there, `loads` that it is of
type ELF_PROG_LOAD, `loaded` that loaduvm read the whole segment. -/
structure ProgHdr where
  read : Bool
  loads : Bool
  filesz : ℕ
  memsz : ℕ
  vaddr : ℕ
  loaded : Bool

/-- What exec finds: the file with a good ELF header, its program headers, and room for the
arguments on the stack. -/
structure Image where
  header : Bool
  phs : List ProgHdr
  args : Bool

/-- Load the program; without a size exec gives up. -/
def loadSegments : List ProgHdr → Pgdir → ℕ → M (Pgdir × Option ℕ)
  | [], d, sz => pure (d, some sz)
  | ph :: rest, d, sz =>
    if ph.read = false then pure (d, none)
    else if ph.loads = false then loadSegments rest d sz
    else if ph.memsz < ph.filesz then pure (d, none)
    else if wrap (ph.vaddr + ph.memsz) < ph.vaddr then pure (d, none)
    else do
      let (d, sz) ← allocuvm d sz (wrap (ph.vaddr + ph.memsz))
      if sz = 0 then pure (d, none)
      else if ph.vaddr % PGSIZE ≠ 0 then pure (d, none)
      else if ph.loaded = false then pure (d, none)
      else loadSegments rest d sz

/-- The new address space without what is freed on the way, up to where exec commits to it. -/
def build (L : Layout) (image : Image) : M (Option (Pgdir × ℕ)) := do
  match ← setupkvm L with
  | none => pure none
  | some d => do
    let (d, loaded) ← loadSegments image.phs d 0
    match loaded with
    | none => do
      freevm d
      pure none
    | some sz => do
      let (d, sz) ← allocuvm d (PGROUNDUP sz) (wrap (PGROUNDUP sz + 2 * PGSIZE))
      if sz = 0 ∨ image.args = false then do
        freevm d
        pure none
      else pure (some (d, sz))

/-- The address space and size of a process after exec, and its result. -/
def exec (L : Layout) (oldpgdir : Pgdir) (oldsz : ℕ) (image : Image) : M (Pgdir × ℕ × ℤ) :=
  if image.header = false then pure (oldpgdir, oldsz, -1)
  else do
    match ← build L image with
    | none => pure (oldpgdir, oldsz, -1)
    | some (pgdir, sz) => do
      freevm oldpgdir
      pure (pgdir, sz, 0)

section Pages

/-- The pages that a table maps. -/
def Table.user (t : Table) : Multiset ℕ :=
  ∑ j ∈ Finset.range NPTENTRIES, (t.pte j).elim 0 fun pa => {pa}

/-- What the entry of a directory owns: the table, and the pages of the user part. -/
def Table.pages (i : ℕ) (t : Table) : Multiset ℕ := t.page ::ₘ if i < PDX KERNBASE then t.user else 0

def Pgdir.pages (d : Pgdir) : Multiset ℕ :=
  d.page ::ₘ ∑ i ∈ Finset.range NPDENTRIES, (d.table i).elim 0 (Table.pages i)

variable {d : Pgdir} {t : Table} {a va pa : ℕ}

theorem pdx_lt (va : ℕ) : PDX va ∈ Finset.range NPDENTRIES :=
  Finset.mem_range.mpr (Nat.mod_lt _ (by decide))

theorem ptx_lt (va : ℕ) : PTX va ∈ Finset.range NPTENTRIES :=
  Finset.mem_range.mpr (Nat.mod_lt _ (by decide))

theorem pdx_kernbase : PDX KERNBASE = 512 := by decide

/-- A sum of which one term changes. -/
theorem sum_exchange {S : Finset ℕ} {f g : ℕ → Multiset ℕ} {i : ℕ} (hi : i ∈ S)
    (h : ∀ j, j ≠ i → g j = f j) : ∑ j ∈ S, g j + f i = ∑ j ∈ S, f j + g i := by
  have hrest : ∑ j ∈ S.erase i, g j = ∑ j ∈ S.erase i, f j :=
    Finset.sum_congr rfl fun j hj => h j (Finset.ne_of_mem_erase hj)
  rw [← Finset.add_sum_erase S g hi, ← Finset.add_sum_erase S f hi, hrest]
  abel

theorem pages_setTable (h : d.table (PDX va) = none) (page : ℕ) :
    (d.setTable va page).pages = page ::ₘ d.pages := by
  have hself : (d.setTable va page).table (PDX va) = some ⟨page, fun _ => none⟩ :=
    Function.update_self _ _ _
  have hsum := sum_exchange (f := fun i => (d.table i).elim 0 (Table.pages i))
    (g := fun i => ((d.setTable va page).table i).elim 0 (Table.pages i)) (pdx_lt va) fun j hj => by
      show (Function.update d.table (PDX va) _ j).elim 0 _ = _
      rw [Function.update_of_ne hj]
  have hnew : Table.pages (PDX va) ⟨page, fun _ => none⟩ = {page} := by
    have huser : Table.user ⟨page, fun _ => none⟩ = 0 := Finset.sum_eq_zero fun _ _ => rfl
    unfold Table.pages
    rw [huser, ite_self]
    rfl
  rw [h, hself, Option.elim_none, Option.elim_some, hnew, add_zero] at hsum
  unfold Pgdir.pages
  rw [hsum, add_comm, Multiset.singleton_add, Multiset.cons_swap]
  rfl

/-- A directory without tables. -/
theorem pages_bare (page : ℕ) : (⟨page, fun _ => none⟩ : Pgdir).pages = {page} := by
  have hnothing : ∑ i ∈ Finset.range NPDENTRIES,
      ((none : Option Table).elim 0 (Table.pages i)) = 0 :=
    Finset.sum_eq_zero fun _ _ => rfl
  unfold Pgdir.pages
  dsimp only
  rw [hnothing]
  rfl

/-- What an entry of the user part owns. -/
def Pgdir.mapped (d : Pgdir) (va : ℕ) : Multiset ℕ :=
  if PDX va < PDX KERNBASE then (d.pte va).elim 0 fun pa => {pa} else 0

theorem pte_setPte (ht : d.table (PDX va) = some t) (x : Option ℕ) :
    (d.setPte va x).pte va = x := by
  unfold Pgdir.pte Pgdir.setPte
  dsimp only
  rw [Function.update_self, ht]
  exact Function.update_self _ _ _

theorem pages_setPte (ht : d.table (PDX va) = some t) (x : Option ℕ) :
    (d.setPte va x).pages + d.mapped va = d.pages + (d.setPte va x).mapped va := by
  have hself : (d.setPte va x).table (PDX va) =
      some { t with pte := Function.update t.pte (PTX va) x } := by
    unfold Pgdir.setPte
    dsimp only
    rw [Function.update_self, ht]
    rfl
  have hpte : d.pte va = t.pte (PTX va) := by
    unfold Pgdir.pte
    rw [ht]
    rfl
  have hsum := sum_exchange (f := fun i => (d.table i).elim 0 (Table.pages i))
    (g := fun i => ((d.setPte va x).table i).elim 0 (Table.pages i)) (pdx_lt va) fun j hj => by
      show (Function.update d.table (PDX va) _ j).elim 0 _ = _
      rw [Function.update_of_ne hj]
  have huser : Table.user { t with pte := Function.update t.pte (PTX va) x } +
      (t.pte (PTX va)).elim 0 (fun pa => {pa}) = t.user + x.elim 0 fun pa => {pa} := by
    have h := sum_exchange (f := fun j => (t.pte j).elim 0 fun pa => ({pa} : Multiset ℕ))
      (g := fun j => (Function.update t.pte (PTX va) x j).elim 0 fun pa => ({pa} : Multiset ℕ))
      (ptx_lt va) fun j hj => by
        show (Function.update t.pte (PTX va) x j).elim 0 _ = _
        rw [Function.update_of_ne hj]
    rw [Function.update_self] at h
    exact h
  have hpage : (d.setPte va x).page = d.page := rfl
  rw [hself, ht, Option.elim_some, Option.elim_some] at hsum
  unfold Pgdir.mapped Pgdir.pages
  rw [pte_setPte ht, hpte, hpage, Multiset.cons_add, Multiset.cons_add, Multiset.cons_inj_right]
  generalize (∑ i ∈ Finset.range NPDENTRIES, ((d.setPte va x).table i).elim 0 (Table.pages i)) =
    new at hsum ⊢
  generalize (∑ i ∈ Finset.range NPDENTRIES, (d.table i).elim 0 (Table.pages i)) = old at hsum ⊢
  unfold Table.pages at hsum
  dsimp only at hsum
  rw [Multiset.add_cons, Multiset.add_cons, Multiset.cons_inj_right] at hsum
  by_cases hu : PDX va < PDX KERNBASE
  · rw [if_pos hu, if_pos hu] at hsum ⊢
    refine add_right_cancel (b := Table.user { t with pte := Function.update t.pte (PTX va) x }) ?_
    calc new + (t.pte (PTX va)).elim 0 (fun pa => {pa}) +
            Table.user { t with pte := Function.update t.pte (PTX va) x }
        = new + (Table.user { t with pte := Function.update t.pte (PTX va) x } +
            (t.pte (PTX va)).elim 0 fun pa => {pa}) := by abel
      _ = new + t.user + x.elim 0 fun pa => {pa} := by rw [huser, add_assoc]
      _ = old + x.elim 0 (fun pa => {pa}) +
            Table.user { t with pte := Function.update t.pte (PTX va) x } := by rw [hsum]; abel
  · rw [if_neg hu, if_neg hu] at hsum ⊢
    exact hsum

end Pages

section Mapping

variable {fails : Bool} {d : Pgdir} {a va pa oldsz newsz sz mem n : ℕ} {F : Multiset ℕ}

theorem walkpgdir_accounts {Q : Option Pgdir → Multiset ℕ → Prop}
    (hnone : fails → Q none (d.pages + F))
    (hsome : ∀ d' t, d'.table (PDX va) = some t → Q (some d') (d'.pages + F)) :
    (walkpgdir d va).Accounts fails (d.pages + F) Q := by
  unfold walkpgdir
  split
  · rename_i t ht
    exact hsome d t ht
  · rename_i ht
    refine .alloc hnone fun page => ?_
    have hpages := pages_setTable ht page
    have hq := hsome (d.setTable va page) ⟨page, fun _ => none⟩ (Function.update_self _ _ _)
    rw [hpages, Multiset.cons_add] at hq
    exact hq

/-- Above KERNBASE the pages that are mapped belong to nobody. -/
theorem mapped_kernel (ha : KERNBASE ≤ a) (hlt : a < 2 ^ 32) : d.mapped a = 0 := by
  unfold Pgdir.mapped
  rw [if_neg]
  rw [pdx_kernbase]
  unfold PDX
  unfold KERNBASE at ha
  omega

theorem pdx_user (ha : a < KERNBASE) : PDX a < PDX KERNBASE := by
  rw [pdx_kernbase]
  unfold PDX
  unfold KERNBASE at ha
  omega

theorem mapLoop_kernel {Q : Pgdir × Bool → Multiset ℕ → Prop} (ha : KERNBASE ≤ a)
    (hn : a + n * PGSIZE ≤ 2 ^ 32) (h : ∀ d' ok, Q (d', ok) (d'.pages + F)) :
    (mapLoop n d a pa).Accounts fails (d.pages + F) Q := by
  induction n generalizing d a pa with
  | zero => exact h d true
  | succ n ih =>
    refine .bind (walkpgdir_accounts (fun _ => h d false) fun d' t ht => ?_)
    dsimp only
    split
    · trivial
    · have hlt : a < 2 ^ 32 := by
        unfold PGSIZE at hn
        omega
      have hpages := pages_setPte ht (some pa)
      rw [mapped_kernel ha hlt, mapped_kernel ha hlt, add_zero, add_zero] at hpages
      rw [← hpages]
      refine ih (by omega) ?_
      unfold PGSIZE at hn ⊢
      omega

/-- The mapping of one user page. -/
theorem mappages_user {Q : Pgdir × Bool → Multiset ℕ → Prop} (hal : a % PGSIZE = 0)
    (ha : a < KERNBASE) (hok : ∀ d', Q (d', true) (d'.pages + F))
    (hfail : fails → ∀ d', Q (d', false) (mem ::ₘ (d'.pages + F))) :
    (mappages d a PGSIZE mem).Accounts fails (mem ::ₘ (d.pages + F)) Q := by
  have hfirst : PGROUNDDOWN a = a := by
    unfold PGROUNDDOWN
    unfold PGSIZE at hal ⊢
    omega
  have hlast : PGROUNDDOWN (a + PGSIZE - 1) = a := by
    unfold PGROUNDDOWN
    unfold PGSIZE at hal ⊢
    omega
  unfold mappages
  rw [hlast, hfirst, Nat.sub_self, Nat.zero_div]
  have hmem : ∀ e : Pgdir, mem ::ₘ (e.pages + F) = e.pages + (mem ::ₘ F) := fun e =>
    (Multiset.add_cons mem e.pages F).symm
  rw [hmem]
  refine .bind (walkpgdir_accounts (fun hfails => ?_) fun d' t ht => ?_)
  · have hq := hfail hfails d
    rwa [hmem] at hq
  · dsimp only
    split
    · trivial
    · rename_i hnone
      have hpages := pages_setPte ht (some mem)
      have hold : d'.mapped a = 0 := by
        unfold Pgdir.mapped
        rw [Option.not_isSome_iff_eq_none.mp hnone]
        exact ite_self _
      have hnew : (d'.setPte a (some mem)).mapped a = {mem} := by
        unfold Pgdir.mapped
        rw [if_pos (pdx_user ha), pte_setPte ht]
        rfl
      rw [hold, hnew, add_zero] at hpages
      have hq := hok (d'.setPte a (some mem))
      rw [hpages, add_assoc, Multiset.singleton_add] at hq
      exact hq

/-- Nothing is mapped in the range. -/
def Pgdir.Clear (d : Pgdir) (lo hi : ℕ) : Prop := ∀ va, lo ≤ va → va < hi → d.pte va = none

theorem pte_page (hal : a % PGSIZE = 0) (hle : a ≤ va) (hlt : va < a + PGSIZE) (d : Pgdir) :
    d.pte va = d.pte a := by
  have hpdx : PDX va = PDX a := by
    unfold PDX
    unfold PGSIZE at hal hlt
    omega
  have hptx : PTX va = PTX a := by
    unfold PTX
    unfold PGSIZE at hal hlt
    omega
  unfold Pgdir.pte
  rw [hpdx, hptx]

/-- Clearing one page maps nothing else. -/
theorem pte_clear (hnone : d.pte va = none) : (d.setPte a none).pte va = none := by
  unfold Pgdir.pte Pgdir.setPte
  dsimp only
  by_cases hp : PDX va = PDX a
  · rw [hp, Function.update_self]
    unfold Pgdir.pte at hnone
    rw [hp] at hnone
    cases ht : d.table (PDX a) with
    | none => rfl
    | some t =>
      rw [ht] at hnone
      show Function.update t.pte (PTX a) none (PTX va) = none
      by_cases hq : PTX va = PTX a
      · rw [hq, Function.update_self]
      · rw [Function.update_of_ne hq]
        exact hnone
  · rw [Function.update_of_ne hp]
    exact hnone

theorem clear_page {lo : ℕ} (h : d.Clear lo a) (hal : a % PGSIZE = 0) (hnone : d.pte a = none) :
    d.Clear lo (a + PGSIZE) := by
  intro va hlo hlt
  by_cases hva : va < a
  · exact h va hlo hva
  · rw [pte_page hal (by omega) hlt]
    exact hnone

/-- The loop frees the pages of the range and no others. -/
theorem deallocLoop_accounts {l : ℕ} {Q : Pgdir → Multiset ℕ → Prop} (hold : oldsz ≤ KERNBASE)
    (hal : a % PGSIZE = 0) (hclear : d.Clear l a)
    (h : ∀ d', d'.Clear l oldsz → Q d' (d'.pages + F)) :
    (deallocLoop d a oldsz).Accounts fails (d.pages + F) Q := by
  induction hm : oldsz - a using Nat.strong_induction_on generalizing d a with
  | _ m ih =>
    rw [deallocLoop]
    split
    · rename_i hlt
      split
      · rename_i ht
        refine ih _ ?_ ?_ ?_ rfl
        · omega
        · unfold PGSIZE
          omega
        · -- the table is missing, and with it all of its pages
          intro va hlo hva
          by_cases hva' : va < a
          · exact hclear va hlo hva'
          · have hpdx : PDX va = PDX a := by
              unfold PDX
              omega
            unfold Pgdir.pte
            rw [hpdx, ht]
            rfl
      · rename_i t ht
        have hpte : d.pte a = t.pte (PTX a) := by
          unfold Pgdir.pte
          rw [ht]
          rfl
        have hal' : (a + PGSIZE) % PGSIZE = 0 := by
          unfold PGSIZE at hal ⊢
          omega
        have hless : oldsz - (a + PGSIZE) < m := by
          unfold PGSIZE
          omega
        split
        · rename_i hnone
          exact ih _ hless hal' (clear_page hclear hal (hpte.trans hnone)) rfl
        · rename_i page hpage
          split
          · trivial
          · have hpages := pages_setPte ht none
            have hmapped : d.mapped a = {page} := by
              unfold Pgdir.mapped
              rw [if_pos (pdx_user (by omega)), hpte, hpage]
              rfl
            have hnone : (d.setPte a none).pte a = none := pte_setPte ht none
            have hnew : (d.setPte a none).mapped a = 0 := by
              unfold Pgdir.mapped
              rw [hnone]
              exact ite_self _
            rw [hmapped, hnew, add_zero] at hpages
            rw [← hpages, add_comm (d.setPte a none).pages, add_assoc, Multiset.singleton_add]
            refine .free ?_
            refine ih _ hless hal' (clear_page ?_ hal hnone) rfl
            exact fun va hlo hva => pte_clear (hclear va hlo hva)
    · rename_i hge
      exact h d fun va hlo hva => hclear va hlo (by omega)

theorem pgroundup_aligned (sz : ℕ) : PGROUNDUP sz % PGSIZE = 0 := by
  unfold PGROUNDUP
  exact Nat.mul_mod_left _ _

theorem deallocuvm_accounts {Q : Pgdir × ℕ → Multiset ℕ → Prop} (hold : oldsz ≤ KERNBASE)
    (h : ∀ d' r, r ≤ oldsz → Q (d', r) (d'.pages + F)) :
    (deallocuvm d oldsz newsz).Accounts fails (d.pages + F) Q := by
  unfold deallocuvm
  split
  · exact h d oldsz le_rfl
  · rename_i hlt
    refine .bind (deallocLoop_accounts (l := PGROUNDUP newsz) hold (pgroundup_aligned newsz) ?_
      fun d' _ => ?_)
    · intro va hlo hva
      omega
    · exact h d' newsz (by omega)

/-- What a directory owns once nothing is mapped. -/
theorem pages_clear (h : d.Clear 0 KERNBASE) :
    d.pages = d.page ::ₘ ∑ i ∈ Finset.range NPDENTRIES, (d.table i).elim 0 fun t => {t.page} := by
  unfold Pgdir.pages
  refine congrArg _ (Finset.sum_congr rfl fun i _ => ?_)
  cases ht : d.table i with
  | none => rfl
  | some t =>
    show t.page ::ₘ _ = {t.page}
    by_cases hi : i < PDX KERNBASE
    · rw [if_pos hi]
      have huser : t.user = 0 := by
        refine Finset.sum_eq_zero fun j hj => ?_
        rw [pdx_kernbase] at hi
        have hj' : j < 1024 := Finset.mem_range.mp hj
        have hpdx : PDX (i * 2 ^ 22 + j * 2 ^ 12) = i := by
          unfold PDX
          omega
        have hptx : PTX (i * 2 ^ 22 + j * 2 ^ 12) = j := by
          unfold PTX
          omega
        have hnone := h (i * 2 ^ 22 + j * 2 ^ 12) (Nat.zero_le _) (by unfold KERNBASE; omega)
        unfold Pgdir.pte at hnone
        rw [hpdx, hptx, ht] at hnone
        have hpte : t.pte j = none := hnone
        rw [hpte]
        rfl
      rw [huser]
      rfl
    · rw [if_neg hi]
      rfl

theorem freeTables_accounts {Q : PUnit → Multiset ℕ → Prop} (is : List ℕ) (h : Q ⟨⟩ F) :
    (freeTables d is).Accounts fails
      ((is.map fun i => (d.table i).elim (0 : Multiset ℕ) fun t => {t.page}).sum + F) Q := by
  induction is with
  | nil =>
    rw [List.map_nil, List.sum_nil, zero_add]
    exact h
  | cons i rest ih =>
    rw [List.map_cons, List.sum_cons, add_assoc]
    unfold freeTables
    cases d.table i with
    | none =>
      rw [Option.elim_none, zero_add]
      exact ih
    | some t =>
      rw [Option.elim_some, Multiset.singleton_add]
      exact .free ih

theorem sum_range_list (n : ℕ) (f : ℕ → Multiset ℕ) :
    ∑ i ∈ Finset.range n, f i = ((List.range n).map f).sum := rfl

/-- freevm frees all that an address space owns. -/
theorem freevm_accounts {Q : PUnit → Multiset ℕ → Prop} (h : Q ⟨⟩ F) :
    (freevm d).Accounts fails (d.pages + F) Q := by
  unfold freevm deallocuvm
  rw [if_neg (by decide)]
  refine .bind (.bind (deallocLoop_accounts (l := 0) le_rfl (pgroundup_aligned 0) ?_
    fun d' hclear => ?_))
  · intro va _ hva
    have hzero : PGROUNDUP 0 = 0 := by decide
    omega
  · rw [Prog.accounts_pure]
    dsimp only
    rw [pages_clear hclear, sum_range_list, Multiset.cons_add, ← Multiset.add_cons]
    generalize List.range NPDENTRIES = is
    refine .bind (freeTables_accounts is ?_)
    exact ⟨F, rfl, h⟩

/-- A mapping of the kernel lies above KERNBASE and ends with the address space at the latest. -/
def Above (va size : ℕ) : Prop := KERNBASE ≤ va ∧ 0 < size ∧ va + size ≤ 2 ^ 32

theorem mappages_kernel {size : ℕ} {Q : Pgdir × Bool → Multiset ℕ → Prop} (hva : Above va size)
    (h : ∀ d' ok, Q (d', ok) (d'.pages + F)) :
    (mappages d va size pa).Accounts fails (d.pages + F) Q := by
  obtain ⟨hlow, hsize, hhigh⟩ := hva
  unfold mappages
  refine mapLoop_kernel ?_ ?_ h
  · unfold PGROUNDDOWN PGSIZE
    unfold KERNBASE at hlow ⊢
    omega
  · unfold PGROUNDDOWN PGSIZE
    omega

theorem kmap_above (L : Layout) :
    ∀ k ∈ L.kmap, Above k.1 (wrap (k.2.2 + 2 ^ 32 - k.2.1)) := by
  have habove := L.above
  have hbelow := L.below
  unfold EXTMEM at habove
  unfold PHYSTOP at hbelow
  intro k hk
  unfold Layout.kmap at hk
  unfold Above wrap
  simp only [List.mem_cons, List.not_mem_nil, or_false] at hk
  unfold KERNBASE EXTMEM PHYSTOP DEVSPACE at *
  rcases hk with rfl | rfl | rfl | rfl
  all_goals
    dsimp only
    omega

theorem setupLoop_accounts {Q : Option Pgdir → Multiset ℕ → Prop} {ks : List (ℕ × ℕ × ℕ)}
    (hks : ∀ k ∈ ks, Above k.1 (wrap (k.2.2 + 2 ^ 32 - k.2.1))) (hnone : Q none F)
    (hsome : ∀ d', Q (some d') (d'.pages + F)) :
    (setupLoop ks d).Accounts fails (d.pages + F) Q := by
  induction ks generalizing d with
  | nil => exact hsome d
  | cons k rest ih =>
    obtain ⟨virt, phys_start, phys_end⟩ := k
    unfold setupLoop
    refine .bind (mappages_kernel (hks _ List.mem_cons_self) fun d' ok => ?_)
    cases ok with
    | true => exact ih fun k hk => hks k (List.mem_cons_of_mem _ hk)
    | false => exact .bind (freevm_accounts hnone)

/-- A directory with the mappings of the kernel, or nothing at all. -/
theorem setupkvm_accounts (L : Layout) {Q : Option Pgdir → Multiset ℕ → Prop} (hnone : Q none F)
    (hsome : ∀ d', Q (some d') (d'.pages + F)) : (setupkvm L).Accounts fails F Q := by
  unfold setupkvm
  refine .alloc (fun _ => hnone) fun page => ?_
  rw [← Multiset.singleton_add, ← pages_bare page]
  exact setupLoop_accounts (kmap_above L) hnone hsome

theorem allocLoop_accounts {Q : Pgdir × ℕ → Multiset ℕ → Prop} (hnew : newsz < KERNBASE)
    (hal : a % PGSIZE = 0) (h : ∀ d' r, r < KERNBASE → Q (d', r) (d'.pages + F)) :
    (allocLoop d a oldsz newsz).Accounts fails (d.pages + F) Q := by
  have hzero : 0 < KERNBASE := by decide
  induction hm : newsz - a using Nat.strong_induction_on generalizing d a with
  | _ m ih =>
    rw [allocLoop]
    split
    · rename_i hlt
      refine .alloc (fun _ => ?_) fun mem => ?_
      · exact .bind (deallocuvm_accounts hnew.le fun d' r _ => h d' 0 hzero)
      · refine .bind (mappages_user hal (hlt.trans hnew) (fun d' => ?_) fun _ d' => ?_)
        all_goals dsimp only
        · rw [if_pos rfl]
          refine ih _ ?_ ?_ rfl
          · unfold PGSIZE
            omega
          · unfold PGSIZE at hal ⊢
            omega
        · rw [if_neg (by simp), ← Multiset.add_cons]
          refine .bind (deallocuvm_accounts hnew.le fun d'' r _ => ?_)
          rw [Multiset.add_cons]
          exact .free (h d'' 0 hzero)
    · exact h d newsz hnew

/-- allocuvm keeps what it owns, also when it fails. -/
theorem allocuvm_accounts {Q : Pgdir × ℕ → Multiset ℕ → Prop}
    (hold : oldsz < KERNBASE ∨ oldsz ≤ newsz)
    (h : ∀ d' r, r < KERNBASE → Q (d', r) (d'.pages + F)) :
    (allocuvm d oldsz newsz).Accounts fails (d.pages + F) Q := by
  unfold allocuvm
  split
  · exact h d 0 (by decide)
  · rename_i hnew
    split
    · exact h d oldsz (hold.resolve_right (by omega))
    · exact allocLoop_accounts (by omega) (pgroundup_aligned oldsz) h

theorem growproc_accounts {n : ℤ} {Q : Pgdir × ℕ × ℤ → Multiset ℕ → Prop} (hsz : sz < KERNBASE)
    (h : ∀ d' r z, r < KERNBASE → Q (d', r, z) (d'.pages + F)) :
    (growproc d sz n).Accounts fails (d.pages + F) Q := by
  have hend : ∀ (d' : Pgdir) (r : ℕ), r < KERNBASE →
      Prog.Accounts fails (d'.pages + F) Q (pure (if r = 0 then (d', sz, -1) else (d', r, 0))) := by
    intro d' r hr
    split
    · exact h d' sz (-1) hsz
    · exact h d' r 0 hr
  unfold growproc
  dsimp only
  split
  · exact .bind (allocuvm_accounts (Or.inl hsz) hend)
  · split
    · exact .bind (deallocuvm_accounts hsz.le fun d' r hr => hend d' r (by omega))
    · exact h d sz 0 hsz

theorem copyLoop_accounts {pgdir : Pgdir} {i : ℕ} {Q : Option Pgdir → Multiset ℕ → Prop}
    (hsz : sz ≤ KERNBASE)
    (hal : i % PGSIZE = 0) (hnone : Q none F) (hsome : ∀ d', Q (some d') (d'.pages + F)) :
    (copyLoop pgdir sz d i).Accounts fails (d.pages + F) Q := by
  induction hm : sz - i using Nat.strong_induction_on generalizing d i with
  | _ m ih =>
    rw [copyLoop]
    split
    · rename_i hlt
      split
      · trivial
      · refine .alloc (fun _ => .bind (freevm_accounts hnone)) fun mem => ?_
        refine .bind (mappages_user hal (hlt.trans_le hsz) (fun d' => ?_) fun _ d' => ?_)
        all_goals dsimp only
        · rw [if_pos rfl]
          refine ih _ ?_ ?_ rfl
          · unfold PGSIZE
            omega
          · unfold PGSIZE at hal ⊢
            omega
        · rw [if_neg (by simp)]
          exact .free (.bind (freevm_accounts hnone))
    · exact hsome d

/-- copyuvm owns a whole address space at the end, or nothing. -/
theorem copyuvm_accounts (L : Layout) {pgdir : Pgdir} {Q : Option Pgdir → Multiset ℕ → Prop}
    (hsz : sz ≤ KERNBASE) (hnone : Q none F) (hsome : ∀ d', Q (some d') (d'.pages + F)) :
    (copyuvm L pgdir sz).Accounts fails F Q := by
  unfold copyuvm
  exact .bind (setupkvm_accounts L hnone fun d => copyLoop_accounts hsz
    (Nat.zero_mod _) hnone hsome)

theorem loadSegments_accounts {phs : List ProgHdr} {Q : Pgdir × Option ℕ → Multiset ℕ → Prop}
    (hsz : sz < KERNBASE) (hnone : ∀ d', Q (d', none) (d'.pages + F))
    (hsome : ∀ d' r, r < KERNBASE → Q (d', some r) (d'.pages + F)) :
    (loadSegments phs d sz).Accounts fails (d.pages + F) Q := by
  induction phs generalizing d sz with
  | nil => exact hsome d sz hsz
  | cons ph rest ih =>
    unfold loadSegments
    split
    · exact hnone d
    split
    · exact ih hsz
    split
    · exact hnone d
    split
    · exact hnone d
    · refine .bind (allocuvm_accounts (Or.inl hsz) fun d' r hr => ?_)
      dsimp only
      split
      · exact hnone d'
      split
      · exact hnone d'
      split
      · exact hnone d'
      · exact ih hr

theorem build_accounts (L : Layout) {image : Image} {Q : Option (Pgdir × ℕ) → Multiset ℕ → Prop}
    (hnone : Q none F) (hsome : ∀ d' r, r < KERNBASE → Q (some (d', r)) (d'.pages + F)) :
    (build L image).Accounts fails F Q := by
  have hpos : 0 < KERNBASE := by decide
  unfold build
  refine .bind (setupkvm_accounts L hnone fun d => ?_)
  refine .bind (loadSegments_accounts hpos (fun d' => ?_) fun d' sz hsz => ?_)
  all_goals dsimp only
  · exact .bind (freevm_accounts hnone)
  · have hle : PGROUNDUP sz ≤ wrap (PGROUNDUP sz + 2 * PGSIZE) := by
      unfold PGROUNDUP wrap PGSIZE
      unfold KERNBASE at hsz
      omega
    refine .bind ?_
    generalize wrap (PGROUNDUP sz + 2 * PGSIZE) = newsz at hle ⊢
    refine allocuvm_accounts (Or.inr hle) fun d'' r hr => ?_
    dsimp only
    split
    · exact .bind (freevm_accounts hnone)
    · exact hsome d'' r hr

/-- exec ends with one address space, the old or the new one, and has freed the other. -/
theorem exec_accounts (L : Layout) {image : Image} {Q : Pgdir × ℕ × ℤ → Multiset ℕ → Prop}
    (hsz : sz < KERNBASE)
    (h : ∀ d' r z, r < KERNBASE → Q (d', r, z) (d'.pages + F)) :
    (exec L d sz image).Accounts fails (d.pages + F) Q := by
  unfold exec
  split
  · exact h d sz (-1) hsz
  · refine .bind (build_accounts L (h d sz (-1) hsz) fun d' r hr => ?_)
    rw [add_left_comm]
    exact .bind (freevm_accounts (h d' r 0 hr))

end Mapping

end NorthOS.Vm
