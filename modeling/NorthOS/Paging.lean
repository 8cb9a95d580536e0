import NorthOS.Halting
import NorthOS.LittleEndian
import NorthOS.PhysicalPages

/-!
Address spaces with what the pages hold: kalloc.c and vm.c. A page of memory is known by its
number and holds bytes; a page directory is a tree beside them, whose entries carry their flags.
An entry that is not present is a word of zeros. The links of the free list are kept in the list
and not in the pages.
-/
namespace NorthOS.Paging

open Halting Halting.Comp LittleEndian
open Vm (PGSIZE NPDENTRIES KERNBASE EXTMEM PHYSTOP DEVSPACE wrap PDX PTX PGROUNDUP PGROUNDDOWN)

def PTE_P : BitVec 12 := 1
def PTE_W : BitVec 12 := 2
def PTE_U : BitVec 12 := 4

/-- An entry that is present. -/
structure Pte where
  frame : ℕ
  flags : BitVec 12
  present : flags &&& PTE_P = PTE_P

structure Table where
  page : ℕ
  pte : ℕ → Option Pte

structure Pgdir where
  page : ℕ
  table : ℕ → Option Table

/-- Where the linker puts the kernel's data and end. -/
structure Kernel extends Vm.Layout where
  aligned : data % PGSIZE = 0
  ends : data ≤ kernelEnd

/-- `fails` tells of the next calls of kalloc which of them find no page even so, `cr3` is the page
table in use, and `nulls` counts the entries that were read through a null pointer. -/
structure Memory where
  freelist : List ℕ
  fails : List Bool
  bytes : ℕ → Bytes
  cr3 : Pgdir
  nulls : ℕ

inductive Halt
  /-- remap -/
  | remap
  /-- kfree -/
  | kfree
  /-- loaduvm: addr must be page aligned -/
  | loaduvmAligned
  /-- loaduvm: address should exist -/
  | loaduvmExist
  /-- copyuvm: pte should exist -/
  | copyuvmExist
  /-- copyuvm: page not present -/
  | copyuvmPresent
  /-- clearpteu -/
  | clearpteu
  /-- a page fault in the kernel -/
  | pageFault
  deriving DecidableEq

abbrev M (A : Type) := Comp Memory Halt A

namespace Pte

/-- `pa | perm | PTE_P` -/
def mk' (frame : ℕ) (perm : BitVec 12) : Pte where
  frame := frame
  flags := perm ||| PTE_P
  present := by
    refine BitVec.eq_of_getElem_eq fun i _ => ?_
    rw [BitVec.getElem_and, BitVec.getElem_or]
    cases perm[i] <;> cases PTE_P[i] <;> rfl

def User (e : Pte) : Prop := e.flags &&& PTE_U ≠ 0

instance (e : Pte) : Decidable e.User := inferInstanceAs (Decidable (_ ≠ _))

def clearU (e : Pte) : Pte where
  frame := e.frame
  flags := e.flags &&& ~~~PTE_U
  present := by
    rw [BitVec.and_assoc]
    exact e.present

/-- The entry that a word is. -/
def ofWord (w : ℕ) : Option Pte :=
  if h : BitVec.ofNat 12 w &&& PTE_P = PTE_P then some ⟨w / PGSIZE, BitVec.ofNat 12 w, h⟩ else none

end Pte

namespace Pgdir

/-- What walkpgdir without `alloc` points to: null, or an entry. -/
def walk (d : Pgdir) (va : ℕ) : Option (Option Pte) := (d.table (PDX va)).map fun t => t.pte (PTX va)

def pte (d : Pgdir) (va : ℕ) : Option Pte := (d.walk va).join

def setPte (d : Pgdir) (va : ℕ) (x : Option Pte) : Pgdir :=
  { d with
    table := Function.update d.table (PDX va)
      ((d.table (PDX va)).map fun t => { t with pte := Function.update t.pte (PTX va) x }) }

def setTable (d : Pgdir) (va page : ℕ) : Pgdir :=
  { d with table := Function.update d.table (PDX va) (some ⟨page, fun _ => none⟩) }

end Pgdir

section Pages

def kalloc : M (Option ℕ) := fun m =>
  match m.fails, m.freelist with
  | true :: fails, _ => .ok (none, { m with fails })
  | fails, [] => .ok (none, { m with fails := fails.tail })
  | fails, page :: freelist => .ok (some page, { m with fails := fails.tail, freelist })

def memset (page : ℕ) (c : UInt8) : M Unit :=
  update fun m => { m with bytes := Function.update m.bytes page fun _ => c }

/-- `memmove(P2V(page) + at, p, n)`, where `p` has `n` bytes. -/
def memmove (page at_ : ℕ) (p : List UInt8) : M Unit :=
  update fun m => { m with bytes := Function.update m.bytes page fun i =>
    if at_ ≤ i ∧ i < at_ + p.length then p.getD (i - at_) 0 else m.bytes page i }

/-- `memmove(P2V(page), P2V(pa), PGSIZE)` -/
def copyPage (page pa : ℕ) : M Unit :=
  update fun m => { m with bytes := Function.update m.bytes page (m.bytes pa) }

def kfree (K : Kernel) (page : ℕ) : M Unit := do
  ensure (fun _ => !K.outside page) .kfree
  memset page 1
  update fun m => { m with freelist := page :: m.freelist }

end Pages

section Mapping

/-- With `alloc`, the directory in which the table is there; null where no page is found. -/
def walkpgdir (d : Pgdir) (va : ℕ) : M (Option Pgdir) :=
  match d.table (PDX va) with
  | some _ => pure (some d)
  | none => do
    match ← kalloc with
    | none => pure none
    | some pgtab => do
      memset pgtab 0
      pure (some (d.setTable va pgtab))

def mapLoop (perm : BitVec 12) : ℕ → Pgdir → ℕ → ℕ → M (Pgdir × Bool)
  | 0, d, _, _ => pure (d, true)
  | n + 1, d, a, pa => do
    match ← walkpgdir d a with
    | none => pure (d, false)
    | some d =>
      if (d.pte a).isSome then halt .remap
      else mapLoop perm n (d.setPte a (some (.mk' pa perm))) (a + PGSIZE) (pa + 1)

/-- `pa` is a page. -/
def mappages (d : Pgdir) (va size pa : ℕ) (perm : BitVec 12) : M (Pgdir × Bool) :=
  mapLoop perm ((PGROUNDDOWN (va + size - 1) - PGROUNDDOWN va) / PGSIZE + 1) d (PGROUNDDOWN va) pa

def deallocLoop (K : Kernel) (d : Pgdir) (a oldsz : ℕ) : M Pgdir :=
  if a < oldsz then
    match d.walk a with
    | none => deallocLoop K d ((a / 2 ^ 22 + 1) * 2 ^ 22) oldsz
    | some none => deallocLoop K d (a + PGSIZE) oldsz
    | some (some e) =>
      if e.frame = 0 then halt .kfree
      else do
        kfree K e.frame
        deallocLoop K (d.setPte a none) (a + PGSIZE) oldsz
  else pure d
termination_by oldsz - a
decreasing_by
  · omega
  · unfold PGSIZE
    omega
  · unfold PGSIZE
    omega

/-- The address space, and its new size. -/
def deallocuvm (K : Kernel) (d : Pgdir) (oldsz newsz : ℕ) : M (Pgdir × ℕ) :=
  if oldsz ≤ newsz then pure (d, oldsz)
  else do
    let d ← deallocLoop K d (PGROUNDUP newsz) oldsz
    pure (d, newsz)

def freeTables (K : Kernel) (d : Pgdir) : List ℕ → M Unit
  | [] => pure ()
  | i :: rest => do
    match d.table i with
    | some t => kfree K t.page
    | none => pure ()
    freeTables K d rest

def freevm (K : Kernel) (d : Pgdir) : M Unit := do
  let (d, _) ← deallocuvm K d KERNBASE 0
  freeTables K d (List.range NPDENTRIES)
  kfree K d.page

/-- A virtual address, the physical range, and the permissions. -/
def Kernel.kmap (K : Kernel) : List ((ℕ × ℕ × ℕ) × BitVec 12) :=
  K.toLayout.kmap.zip [PTE_W, 0, PTE_W, PTE_W]

def setupLoop (K : Kernel) : List ((ℕ × ℕ × ℕ) × BitVec 12) → Pgdir → M (Option Pgdir)
  | [], d => pure (some d)
  | ((virt, phys_start, phys_end), perm) :: rest, d => do
    let (d, ok) ← mappages d virt (wrap (phys_end + 2 ^ 32 - phys_start)) (phys_start / PGSIZE) perm
    if ok then setupLoop K rest d
    else do
      freevm K d
      pure none

def setupkvm (K : Kernel) : M (Option Pgdir) := do
  match ← kalloc with
  | none => pure none
  | some pgdir => do
    memset pgdir 0
    setupLoop K K.kmap ⟨pgdir, fun _ => none⟩

def allocLoop (K : Kernel) (d : Pgdir) (a oldsz newsz : ℕ) : M (Pgdir × ℕ) :=
  if a < newsz then do
    match ← kalloc with
    | none => do
      let (d, _) ← deallocuvm K d newsz oldsz
      pure (d, 0)
    | some mem => do
      memset mem 0
      let (d, ok) ← mappages d a PGSIZE mem (PTE_W ||| PTE_U)
      if ok then allocLoop K d (a + PGSIZE) oldsz newsz
      else do
        let (d, _) ← deallocuvm K d newsz oldsz
        kfree K mem
        pure (d, 0)
  else pure (d, newsz)
termination_by newsz - a
decreasing_by
  unfold PGSIZE
  omega

/-- The address space, and its new size or 0. -/
@[irreducible] def allocuvm (K : Kernel) (d : Pgdir) (oldsz newsz : ℕ) : M (Pgdir × ℕ) :=
  if KERNBASE ≤ newsz then pure (d, 0)
  else if newsz < oldsz then pure (d, oldsz)
  else allocLoop K d (PGROUNDUP oldsz) oldsz newsz

def copyLoop (K : Kernel) (pgdir : Pgdir) (sz : ℕ) (d : Pgdir) (i : ℕ) : M (Option Pgdir) :=
  if i < sz then
    match pgdir.walk i with
    | none => halt .copyuvmExist
    | some none => halt .copyuvmPresent
    | some (some e) => do
      match ← kalloc with
      | none => do
        freevm K d
        pure none
      | some mem => do
        copyPage mem e.frame
        let (d, ok) ← mappages d i PGSIZE mem e.flags
        if ok then copyLoop K pgdir sz d (i + PGSIZE)
        else do
          kfree K mem
          freevm K d
          pure none
  else pure (some d)
termination_by sz - i
decreasing_by
  unfold PGSIZE
  omega

def copyuvm (K : Kernel) (pgdir : Pgdir) (sz : ℕ) : M (Option Pgdir) := do
  match ← setupkvm K with
  | none => pure none
  | some d => copyLoop K pgdir sz d 0

def clearpteu (d : Pgdir) (uva : ℕ) : M Pgdir :=
  match d.walk uva with
  | none => halt .clearpteu
  | some e => pure (d.setPte uva (e.map Pte.clearU))

end Mapping

section Copying

/-- `*pte` where `pte` is null: the word at address 0 of the page table in use. -/
def nullEntry : M (Option Pte) := do
  update fun m => { m with nulls := m.nulls + 1 }
  let m ← look id
  match m.cr3.pte 0 with
  | none => halt .pageFault
  | some e => pure (Pte.ofWord (get (m.bytes e.frame) 0 4))

/-- The page that the kernel writes to at P2V of an address that no page table of its own
gave it. -/
def kernelPage (frame : ℕ) : M ℕ := do
  let m ← look id
  match m.cr3.pte (wrap (frame * PGSIZE + KERNBASE)) with
  | none => halt .pageFault
  | some e => if e.flags &&& PTE_W = 0 then halt .pageFault else pure e.frame

def userFrame (e : Option Pte) : Option ℕ := e.bind fun e => if e.User then some e.frame else none

/-- The page, or 0; what walkpgdir returns is not tested for null. -/
def uva2ka (d : Pgdir) (uva : ℕ) : M (Option ℕ) :=
  match d.walk uva with
  | some e => pure (userFrame e)
  | none => do
    let e ← nullEntry
    match userFrame e with
    | none => pure none
    | some frame => do
      let page ← kernelPage frame
      pure (some page)

def copyout (d : Pgdir) (va : ℕ) (p : List UInt8) : M ℤ :=
  if p = [] then pure 0
  else do
    let va0 := PGROUNDDOWN va
    match ← uva2ka d va0 with
    | none => pure (-1)
    | some page => do
      let n := min (PGSIZE - (va - va0)) p.length
      memmove page (va - va0) (p.take n)
      copyout d (wrap (va0 + PGSIZE)) (p.drop n)
termination_by p.length
decreasing_by
  have hpos := List.length_pos_iff.mpr ‹¬ p = []›
  have hpage : va - PGROUNDDOWN va < PGSIZE := by
    unfold PGROUNDDOWN PGSIZE
    omega
  rw [List.length_drop]
  omega

end Copying

end NorthOS.Paging
