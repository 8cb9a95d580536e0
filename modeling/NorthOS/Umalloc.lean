import NorthOS.HeapBlocks
import NorthOS.CircularList
import NorthOS.Runs
import Mathlib.Logic.Function.Basic

/-!
The user library's heap: `malloc`, `free` and `morecore`, with the arithmetic
of `growproc` below `sbrk`. Addresses count units of eight bytes, the size of a
header, so that the header before a pointer is the unit below it. Sizes and
requests are unsigned and wrap; `sbrk` takes its argument as a signed number.
A loop is given as many turns as the memory below the break can have headers,
and no result is a loop still running then.
-/
namespace NorthOS.Umalloc

open CircularList

def KERNBASE : ℕ := 0x80000000

def uint (n : ℕ) : ℕ := n % 2 ^ 32

/-- `ptr` and `size` are the two words of the header in each unit of the memory, `base` is the
address of the static header, and `brk` is the end of the memory. -/
structure Heap where
  base : ℕ
  ptr : ℕ → ℕ
  size : ℕ → ℕ
  freep : Option ℕ
  brk : ℕ

namespace Heap

def setPtr (s : Heap) (p v : ℕ) : Heap := { s with ptr := Function.update s.ptr p v }

def setSize (s : Heap) (p v : ℕ) : Heap := { s with size := Function.update s.size p v }

/-- The stop condition of the search in `free`: the block lies between this header and the
next one, or this is the last header and the block is beyond either end. -/
def Between (s : Heap) (bp p : ℕ) : Prop :=
  (p < bp ∧ bp < s.ptr p) ∨ (s.ptr p ≤ p ∧ (p < bp ∨ bp < s.ptr p))

instance (s : Heap) (bp : ℕ) : DecidablePred (s.Between bp) := fun _ =>
  inferInstanceAs (Decidable (_ ∨ _))

/-- The first half of the linking: towards the header after the block. -/
def joinUpper (s : Heap) (bp p : ℕ) : Heap :=
  if bp + s.size bp = s.ptr p then
    let s := s.setSize bp (uint (s.size bp + s.size (s.ptr p)))
    s.setPtr bp (s.ptr (s.ptr p))
  else s.setPtr bp (s.ptr p)

/-- The second half: from the header before the block. -/
def joinLower (s : Heap) (bp p : ℕ) : Heap :=
  if p + s.size p = bp then
    let s := s.setSize p (uint (s.size p + s.size bp))
    s.setPtr p (s.ptr bp)
  else s.setPtr p bp

def free (s : Heap) (ap : ℕ) : Option Heap := do
  let bp := ap - 1
  let start ← s.freep
  let p ← seek (s.Between bp) s.ptr (s.brk + 1) start
  let s := (s.joinUpper bp p).joinLower bp p
  pure { s with freep := some p }

end Heap

/-- The page-table walks of `allocuvm` and `deallocuvm` matter here through the size they
return; `granted` says whether there are pages enough. -/
def allocuvm (granted : Bool) (oldsz newsz : ℕ) : ℕ :=
  if KERNBASE ≤ newsz then 0
  else if newsz < oldsz then oldsz
  else if granted then newsz
  else 0

def deallocuvm (oldsz newsz : ℕ) : ℕ := if oldsz ≤ newsz then oldsz else newsz

/-- The new size of the process. Arguments from half the range on are negative. -/
def growproc (granted : Bool) (sz n : ℕ) : Option ℕ :=
  let grown := allocuvm granted sz (uint (sz + n))
  let shrunk := deallocuvm sz (uint (sz + n))
  if n = 0 then some sz
  else if n < 2 ^ 31 then if grown = 0 then none else some grown
  else if shrunk = 0 then none else some shrunk

namespace Heap

def sbrk (granted : Bool) (n : ℕ) (s : Heap) : Option (ℕ × Heap) :=
  (growproc granted (8 * s.brk) n).map fun sz => (s.brk, { s with brk := sz / 8 })

/-- The kernel may grant a request at one break and not at the next. -/
def morecore (granted : ℕ → Bool) (nu : ℕ) (s : Heap) : Option (Option ℕ × Heap) :=
  let nu := if nu < 4096 then 4096 else nu
  match s.sbrk (granted s.brk) (uint (nu * 8)) with
  | none => some (none, s)
  | some (hp, s) => (free (s.setSize hp nu) (hp + 1)).map fun s => (s.freep, s)

/-- What `malloc` does at a header that is large enough. -/
def take (nunits : ℕ) (s : Heap) (prevp p : ℕ) : ℕ × Heap :=
  if s.size p = nunits then (p + 1, { s.setPtr prevp (s.ptr p) with freep := some prevp })
  else
    let s := s.setSize p (s.size p - nunits)
    let p := p + s.size p
    (p + 1, { s.setSize p nunits with freep := some prevp })

def search (granted : ℕ → Bool) (nunits : ℕ) : ℕ → Heap → ℕ → ℕ → Option (Option ℕ × Heap)
  | 0, _, _, _ => none
  | n + 1, s, prevp, p =>
    if nunits ≤ s.size p then some ((s.take nunits prevp p).map some id)
    else if some p = s.freep then
      match s.morecore granted nunits with
      | none => none
      | some (none, s) => some (none, s)
      | some (some p, s) => search granted nunits n s p (s.ptr p)
    else search granted nunits n s p (s.ptr p)

def units (nbytes : ℕ) : ℕ := uint (nbytes + 7) / 8 + 1

/-- The first call makes the static header a circle of one. -/
def opened (s : Heap) : Heap :=
  match s.freep with
  | some _ => s
  | none => { (s.setPtr s.base s.base).setSize s.base 0 with freep := some s.base }

def malloc (granted : ℕ → Bool) (nbytes : ℕ) (s : Heap) : Option (Option ℕ × Heap) := do
  let nunits := units nbytes
  let s := s.opened
  let prevp ← s.freep
  search granted nunits (2 * (s.brk + nunits + 4096 + 1)) s prevp (s.ptr prevp)

end Heap

/-- The heap, and the blocks that have been returned and not given back: where each begins
and how many bytes were asked for. -/
structure State where
  heap : Heap
  live : List (ℕ × ℕ)

/-- Before the first call the memory above the program's image is empty. -/
def State.initial (base lo : ℕ) (ptr size : ℕ → ℕ) : State :=
  ⟨⟨base, ptr, size, none, lo⟩, []⟩

/-- The `i`th of the live blocks is freed or written to; a unit is written as a whole, and
only where one of its bytes was asked for. -/
inductive Action where
  | malloc (nbytes : UInt32) (granted : ℕ → Bool)
  | free (i : ℕ)
  | store (i j ptr size : ℕ)

def step (s : State) : Action → Option State
  | .malloc nbytes granted => (s.heap.malloc granted nbytes.toNat).map fun
    | (none, heap) => { s with heap }
    | (some ap, heap) => ⟨heap, (ap, nbytes.toNat) :: s.live⟩
  | .free i =>
    match s.live[i]? with
    | none => some s
    | some (ap, _) => (s.heap.free ap).map fun heap => ⟨heap, s.live.eraseIdx i⟩
  | .store i j ptr size =>
    match s.live[i]? with
    | none => some s
    | some (ap, k) =>
      if 8 * j < k then
        some { s with heap := (s.heap.setPtr (ap + j) ptr).setSize (ap + j) size }
      else some s

end NorthOS.Umalloc
