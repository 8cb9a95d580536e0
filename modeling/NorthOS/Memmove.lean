import Mathlib.Algebra.Group.Nat.Defs
import Mathlib.Data.Int.Notation
import NorthOS.ByteMoves

/-!
memmove of the kernel and memmove of the user library. Both are said to copy between ranges
that may overlap. The kernel's copy starts at the end where the target lies behind the start of
the source; the library's copy always starts at the front.
-/
namespace NorthOS.Memmove

open ByteMoves

/-- A pointer, which wraps around at the end of the address space. -/
abbrev Address := BitVec 32

abbrev Memory := Address → UInt8

/-- `while (n-- > 0) *dst++ = *src++;` -/
def copyForward : ℕ → Address → Address → Memory → Memory
  | 0, _, _, m => m
  | n + 1, dst, src, m => copyForward n (dst + 1) (src + 1) (Function.update m dst (m src))

/-- `while (n-- > 0) *--d = *--s;` -/
def copyBackward : ℕ → Address → Address → Memory → Memory
  | 0, _, _, m => m
  | n + 1, d, s, m => copyBackward n (d - 1) (s - 1) (Function.update m (d - 1) (m (s - 1)))

namespace Ulib

def memmove (vdst vsrc : Address) (n : ℤ) (m : Memory) : Address × Memory :=
  (vdst, copyForward n.toNat vdst vsrc m)

end Ulib

namespace Kernel

def memmove (dst src : Address) (n : BitVec 32) (m : Memory) : Address × Memory :=
  let s := src
  let d := dst
  if s < d ∧ s + n > d then (dst, copyBackward n.toNat (d + n) (s + n) m)
  else (dst, copyForward n.toNat d s m)

end Kernel

/-- The byte i positions behind an address. -/
def offset (p : Address) (i : ℕ) : Address := p + BitVec.ofNat 32 i

/-- The n bytes from dst on are those that were at src, and no other byte has changed. -/
abbrev Copied (dst src : Address) (n : ℕ) (m m' : Memory) : Prop :=
  Moved (offset dst) (offset src) n m m'

variable {dst src p : Address} {n i j : ℕ} {m : Memory}

section Loops

@[simp] theorem offset_zero : offset p 0 = p := by simp [offset]

theorem offset_succ : offset (p + 1) = fun i => offset p (i + 1) := by
  funext i
  unfold offset
  bv_omega

theorem offset_ne (hi : i < 2 ^ 32) (hj : j < i) : offset p j ≠ offset p i := by
  unfold offset
  bv_omega

theorem copyForward_eq : copyForward n dst src m = copyUp (offset dst) (offset src) n m := by
  induction n generalizing dst src m with
  | zero => rfl
  | succ n ih =>
    rw [copyForward, ih, copyUp_succ]
    simp only [offset_succ, offset_zero]

theorem copyBackward_eq :
    copyBackward n (offset dst n) (offset src n) m = copyDown (offset dst) (offset src) n m := by
  have hback : ∀ (p : Address) (n : ℕ), offset p (n + 1) - 1 = offset p n := by
    intro p n
    unfold offset
    bv_omega
  induction n generalizing m with
  | zero => rfl
  | succ n ih =>
    rw [copyBackward, hback, hback, ih]
    rfl

end Loops

/-- The copy from the front is right if and only if the bytes that it writes before it reads them
are the bytes it would read. -/
theorem copyForward_copied_iff (hn : n < 2 ^ 31) :
    Copied dst src n m (copyForward n dst src m) ↔
      ∀ i, i + (dst - src).toNat < n → m (offset dst i) = m (offset src i) := by
  rw [copyForward_eq]
  by_cases hk : dst = src
  · subst hk
    rw [copyUp_self fun _ _ => rfl]
    exact ⟨fun _ _ _ => rfl, fun _ => ⟨fun _ _ => rfl, fun _ _ => rfl⟩⟩
  · apply copyUp_moved_iff
    · bv_omega
    · exact fun i hi j hj => offset_ne (by omega) hj
    · intro i
      unfold offset
      bv_omega
    · intro i hi j hj
      unfold offset
      bv_omega

/-- Where the target begins inside the source, the copy from the end is right. -/
theorem copyBackward_copied (hn : n < 2 ^ 31) (hlt : src < dst)
    (hgt : dst < src + BitVec.ofNat 32 n) :
    Copied dst src n m (copyBackward n (offset dst n) (offset src n) m) := by
  rw [copyBackward_eq]
  apply copyDown_moved
  · exact fun i hi j hj => offset_ne (by omega) hj
  · intro i hi j hj
    unfold offset
    bv_omega

theorem kernel_memmove_eq (hn : n < 2 ^ 31) :
    Kernel.memmove dst src (BitVec.ofNat 32 n) m =
      (dst, if src < dst ∧ dst < src + BitVec.ofNat 32 n
        then copyBackward n (offset dst n) (offset src n) m else copyForward n dst src m) := by
  have htoNat : (BitVec.ofNat 32 n).toNat = n := by bv_omega
  unfold Kernel.memmove
  simp only [htoNat]
  split <;> rfl

/-- Where neither range runs over the end of the address space, the kernel's copy is right. -/
theorem kernel_copied (hn : n < 2 ^ 31) (hsrc : src.toNat + n < 2 ^ 32)
    (hdst : dst.toNat + n < 2 ^ 32) :
    Copied dst src n m (Kernel.memmove dst src (BitVec.ofNat 32 n) m).2 := by
  rw [kernel_memmove_eq hn]
  simp only
  split
  next h => exact copyBackward_copied hn h.1 h.2
  next h =>
    rw [copyForward_copied_iff hn]
    intro i hi
    by_cases heq : dst = src
    · rw [heq]
    · exfalso
      bv_omega

/-- The two functions leave the same memory, and it is the one that a copy promises, if and only if
each byte of the source that the copy from the front has written by the time it reads it is
the same as the byte it writes there. -/
theorem memmove_eq_iff (hn : n < 2 ^ 31) :
    (Ulib.memmove dst src n m = Kernel.memmove dst src (BitVec.ofNat 32 n) m ∧
        Copied dst src n m (Ulib.memmove dst src n m).2) ↔
      ∀ i, i + (dst - src).toNat < n → m (offset dst i) = m (offset src i) := by
  rw [← copyForward_copied_iff hn]
  constructor
  · intro h
    simpa [Ulib.memmove] using h.2
  · intro h
    have hu : Ulib.memmove dst src n m = (dst, copyForward n dst src m) := by simp [Ulib.memmove]
    refine ⟨?_, by rw [hu]; exact h⟩
    rw [hu, kernel_memmove_eq hn]
    split
    next hback => rw [h.unique (copyBackward_copied hn hback.1 hback.2)]
    next => rfl

/-- A memory in which every byte is the last byte of its address. -/
def ramp : Memory := fun a => UInt8.ofNat a.toNat

/-- Two bytes moved up by two. -/
theorem memmove_eq_disjoint :
    Ulib.memmove 18 16 2 ramp = Kernel.memmove 18 16 2 ramp ∧
      Copied 18 16 2 ramp (Ulib.memmove 18 16 2 ramp).2 :=
  (memmove_eq_iff (by decide)).2 fun i hi => absurd hi (by simp)

/-- Two bytes moved up by one: the library writes the first byte twice. -/
theorem memmove_ne_overlapping :
    ¬ ∀ (dst src : Address) (n : ℕ) (m : Memory), n < 2 ^ 31 →
      Ulib.memmove dst src n m = Kernel.memmove dst src (BitVec.ofNat 32 n) m ∧
        Copied dst src n m (Ulib.memmove dst src n m).2 := by
  intro h
  have hbyte : (Ulib.memmove 17 16 2 ramp).2 18 ≠ (Kernel.memmove 17 16 2 ramp).2 18 := by decide
  exact hbyte (congrArg (fun r => r.2 18) (h 17 16 2 ramp (by decide)).1)

end NorthOS.Memmove
