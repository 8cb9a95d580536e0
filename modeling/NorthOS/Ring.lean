import Mathlib.Data.List.Range
import Mathlib.Tactic.Common

/-!
Cells of a buffer used in a circle. A counter runs on without end, and cell `k % size`
holds what was stored when it was `k`; as long as a stretch of counters is not longer than the
buffer, a store behind it changes nothing in it.
-/
namespace NorthOS.Ring

variable {α : Type*} {size : ℕ} {buf : ℕ → α}

/-- The cells of the `n` counters from `lo` on. -/
def stretch (size : ℕ) (buf : ℕ → α) (lo n : ℕ) : List α :=
  (List.range n).map fun k => buf ((lo + k) % size)

@[simp] theorem stretch_zero {lo : ℕ} : stretch size buf lo 0 = [] := rfl

@[simp] theorem length_stretch {lo n : ℕ} : (stretch size buf lo n).length = n := by
  unfold stretch
  rw [List.length_map, List.length_range]

theorem stretch_succ {lo n : ℕ} :
    stretch size buf lo (n + 1) = stretch size buf lo n ++ [buf ((lo + n) % size)] := by
  unfold stretch
  rw [List.range_succ, List.map_append]
  rfl

theorem stretch_cons {lo n : ℕ} :
    stretch size buf lo (n + 1) = buf (lo % size) :: stretch size buf (lo + 1) n := by
  unfold stretch
  rw [List.range_succ_eq_map, List.map_cons, List.map_map]
  refine congrArg _ (List.map_congr_left fun k _ => ?_)
  show buf ((lo + (k + 1)) % size) = buf ((lo + 1 + k) % size)
  rw [Nat.add_assoc lo 1 k, Nat.add_comm 1 k]

theorem stretch_append {lo n m : ℕ} :
    stretch size buf lo (n + m) = stretch size buf lo n ++ stretch size buf (lo + n) m := by
  induction m with
  | zero => simp
  | succ m ih =>
    rw [← Nat.add_assoc, stretch_succ, ih, stretch_succ, List.append_assoc, Nat.add_assoc lo n m]

/-- Counters that wrap around at a multiple of the size tell the cell as well. -/
theorem stretch_mod {lo n m : ℕ} (h : size ∣ m) :
    stretch size buf (lo % m) n = stretch size buf lo n := by
  refine List.map_congr_left fun k _ => ?_
  rw [Nat.add_mod, Nat.mod_mod_of_dvd _ h, ← Nat.add_mod]

/-- A store at a counter less than a round behind the stretch. -/
theorem stretch_update {lo n k : ℕ} {x : α} (hlo : lo + n ≤ k) (hk : k < lo + size) :
    stretch size (Function.update buf (k % size) x) lo n = stretch size buf lo n := by
  refine List.map_congr_left fun i hi => Function.update_of_ne ?_ ..
  have hin := List.mem_range.mp hi
  intro heq
  have hmod : (k - (lo + i)) % size = 0 := by
    rw [← Nat.sub_mod_eq_zero_of_mod_eq heq.symm]
  rw [Nat.mod_eq_of_lt (by omega)] at hmod
  omega

end NorthOS.Ring
