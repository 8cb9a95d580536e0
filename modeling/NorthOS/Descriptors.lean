import Mathlib.Data.List.Range
import Mathlib.Data.List.Infix
import Mathlib.Logic.Function.Basic
import Mathlib.Tactic.Common

/-!
Tables of numbered slots in which a new entry goes to the first free slot. A slot that is
emptied below all other free ones is the next to be filled.
-/
namespace NorthOS.Descriptors

variable {α : Type*} {n : ℕ} {T U : ℕ → Option α} {i j : ℕ}

/-- The first free slot of `n`. -/
def lowest (n : ℕ) (T : ℕ → Option α) : Option ℕ := (List.range n).find? fun i => (T i).isNone

theorem lowest_spec (h : lowest n T = some i) : i < n ∧ T i = none := by
  refine ⟨List.mem_range.mp (List.mem_of_find?_eq_some h), ?_⟩
  simpa using List.find?_some h

theorem lowest_eq (hi : i < n) (hfree : T i = none) (hused : ∀ j, j < i → T j ≠ none) :
    lowest n T = some i := by
  unfold lowest
  rw [List.find?_range_eq_some]
  refine ⟨by simp [hfree], List.mem_range.mpr hi, fun j hj => ?_⟩
  simpa [Option.isSome_iff_ne_none] using hused j hj

/-- The slot that has been emptied is filled again. -/
theorem lowest_close (hi : i < n) (hused : ∀ j, j < i → T j ≠ none) :
    lowest n (Function.update T i none) = some i := by
  refine lowest_eq hi (Function.update_self _ _ _) fun j hj => ?_
  rw [Function.update_of_ne (Nat.ne_of_lt hj)]
  exact hused j hj

theorem lowest_ne (h : lowest n T = some i) (hj : T j ≠ none) : i ≠ j := by
  rintro rfl
  exact hj (lowest_spec h).2

end NorthOS.Descriptors
