import Mathlib.Logic.Function.Basic
import Mathlib.Tactic.Common

/-!
Copies inside one memory. The bytes at r 0, ..., r (n - 1) go to w 0, ..., w (n - 1), one after
the other, from the first position or from the last. A byte that is written before it is read
is lost, so each order is right where it reads before it writes.
-/
namespace NorthOS.ByteMoves

variable {α β : Type*} [DecidableEq α] {w r : ℕ → α} {n i k : ℕ} {m m' m'' : α → β} {a : α}

/-- Copies the first n positions, the first of them first. -/
def copyUp (w r : ℕ → α) : ℕ → (α → β) → α → β
  | 0, m => m
  | n + 1, m => Function.update (copyUp w r n m) (w n) (copyUp w r n m (r n))

/-- Copies the first n positions, the last of them first. -/
def copyDown (w r : ℕ → α) : ℕ → (α → β) → α → β
  | 0, m => m
  | n + 1, m => copyDown w r n (Function.update m (w n) (m (r n)))

/-- What a copy promises: the bytes that were there before, and no other byte changed. -/
structure Moved (w r : ℕ → α) (n : ℕ) (m m' : α → β) : Prop where
  copied : ∀ i < n, m' (w i) = m (r i)
  frame : ∀ a, (∀ i < n, a ≠ w i) → m' a = m a

theorem Moved.unique (h : Moved w r n m m') (h' : Moved w r n m m'') : m' = m'' := by
  funext a
  by_cases ha : ∃ i < n, a = w i
  · obtain ⟨i, hi, rfl⟩ := ha
    rw [h.copied i hi, h'.copied i hi]
  · push Not at ha
    rw [h.frame a ha, h'.frame a ha]

section Up

theorem copyUp_frame (ha : ∀ i < n, a ≠ w i) : copyUp w r n m a = m a := by
  induction n with
  | zero => rfl
  | succ n ih =>
    rw [copyUp, Function.update_of_ne (ha n (by omega))]
    exact ih fun i hi => ha i (by omega)

/-- A position holds what the memory held at its source when its turn came. -/
theorem copyUp_at (hw : ∀ i < n, ∀ j < i, w j ≠ w i) (hi : i < n) :
    copyUp w r n m (w i) = copyUp w r i m (r i) := by
  induction n with
  | zero => omega
  | succ n ih =>
    by_cases hin : i = n
    · rw [hin, copyUp, Function.update_self]
    · have hlt : i < n := by omega
      rw [copyUp, Function.update_of_ne (hw n (by omega) i hlt)]
      exact ih (fun i hi => hw i (by omega)) hlt

/-- The loop may also take the first position off and go on with the rest. -/
theorem copyUp_succ (n : ℕ) (m : α → β) :
    copyUp w r (n + 1) m =
      copyUp (fun i => w (i + 1)) (fun i => r (i + 1)) n (Function.update m (w 0) (m (r 0))) := by
  induction n with
  | zero => rfl
  | succ n ih =>
    rw [copyUp, ih]
    rfl

theorem copyUp_self (h : ∀ i < n, w i = r i) : copyUp w r n m = m := by
  induction n with
  | zero => rfl
  | succ n ih =>
    rw [copyUp, ih fun i hi => h i (by omega), h n (by omega)]
    exact Function.update_eq_self _ _

/-- Where the copy goes k positions up, the bytes behind the first k are written before they are
read, so the source has to repeat itself after k positions. -/
theorem copyUp_moved_iff (hk : 0 < k) (hw : ∀ i < n, ∀ j < i, w j ≠ w i)
    (hr : ∀ i, r (i + k) = w i) (hfree : ∀ i < k, ∀ j < i, r i ≠ w j) :
    Moved w r n m (copyUp w r n m) ↔ ∀ i, i + k < n → m (w i) = m (r i) := by
  have hwritten : ∀ i, i + k < n → copyUp w r (i + k) m (r (i + k)) = copyUp w r i m (r i) := by
    intro i hi
    rw [hr]
    exact copyUp_at (fun i hi => hw i (by omega)) (by omega)
  constructor
  · intro h i hi
    calc m (w i) = m (r (i + k)) := by rw [hr]
      _ = copyUp w r (i + k) m (r (i + k)) := by rw [← h.copied _ hi, copyUp_at hw hi]
      _ = copyUp w r i m (r i) := hwritten i hi
      _ = m (r i) := by rw [← copyUp_at hw (by omega : i < n), h.copied i (by omega)]
  · intro h
    have hread : ∀ i < n, copyUp w r i m (r i) = m (r i) := by
      intro i
      induction i using Nat.strongRecOn with
      | ind i ih =>
        intro hi
        by_cases hik : i < k
        · exact copyUp_frame fun j hj => hfree i hik j hj
        · obtain ⟨j, rfl⟩ : ∃ j, i = j + k := ⟨i - k, by omega⟩
          rw [hwritten j hi, ih j (by omega) (by omega), hr, h j hi]
    refine ⟨fun i hi => ?_, fun a ha => copyUp_frame ha⟩
    rw [copyUp_at hw hi, hread i hi]

end Up

section Down

theorem copyDown_frame (ha : ∀ i < n, a ≠ w i) : copyDown w r n m a = m a := by
  induction n generalizing m with
  | zero => rfl
  | succ n ih =>
    rw [copyDown, ih fun i hi => ha i (by omega)]
    exact Function.update_of_ne (ha n (by omega)) _ _

/-- From the last position on nothing is lost where no source lies at a later target. -/
theorem copyDown_moved (hw : ∀ i < n, ∀ j < i, w j ≠ w i) (hr : ∀ i < n, ∀ j < i, r j ≠ w i) :
    Moved w r n m (copyDown w r n m) := by
  refine ⟨fun i hi => ?_, fun a ha => copyDown_frame ha⟩
  induction n generalizing m with
  | zero => omega
  | succ n ih =>
    rw [copyDown]
    by_cases hin : i = n
    · subst i
      rw [copyDown_frame fun j hj => (hw n (by omega) j hj).symm]
      exact Function.update_self _ _ _
    · have hlt : i < n := by omega
      rw [ih (fun i hi => hw i (by omega)) (fun i hi => hr i (by omega)) hlt]
      exact Function.update_of_ne (hr n (by omega) i hlt) _ _

end Down

end NorthOS.ByteMoves
