import Mathlib.Data.Nat.ModEq
import Mathlib.Tactic.Common
import Mathlib.Tactic.Linarith
import Mathlib.Tactic.Ring

/-!
Sums modulo M whose high part is folded down from time to time: the digits of a number to the
base M + 1 are added. That keeps the residue, but it need not give a number of one digit. Whether
a running sum is left with a second digit after a fold depends on the sums before it, as a carry
does: one fold makes the digit, and only a sum that is a multiple of M + 1 hands it on.
-/
namespace NorthOS.FoldedSums

variable {M x y j m : ℕ} {X a r b : ℕ → ℕ}

/-- `(x & M) + (x >> w)`, where M is 2 ^ w - 1. -/
def fold (M x : ℕ) : ℕ := x % (M + 1) + x / (M + 1)

/-- The number among 1, ..., M with the residue of x. -/
def residue (M x : ℕ) : ℕ := (x - 1) % M + 1

/-- Some sum has two digits after the fold, and all later ones are multiples of M + 1. -/
def Carried (M : ℕ) (X : ℕ → ℕ) (j : ℕ) : Prop :=
  ∃ i < j, M < fold M (X i) ∧ ∀ l < j, i < l → M + 1 ∣ X l

instance : Decidable (Carried M X j) :=
  inferInstanceAs (Decidable (∃ i < j, M < fold M (X i) ∧ ∀ l < j, i < l → M + 1 ∣ X l))

section Residues

theorem residue_pos : 0 < residue M x := Nat.succ_pos _

theorem residue_le (hM : 0 < M) : residue M x ≤ M := Nat.mod_lt _ hM

theorem residue_modEq (hx : 0 < x) : residue M x ≡ x [MOD M] := by
  have h : (x - 1) % M + 1 ≡ x - 1 + 1 [MOD M] := (Nat.mod_modEq _ _).add_right 1
  rwa [Nat.sub_add_cancel hx] at h

theorem residue_eq (hx : 0 < x) (hy : 0 < y) (hle : y ≤ M) (h : y ≡ x [MOD M]) :
    residue M x = y := by
  have hmod : y - 1 ≡ x - 1 [MOD M] := by
    apply Nat.ModEq.add_right_cancel' 1
    rwa [Nat.sub_add_cancel hx, Nat.sub_add_cancel hy]
  have hlt : y - 1 < M := by omega
  rw [residue, ← hmod, Nat.mod_eq_of_lt hlt, Nat.sub_add_cancel hy]

theorem residue_congr (hM : 0 < M) (hx : 0 < x) (hy : 0 < y) (h : x ≡ y [MOD M]) :
    residue M x = residue M y :=
  residue_eq hx residue_pos (residue_le hM) ((residue_modEq hy).trans h.symm)

end Residues

section Fold

theorem fold_modEq : fold M x ≡ x [MOD M] := by
  have hx : x = fold M x + M * (x / (M + 1)) := by
    have h := Nat.mod_add_div x (M + 1)
    rw [fold]
    linarith
  conv_rhs => rw [hx]
  exact (Nat.modEq_iff_dvd' (Nat.le_add_right _ _)).mpr ⟨x / (M + 1), by omega⟩

theorem fold_pos (hx : 0 < x) : 0 < fold M x := by
  have h := Nat.mod_add_div x (M + 1)
  by_contra h0
  obtain ⟨hlow, hhigh⟩ : x % (M + 1) = 0 ∧ x / (M + 1) = 0 :=
    Nat.add_eq_zero_iff.mp (Nat.eq_zero_of_not_pos h0)
  rw [hlow, hhigh, Nat.mul_zero] at h
  omega

theorem fold_le (hx : x < (M + 1) * (M + 1)) : fold M x ≤ 2 * M := by
  have hhigh : x / (M + 1) < M + 1 := Nat.div_lt_of_lt_mul hx
  have hlow : x % (M + 1) < M + 1 := Nat.mod_lt _ (Nat.succ_pos M)
  unfold fold
  omega

/-- A folded sum is the residue, or M more. -/
theorem fold_eq (hM : 0 < M) (hpos : 0 < x) (hx : x < (M + 1) * (M + 1)) :
    fold M x = residue M x + if M < fold M x then M else 0 := by
  split
  next h =>
    have hle := fold_le hx
    have hmod : fold M x - M ≡ x [MOD M] := by
      refine Nat.ModEq.trans ?_ fold_modEq
      exact (Nat.modEq_iff_dvd' (Nat.sub_le _ _)).mpr ⟨1, by omega⟩
    rw [residue_eq hpos (by omega) (by omega) hmod]
    omega
  next h => rw [residue_eq hpos (fold_pos hpos) (by omega) fold_modEq, Nat.add_zero]

/-- With M more in it, a sum has a second digit after the fold when it had one without it or when
it was a multiple of M + 1. -/
theorem lt_fold_add_iff (hx : 0 < x) : M < fold M (x + M) ↔ M < fold M x ∨ M + 1 ∣ x := by
  obtain ⟨h, l, hl, rfl⟩ : ∃ h l, l < M + 1 ∧ x = (M + 1) * h + l :=
    ⟨x / (M + 1), x % (M + 1), Nat.mod_lt _ (Nat.succ_pos M), (Nat.div_add_mod _ _).symm⟩
  have hfold : ∀ h l, l < M + 1 → fold M ((M + 1) * h + l) = l + h := by
    intro h l hl
    rw [fold, Nat.mul_add_mod, Nat.mod_eq_of_lt hl, Nat.mul_add_div (Nat.succ_pos M),
      Nat.div_eq_of_lt hl, Nat.add_zero]
  by_cases hl0 : l = 0
  · subst l
    have hh : h ≠ 0 := by
      rintro rfl
      simp at hx
    rw [Nat.add_zero, hfold h M (Nat.lt_succ_self M)]
    exact ⟨fun _ => .inr (Nat.dvd_mul_right _ _), fun _ => by omega⟩
  · have hshift : (M + 1) * h + l + M = (M + 1) * (h + 1) + (l - 1) := by
      have h1 : (M + 1) * (h + 1) = (M + 1) * h + (M + 1) := by ring
      omega
    have hdvd : ¬ M + 1 ∣ (M + 1) * h + l := by
      rw [Nat.dvd_add_right (Nat.dvd_mul_right _ _)]
      exact fun hdvd => absurd (Nat.le_of_dvd (by omega) hdvd) (by omega)
    rw [hshift, hfold _ _ (by omega), hfold h l hl]
    simp only [hdvd, or_false]
    omega

end Fold

section Carries

theorem not_carried_zero : ¬ Carried M X 0 := fun ⟨_, hi, _⟩ => absurd hi (Nat.not_lt_zero _)

theorem carried_succ (hpos : 0 < X j) :
    Carried M X (j + 1) ↔ M < fold M (X j + if Carried M X j then M else 0) := by
  have hlast : Carried M X (j + 1) ↔ M < fold M (X j) ∨ Carried M X j ∧ M + 1 ∣ X j := by
    constructor
    · rintro ⟨i, hi, hfold, hdvd⟩
      by_cases hij : i = j
      · exact .inl (hij ▸ hfold)
      · refine .inr ⟨⟨i, by omega, hfold, fun l hl => hdvd l (by omega)⟩, ?_⟩
        exact hdvd j (by omega) (by omega)
    · rintro (hfold | ⟨⟨i, hi, hfold, hdvd⟩, hj⟩)
      · exact ⟨j, by omega, hfold, fun l hl hjl => absurd hl (by omega)⟩
      · refine ⟨i, by omega, hfold, fun l hl hil => ?_⟩
        by_cases hlj : l = j
        · exact hlj ▸ hj
        · exact hdvd l (by omega) hil
  rw [hlast]
  split
  next hcarried => rw [lt_fold_add_iff hpos, and_iff_right hcarried]
  next hcarried => simp only [hcarried, false_and, or_false, Nat.add_zero]

/-- A sum that is folded after each addition is the residue, and M more exactly when a second
digit is carried. -/
theorem folded_eq (hM : 0 < M) (h0 : a 0 = r 0) (hpos : ∀ i, 0 < r i)
    (ha : ∀ i < m, a (i + 1) = fold M (a i + b i))
    (hr : ∀ i < m, r (i + 1) = residue M (r i + b i))
    (hlt : ∀ i < m, a i + b i < (M + 1) * (M + 1)) (hj : j ≤ m) :
    a j = r j + if Carried M (fun i => r i + b i) j then M else 0 := by
  induction j with
  | zero => rw [if_neg not_carried_zero, h0, Nat.add_zero]
  | succ j ih =>
    have hsum : a j + b j = r j + b j +
        if Carried M (fun i => r i + b i) j then M else 0 := by
      rw [ih (by omega)]
      omega
    have hrj := hpos j
    have hres : residue M (a j + b j) = r (j + 1) := by
      rw [hr j hj]
      apply residue_congr hM (by omega) (by omega)
      rw [hsum]
      split
      · exact (Nat.modEq_iff_dvd' (Nat.le_add_right _ _)).mpr ⟨1, by omega⟩ |>.symm
      · rfl
    have hcarry := carried_succ (M := M) (X := fun i => r i + b i) (j := j) (by simp; omega)
    rw [ha j hj, fold_eq hM (by omega) (hlt j hj), hres]
    congr 1
    exact if_congr (by rw [hcarry, hsum]) rfl rfl

end Carries

end NorthOS.FoldedSums
