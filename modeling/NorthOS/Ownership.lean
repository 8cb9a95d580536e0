import Mathlib.Logic.Function.Basic
import Mathlib.Tactic.Common

/-!
Places that name blocks, with 0 for none, and a set of used blocks. Every named block
is used and has one place only; where no block is leaked, every used block of a region
has a place. Allocation attaches a clear block to an empty place; freeing detaches a
set of places and clears their blocks.
-/
namespace NorthOS.Ownership

variable {P : Type*}

structure Owned (area : ℕ → Prop) (at_ : P → ℕ) (used : ℕ → Bool) : Prop where
  inside : ∀ p, at_ p ≠ 0 → area (at_ p) ∧ used (at_ p) = true
  once : ∀ p q, at_ p ≠ 0 → at_ p = at_ q → p = q

/-- No used block of the region lacks a place. -/
def NoLeak (region : ℕ → Prop) (at_ : P → ℕ) (used : ℕ → Bool) : Prop :=
  ∀ b, region b → used b = true → ∃ p, at_ p = b

variable {area region : ℕ → Prop} {at_ : P → ℕ} {used : ℕ → Bool}

theorem Owned.ne_of_clear (h : Owned area at_ used) {b : ℕ} (hb : used b = false) (p : P)
    (hp : at_ p ≠ 0) : at_ p ≠ b := by
  rintro rfl
  rw [(h.inside p hp).2] at hb
  cases hb

section Attach

variable [DecidableEq P] {p : P} {b : ℕ}

theorem Owned.attach (h : Owned area at_ used) (hb : area b) (hclear : used b = false) :
    Owned area (Function.update at_ p b) (Function.update used b true) where
  inside := by
    intro q hq
    by_cases hqp : q = p
    · subst hqp
      simp only [Function.update_self]
      exact ⟨hb, trivial⟩
    · rw [Function.update_of_ne hqp] at hq ⊢
      obtain ⟨harea, hused⟩ := h.inside q hq
      rw [Function.update_of_ne (h.ne_of_clear hclear q hq)]
      exact ⟨harea, hused⟩
  once := by
    intro q r hq hqr
    by_cases hqp : q = p
    · by_cases hrp : r = p
      · rw [hqp, hrp]
      · rw [hqp, Function.update_self, Function.update_of_ne hrp] at hqr
        rw [hqp, Function.update_self] at hq
        exact absurd hqr.symm (h.ne_of_clear hclear r (hqr ▸ hq))
    · rw [Function.update_of_ne hqp] at hq hqr
      by_cases hrp : r = p
      · rw [hrp, Function.update_self] at hqr
        exact absurd hqr (h.ne_of_clear hclear q hq)
      · rw [Function.update_of_ne hrp] at hqr
        exact h.once q r hq hqr

theorem NoLeak.attach (h : NoLeak region at_ used) (hp : at_ p = 0) (hzero : ¬ region 0) :
    NoLeak region (Function.update at_ p b) (Function.update used b true) := by
  intro c hc hused
  by_cases hcb : c = b
  · exact ⟨p, by rw [Function.update_self, hcb]⟩
  · rw [Function.update_of_ne hcb] at hused
    obtain ⟨q, hq⟩ := h c hc hused
    have hqp : q ≠ p := by
      rintro rfl
      rw [hp] at hq
      exact hzero (hq ▸ hc)
    exact ⟨q, by rw [Function.update_of_ne hqp, hq]⟩

end Attach

section Detach

variable {at' : P → ℕ} {used' : ℕ → Bool} {gone : P → Prop}

theorem Owned.detach (h : Owned area at_ used) (hgone : ∀ p, gone p → at' p = 0)
    (hkept : ∀ p, ¬ gone p → at' p = at_ p)
    (hused : ∀ b, b ≠ 0 → (used' b = true ↔ used b = true ∧ ∀ p, gone p → at_ p ≠ b)) :
    Owned area at' used' where
  inside := by
    intro p hp
    have hpg : ¬ gone p := fun hg => hp (hgone p hg)
    rw [hkept p hpg] at hp ⊢
    obtain ⟨harea, hu⟩ := h.inside p hp
    refine ⟨harea, (hused _ hp).mpr ⟨hu, fun q hq hqp => hpg ?_⟩⟩
    rwa [h.once p q hp hqp.symm]
  once := by
    intro p q hp hpq
    have hpg : ¬ gone p := fun hg => hp (hgone p hg)
    have hqg : ¬ gone q := fun hg => hp (hpq.trans (hgone q hg))
    rw [hkept p hpg] at hp hpq
    rw [hkept q hqg] at hpq
    exact h.once p q hp hpq

theorem NoLeak.detach (h : NoLeak region at_ used)
    (hkept : ∀ p, ¬ gone p → at' p = at_ p)
    (hused : ∀ b, b ≠ 0 → (used' b = true ↔ used b = true ∧ ∀ p, gone p → at_ p ≠ b))
    (hzero : ¬ region 0) : NoLeak region at' used' := by
  intro b hb hu
  have hb0 : b ≠ 0 := by
    rintro rfl
    exact hzero hb
  obtain ⟨hub, hfree⟩ := (hused b hb0).mp hu
  obtain ⟨p, hp⟩ := h b hb hub
  exact ⟨p, by rw [hkept p fun hg => hfree p hg hp, hp]⟩

end Detach

end NorthOS.Ownership
