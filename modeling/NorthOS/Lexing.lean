import Mathlib.Data.List.Basic
import Mathlib.Tactic.Common

/-!
Tokens of a text. The text is a function of the position, and the positions below a given end
count. The rules of a language say what is a blank and which token may stand where; a text is
lexed if from a position to the end it is blanks and tokens in turn.
-/
namespace NorthOS.Lexing

/-- The token's characters are those from start on, up to stop. -/
structure Token (κ : Type*) where
  kind : κ
  start : ℕ
  stop : ℕ
deriving DecidableEq, Repr

/-- No token is empty, and none begins with a blank. -/
structure Rules (α κ : Type*) where
  Blank : α → Prop
  Lexeme : (ℕ → α) → Token κ → Prop
  start_lt_stop : ∀ {a t}, Lexeme a t → t.start < t.stop
  start_not_blank : ∀ {a t}, Lexeme a t → ¬Blank (a t.start)

variable {α κ : Type*} {R : Rules α κ} {a : ℕ → α} {e i j k : ℕ} {t : Token κ}
  {ts us : List (Token κ)}

def BlankFrom (R : Rules α κ) (a : ℕ → α) (i j : ℕ) : Prop := ∀ k, i ≤ k → k < j → R.Blank (a k)

/-- From position i to the end e there are these tokens, with blanks between them. -/
inductive Lexed (R : Rules α κ) (a : ℕ → α) (e : ℕ) : ℕ → List (Token κ) → Prop
  | finish {i : ℕ} : i ≤ e → BlankFrom R a i e → Lexed R a e i []
  | token {i : ℕ} {t : Token κ} {ts : List (Token κ)} : i ≤ t.start → BlankFrom R a i t.start → R.Lexeme a t → t.stop ≤ e →
      Lexed R a e t.stop ts → Lexed R a e i (t :: ts)

theorem Lexed.le (h : Lexed R a e i ts) : i ≤ e := by
  cases h with
  | finish hle hblank => exact hle
  | token hle hblank hlexeme hstop htail =>
    have hpos := R.start_lt_stop hlexeme
    omega

theorem Lexed.length_le (h : Lexed R a e i ts) : i + ts.length ≤ e := by
  induction h with
  | finish hle hblank => simpa using hle
  | token hle hblank hlexeme hstop htail ih =>
    have hpos := R.start_lt_stop hlexeme
    rw [List.length_cons]
    omega

theorem Lexed.lexeme (h : Lexed R a e i ts) (ht : t ∈ ts) : R.Lexeme a t ∧ t.stop ≤ e := by
  induction h with
  | finish hle hblank => exact absurd ht List.not_mem_nil
  | token hle hblank hlexeme hstop htail ih =>
    rcases List.mem_cons.mp ht with rfl | ht
    · exact ⟨hlexeme, hstop⟩
    · exact ih ht

theorem BlankFrom.append (h : BlankFrom R a i j) (h' : BlankFrom R a j k) :
    BlankFrom R a i k := by
  intro m hi hk
  by_cases hj : m < j
  · exact h m hi hj
  · exact h' m (by omega) hk

/-- Passing over blanks changes nothing. -/
theorem Lexed.skip (h : Lexed R a e i ts) (hij : i ≤ j) (hj : j ≤ e)
    (hblank : BlankFrom R a i j) : Lexed R a e j ts := by
  cases h with
  | finish hle hrest => exact .finish hj fun k hk => hrest k (by omega)
  | @token _ t _ hle hrest hlexeme hstop htail =>
    have hstart : j ≤ t.start := by
      by_contra hlt
      exact R.start_not_blank hlexeme (hblank t.start hle (by omega))
    exact .token hstart (fun k hk => hrest k (by omega)) hlexeme hstop htail

theorem Lexed.back (h : Lexed R a e j ts) (hij : i ≤ j) (hblank : BlankFrom R a i j) :
    Lexed R a e i ts := by
  cases h with
  | finish hle hrest => exact .finish (by omega) (hblank.append hrest)
  | token hle hrest hlexeme hstop htail =>
    exact .token (by omega) (hblank.append hrest) hlexeme hstop htail

theorem Lexed.eq_end (h : Lexed R a e i []) (hj : j = e ∨ ¬R.Blank (a j)) (hij : i ≤ j)
    (hle : j ≤ e) : j = e := by
  cases h with
  | finish hi hblank =>
    rcases hj with hj | hj
    · exact hj
    · by_contra hne
      exact hj (hblank j hij (by omega))

/-- The first token begins at the first position that is not blank. -/
theorem Lexed.eq_start (h : Lexed R a e i (t :: ts)) (hj : j = e ∨ ¬R.Blank (a j))
    (hij : i ≤ j) (hblank : BlankFrom R a i j) : j = t.start := by
  cases h with
  | token hle hrest hlexeme hstop htail =>
    have hpos := R.start_lt_stop hlexeme
    rcases Nat.lt_trichotomy j t.start with hlt | heq | hgt
    · rcases hj with hj | hj
      · omega
      · exact absurd (hrest j hij hlt) hj
    · exact heq
    · exact absurd (hblank t.start hle hgt) (R.start_not_blank hlexeme)

/-- Where every visible character begins a token, the whole text is lexed. -/
theorem exists_lexed (hbegin : ∀ i < e, ¬R.Blank (a i) →
    ∃ t, t.start = i ∧ t.stop ≤ e ∧ R.Lexeme a t) (hi : i ≤ e) : ∃ ts, Lexed R a e i ts := by
  induction hn : e - i using Nat.strongRecOn generalizing i with
  | ind n ih =>
    rcases Nat.eq_or_lt_of_le hi with rfl | hlt
    · exact ⟨[], .finish (Nat.le_refl _) fun k hk hlt => absurd hk (by omega)⟩
    · by_cases hblank : R.Blank (a i)
      · obtain ⟨ts, hts⟩ := ih (e - (i + 1)) (by omega) hlt rfl
        refine ⟨ts, hts.back (by omega) fun k hk hlt => ?_⟩
        rwa [show k = i by omega]
      · obtain ⟨t, rfl, hstop, hlexeme⟩ := hbegin i hlt hblank
        have hpos := R.start_lt_stop hlexeme
        obtain ⟨ts, hts⟩ := ih (e - t.stop) (by omega) hstop rfl
        exact ⟨t :: ts, .token (Nat.le_refl _) (fun k hk hlt => absurd hk (by omega)) hlexeme
          hstop hts⟩

end NorthOS.Lexing
