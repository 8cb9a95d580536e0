import NorthOS.Languages

/-!
The pattern matcher of grep: `match`, `matchhere` and `matchstar`. A pattern means a language
and what may stand around its words, and the matcher finds exactly the texts in which such a
word occurs.
-/
namespace NorthOS.Grep

open Languages

/-- A character of a string: the byte 0 only ends it. -/
abbrev Byte := {c : UInt8 // c ≠ 0}

def caret : Byte := ⟨'^'.toUInt8, by decide⟩
def dollar : Byte := ⟨'$'.toUInt8, by decide⟩
def dot : Byte := ⟨'.'.toUInt8, by decide⟩
def star : Byte := ⟨'*'.toUInt8, by decide⟩
def newline : Byte := ⟨'\n'.toUInt8, by decide⟩

mutual

/-- Search for re at beginning of text. -/
def matchhere (re text : List Byte) : Bool :=
  match re with
  | [] => true
  | c :: re =>
    if re.head? = some star then matchstar c re.tail text
    else if c = dollar ∧ re = [] then text.isEmpty
    else match text with
      | [] => false
      | t :: text => if c = dot ∨ c = t then matchhere re text else false
termination_by (re.length, text.length, 0)

/-- Search for c*re at beginning of text. -/
def matchstar (c : Byte) (re text : List Byte) : Bool :=
  if matchhere re text then true
  else match text with
    | [] => false
    | t :: text => if t = c ∨ c = dot then matchstar c re text else false
termination_by (re.length, text.length, 1)

end

/-- The loop of `match`, which must look at the empty string, too. -/
def matchFrom (re : List Byte) : List Byte → Bool
  | [] => matchhere re []
  | t :: text => if matchhere re (t :: text) then true else matchFrom re text

/-- `match` -/
def matchRe (re text : List Byte) : Bool :=
  if re.head? = some caret then matchhere re.tail text else matchFrom re text

section Denotation

/-- The text characters that a pattern character stands for. -/
def Fits (c t : Byte) : Prop := c = dot ∨ c = t

/-- The words that a pattern without anchors matches. -/
def language : List Byte → Language Byte
  | [] => 1
  | [c] => letters (Fits c)
  | c :: d :: re =>
    if d = star then KStar.kstar (letters (Fits c)) * language re
    else letters (Fits c) * language (d :: re)

/-- A final $ takes no text, and only the end of the text may follow the word. -/
def words (re : List Byte) : Language Byte :=
  if re.getLast? = some dollar then language re.dropLast else language re

def Follows (re rest : List Byte) : Prop := re.getLast? = some dollar → rest = []

/-- Some part of the text is matched by the pattern, the first part if it starts with ^. -/
def Matches (re text : List Byte) : Prop :=
  if re.head? = some caret then Begins (words re.tail) (Follows re.tail) text
  else Occurs (words re) (Follows re) text

end Denotation

variable {c d : Byte} {re text rest : List Byte}

section Words

theorem star_ne_dollar : star ≠ dollar := by decide

theorem language_cons (hd : re.head? ≠ some star) :
    language (c :: re) = letters (Fits c) * language re := by
  cases re with
  | nil => rw [language, language, mul_one]
  | cons d re =>
    rw [language, if_neg]
    rintro rfl
    exact hd rfl

theorem words_star : words (c :: star :: re) = KStar.kstar (letters (Fits c)) * words re := by
  cases re with
  | nil => simp [words, language, star_ne_dollar]
  | cons d re =>
    unfold words
    rw [List.getLast?_cons_cons, List.getLast?_cons_cons]
    split
    · rw [List.dropLast_cons_cons, List.dropLast_cons_cons, language, if_pos rfl]
    · rw [language, if_pos rfl]

theorem words_cons (hd : re.head? ≠ some star) (hlast : ¬(c = dollar ∧ re = [])) :
    words (c :: re) = letters (Fits c) * words re := by
  cases re with
  | nil =>
    have hc : c ≠ dollar := fun hc => hlast ⟨hc, rfl⟩
    simp [words, language, hc]
  | cons d re =>
    unfold words
    rw [List.getLast?_cons_cons]
    split
    · rw [List.dropLast_cons_cons, language_cons]
      cases re with
      | nil => simp
      | cons e re => exact hd
    · exact language_cons hd

theorem words_dollar : words [dollar] = 1 := by simp [words, language]

theorem follows_star : Follows (c :: star :: re) = Follows re := by
  funext rest
  cases re with
  | nil => simp [Follows, star_ne_dollar]
  | cons d re => simp [Follows, List.getLast?_cons_cons]

theorem follows_cons (hlast : ¬(c = dollar ∧ re = [])) : Follows (c :: re) = Follows re := by
  funext rest
  cases re with
  | nil =>
    have hc : c ≠ dollar := fun hc => hlast ⟨hc, rfl⟩
    simp [Follows, hc]
  | cons d re => simp [Follows, List.getLast?_cons_cons]

end Words

section Matcher

/-- If `matchhere` is right for the pattern behind the star, then so is `matchstar`. -/
theorem matchstar_iff (h : ∀ text, matchhere re text ↔ Begins (words re) (Follows re) text) :
    matchstar c re text ↔
      Begins (KStar.kstar (letters (Fits c)) * words re) (Follows re) text := by
  induction text with
  | nil =>
    rw [matchstar, begins_kstar_mul, ← h]
    simp
  | cons t text ih =>
    rw [matchstar, begins_kstar_mul, ← h]
    split
    next hhere => simp [hhere]
    next hhere =>
      simp only [hhere, false_or, Bool.false_eq_true]
      split
      next hfits =>
        rw [ih]
        refine ⟨fun hrest => ⟨t, text, rfl, hfits.symm.imp_right Eq.symm, hrest⟩, ?_⟩
        rintro ⟨_, _, ⟨rfl, rfl⟩, -, hrest⟩
        exact hrest
      next hfits =>
        refine ⟨fun h => absurd h (by simp), ?_⟩
        rintro ⟨_, _, ⟨rfl, rfl⟩, ht, -⟩
        exact absurd (ht.symm.imp_left Eq.symm) hfits

theorem matchhere_iff : matchhere re text ↔ Begins (words re) (Follows re) text := by
  induction hn : re.length using Nat.strong_induction_on generalizing re text with
  | _ n ih =>
    cases re with
    | nil => simp [matchhere, words, language, begins_one, Follows]
    | cons c re =>
      rw [matchhere.eq_def]
      simp only [List.length_cons] at hn ⊢
      split
      next hstar =>
        obtain ⟨re, rfl⟩ : ∃ tail, re = star :: tail := List.head?_eq_some_iff.mp hstar
        rw [words_star, follows_star]
        exact matchstar_iff fun text => ih re.length (by simp at hn; omega) rfl
      next hstar =>
        split
        next hlast =>
          obtain ⟨rfl, rfl⟩ := hlast
          rw [words_dollar, begins_one]
          simp [Follows]
        next hlast =>
          rw [words_cons hstar hlast, follows_cons hlast, begins_letters_mul]
          cases text with
          | nil => simp
          | cons t text =>
            simp only [List.cons.injEq]
            split
            next hfits =>
              rw [ih re.length (by omega) rfl]
              refine ⟨fun hrest => ⟨t, text, ⟨rfl, rfl⟩, hfits, hrest⟩, ?_⟩
              rintro ⟨_, _, ⟨rfl, rfl⟩, -, hrest⟩
              exact hrest
            next hfits =>
              refine ⟨fun h => absurd h (by simp), ?_⟩
              rintro ⟨_, _, ⟨rfl, rfl⟩, ht, -⟩
              exact absurd ht hfits

theorem matchFrom_iff : matchFrom re text ↔ Occurs (words re) (Follows re) text := by
  induction text with
  | nil =>
    rw [matchFrom, matchhere_iff, occurs_iff]
    simp
  | cons t text ih =>
    rw [matchFrom, occurs_iff, ← matchhere_iff]
    split
    next hhere => simp [hhere]
    next hhere =>
      rw [ih]
      simp [hhere]

end Matcher

/-- `match` returns 1 exactly for the texts that the pattern matches. -/
theorem matchRe_iff (re text : List Byte) : matchRe re text = true ↔ Matches re text := by
  unfold matchRe Matches
  split
  · exact matchhere_iff
  · exact matchFrom_iff

end NorthOS.Grep
