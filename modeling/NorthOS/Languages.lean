import Mathlib.Computability.Language

/-!
Texts that begin with a word of a language. A language here is a product of classes of letters
and of their stars, and for each factor there is a rule that takes it off the front of the
text: these are the steps of a matcher that tries one possibility after the other.
-/
namespace NorthOS.Languages

variable {α : Type*} {p : α → Prop} {L : Language α} {P : List α → Prop} {w text : List α} {t : α}

/-- The words of one letter from the class. -/
def letters (p : α → Prop) : Language α := {w | ∃ t, p t ∧ w = [t]}

/-- The text is a word of the language and a rest with the property. -/
def Begins (L : Language α) (P : List α → Prop) (text : List α) : Prop :=
  ∃ w rest, text = w ++ rest ∧ w ∈ L ∧ P rest

/-- A word of the language stands somewhere in the text, with the property for what follows it. -/
def Occurs (L : Language α) (P : List α → Prop) (text : List α) : Prop :=
  ∃ before w rest, text = before ++ w ++ rest ∧ w ∈ L ∧ P rest

theorem mem_letters_mul : w ∈ letters p * L ↔ ∃ t v, p t ∧ v ∈ L ∧ w = t :: v := by
  rw [Language.mem_mul]
  constructor
  · rintro ⟨_, ⟨t, ht, rfl⟩, v, hv, rfl⟩
    exact ⟨t, v, ht, hv, rfl⟩
  · rintro ⟨t, v, ht, hv, rfl⟩
    exact ⟨[t], ⟨t, ht, rfl⟩, v, hv, rfl⟩

section Begins

theorem begins_one : Begins 1 P text ↔ P text := by
  constructor
  · rintro ⟨w, rest, rfl, hw, hrest⟩
    rw [Language.mem_one] at hw
    rwa [hw]
  · exact fun h => ⟨[], text, rfl, Language.nil_mem_one, h⟩

theorem begins_letters_mul :
    Begins (letters p * L) P text ↔ ∃ t rest, text = t :: rest ∧ p t ∧ Begins L P rest := by
  constructor
  · rintro ⟨w, rest, rfl, hw, hrest⟩
    obtain ⟨t, v, ht, hv, rfl⟩ := mem_letters_mul.mp hw
    exact ⟨t, v ++ rest, rfl, ht, v, rest, rfl, hv, hrest⟩
  · rintro ⟨t, _, rfl, ht, v, rest, rfl, hv, hrest⟩
    exact ⟨t :: v, rest, rfl, mem_letters_mul.mpr ⟨t, v, ht, hv, rfl⟩, hrest⟩

theorem begins_add {L' : Language α} :
    Begins (L + L') P text ↔ Begins L P text ∨ Begins L' P text := by
  constructor
  · rintro ⟨w, rest, htext, hw | hw, hrest⟩
    · exact .inl ⟨w, rest, htext, hw, hrest⟩
    · exact .inr ⟨w, rest, htext, hw, hrest⟩
  · rintro (⟨w, rest, htext, hw, hrest⟩ | ⟨w, rest, htext, hw, hrest⟩)
    · exact ⟨w, rest, htext, .inl hw, hrest⟩
    · exact ⟨w, rest, htext, .inr hw, hrest⟩

/-- A star takes no letter, or one letter of its class and then as many as it likes. -/
theorem begins_kstar_mul :
    Begins (KStar.kstar (letters p) * L) P text ↔
      Begins L P text ∨
        ∃ t rest, text = t :: rest ∧ p t ∧ Begins (KStar.kstar (letters p) * L) P rest := by
  have hunfold : KStar.kstar (letters p) * L = L + letters p * (KStar.kstar (letters p) * L) := by
    conv_lhs => rw [← Language.one_add_self_mul_kstar_eq_kstar]
    rw [add_mul, one_mul, mul_assoc]
  rw [← begins_letters_mul, ← begins_add, ← hunfold]

end Begins

/-- A word stands at the front, or somewhere behind the first letter. -/
theorem occurs_iff :
    Occurs L P text ↔ Begins L P text ∨ ∃ t rest, text = t :: rest ∧ Occurs L P rest := by
  constructor
  · rintro ⟨before, w, rest, rfl, hw, hrest⟩
    cases before with
    | nil => exact .inl ⟨w, rest, rfl, hw, hrest⟩
    | cons t before => exact .inr ⟨t, before ++ w ++ rest, rfl, before, w, rest, rfl, hw, hrest⟩
  · rintro (⟨w, rest, rfl, hw, hrest⟩ | ⟨t, _, rfl, before, w, rest, rfl, hw, hrest⟩)
    · exact ⟨[], w, rest, rfl, hw, hrest⟩
    · exact ⟨t :: before, w, rest, rfl, hw, hrest⟩

end NorthOS.Languages
