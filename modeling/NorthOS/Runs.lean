import Mathlib.Data.List.Infix
import Mathlib.Tactic.Common

/-!
Runs of a labelled transition system whose steps may be refused or may stop
the system. A property of every state a run reaches is tied to a condition on
the steps of that run: the condition is sufficient when it keeps an invariant,
and it is exact when a step that violates it is always seen in the next state.
-/
namespace NorthOS.Runs

variable {S A : Type*}

/-- `none` means that some action of the list was refused or stopped the system. -/
def run (step : S → A → Option S) : S → List A → Option S
  | s, [] => some s
  | s, a :: as => (step s a).bind fun t => run step t as

/-- Every state reached along the list satisfies the property. -/
def Always (step : S → A → Option S) (P : S → Prop) : S → List A → Prop
  | s, [] => P s
  | s, a :: as => P s ∧ ∀ t, step s a = some t → Always step P t as

/-- Every step that is carried out meets the condition at the state it starts from. -/
def Meets (step : S → A → Option S) (C : S → A → Prop) : S → List A → Prop
  | _, [] => True
  | s, a :: as => ∀ t, step s a = some t → C s a ∧ Meets step C t as

/-- Every step that is tried meets the condition, also one that is refused or stops
the system. -/
def Along (step : S → A → Option S) (C : S → A → Prop) : S → List A → Prop
  | _, [] => True
  | s, a :: as => C s a ∧ ∀ t, step s a = some t → Along step C t as

variable {step : S → A → Option S} {P Q I : S → Prop} {C D : S → A → Prop}

theorem Always.head {s : S} {as : List A} (h : Always step P s as) : P s := by
  cases as with
  | nil => exact h
  | cons a as => exact h.1

theorem Always.mono (hPQ : ∀ s, P s → Q s) {s : S} {as : List A}
    (h : Always step P s as) : Always step Q s as := by
  induction as generalizing s with
  | nil => exact hPQ s h
  | cons a as ih => exact ⟨hPQ s h.1, fun t ht => ih (h.2 t ht)⟩

theorem run_append (s : S) (as bs : List A) :
    run step s (as ++ bs) = (run step s as).bind fun t => run step t bs := by
  induction as generalizing s with
  | nil => rfl
  | cons a as ih =>
    cases h : step s a with
    | none => simp [run, h]
    | some t => simpa [run, h] using ih t

/-- `Always` speaks about exactly the states that the prefixes of the list reach. -/
theorem always_iff_run (s : S) (as : List A) :
    Always step P s as ↔ ∀ bs t, bs <+: as → run step s bs = some t → P t := by
  induction as generalizing s with
  | nil =>
    constructor
    · intro h bs t hbs ht
      obtain rfl := List.prefix_nil.mp hbs
      cases ht
      exact h
    · intro h
      exact h [] s (List.prefix_refl _) rfl
  | cons a as ih =>
    constructor
    · rintro ⟨hs, hrest⟩ bs t hbs ht
      cases bs with
      | nil =>
        cases ht
        exact hs
      | cons b bs =>
        obtain ⟨rfl, hbs'⟩ := List.cons_prefix_cons.mp hbs
        obtain ⟨u, hu, hrun⟩ := Option.bind_eq_some_iff.mp ht
        exact (ih u).mp (hrest u hu) bs t hbs' hrun
    · intro h
      refine ⟨h [] s List.nil_prefix rfl, fun t ht => (ih t).mpr ?_⟩
      intro bs u hbs hu
      exact h (a :: bs) u (List.cons_prefix_cons.mpr ⟨rfl, hbs⟩) (by simp [run, ht, hu])

/-- An invariant that every step inside the condition keeps holds along every run
whose steps meet the condition. -/
theorem always_of_meets
    (keep : ∀ s a t, I s → C s a → step s a = some t → I t)
    {s : S} {as : List A} (hs : I s) (hC : Meets step C s as) :
    Always step I s as := by
  induction as generalizing s with
  | nil => exact hs
  | cons a as ih =>
    refine ⟨hs, fun t ht => ?_⟩
    obtain ⟨hCa, hrest⟩ := hC t ht
    exact ih (keep s a t hs hCa ht) hrest

/-- Under an invariant that steps inside one condition keep, two conditions that agree on
the steps carried out agree on runs. -/
theorem meets_iff_meets (keep : ∀ s a t, I s → C s a → step s a = some t → I t)
    (agree : ∀ s a t, I s → step s a = some t → (D s a ↔ C s a)) {s : S} {as : List A} (hs : I s) :
    Meets step D s as ↔ Meets step C s as := by
  induction as generalizing s with
  | nil => exact Iff.rfl
  | cons a as ih =>
    constructor
    · intro h t ht
      obtain ⟨hD, hrest⟩ := h t ht
      have hC : C s a := (agree s a t hs ht).mp hD
      exact ⟨hC, (ih (keep s a t hs hC ht)).mp hrest⟩
    · intro h t ht
      obtain ⟨hC, hrest⟩ := h t ht
      exact ⟨(agree s a t hs ht).mpr hC, (ih (keep s a t hs hC ht)).mpr hrest⟩

/-- Where an invariant makes one condition imply another at each step, runs that meet the
first meet the second. -/
theorem along_of_along (imp : ∀ s a, I s → C s a → D s a)
    (keep : ∀ s a t, I s → C s a → step s a = some t → I t)
    {s : S} {as : List A} (hs : I s) (hC : Along step C s as) : Along step D s as := by
  induction as generalizing s with
  | nil => trivial
  | cons a as ih =>
    obtain ⟨hCa, hrest⟩ := hC
    exact ⟨imp s a hs hCa, fun t ht => ih (keep s a t hs hCa ht) (hrest t ht)⟩

/-- What is so along a run is so along its beginnings. -/
theorem Along.initial {s : S} {as bs : List A} (h : Along step C s as) (hbs : bs <+: as) :
    Along step C s bs := by
  induction bs generalizing s as with
  | nil => trivial
  | cons b bs ih =>
    cases as with
    | nil => exact absurd (List.prefix_nil.mp hbs) (List.cons_ne_nil _ _)
    | cons a as =>
      obtain ⟨rfl, hrest⟩ := List.cons_prefix_cons.mp hbs
      exact ⟨h.1, fun t ht => ih (h.2 t ht) hrest⟩

/-- The last of a list of steps, where the others have been carried out. -/
theorem Along.last {s t : S} {as : List A} {a : A} (h : Along step C s (as ++ [a]))
    (hrun : run step s as = some t) : C t a := by
  induction as generalizing s with
  | nil =>
    cases hrun
    exact h.1
  | cons b as ih =>
    obtain ⟨u, hu, hrest⟩ := Option.bind_eq_some_iff.mp hrun
    exact ih (h.2 u hu) hrest

/-- An unconditional invariant holds in every state of every run. -/
theorem always_of_invariant (keep : ∀ s a t, I s → step s a = some t → I t)
    {s : S} (hs : I s) (as : List A) : Always step I s as := by
  induction as generalizing s with
  | nil => exact hs
  | cons a as ih => exact ⟨hs, fun t ht => ih (keep s a t hs ht)⟩

/-- What an invariant says of the steps that are tried holds along every run. -/
theorem along_of_invariant (imp : ∀ s a, I s → D s a)
    (keep : ∀ s a t, I s → step s a = some t → I t)
    {s : S} (hs : I s) (as : List A) : Along step D s as := by
  induction as generalizing s with
  | nil => trivial
  | cons a as ih => exact ⟨imp s a hs, fun t ht => ih (keep s a t hs ht)⟩

/-- Where the condition tells which steps are carried out, it tells which runs are. -/
theorem run_iff_along (carried : ∀ s a, I s → ((∃ t, step s a = some t) ↔ C s a))
    (keep : ∀ s a t, I s → step s a = some t → I t) {s : S} (hs : I s) (as : List A) :
    (∃ t, run step s as = some t) ↔ Along step C s as := by
  induction as generalizing s with
  | nil => exact iff_of_true ⟨s, rfl⟩ trivial
  | cons a as ih =>
    constructor
    · rintro ⟨u, hu⟩
      obtain ⟨t, ht, hrest⟩ := Option.bind_eq_some_iff.mp hu
      refine ⟨(carried s a hs).mp ⟨t, ht⟩, fun t' ht' => ?_⟩
      cases ht.symm.trans ht'
      exact (ih (keep s a t hs ht)).mp ⟨u, hrest⟩
    · rintro ⟨hCa, hrest⟩
      obtain ⟨t, ht⟩ := (carried s a hs).mpr hCa
      obtain ⟨u, hu⟩ := (ih (keep s a t hs ht)).mpr (hrest t ht)
      exact ⟨u, Option.bind_eq_some_iff.mpr ⟨t, ht, hu⟩⟩

/-- The condition is exact for the property: a step outside it is one after which
the property fails. -/
theorem always_iff_meets
    (imp : ∀ s, I s → P s)
    (keep : ∀ s a t, I s → C s a → step s a = some t → I t)
    (seen : ∀ s a t, I s → step s a = some t → P t → C s a)
    {s : S} (hs : I s) (as : List A) :
    Always step P s as ↔ Meets step C s as := by
  constructor
  · intro h
    induction as generalizing s with
    | nil => trivial
    | cons a as ih =>
      intro t ht
      have hP : P t := (h.2 t ht).head
      have hC : C s a := seen s a t hs ht hP
      exact ⟨hC, ih (keep s a t hs hC ht) (h.2 t ht)⟩
  · intro hC
    exact (always_of_meets keep hs hC).mono imp

end NorthOS.Runs
