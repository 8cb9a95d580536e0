import Mathlib.Tactic.Common

/-!
Computations on a state that return a value or halt the machine. What is said about
them is mostly partial: if the computation returns, then the value and the new state
are so; the lemmas here take such a return apart, step by step. `Ends` also rules out
some of the halts, and has a rule for each way to build a computation.
-/
namespace NorthOS.Halting

/-- A computation on states `S` that returns an `A` or halts with an `E`. -/
def Comp (S E A : Type) : Type := S → Except E (A × S)

namespace Comp

variable {S E A B : Type}

protected def pure (a : A) : Comp S E A := fun s => .ok (a, s)

protected def bind (x : Comp S E A) (f : A → Comp S E B) : Comp S E B := fun s =>
  match x s with
  | .ok (a, t) => f a t
  | .error e => .error e

instance : Monad (Comp S E) where
  pure := Comp.pure
  bind := Comp.bind

instance : LawfulMonad (Comp S E) := by
  refine LawfulMonad.mk' (Comp S E) ?_ (fun _ _ => rfl) ?_
  · intro A x
    funext s
    show Comp.bind x _ s = x s
    unfold Comp.bind
    cases x s <;> rfl
  · intro A B C x f g
    funext s
    show Comp.bind (Comp.bind x f) g s = Comp.bind x (fun a => Comp.bind (f a) g) s
    unfold Comp.bind
    cases x s <;> rfl

def halt (e : E) : Comp S E A := fun _ => .error e

def look (f : S → A) : Comp S E A := fun s => .ok (f s, s)

def update (f : S → S) : Comp S E Unit := fun s => .ok ((), f s)

/-- Halt unless the test succeeds. -/
def ensure (p : S → Bool) (e : E) : Comp S E Unit := fun s =>
  if p s then .ok ((), s) else .error e

/-- The computation for each number below the bound, in order. -/
def forBelow (body : ℕ → Comp S E Unit) : ℕ → Comp S E Unit
  | 0 => Comp.pure ()
  | n + 1 => Comp.bind (forBelow body n) fun _ => body n

variable {x : Comp S E A} {f : A → Comp S E B} {s t : S} {a a' : A} {b : B} {e : E}

@[simp] theorem pure_ok : (pure a : Comp S E A) s = .ok (a', t) ↔ a = a' ∧ s = t := by
  show Except.ok (a, s) = Except.ok (a', t) ↔ _
  simp

/-- A sequence returns when its first part does and the rest does from there. -/
theorem bind_ok {u : S} : (x >>= f) s = .ok (b, u) ↔ ∃ a t, x s = .ok (a, t) ∧
      f a t = .ok (b, u) := by
  show Comp.bind x f s = _ ↔ _
  unfold Comp.bind
  cases h : x s with
  | error e => simp
  | ok r =>
    obtain ⟨a, t⟩ := r
    simp

/-- Running a sequence whose first part is known to return. -/
theorem bind_of_ok (h : x s = .ok (a, t)) : (x >>= f) s = f a t := by
  show Comp.bind x f s = _
  unfold Comp.bind
  rw [h]

/-- Sequences whose first parts run alike. -/
theorem bind_congr {y : Comp S E A} (h : x s = y t) : (x >>= f) s = (y >>= f) t := by
  show Comp.bind x f s = Comp.bind y f t
  unfold Comp.bind
  rw [h]

/-- A sequence halts with its first part. -/
theorem bind_of_error (h : x s = .error e) : (x >>= f) s = .error e := by
  show Comp.bind x f s = _
  unfold Comp.bind
  rw [h]

@[simp] theorem halt_ok : (halt e : Comp S E A) s = .ok (a, t) ↔ False := by
  simp [halt]

@[simp] theorem look_ok {g : S → A} : (look g : Comp S E A) s = .ok (a, t) ↔ g s = a ∧ s = t := by
  simp [look]

@[simp] theorem update_ok {g : S → S} {r : Unit} :
    (update g : Comp S E Unit) s = .ok (r, t) ↔ g s = t := by
  simp [update]

@[simp] theorem ensure_ok {p : S → Bool} {r : Unit} :
    (ensure p e : Comp S E Unit) s = .ok (r, t) ↔ p s = true ∧ s = t := by
  unfold ensure
  split <;> simp_all

theorem ensure_of_true {p : S → Bool} (h : p s = true) :
    (ensure p e : Comp S E Unit) s = .ok ((), s) := ensure_ok.mpr ⟨h, rfl⟩

theorem ensure_of_false {p : S → Bool} (h : p s = false) :
    (ensure p e : Comp S E Unit) s = .error e := by
  unfold ensure
  rw [if_neg (by rw [h]; exact nofun)]

/-- A loop returns when each turn does and keeps what the next one needs. -/
theorem forBelow_runs {I : ℕ → S → Prop} {f : ℕ → Comp S E Unit} {n : ℕ} (hstart : I 0 s)
    (hf : ∀ k s, k < n → I k s → ∃ t, f k s = .ok ((), t) ∧ I (k + 1) t) :
    ∃ t, forBelow f n s = .ok ((), t) ∧ I n t := by
  induction n with
  | zero => exact ⟨s, rfl, hstart⟩
  | succ n ih =>
    obtain ⟨t, ht, hI⟩ := ih fun k s hk => hf k s (Nat.lt_succ_of_lt hk)
    obtain ⟨u, hu, hI'⟩ := hf n t (Nat.lt_succ_self n) hI
    refine ⟨u, ?_, hI'⟩
    show (forBelow f n >>= fun _ => f n) s = _
    rw [bind_of_ok ht, hu]

/-- A loop returns as it does with a body that returns less often. -/
theorem forBelow_ok_mono {body body' : ℕ → Comp S E Unit} {n : ℕ}
    (hbody : ∀ k s t, body k s = .ok ((), t) → body' k s = .ok ((), t))
    (h : forBelow body n s = .ok ((), t)) : forBelow body' n s = .ok ((), t) := by
  induction n generalizing t with
  | zero => exact h
  | succ n ih =>
    obtain ⟨_, u, hu, hlast⟩ := bind_ok.mp (show (forBelow body n >>= fun _ => body n) s = _ from h)
    show (forBelow body' n >>= fun _ => body' n) s = _
    rw [bind_of_ok (ih hu)]
    exact hbody n u t hlast

section Outcomes

variable {bad bad' : E → Prop} {r : Except E (A × S)} {Q Q' : A → S → Prop}

/-- The run returns with the postcondition or halts, and not in a way that is ruled out. -/
def Ends (bad : E → Prop) (r : Except E (A × S)) (Q : A → S → Prop) : Prop :=
  match r with
  | .ok (a, t) => Q a t
  | .error e => ¬ bad e

theorem Ends.of_ok (h : Ends bad (x s) Q) (hok : x s = .ok (a, t)) : Q a t := by
  rw [hok] at h
  exact h

theorem Ends.of_error (h : Ends bad (x s) Q) (herror : x s = .error e) : ¬ bad e := by
  rw [herror] at h
  exact h

theorem ends_iff : Ends bad (x s) Q ↔
    (∀ a t, x s = .ok (a, t) → Q a t) ∧ ∀ e, x s = .error e → ¬ bad e := by
  unfold Ends
  cases h : x s with
  | error e => simp
  | ok p =>
    constructor
    · intro hQ
      exact ⟨by rintro a t ⟨⟩; exact hQ, by rintro e ⟨⟩⟩
    · rintro ⟨hQ, _⟩
      exact hQ p.1 p.2 rfl

/-- Where all halts are ruled out, the run returns. -/
theorem Ends.runs (h : Ends (fun _ => True) (x s) Q) : ∃ a t, x s = .ok (a, t) ∧ Q a t := by
  cases hx : x s with
  | error e => exact absurd trivial (h.of_error hx)
  | ok p => exact ⟨p.1, p.2, rfl, h.of_ok hx⟩

theorem Ends.mono (h : Ends bad r Q) (hQ : ∀ a t, Q a t → Q' a t) : Ends bad r Q' := by
  unfold Ends at h ⊢
  split
  · exact hQ _ _ h
  · exact h

theorem Ends.allow (h : Ends bad r Q) (hbad : ∀ e, bad' e → bad e) : Ends bad' r Q := by
  unfold Ends at h ⊢
  split
  · exact h
  · exact fun e => h (hbad _ e)

theorem Ends.and (h : Ends bad r Q) (h' : Ends bad' r Q') :
    Ends bad r fun a t => Q a t ∧ Q' a t := by
  unfold Ends at h h' ⊢
  split
  · exact ⟨h, h'⟩
  · exact h

theorem ends_pure : Ends bad ((pure a : Comp S E A) s) Q ↔ Q a s := Iff.rfl

theorem ends_halt : Ends bad ((halt e : Comp S E A) s) Q ↔ ¬ bad e := Iff.rfl

theorem ends_look {g : S → A} : Ends bad ((look g : Comp S E A) s) Q ↔ Q (g s) s := Iff.rfl

theorem ends_update {g : S → S} {Q : Unit → S → Prop} :
    Ends bad ((update g : Comp S E Unit) s) Q ↔ Q () (g s) := Iff.rfl

theorem ends_ensure {p : S → Bool} {Q : Unit → S → Prop}
    (htrue : p s = true → Q () s) (hfalse : p s = false → ¬ bad e) :
    Ends bad ((ensure p e : Comp S E Unit) s) Q := by
  unfold ensure
  split
  · rename_i h
    exact htrue h
  · rename_i h
    exact hfalse (by simpa using h)

theorem Ends.bind {R : B → S → Prop} (h : Ends bad (x s) Q)
    (hf : ∀ a t, x s = .ok (a, t) → Q a t → Ends bad (f a t) R) : Ends bad ((x >>= f) s) R := by
  cases hx : x s with
  | error e =>
    rw [bind_of_error hx]
    exact h.of_error hx
  | ok p =>
    obtain ⟨a, t⟩ := p
    rw [bind_of_ok hx]
    exact hf a t hx (h.of_ok hx)

/-- Partial correctness: the run, if it returns, satisfies the postcondition. -/
abbrev Gives (r : Except E (A × S)) (Q : A → S → Prop) : Prop := Ends (fun _ => False) r Q

theorem gives_iff : Gives (x s) Q ↔ ∀ a t, x s = .ok (a, t) → Q a t := by
  rw [Gives, ends_iff]
  exact ⟨fun h => h.1, fun h => ⟨h, fun _ _ => id⟩⟩

theorem Ends.gives (h : Ends bad r Q) : Gives r Q := h.allow fun _ => False.elim

theorem gives_ensure {p : S → Bool} {Q : Unit → S → Prop} (h : p s = true → Q () s) :
    Gives ((ensure p e : Comp S E Unit) s) Q := ends_ensure h fun _ => id

/-- The first two steps of a sequence taken together. -/
theorem gives_bind₂ {C : Type} {y : A → Comp S E B} {f : B → Comp S E C} {P : B → S → Prop}
    {R : C → S → Prop} (h : Gives ((do let a ← x; y a : Comp S E B) s) P)
    (hf : ∀ b t, P b t → Gives (f b t) R) :
    Gives ((do let a ← x; let b ← y a; f b : Comp S E C) s) R := by
  refine gives_iff.mpr fun c v hrun => ?_
  obtain ⟨a, t, hx, hrun⟩ := bind_ok.mp hrun
  obtain ⟨b, u, hy, hrun⟩ := bind_ok.mp hrun
  exact gives_iff.mp (hf b u (gives_iff.mp h b u (bind_ok.mpr ⟨a, t, hx, hy⟩))) c v hrun

end Outcomes

section Frames

variable {bad bad' : E → Prop} {R R' : S → S → Prop}

/-- Every run of the computation changes the state only within `R`. -/
def Within (bad : E → Prop) (R : S → S → Prop) (x : Comp S E A) : Prop :=
  ∀ s, Ends bad (x s) fun _ t => R s t

/-- What a sequence of changes within `R` needs to be within `R`. -/
structure Composes (R : S → S → Prop) : Prop where
  refl : ∀ s, R s s
  trans : ∀ {s t u}, R s t → R t u → R s u

theorem Within.mono (h : Within bad R x) (hR : ∀ s t, R s t → R' s t)
    (hbad : ∀ e, bad' e → bad e) : Within bad' R' x :=
  fun s => ((h s).mono fun _ _ => hR _ _).allow hbad

theorem within_pure (hR : Composes R) : Within bad R (pure a : Comp S E A) := fun s => hR.refl s

theorem within_halt (he : ¬ bad e) : Within bad R (halt e : Comp S E A) := fun _ => he

theorem within_look (hR : Composes R) {g : S → A} : Within bad R (look g : Comp S E A) :=
  fun s => hR.refl s

theorem within_update {g : S → S} (hg : ∀ s, R s (g s)) :
    Within bad R (update g : Comp S E Unit) := fun s => hg s

theorem within_ensure (hR : Composes R) {p : S → Bool} (he : ¬ bad e) :
    Within bad R (ensure p e : Comp S E Unit) :=
  fun s => ends_ensure (fun _ => hR.refl s) fun _ => he

theorem Within.bind (hR : Composes R) (h : Within bad R x) (hf : ∀ a, Within bad R (f a)) :
    Within bad R (x >>= f) :=
  fun s => (h s).bind fun a t _ hst => (hf a t).mono fun _ _ htu => hR.trans hst htu

theorem Within.ite (hx : Within bad R x) {y : Comp S E A} (hy : Within bad R y) {p : Prop}
    [Decidable p] : Within bad R (if p then x else y) := by
  split
  · exact hx
  · exact hy

theorem within_forBelow (hR : Composes R) {body : ℕ → Comp S E Unit} {n : ℕ}
    (h : ∀ k, k < n → Within bad R (body k)) : Within bad R (forBelow body n) := by
  induction n with
  | zero => exact within_pure hR
  | succ n ih =>
    exact (ih fun k hk => h k (by omega)).bind hR fun _ => h n (by omega)

end Frames

end Comp

end NorthOS.Halting
