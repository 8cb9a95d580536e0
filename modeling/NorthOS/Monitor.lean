import Mathlib.Logic.Function.Basic
import Mathlib.Tactic.Common

/-!
Monitors: data under one lock, and processes that work on it in turns. A process that
cannot go on gives the lock up and sleeps on a channel, until somebody wakes everyone
who sleeps there; it then takes the lock again and looks for itself. A wakeup is owed to
a channel when a sleeper there could go on. A program pays its debts when whoever
incurs one holds the lock and wakes the channel before giving it up.
-/
namespace NorthOS.Monitor

/-- What a process that holds the lock does next: it works on the data, wakes a channel,
sleeps on a channel, or gives the lock up. -/
inductive Move (D K L : Type*)
  | stay (d : D) (l : L)
  | wake (k : K) (l : L)
  | sleep (k : K) (l : L)
  | leave (l : L)

namespace Move

variable {D K L : Type*}

/-- The data after the move. -/
def data (d : D) : Move D K L → D
  | .stay d' _ => d'
  | _ => d

/-- Where the process goes on. -/
def next : Move D K L → L
  | .stay _ l | .wake _ l | .sleep _ l | .leave l => l

end Move

/-- `E` is what a process is to the rest of the system, which the rest may change;
`free` is work on the data without the lock. -/
structure Program (P D K L E : Type*) where
  body : D → E → L → Move D K L
  free : D → L → L → Option D
  calls : E → L → L → Prop
  changes : (P → L) → (P → E) → (P → E) → Prop

/-- Outside with no call, on the way to the lock, and under the lock: at work, about to
wake a channel, or about to sleep; and asleep. -/
inductive Place (K L : Type*)
  | outside (l : L)
  | entering (l : L)
  | inside (l : L)
  | waking (k : K) (l : L)
  | sinking (k : K) (l : L)
  | asleep (k : K) (l : L)

namespace Place

variable {K L : Type*}

def here : Place K L → L
  | .outside l | .entering l | .inside l | .waking _ l | .sinking _ l | .asleep _ l => l

def holds : Place K L → Bool
  | .inside _ | .waking _ _ | .sinking _ _ => true
  | _ => false

/-- The channels that a process wakes before it gives the lock up. -/
def owes (debt : L → K → Prop) : Place K L → K → Prop
  | .inside l, k => debt l k
  | .waking k' l, k => k = k' ∨ debt l k
  | _, _ => False

/-- The place after a wakeup of the channels that the test picks. -/
def roused (awake : K → Prop) [DecidablePred awake] : Place K L → Place K L
  | .asleep k l => if awake k then .entering l else .asleep k l
  | x => x

end Place

structure State (P D K L E : Type*) where
  data : D
  lock : Option P
  env : P → E
  place : P → Place K L

variable {P D K L E : Type*} [DecidableEq P] [DecidableEq K]

namespace State

variable (s : State P D K L E)

def locals (p : P) : L := (s.place p).here

def put (p : P) (x : Place K L) : State P D K L E := { s with place := Function.update s.place p x }

def wakeAll (k : K) : State P D K L E := { s with place := fun p => (s.place p).roused (· = k) }

/-- The process `p`, which holds the lock, makes the move. -/
def moved (p : P) : Move D K L → State P D K L E
  | .stay d l => { s.put p (.inside l) with data := d }
  | .wake k l => s.put p (.waking k l)
  | .sleep k l => s.put p (.sinking k l)
  | .leave l => { s.put p (.outside l) with lock := none }

end State

/-- Elsewhere means all that the processes of the monitor do not do: it changes what the
processes are, and may wake any of them. -/
inductive Step (m : Program P D K L E) (s : State P D K L E) : State P D K L E → Prop
  | call (p : P) (l l' : L) (hp : s.place p = .outside l) (hcall : m.calls (s.env p) l l') :
      Step m s (s.put p (.entering l'))
  | free (p : P) (l l' : L) (d : D) (hp : s.place p = .outside l)
      (hfree : m.free s.data l l' = some d) :
      Step m s { s.put p (.outside l') with data := d }
  | enter (p : P) (l : L) (hp : s.place p = .entering l) (hlock : s.lock = none) :
      Step m s { s.put p (.inside l) with lock := some p }
  | move (p : P) (l : L) (hp : s.place p = .inside l) :
      Step m s (s.moved p (m.body s.data (s.env p) l))
  | wake (p : P) (k : K) (l : L) (hp : s.place p = .waking k l) :
      Step m s ((s.wakeAll k).put p (.inside l))
  | sink (p : P) (k : K) (l : L) (hp : s.place p = .sinking k l) :
      Step m s { s.put p (.asleep k l) with lock := none }
  | elsewhere (env : P → E) (place : P → Place K L) (henv : m.changes s.locals s.env env)
      (hplace : ∀ p, place p = s.place p ∨
        ∃ k l, s.place p = .asleep k l ∧ place p = .entering l) :
      Step m s { s with env := env, place := place }

/-- Exactly one process is inside while the lock is taken. -/
def Exclusive (s : State P D K L E) : Prop :=
  ∀ p, (s.place p).holds = true ↔ s.lock = some p

/-- Nobody sleeps who could go on, while the lock is free. -/
def NoneMissed (blocked : D → K → L → Prop) (s : State P D K L E) : Prop :=
  s.lock = none → ∀ p k l, s.place p = .asleep k l → blocked s.data k l

/-- What the moves of a program keep true of the data, of what the processes are and of
where each of them is in its code. -/
structure Keeps (m : Program P D K L E) (J : D → (P → E) → (P → L) → Prop) : Prop where
  call : ∀ d e f p l', J d e f → m.calls (e p) (f p) l' → J d e (Function.update f p l')
  free : ∀ d e f p d' l', J d e f → m.free d (f p) l' = some d' →
    J d' e (Function.update f p l')
  body : ∀ d e f p, J d e f → J ((m.body d (e p) (f p)).data d) e
    (Function.update f p (m.body d (e p) (f p)).next)
  elsewhere : ∀ d e e' f, J d e f → m.changes f e e' → J d e' f

/-- The invariant holds of a state. -/
def Holds (J : D → (P → E) → (P → L) → Prop) (s : State P D K L E) : Prop :=
  J s.data s.env s.locals

/-- The program pays its debts: it makes none without the lock, keeps them until it wakes
the channel, and sleeps or leaves without any. -/
structure Pays (m : Program P D K L E) (J : D → (P → E) → (P → L) → Prop)
    (blocked : D → K → L → Prop) (debt : L → K → Prop) : Prop where
  free : ∀ d e (f : P → L) p d' l', J d e f → m.free d (f p) l' = some d' →
    ∀ k l, blocked d k l → blocked d' k l
  stay : ∀ d e (f : P → L) p d' l', J d e f → m.body d (e p) (f p) = .stay d' l' →
    ∀ k l, blocked d k l ∨ debt (f p) k → blocked d' k l ∨ debt l' k
  wake : ∀ d e (f : P → L) p k' l', J d e f → m.body d (e p) (f p) = .wake k' l' →
    ∀ k, debt (f p) k → k = k' ∨ debt l' k
  sleep : ∀ d e (f : P → L) p k' l', J d e f → m.body d (e p) (f p) = .sleep k' l' →
    blocked d k' l' ∧ ∀ k, ¬ debt (f p) k
  leave : ∀ d e (f : P → L) p l', J d e f → m.body d (e p) (f p) = .leave l' →
    ∀ k, ¬ debt (f p) k

/-- Who sleeps is blocked or somebody owes the channel a wakeup, and who is about to
sleep is blocked. -/
structure Paid (blocked : D → K → L → Prop) (debt : L → K → Prop) (s : State P D K L E) : Prop where
  sinking : ∀ p k l, s.place p = .sinking k l → blocked s.data k l
  asleep : ∀ q k l, s.place q = .asleep k l →
    blocked s.data k l ∨ ∃ p, s.lock = some p ∧ (s.place p).owes debt k

section Exclusion

variable {m : Program P D K L E} {s t : State P D K L E}

omit [DecidableEq P] [DecidableEq K] in
theorem Place.roused_holds (awake : K → Prop) [DecidablePred awake] (x : Place K L) :
    (x.roused awake).holds = x.holds := by
  cases x with
  | asleep k l => by_cases hk : awake k <;> simp [Place.roused, hk, Place.holds]
  | _ => rfl

omit [DecidableEq P] [DecidableEq K] in
theorem Place.roused_here (awake : K → Prop) [DecidablePred awake] (x : Place K L) :
    (x.roused awake).here = x.here := by
  cases x with
  | asleep k l => by_cases hk : awake k <;> simp [Place.roused, hk, Place.here]
  | _ => rfl

omit [DecidableEq K] in
/-- One process moves and keeps its hold on the lock. -/
theorem Exclusive.put (h : Exclusive s) {p : P} {x : Place K L}
    (hx : x.holds = (s.place p).holds) (hplace : t.place = Function.update s.place p x)
    (hlock : t.lock = s.lock) : Exclusive t := by
  intro q
  rw [hplace, hlock]
  by_cases hq : q = p
  · subst hq
    rw [Function.update_self, hx]
    exact h q
  · rw [Function.update_of_ne hq]
    exact h q

omit [DecidableEq K] in
/-- The process that holds the lock gives it up. -/
theorem Exclusive.drop (h : Exclusive s) {p : P} {x : Place K L} (hp : (s.place p).holds = true)
    (hx : x.holds = false) (hplace : t.place = Function.update s.place p x)
    (hlock : t.lock = none) : Exclusive t := by
  intro q
  rw [hplace, hlock]
  by_cases hq : q = p
  · subst hq
    rw [Function.update_self, hx]
    exact iff_of_false Bool.false_ne_true (Option.some_ne_none q).symm
  · rw [Function.update_of_ne hq, h q, (h p).mp hp]
    refine iff_of_false (fun he => hq ?_) (Option.some_ne_none q).symm
    exact (Option.some.inj he).symm

theorem Exclusive.step (h : Exclusive s) (hs : Step m s t) : Exclusive t := by
  cases hs with
  | call p l l' hp hcall => exact h.put (by rw [hp]; rfl) rfl rfl
  | free p l l' d hp hfree => exact h.put (by rw [hp]; rfl) rfl rfl
  | enter p l hp hlock =>
    intro q
    by_cases hq : q = p
    · subst hq
      exact iff_of_true (by simp [State.put, Place.holds]) rfl
    · have hfree : (s.place q).holds ≠ true := by
        rw [Ne, h q, hlock]
        exact (Option.some_ne_none q).symm
      show (Function.update s.place p (.inside l) q).holds = true ↔ some p = some q
      rw [Function.update_of_ne hq]
      exact iff_of_false hfree fun he => hq (Option.some.inj he).symm
  | move p l hp =>
    have hholds : (s.place p).holds = true := by rw [hp]; rfl
    cases hm : m.body s.data (s.env p) l with
    | stay d l' => exact h.put (x := .inside l') hholds.symm rfl rfl
    | wake k l' => exact h.put (x := .waking k l') hholds.symm rfl rfl
    | sleep k l' => exact h.put (x := .sinking k l') hholds.symm rfl rfl
    | leave l' => exact h.drop (x := .outside l') hholds rfl rfl rfl
  | wake p k l hp =>
    have hall : Exclusive (s.wakeAll k) := by
      intro q
      show ((s.place q).roused (· = k)).holds = true ↔ s.lock = some q
      rw [Place.roused_holds]
      exact h q
    refine hall.put (p := p) (x := .inside l) ?_ rfl rfl
    show true = ((s.place p).roused (· = k)).holds
    rw [Place.roused_holds, hp]
    rfl
  | sink p k l hp => exact h.drop (x := .asleep k l) (by rw [hp]; rfl) rfl rfl rfl
  | elsewhere env place henv hplace =>
    intro q
    rw [← h q]
    show (place q).holds = true ↔ (s.place q).holds = true
    rcases hplace q with he | ⟨k, l, hs, ht⟩
    · rw [he]
    · rw [hs, ht]
      exact Iff.rfl

end Exclusion

section Invariants

variable {m : Program P D K L E} {s t : State P D K L E} {J : D → (P → E) → (P → L) → Prop}

omit [DecidableEq K] in
theorem State.locals_put (p : P) (x : Place K L) :
    (s.put p x).locals = Function.update s.locals p x.here := by
  funext q
  by_cases hq : q = p
  · subst hq
    simp [State.locals, State.put]
  · simp [State.locals, State.put, hq]

omit [DecidableEq K] in
theorem State.put_self {p : P} {x : Place K L} (hx : s.place p = x) : s.put p x = s := by
  unfold State.put
  rw [← hx, Function.update_eq_self]

omit [DecidableEq K] in
/-- A step of one process to a place where it goes on as before. -/
theorem Holds.stay (h : Holds J s) {p : P} {x : Place K L} (hx : x.here = s.locals p) :
    Holds J (s.put p x) := by
  have hlocals : (s.put p x).locals = s.locals := by
    rw [State.locals_put, hx, Function.update_eq_self]
  unfold Holds
  rw [hlocals]
  exact h

/-- What the moves keep, every step keeps. -/
theorem Keeps.step (hm : Keeps m J) (h : Holds J s) (hs : Step m s t) : Holds J t := by
  have hat : ∀ p x, s.place p = x → s.locals p = x.here := fun p x hp => congrArg Place.here hp
  cases hs with
  | call p l l' hp hcall =>
    unfold Holds
    rw [State.locals_put]
    exact hm.call _ _ _ _ _ h (by rw [hat p _ hp]; exact hcall)
  | free p l l' d hp hfree =>
    show J d s.env (s.put p (.outside l')).locals
    rw [State.locals_put]
    exact hm.free _ _ _ _ _ _ h (by rw [hat p _ hp]; exact hfree)
  | enter p l hp hlock => exact h.stay (x := .inside l) (hat p _ hp).symm
  | move p l hp =>
    have hb := hm.body _ _ _ p h
    rw [hat p _ hp] at hb
    show J (s.moved p (m.body s.data (s.env p) l)).data _ (s.moved p _).locals
    cases hmove : m.body s.data (s.env p) l with
    | stay d l' =>
      rw [Place.here, hmove] at hb
      show J d s.env (s.put p (.inside l')).locals
      rw [State.locals_put]
      exact hb
    | wake k l' =>
      rw [Place.here, hmove] at hb
      show J s.data s.env (s.put p (.waking k l')).locals
      rw [State.locals_put]
      exact hb
    | sleep k l' =>
      rw [Place.here, hmove] at hb
      show J s.data s.env (s.put p (.sinking k l')).locals
      rw [State.locals_put]
      exact hb
    | leave l' =>
      rw [Place.here, hmove] at hb
      show J s.data s.env (s.put p (.outside l')).locals
      rw [State.locals_put]
      exact hb
  | wake p k l hp =>
    have hall : (s.wakeAll k).locals = s.locals := by
      funext q
      exact Place.roused_here _ _
    refine Holds.stay (s := s.wakeAll k) ?_ ?_
    · unfold Holds
      rw [hall]
      exact h
    · rw [hall]
      exact (hat p _ hp).symm
  | sink p k l hp => exact h.stay (x := .asleep k l) (hat p _ hp).symm
  | elsewhere env place henv hplace =>
    have hlocals : State.locals { s with env := env, place := place } = s.locals := by
      funext q
      show (place q).here = (s.place q).here
      rcases hplace q with he | ⟨k, l, hs, ht⟩
      · rw [he]
      · rw [hs, ht]
        rfl
    unfold Holds
    rw [hlocals]
    exact hm.elsewhere _ _ _ _ h henv

end Invariants

section Flags

variable {owns : L → Bool} {f : P → L} {flag : Bool} {p : P} {l : L}

/-- A flag that is set as long as one process owns it. -/
structure Flagged (owns : L → Bool) (flag : Bool) (f : P → L) : Prop where
  set : flag = true ↔ ∃ p, owns (f p) = true
  alone : ∀ p q, owns (f p) = true → owns (f q) = true → p = q

theorem owns_update (hl : owns l = owns (f p)) (q : P) : owns (Function.update f p l q) = owns (f q) := by
  by_cases hq : q = p
  · subst hq
    rw [Function.update_self, hl]
  · rw [Function.update_of_ne hq]

theorem Flagged.move (h : Flagged owns flag f) (hl : owns l = owns (f p)) :
    Flagged owns flag (Function.update f p l) := by
  refine ⟨?_, fun q q' hq hq' => ?_⟩
  · rw [h.set]
    exact exists_congr fun q => by rw [owns_update hl]
  · rw [owns_update hl] at hq hq'
    exact h.alone q q' hq hq'

omit [DecidableEq P] in
theorem Flagged.clear (h : Flagged owns flag f) (hflag : flag = false) (p : P) : owns (f p) = false := by
  rw [← Bool.not_eq_true]
  intro hp
  rw [h.set.mpr ⟨p, hp⟩] at hflag
  cases hflag

theorem Flagged.take (h : Flagged owns flag f) (hflag : flag = false) (hl : owns l = true) :
    Flagged owns true (Function.update f p l) := by
  have honly : ∀ q, owns (Function.update f p l q) = true → q = p := by
    intro q hq
    by_contra hne
    rw [Function.update_of_ne hne, h.clear hflag] at hq
    cases hq
  refine ⟨iff_of_true rfl ⟨p, ?_⟩, fun q q' hq hq' => (honly q hq).trans (honly q' hq').symm⟩
  rw [Function.update_self, hl]

theorem Flagged.give (h : Flagged owns flag f) (hp : owns (f p) = true) (hl : owns l = false) :
    Flagged owns false (Function.update f p l) := by
  have hnone : ∀ q, owns (Function.update f p l q) = true → False := by
    intro q hq
    by_cases hqp : q = p
    · rw [hqp, Function.update_self, hl] at hq
      cases hq
    · rw [Function.update_of_ne hqp] at hq
      exact hqp (h.alone q p hq hp)
  exact ⟨iff_of_false Bool.false_ne_true fun ⟨q, hq⟩ => hnone q hq, fun q q' hq => (hnone q hq).elim⟩

end Flags

section Debts

variable {m : Program P D K L E} {s t : State P D K L E} {J : D → (P → E) → (P → L) → Prop}
variable {blocked : D → K → L → Prop} {debt : L → K → Prop}

/-- The process that holds the lock owes the channel a wakeup. -/
def Owed (debt : L → K → Prop) (s : State P D K L E) (k : K) : Prop :=
  ∃ p, s.lock = some p ∧ (s.place p).owes debt k

omit [DecidableEq P] [DecidableEq K] in
theorem owed_iff {p : P} (hlock : s.lock = some p) {k : K} :
    Owed debt s k ↔ (s.place p).owes debt k := by
  constructor
  · rintro ⟨q, hq, ho⟩
    obtain rfl := Option.some.inj (hlock.symm.trans hq)
    exact ho
  · intro ho
    exact ⟨p, hlock, ho⟩

omit [DecidableEq P] [DecidableEq K] in
theorem Paid.noneMissed (h : Paid blocked debt s) : NoneMissed blocked s := by
  intro hlock p k l hp
  refine (h.asleep p k l hp).resolve_right ?_
  rintro ⟨q, hq, _⟩
  rw [hlock] at hq
  cases hq

omit [DecidableEq K] in
/-- A step of one process: what it does to its own place, to the blocks and to the debts. -/
theorem Paid.one (h : Paid blocked debt s) {p : P} {x : Place K L}
    (hplace : t.place = Function.update s.place p x)
    (hsink : ∀ k l, x = .sinking k l → blocked t.data k l)
    (hsinks : ∀ q k l, q ≠ p → s.place q = .sinking k l → blocked t.data k l)
    (hsleep : ∀ k l, x = .asleep k l → blocked t.data k l)
    (hsleeps : ∀ k l, blocked s.data k l ∨ Owed debt s k → blocked t.data k l ∨ Owed debt t k) :
    Paid blocked debt t := by
  constructor
  · intro q k l hq
    rw [hplace] at hq
    by_cases hqp : q = p
    · rw [hqp, Function.update_self] at hq
      exact hsink k l hq
    · rw [Function.update_of_ne hqp] at hq
      exact hsinks q k l hqp hq
  · intro q k l hq
    rw [hplace] at hq
    by_cases hqp : q = p
    · rw [hqp, Function.update_self] at hq
      exact Or.inl (hsleep k l hq)
    · rw [Function.update_of_ne hqp] at hq
      exact hsleeps k l (h.asleep q k l hq)

omit [DecidableEq K] in
/-- A step of the process that holds the lock: nobody else is about to sleep. -/
theorem Paid.held (h : Paid blocked debt s) (hex : Exclusive s) {p : P} {x : Place K L}
    (hp : (s.place p).holds = true) (hplace : t.place = Function.update s.place p x)
    (hsink : ∀ k l, x = .sinking k l → blocked t.data k l)
    (hsleep : ∀ k l, x = .asleep k l → blocked t.data k l)
    (hsleeps : ∀ k l, blocked s.data k l ∨ (s.place p).owes debt k →
      blocked t.data k l ∨ Owed debt t k) : Paid blocked debt t := by
  have hlock : s.lock = some p := (hex p).mp hp
  refine h.one hplace hsink (fun q k l hq hs => ?_) hsleep fun k l hb => ?_
  · have hholds : (s.place q).holds = true := by rw [hs]; rfl
    exact absurd (Option.some.inj (((hex q).mp hholds).symm.trans hlock)) hq
  · rw [owed_iff hlock] at hb
    exact hsleeps k l hb

omit [DecidableEq K] in
/-- A step of a process that has nothing to do with the lock. -/
theorem Paid.apart (h : Paid blocked debt s) (hex : Exclusive s) {p : P} {x : Place K L}
    (hp : (s.place p).holds = false) (hplace : t.place = Function.update s.place p x)
    (hlock : t.lock = s.lock) (hx : ∀ k l, x ≠ .sinking k l ∧ x ≠ .asleep k l)
    (hdata : ∀ k l, blocked s.data k l → blocked t.data k l) : Paid blocked debt t := by
  refine h.one hplace (fun k l he => absurd he (hx k l).1)
    (fun q k l _ hs => hdata k l (h.sinking q k l hs)) (fun k l he => absurd he (hx k l).2) ?_
  rintro k l (hb | ⟨r, hr, ho⟩)
  · exact Or.inl (hdata k l hb)
  · refine Or.inr ⟨r, hlock.trans hr, ?_⟩
    have hne : r ≠ p := by
      rintro rfl
      rw [(hex r).mpr hr] at hp
      cases hp
    rw [hplace, Function.update_of_ne hne]
    exact ho

theorem Paid.step (hm : Pays m J blocked debt) (hex : Exclusive s) (hJ : Holds J s)
    (h : Paid blocked debt s) (hs : Step m s t) : Paid blocked debt t := by
  have hat : ∀ p x, s.place p = x → s.locals p = x.here := fun p x hp => congrArg Place.here hp
  cases hs with
  | call p l l' hp hcall =>
    refine h.apart hex (p := p) (x := .entering l') (by rw [hp]; rfl) rfl rfl ?_ fun _ _ hb => hb
    exact fun _ _ => ⟨by simp, by simp⟩
  | free p l l' d hp hfree =>
    refine h.apart hex (p := p) (x := .outside l') (by rw [hp]; rfl) rfl rfl ?_ ?_
    · exact fun _ _ => ⟨by simp, by simp⟩
    · exact hm.free _ _ _ p _ _ hJ (by rw [hat p _ hp]; exact hfree)
  | enter p l hp hlock =>
    refine h.one (p := p) (x := .inside l) rfl (fun _ _ he => by cases he)
      (fun q k l' _ hs => h.sinking q k l' hs) (fun _ _ he => by cases he) ?_
    rintro k l' (hb | ⟨r, hr, _⟩)
    · exact Or.inl hb
    · rw [hlock] at hr
      cases hr
  | move p l hp =>
    have hholds : (s.place p).holds = true := by rw [hp]; rfl
    have hlock : s.lock = some p := (hex p).mp hholds
    have hl : s.locals p = l := hat p _ hp
    have howes : ∀ k, (s.place p).owes debt k ↔ debt l k := fun k => by rw [hp]; rfl
    cases hmove : m.body s.data (s.env p) l with
    | stay d l' =>
      rw [← hl] at hmove
      refine h.held hex hholds (x := .inside l') rfl (fun _ _ he => by cases he)
        (fun _ _ he => by cases he) fun k l'' hb => ?_
      rw [howes, ← hl] at hb
      refine (hm.stay _ _ _ p d l' hJ hmove k l'' hb).imp id fun ho => ⟨p, hlock, ?_⟩
      simpa [State.moved, State.put, Place.owes] using ho
    | wake k' l' =>
      rw [← hl] at hmove
      refine h.held hex hholds (x := .waking k' l') rfl (fun _ _ he => by cases he)
        (fun _ _ he => by cases he) fun k l'' hb => ?_
      rw [howes, ← hl] at hb
      refine hb.imp id fun ho => ⟨p, hlock, ?_⟩
      simpa [State.moved, State.put, Place.owes] using hm.wake _ _ _ p k' l' hJ hmove k ho
    | sleep k' l' =>
      rw [← hl] at hmove
      obtain ⟨hblocked, hnone⟩ := hm.sleep _ _ _ p k' l' hJ hmove
      refine h.held hex hholds (x := .sinking k' l') rfl ?_ (fun _ _ he => by cases he)
        fun k l'' hb => ?_
      · intro k l'' he
        cases he
        exact hblocked
      · rw [howes, ← hl] at hb
        exact Or.inl (hb.resolve_right (hnone k))
    | leave l' =>
      rw [← hl] at hmove
      have hnone := hm.leave _ _ _ p l' hJ hmove
      refine h.held hex hholds (x := .outside l') rfl (fun _ _ he => by cases he)
        (fun _ _ he => by cases he) fun k l'' hb => ?_
      rw [howes, ← hl] at hb
      exact Or.inl (hb.resolve_right (hnone k))
  | wake p k l hp =>
    have hholds : (s.place p).holds = true := by rw [hp]; rfl
    have hlock : s.lock = some p := (hex p).mp hholds
    constructor
    · intro q k' l' hq
      by_cases hqp : q = p
      · rw [hqp] at hq
        simp [State.put] at hq
      · refine h.sinking q k' l' ?_
        have hq' : (s.place q).roused (· = k) = .sinking k' l' := by
          simpa [State.put, State.wakeAll, hqp] using hq
        cases hx : s.place q with
        | asleep k'' l'' => by_cases hk : k'' = k <;> simp [hx, Place.roused, hk] at hq'
        | _ => rw [hx] at hq'; exact hq'
    · intro q k' l' hq
      by_cases hqp : q = p
      · rw [hqp] at hq
        simp [State.put] at hq
      · have hq' : (s.place q).roused (· = k) = .asleep k' l' := by
          simpa [State.put, State.wakeAll, hqp] using hq
        obtain ⟨hne, hold⟩ : k' ≠ k ∧ s.place q = .asleep k' l' := by
          cases hx : s.place q with
          | asleep k'' l'' =>
            by_cases hk : k'' = k
            · simp [hx, Place.roused, hk] at hq'
            · simp only [hx, Place.roused, hk, if_false] at hq'
              obtain ⟨rfl, rfl⟩ := Place.asleep.inj hq'
              exact ⟨hk, rfl⟩
          | _ => simp [hx, Place.roused] at hq'
        refine (h.asleep q k' l' hold).imp id fun ho => ⟨p, hlock, ?_⟩
        have hd : (s.place p).owes debt k' := (owed_iff hlock).mp ho
        rw [hp] at hd
        simpa [State.put, Place.owes] using hd.resolve_left hne
  | sink p k l hp =>
    have hholds : (s.place p).holds = true := by rw [hp]; rfl
    refine h.held hex hholds (x := .asleep k l) rfl (fun _ _ he => by cases he) ?_ fun k' l' hb => ?_
    · intro k' l' he
      cases he
      exact h.sinking p k l hp
    · rw [hp] at hb
      exact Or.inl (hb.resolve_right id)
  | elsewhere env place henv hplace =>
    have hback : ∀ q x, place q = x → (∀ l, x ≠ .entering l) → s.place q = x := by
      intro q x hx hne
      rcases hplace q with he | ⟨k, l, _, ht⟩
      · rw [← he, hx]
      · exact absurd (hx.symm.trans ht) (hne l)
    constructor
    · intro q k l hq
      exact h.sinking q k l (hback q _ hq fun _ he => by cases he)
    · intro q k l hq
      refine (h.asleep q k l (hback q _ hq fun _ he => by cases he)).imp id ?_
      rintro ⟨r, hr, ho⟩
      refine ⟨r, hr, ?_⟩
      rcases hplace r with he | ⟨k', l', hs, _⟩
      · show (place r).owes debt k
        rw [he]
        exact ho
      · rw [hs] at ho
        exact ho.elim

end Debts

end NorthOS.Monitor
