import Mathlib.Data.Multiset.AddSub
import Mathlib.Tactic.Common

/-!
Programs over a pool of resources. A program takes resources from the pool, where it may find
none, and gives resources back. What a program holds is a multiset, and a program is accounted
for when it only gives back what it holds and ends with what its result says; other programs
may take and give in between. Accounted programs leave the resources of the whole system as
they were.
-/
namespace NorthOS.Pool

universe u

variable {R α β : Type u}

/-- A program that has halted goes no further. -/
inductive Prog (R α : Type u) : Type u
  | ret (a : α)
  | take (k : Option R → Prog R α)
  | give (r : R) (k : Prog R α)
  | halt

namespace Prog

def bind : Prog R α → (α → Prog R β) → Prog R β
  | ret a, f => f a
  | take k, f => take fun r => (k r).bind f
  | give r k, f => give r (k.bind f)
  | halt, _ => halt

instance : Monad (Prog R) where
  pure := ret
  bind := bind

def alloc : Prog R (Option R) := take ret

def free (r : R) : Prog R PUnit := give r (ret ⟨⟩)

/-- The next step on a pool that is a stack; taking may fail at any time, and does when the
pool is empty. -/
def tick (fail : Bool) (pool : List R) : Prog R α → Option (List R × Prog R α)
  | ret _ => none
  | take k =>
    match fail, pool with
    | false, r :: pool => some (pool, k (some r))
    | _, pool => some (pool, k none)
  | give r k => some (r :: pool, k)
  | halt => none

/-- The whole program with the pool to itself, as long as there is something to take. -/
def run : Prog R α → List R → Option (α × List R)
  | ret a, pool => some (a, pool)
  | take _, [] => none
  | take k, r :: pool => (k (some r)).run pool
  | give r k, pool => k.run (r :: pool)
  | halt, _ => none

/-- Whatever it takes, the program that holds `m` gives back only what it holds, and ends in a
result and with holdings that satisfy `Q`. Only with `fails` may it be that it finds nothing
to take. -/
def Accounts (fails : Bool) (m : Multiset R) (Q : α → Multiset R → Prop) : Prog R α → Prop
  | ret a => Q a m
  | take k => (fails → (k none).Accounts fails m Q) ∧ ∀ r, (k (some r)).Accounts fails (r ::ₘ m) Q
  | give r k => ∃ m', m = r ::ₘ m' ∧ k.Accounts fails m' Q
  | halt => True

/-- Some run ends with `a`, whatever there is to take. -/
def Yields : Prog R α → α → Prop
  | ret b, a => b = a
  | take k, a => ∃ r, (k r).Yields a
  | give _ k, a => k.Yields a
  | halt, _ => False

/-- The whole program with the pool to itself; taking may fail at any time. -/
def Traces : Prog R α → List R → α → List R → Prop
  | ret a, pool, b, pool' => a = b ∧ pool = pool'
  | take k, pool, b, pool' => (k none).Traces pool b pool' ∨
      ∃ r rest, pool = r :: rest ∧ (k (some r)).Traces rest b pool'
  | give r k, pool, b, pool' => k.Traces (r :: pool) b pool'
  | halt, _, _, _ => False

variable {fails : Bool} {m : Multiset R} {Q : α → Multiset R → Prop} {S : β → Multiset R → Prop}
    {p : Prog R α}

/-- One program after another. -/
theorem Accounts.bind {f : α → Prog R β}
    (h : p.Accounts fails m fun a n => (f a).Accounts fails n S) :
    (p >>= f).Accounts fails m S := by
  show (p.bind f).Accounts fails m S
  induction p generalizing m with
  | ret a => exact h
  | take k ih => exact ⟨fun hf => ih none (h.1 hf), fun r => ih (some r) (h.2 r)⟩
  | give r k ih =>
    obtain ⟨n, hn, hk⟩ := h
    exact ⟨n, hn, ih hk⟩
  | halt => trivial

theorem yields_pure {a b : α} : (pure b : Prog R α).Yields a ↔ b = a := Iff.rfl

theorem yields_alloc {f : Option R → Prog R β} {b : β} :
    (alloc >>= f).Yields b ↔ ∃ r, (f r).Yields b := Iff.rfl

theorem yields_free {r : R} {f : PUnit → Prog R β} {b : β} :
    (free r >>= f).Yields b ↔ (f ⟨⟩).Yields b := Iff.rfl

theorem yields_bind {f : α → Prog R β} {b : β} :
    (p >>= f).Yields b ↔ ∃ a, p.Yields a ∧ (f a).Yields b := by
  show (p.bind f).Yields b ↔ _
  induction p with
  | ret a =>
    constructor
    · intro h
      exact ⟨a, rfl, h⟩
    · intro ⟨c, hc, h⟩
      have he : a = c := hc
      rw [he]
      exact h
  | take k ih =>
    constructor
    · intro ⟨r, h⟩
      obtain ⟨a, ha, hb⟩ := (ih r).mp h
      exact ⟨a, ⟨r, ha⟩, hb⟩
    · intro ⟨a, ⟨r, ha⟩, hb⟩
      exact ⟨r, (ih r).mpr ⟨a, ha, hb⟩⟩
  | give r k ih => exact ih
  | halt =>
    constructor
    · intro h
      exact absurd h id
    · intro ⟨a, ha, _⟩
      exact absurd ha id

theorem accounts_pure {a : α} : (pure a : Prog R α).Accounts fails m Q ↔ Q a m := Iff.rfl

theorem Accounts.alloc {f : Option R → Prog R β} (hnone : fails → (f none).Accounts fails m S)
    (hsome : ∀ r, (f (some r)).Accounts fails (r ::ₘ m) S) : (alloc >>= f).Accounts fails m S :=
  ⟨hnone, hsome⟩

theorem Accounts.free {r : R} {f : PUnit → Prog R β} (h : (f ⟨⟩).Accounts fails m S) :
    (free r >>= f).Accounts fails (r ::ₘ m) S := ⟨m, rfl, h⟩

/-- A step moves resources between the pool and what is held. -/
theorem Accounts.tick {fail : Bool} {pool pool' : List R} {p' : Prog R α} (h : p.Accounts true m Q)
    (ht : p.tick fail pool = some (pool', p')) :
    ∃ m', p'.Accounts true m' Q ∧ (pool' : Multiset R) + m' = pool + m := by
  cases p with
  | ret a => cases ht
  | take k =>
    cases fail with
    | true =>
      obtain ⟨rfl, rfl⟩ := Prod.mk.inj (Option.some.inj ht)
      exact ⟨m, h.1 rfl, rfl⟩
    | false =>
      cases pool with
      | nil =>
        obtain ⟨rfl, rfl⟩ := Prod.mk.inj (Option.some.inj ht)
        exact ⟨m, h.1 rfl, rfl⟩
      | cons r pool =>
        obtain ⟨rfl, rfl⟩ := Prod.mk.inj (Option.some.inj ht)
        refine ⟨r ::ₘ m, h.2 r, ?_⟩
        rw [← Multiset.cons_coe, Multiset.add_cons, Multiset.cons_add]
  | give r k =>
    obtain ⟨rfl, rfl⟩ := Prod.mk.inj (Option.some.inj ht)
    obtain ⟨n, rfl, hk⟩ := h
    refine ⟨n, hk, ?_⟩
    rw [← Multiset.cons_coe, Multiset.add_cons, Multiset.cons_add]
  | halt => cases ht

theorem Accounts.run {pool pool' : List R} {a : α} (h : p.Accounts false m Q)
    (hr : p.run pool = some (a, pool')) : ∃ m', Q a m' ∧ (pool' : Multiset R) + m' = pool + m := by
  induction p generalizing m pool with
  | ret b =>
    obtain ⟨rfl, rfl⟩ := Prod.mk.inj (Option.some.inj hr)
    exact ⟨m, h, rfl⟩
  | take k ih =>
    cases pool with
    | nil => cases hr
    | cons r pool =>
      obtain ⟨m', hQ, he⟩ := ih (some r) (h.2 r) hr
      refine ⟨m', hQ, he.trans ?_⟩
      rw [← Multiset.cons_coe, Multiset.add_cons, Multiset.cons_add]
  | give r k ih =>
    obtain ⟨n, rfl, hk⟩ := h
    obtain ⟨m', hQ, he⟩ := ih hk hr
    refine ⟨m', hQ, he.trans ?_⟩
    rw [← Multiset.cons_coe, Multiset.add_cons, Multiset.cons_add]
  | halt => cases hr

theorem traces_bind {f : α → Prog R β} {b : β} {pool pool' : List R} :
    (p >>= f).Traces pool b pool' ↔ ∃ a mid, p.Traces pool a mid ∧ (f a).Traces mid b pool' := by
  show (p.bind f).Traces pool b pool' ↔ _
  induction p generalizing pool with
  | ret a =>
    constructor
    · intro h
      exact ⟨a, pool, ⟨rfl, rfl⟩, h⟩
    · rintro ⟨_, _, ⟨rfl, rfl⟩, h⟩
      exact h
  | take k ih =>
    constructor
    · rintro (h | ⟨r, rest, rfl, h⟩)
      · obtain ⟨a, mid, ha, hb⟩ := (ih none).mp h
        exact ⟨a, mid, .inl ha, hb⟩
      · obtain ⟨a, mid, ha, hb⟩ := (ih (some r)).mp h
        exact ⟨a, mid, .inr ⟨r, rest, rfl, ha⟩, hb⟩
    · rintro ⟨a, mid, ha | ⟨r, rest, rfl, ha⟩, hb⟩
      · exact .inl ((ih none).mpr ⟨a, mid, ha, hb⟩)
      · exact .inr ⟨r, rest, rfl, (ih (some r)).mpr ⟨a, mid, ha, hb⟩⟩
  | give r k ih => exact ih
  | halt =>
    constructor
    · exact False.elim
    · rintro ⟨_, _, h, _⟩
      exact h

/-- A run that is accounted for neither makes resources nor loses any. -/
theorem Accounts.traces {pool pool' : List R} {a : α} (h : p.Accounts true m Q)
    (ht : p.Traces pool a pool') : ∃ m', Q a m' ∧ (pool' : Multiset R) + m' = pool + m := by
  induction p generalizing m pool with
  | ret b =>
    obtain ⟨rfl, rfl⟩ := ht
    exact ⟨m, h, rfl⟩
  | take k ih =>
    rcases ht with ht | ⟨r, rest, rfl, ht⟩
    · exact ih none (h.1 rfl) ht
    · obtain ⟨m', hQ, he⟩ := ih (some r) (h.2 r) ht
      refine ⟨m', hQ, he.trans ?_⟩
      rw [← Multiset.cons_coe, Multiset.add_cons, Multiset.cons_add]
  | give r k ih =>
    obtain ⟨n, rfl, hk⟩ := h
    obtain ⟨m', hQ, he⟩ := ih hk ht
    refine ⟨m', hQ, he.trans ?_⟩
    rw [← Multiset.cons_coe, Multiset.add_cons, Multiset.cons_add]
  | halt => exact absurd ht id

end Prog

end NorthOS.Pool
