import NorthOS.Monitor
import NorthOS.PipeWakeup

/-!
sleep and wakeup of proc.c under a spinlock. A routine is what processes do with some data
that the lock protects. A step goes from one point where p->lock or ptable.lock is taken or
given back to the next; between the release of the lock in sleep and the point where the
process is asleep there is ptable.lock, so that no wakeup comes in between. The kernel is
thus a monitor, in which a process gives the lock up and is asleep at once. The numbers
from NPROC on stand for the interrupt handlers of the CPUs, which have no process.
-/
namespace NorthOS.SleepWakeup

open Process Runs Monitor
open Pipes (SleepsOn)

/-- What a routine reads of myproc(). -/
structure Self where
  pid : ℕ
  killed : Bool

/-- `calls` are the calls that processes make, `interrupts` those of the interrupt handlers;
a process that is idle may be gone. `mine` are the channels that only the routine uses. -/
structure Routine (D L : Type) where
  body : D → Self → L → Move D Chan L
  free : D → L → L → Option D
  calls : L → L → Bool
  interrupts : L → L → Bool
  idle : L → Bool
  mine : Chan → Bool
  mine_proc : ∀ p, mine (.proc p) = false

/-- Where in the code: not in it, at acquire(lk), in the body, at a wakeup, and in sleep:
before acquire(&ptable.lock), before release(lk), before the process is asleep, and from
then on up to acquire(lk). -/
inductive Stage (L : Type)
  | outside (l : L)
  | acquire (l : L)
  | body (l : L)
  | wakeup (chan : Chan) (l : L)
  | sleep (chan : Chan) (l : L)
  | handover (chan : Chan) (l : L)
  | fall (chan : Chan) (l : L)
  | asleep (chan : Chan) (l : L)

namespace Stage

variable {L : Type}

def here : Stage L → L
  | .outside l | .acquire l | .body l | .wakeup _ l | .sleep _ l | .handover _ l | .fall _ l
  | .asleep _ l => l

def isOutside : Stage L → Bool
  | .outside _ => true
  | _ => false

/-- No spinlock is held, so that an interrupt may take the CPU away. -/
def preemptible : Stage L → Bool
  | .outside _ | .acquire _ => true
  | _ => false

/-- In sleep, where there is a process. -/
def sleeps : Stage L → Bool
  | .sleep _ _ | .handover _ _ | .fall _ _ | .asleep _ _ => true
  | _ => false

def isIdle (idle : L → Bool) : Stage L → Bool
  | .outside l => idle l
  | _ => false

end Stage

/-- `lk` and `ptlock` are the holders of the routine's lock and of ptable.lock. -/
structure Sys (D L : Type) where
  table : Ptable
  data : D
  lk : Option ℕ
  ptlock : Option ℕ
  doing : ℕ → Stage L

inductive Act (L : Type)
  | call (p : ℕ) (l : L)
  | free (p : ℕ) (l : L)
  | go (p : ℕ)
  | elsewhere (a : KillAct)

variable {D L : Type}

namespace Sys

def running (s : Sys D L) (p : ℕ) : Prop := (s.table.proc p).state = .RUNNING

instance (s : Sys D L) (p : ℕ) : Decidable (s.running p) := inferInstanceAs (Decidable (_ = _))

def self (s : Sys D L) (p : ℕ) : Self := ⟨(s.table.proc p).pid, (s.table.proc p).killed⟩

def moveTo (s : Sys D L) (p : ℕ) (st : Stage L) : Sys D L :=
  { s with doing := Function.update s.doing p st }

/-- A process that runs, and is in the kernel elsewhere or in user space. -/
def out (s : Sys D L) (p : ℕ) : Prop := s.running p ∧ (s.doing p).isOutside = true

instance (s : Sys D L) (p : ℕ) : Decidable (s.out p) := inferInstanceAs (Decidable (_ ∧ _))

/-- The body, up to the next lock. An interrupt handler that sleeps is a panic. -/
def body (r : Routine D L) (s : Sys D L) (p : ℕ) (l : L) : Option (Sys D L) :=
  match r.body s.data (s.self p) l with
  | .stay d l' => some { s.moveTo p (.body l') with data := d }
  | .wake chan l' => some (s.moveTo p (.wakeup chan l'))
  | .sleep chan l' => if p < NPROC then some (s.moveTo p (.sleep chan l')) else none
  | .leave l' => some { s.moveTo p (.outside l') with lk := none }

/-- The next small step in the routine. -/
def go (r : Routine D L) (s : Sys D L) (p : ℕ) : Option (Sys D L) :=
  match s.doing p with
  | .outside _ => none
  | .acquire l => if s.lk = none then some { s.moveTo p (.body l) with lk := some p } else none
  | .body l => s.body r p l
  | .wakeup chan l =>
    if s.ptlock = none then some { s.moveTo p (.body l) with table := s.table.wakeup1 (some chan) } else none
  | .sleep chan l =>
    if s.ptlock = none then some { s.moveTo p (.handover chan l) with ptlock := some p } else none
  | .handover chan l => some { s.moveTo p (.fall chan l) with lk := none }
  | .fall chan l =>
    some { s.moveTo p (.asleep chan l) with ptlock := none, table := s.table.sleep p chan }
  | .asleep _ l =>
    if s.ptlock = none then some { s.moveTo p (.acquire l) with table := s.table.tidy p } else none

/-- The process table after a step of the rest of the kernel. -/
def elsewhere (r : Routine D L) (s : Sys D L) : KillAct → Option Ptable
  | .fork p kalloc copyuvm => if s.out p then some (s.table.fork p kalloc copyuvm).1 else none
  | .exit p => if s.out p ∧ (s.doing p).isIdle r.idle then s.table.exit p else none
  | .wait p => if s.out p then some (s.table.wait p).1 else none
  | .kill p pid => if s.out p then some (s.table.killPid pid).1 else none
  | .fault p => if s.out p then some (s.table.set p fun q => { q with killed := true }) else none
  | .schedule p => s.table.schedule p
  | .yield p => if s.running p ∧ (s.doing p).preemptible then some (s.table.yield p) else none
  | .sleep p chan => if s.out p ∧ r.mine chan = false then some (s.table.sleep p chan) else none
  | .wakeup chan => some (s.table.wakeup1 (some chan))

def step (r : Routine D L) (s : Sys D L) : Act L → Option (Sys D L)
  | .call p l' =>
    match s.doing p with
    | .outside l =>
      if s.running p ∧ r.calls l l' = true ∨ NPROC ≤ p ∧ r.interrupts l l' = true then
        some (s.moveTo p (.acquire l'))
      else none
    | _ => none
  | .free p l' =>
    match s.doing p with
    | .outside l =>
      if s.running p then
        (r.free s.data l l').map fun d => { s.moveTo p (.outside l') with data := d }
      else none
    | _ => none
  | .go p => if s.running p ∨ NPROC ≤ p then s.go r p else none
  | .elsewhere a =>
    if s.ptlock = none then (s.elsewhere r a).map fun t => { s with table := t } else none

end Sys

/-- The monitor that the kernel makes of a routine. -/
def Routine.monitor (r : Routine D L) : Program ℕ D Chan L Self where
  body := r.body
  free := r.free
  calls e l l' := 0 < e.pid ∧ r.calls l l' = true ∨ r.interrupts l l' = true
  changes f e e' := (∀ p, r.idle (f p) = false → (e' p).pid = (e p).pid ∧
      ((e p).killed = true → (e' p).killed = true)) ∧
    ∀ p q, 0 < (e' p).pid → (e' p).pid = (e' q).pid → p = q

/-- A process in sleep is asleep for the monitor until something makes it runnable. -/
def Stage.view (sleeping : Prop) [Decidable sleeping] : Stage L → Place Chan L
  | .outside l => .outside l
  | .acquire l => .entering l
  | .body l => .inside l
  | .wakeup chan l => .waking chan l
  | .sleep chan l | .handover chan l => .sinking chan l
  | .fall chan l => .asleep chan l
  | .asleep chan l => if sleeping then .asleep chan l else .entering l

def Sys.view (s : Sys D L) : State ℕ D Chan L Self where
  data := s.data
  lock := s.lk
  env := s.self
  place := fun p => (s.doing p).view ((s.table.proc p).state = .SLEEPING)

/-- Who sleeps on a channel of the routine sleeps in it, and who is in it is a process. -/
structure Sound (r : Routine D L) (s : Sys D L) : Prop where
  pids : Pids s.table
  built : Built s.table
  alive : ∀ p, p < NPROC → (s.doing p).isIdle r.idle = false → Alive s.table p
  process : ∀ p, (s.doing p).sleeps = true → p < NPROC
  ptlock : ∀ p chan l, s.doing p = .handover chan l ∨ s.doing p = .fall chan l → s.ptlock = some p
  chan : ∀ p chan l, s.doing p = .asleep chan l → (s.table.proc p).state = .SLEEPING →
    (s.table.proc p).chan = some chan
  mine : ∀ p chan, r.mine chan = true → SleepsOn s.table chan p → ∃ l, s.doing p = .asleep chan l

section Elsewhere

variable {t u v : Ptable} {p q : ℕ}

/-- Nobody new is asleep. -/
def FewerSleep (t u : Ptable) : Prop :=
  ∀ p, (u.proc p).state = .SLEEPING → (t.proc p).state = .SLEEPING ∧ (u.proc p).chan = (t.proc p).chan

theorem FewerSleep.refl (t : Ptable) : FewerSleep t t := fun _ h => ⟨h, rfl⟩

theorem FewerSleep.trans (h : FewerSleep t u) (h' : FewerSleep u v) : FewerSleep t v := by
  intro p hp
  obtain ⟨hu, hc⟩ := h' p hp
  obtain ⟨ht, hc'⟩ := h p hu
  exact ⟨ht, hc.trans hc'⟩

theorem FewerSleep.set {f : Proc → Proc} (hf : (f (t.proc p)).state = .SLEEPING →
    (t.proc p).state = .SLEEPING ∧ (f (t.proc p)).chan = (t.proc p).chan) :
    FewerSleep t (t.set p f) := by
  intro q hq
  by_cases hqp : q = p
  · subst hqp
    rw [Ptable.set_self] at hq ⊢
    exact hf hq
  · rw [Ptable.set_other hqp] at hq ⊢
    exact ⟨hq, rfl⟩

theorem fewer_wakeup1 (t : Ptable) (chan : Option Chan) : FewerSleep t (t.wakeup1 chan) := by
  intro p hp
  rcases wakeup1_proc t chan p with ⟨he, _⟩ | ⟨_, he⟩
  · rw [he] at hp ⊢
    exact ⟨hp, rfl⟩
  · rw [he] at hp
    cases hp

theorem fewer_abandon (curproc : ℕ) (ps : List ℕ) : FewerSleep t (t.abandon curproc ps) := by
  induction ps generalizing t with
  | nil => exact .refl t
  | cons p rest ih =>
    have hparent : FewerSleep t (t.set p fun q => { q with parent := some t.initproc }) :=
      .set fun hs => ⟨hs, rfl⟩
    refine FewerSleep.trans ?_ ih
    dsimp only
    split
    · split
      · exact hparent.trans (fewer_wakeup1 _ _)
      · exact hparent
    · exact .refl t

theorem fewer_exit (h : t.exit p = some u) : FewerSleep t u := by
  unfold Ptable.exit at h
  split at h
  · cases h
  · obtain rfl := Option.some.inj h
    have hall := (fewer_wakeup1 t ((t.proc p).parent.map .proc)).trans
      (fewer_abandon p (List.range NPROC))
    exact hall.trans (.set fun hs => by cases hs)

theorem fewer_fork {kalloc copyuvm : Bool} : FewerSleep t (t.fork p kalloc copyuvm).1 := by
  rcases fork_cases (p := p) (Prod.eta (t.fork p kalloc copyuvm)).symm with ⟨_, he⟩ | ⟨np, hf⟩
  · rw [he]
    exact .refl t
  · intro q hq
    by_cases hqn : q = np
    · subst hqn
      rcases hf.result with ⟨_, hs⟩ | ⟨_, hs⟩
      · rw [hs] at hq
        cases hq
      · rw [hs] at hq
        cases hq
    · rw [hf.others q hqn] at hq ⊢
      exact ⟨hq, rfl⟩

theorem fewer_kill {pid : ℤ} : FewerSleep t (t.killPid pid).1 := by
  rcases killPid_cases (Prod.eta (t.killPid pid)).symm with ⟨_, he, _⟩ | ⟨_, q, _, _, he⟩
  · rw [he]
    exact .refl t
  · rw [he]
    refine .set fun hs => ?_
    dsimp only at hs ⊢
    split at hs
    · cases hs
    · exact ⟨hs, rfl⟩

theorem fewer_schedule (h : t.schedule p = some u) : FewerSleep t u := by
  unfold Ptable.schedule at h
  split at h
  · obtain rfl := Option.some.inj h
    exact .set fun hs => by cases hs
  · cases h

/-- Only the sleep of wait puts a process to sleep. -/
theorem fewer_wait (h : (t.wait p).1 = u) : FewerSleep t u ∨ u = t.sleep p (.proc p) := by
  unfold Ptable.wait at h
  split at h
  · obtain rfl := h
    have hfree : ∀ q : ℕ, FewerSleep t (t.set q fun x =>
        { x with kstack := false, pid := 0, parent := none, killed := false, state := .UNUSED }) :=
      fun q => .set fun hs => by cases hs
    exact Or.inl (hfree _)
  · split at h
    · obtain rfl := h
      exact Or.inl (.refl t)
    · exact Or.inr h.symm

/-- The same slots are in use, with the same pids, and no flag is taken back. -/
structure SamePids (t u : Ptable) : Prop where
  nextpid : u.nextpid = t.nextpid
  pid : ∀ p, (u.proc p).pid = (t.proc p).pid
  killed : ∀ p, (t.proc p).killed = true → (u.proc p).killed = true
  unused : ∀ p, (u.proc p).state = .UNUSED ↔ (t.proc p).state = .UNUSED

theorem SamePids.of_sameIds (h : SameIds t u) : SamePids t u :=
  ⟨h.nextpid, h.pid, fun p hp => (h.killed p).trans hp, h.unused⟩

theorem SamePids.set {f : Proc → Proc} (hpid : (f (t.proc p)).pid = (t.proc p).pid)
    (hkilled : (t.proc p).killed = true → (f (t.proc p)).killed = true)
    (hunused : (f (t.proc p)).state = .UNUSED ↔ (t.proc p).state = .UNUSED) :
    SamePids t (t.set p f) := by
  refine ⟨rfl, fun q => ?_, fun q => ?_, fun q => ?_⟩
  all_goals
    by_cases hq : q = p
    · subst hq
      rw [Ptable.set_self]
      assumption
    · simp [Ptable.set_other hq]

theorem SamePids.pids (h : SamePids t u) (ht : Pids t) : Pids u where
  positive := fun p hp => (h.pid p).symm ▸ ht.positive p fun hu => hp ((h.unused p).mpr hu)
  below := by
    intro p
    rw [h.pid, h.nextpid]
    exact ht.below p
  distinct := by
    intro p q
    rw [h.pid, h.pid]
    exact ht.distinct p q
  inside := fun p hp => (h.unused p).mpr (ht.inside p hp)

theorem kill_samePids {pid : ℤ} : SamePids t (t.killPid pid).1 := by
  rcases killPid_cases (Prod.eta (t.killPid pid)).symm with ⟨_, he, _⟩ | ⟨_, q, _, _, he⟩
  · rw [he]
    exact .of_sameIds (.refl t)
  · rw [he]
    refine .set rfl (fun _ => rfl) ?_
    dsimp only
    split
    · rename_i hs
      rw [hs]
      simp
    · exact Iff.rfl

theorem killPid_keeps (h : Built t) (pid : ℤ) :
    KeepsAlive t (t.killPid pid).1 none ∧ Built (t.killPid pid).1 := by
  cases pid with
  | ofNat n => exact Ptable.kill_keeps h n
  | negSucc n => exact ⟨.refl t none, h⟩

end Elsewhere

section Beside

variable {r : Routine D L} {s : Sys D L} {u : Ptable} {p : ℕ}

/-- What a step of the rest of the kernel leaves to the routine. -/
structure Beside (r : Routine D L) (s : Sys D L) (u : Ptable) : Prop where
  pids : Pids u
  built : Built u
  alive : ∀ p, p < NPROC → (s.doing p).isIdle r.idle = false → Alive u p
  pid : ∀ p, (s.doing p).isIdle r.idle = false → (u.proc p).pid = (s.table.proc p).pid ∧
    ((s.table.proc p).killed = true → (u.proc p).killed = true)
  sleeps : ∀ p, (u.proc p).state = .SLEEPING →
    (s.table.proc p).state = .SLEEPING ∧ (u.proc p).chan = (s.table.proc p).chan ∨
      (s.doing p).isOutside = true ∧ ∃ chan, (u.proc p).chan = some chan ∧ r.mine chan = false

theorem Sound.beside_same (h : Sound r s) (hsame : SamePids s.table u)
    (hkeep : ∀ p, p < NPROC → (s.doing p).isIdle r.idle = false → Alive u p) (hbuilt : Built u)
    (hsleeps : FewerSleep s.table u) : Beside r s u :=
  ⟨hsame.pids h.pids, hbuilt, hkeep, fun p _ => ⟨hsame.pid p, hsame.killed p⟩, fun p hp => Or.inl (hsleeps p hp)⟩

theorem Sound.beside_keeps (h : Sound r s) (hsame : SamePids s.table u)
    (hkeep : KeepsAlive s.table u none ∧ Built u) (hsleeps : FewerSleep s.table u) : Beside r s u :=
  h.beside_same hsame (fun p hlt hp => (hkeep.1 p (h.alive p hlt hp) (by simp)).alive) hkeep.2 hsleeps

theorem Sound.beside_sleep (h : Sound r s) (hout : s.out p) {chan : Chan} (hmine : r.mine chan = false) :
    Beside r s (s.table.sleep p chan) := by
  have halive : Alive s.table p := ⟨by rw [hout.1]; simp, by rw [hout.1]; simp⟩
  obtain ⟨hkeep, hbuilt⟩ := Ptable.sleep_keeps h.built halive chan
  have hids := SamePids.of_sameIds (sleep_sameIds hout.1 chan)
  refine ⟨hids.pids h.pids, hbuilt, fun q hlt hq => (hkeep q (h.alive q hlt hq) (by simp)).alive,
    fun q _ => ⟨hids.pid q, hids.killed q⟩, fun q hq => ?_⟩
  by_cases hqp : q = p
  · subst hqp
    exact Or.inr ⟨hout.2, chan, congrArg Proc.chan Ptable.set_self, hmine⟩
  · rw [Ptable.sleep, Ptable.set_other hqp] at hq ⊢
    exact Or.inl ⟨hq, rfl⟩

theorem Sound.beside_fork (h : Sound r s) (kalloc copyuvm : Bool) :
    Beside r s (s.table.fork p kalloc copyuvm).1 := by
  obtain ⟨hkeep, hbuilt⟩ := Ptable.fork_keeps h.built p kalloc copyuvm
  have halive : ∀ q, q < NPROC → (s.doing q).isIdle r.idle = false →
      Alive (s.table.fork p kalloc copyuvm).1 q :=
    fun q hlt hq => (hkeep q (h.alive q hlt hq) (by simp)).alive
  rcases fork_cases (p := p) (Prod.eta (s.table.fork p kalloc copyuvm)).symm with ⟨_, he⟩ | ⟨np, hf⟩
  · exact h.beside_same (by rw [he]; exact .of_sameIds (.refl _)) halive hbuilt fewer_fork
  · refine ⟨hf.pids h.pids, hbuilt, halive, fun q hq => ?_, fun q hq => Or.inl (fewer_fork q hq)⟩
    have hne : q ≠ np := by
      rintro rfl
      exact (h.alive q hf.inside hq).used hf.unused
    rw [hf.others q hne]
    exact ⟨rfl, id⟩

theorem Sound.beside_wait (h : Sound r s) (hout : s.out p) : Beside r s (s.table.wait p).1 := by
  have halive : Alive s.table p := ⟨by rw [hout.1]; simp, by rw [hout.1]; simp⟩
  obtain ⟨hkeep, hbuilt⟩ := Ptable.wait_keeps h.built halive
  rcases fewer_wait (t := s.table) (p := p) rfl with hfewer | hsleep
  · rcases wait_cases hout.1 rfl with hids | ⟨q, hzombie, he⟩
    · exact h.beside_keeps (.of_sameIds hids) ⟨hkeep, hbuilt⟩ hfewer
    · refine ⟨?_, hbuilt, fun q hlt hq => (hkeep q (h.alive q hlt hq) (by simp)).alive,
        fun q' hq' => ?_, fun q hq => Or.inl (hfewer q hq)⟩
      · rw [he]
        exact h.pids.free rfl rfl
      · have hlt : q < NPROC := by
          by_contra hge
          have hunused := h.pids.inside q (Nat.not_lt.mp hge)
          rw [hunused] at hzombie
          cases hzombie
        have hne : q' ≠ q := by
          rintro rfl
          exact (h.alive q' hlt hq').running hzombie
        rw [he, Ptable.set_other hne]
        exact ⟨rfl, id⟩
  · rw [hsleep]
    exact h.beside_sleep hout (r.mine_proc p)

/-- Every step of the rest of the kernel leaves the routine alone. -/
theorem Sound.beside (h : Sound r s) {a : KillAct} (ha : s.elsewhere r a = some u) : Beside r s u := by
  have halive : ∀ {p}, s.running p → Alive s.table p := fun hrun =>
    ⟨by rw [hrun]; simp, by rw [hrun]; simp⟩
  cases a with
  | fork p kalloc copyuvm =>
    obtain ⟨_, ha⟩ := Option.ite_none_right_eq_some.mp ha
    obtain rfl := Option.some.inj ha
    exact h.beside_fork kalloc copyuvm
  | exit p =>
    obtain ⟨⟨hout, hidle⟩, ha⟩ := Option.ite_none_right_eq_some.mp ha
    obtain ⟨hkeep, hbuilt⟩ := Ptable.exit_keeps h.built ha
    refine h.beside_same (.of_sameIds (exit_sameIds hout.1 ha)) (fun q hlt hq => ?_)
      (hbuilt (halive hout.1)) (fewer_exit ha)
    refine (hkeep q (h.alive q hlt hq) fun he => ?_).alive
    obtain rfl := Option.some.inj he
    rw [hidle] at hq
    cases hq
  | wait p =>
    obtain ⟨hout, ha⟩ := Option.ite_none_right_eq_some.mp ha
    obtain rfl := Option.some.inj ha
    exact h.beside_wait hout
  | kill p pid =>
    obtain ⟨_, ha⟩ := Option.ite_none_right_eq_some.mp ha
    obtain rfl := Option.some.inj ha
    exact h.beside_keeps kill_samePids (killPid_keeps h.built pid) fewer_kill
  | fault p =>
    obtain ⟨hout, ha⟩ := Option.ite_none_right_eq_some.mp ha
    obtain rfl := Option.some.inj ha
    have hrun : (s.table.proc p).state = .RUNNING := hout.1
    refine h.beside_keeps (.set rfl (fun _ => rfl) Iff.rfl) ⟨Ptable.set_livesOn ?_ rfl rfl, ?_⟩
      (.set fun hs => ⟨hs, rfl⟩)
    · rw [hrun]
      simp
    · exact Ptable.set_built h.built id rfl rfl
  | schedule p =>
    exact h.beside_keeps (.of_sameIds (schedule_sameIds ha)) (Ptable.schedule_keeps h.built ha)
      (fewer_schedule ha)
  | yield p =>
    obtain ⟨⟨hrun, _⟩, ha⟩ := Option.ite_none_right_eq_some.mp ha
    obtain rfl := Option.some.inj ha
    exact h.beside_keeps (.of_sameIds (yield_sameIds hrun)) (Ptable.yield_keeps h.built (halive hrun))
      (.set fun hs => by cases hs)
  | sleep p chan =>
    obtain ⟨⟨hout, hmine⟩, ha⟩ := Option.ite_none_right_eq_some.mp ha
    obtain rfl := Option.some.inj ha
    exact h.beside_sleep hout hmine
  | wakeup chan =>
    obtain rfl := Option.some.inj ha
    exact h.beside_keeps (.of_sameIds (wakeup1_sameIds _ _))
      ⟨Ptable.wakeup1_keeps _ _, Ptable.wakeup1_built h.built _⟩ (fewer_wakeup1 _ _)

end Beside

section Refinement

variable {r : Routine D L} {s t : Sys D L} {u : Ptable} {p : ℕ} {g : Stage L}
variable {u' : Option ℕ}

/-- A step of one process that leaves the process table alone. -/
theorem Sound.local (h : Sound r s) (htable : t.table = s.table)
    (hdoing : t.doing = Function.update s.doing p g)
    (halive : p < NPROC → g.isIdle r.idle = false → Alive s.table p)
    (hprocess : g.sleeps = true → p < NPROC)
    (hptlock : t.ptlock = s.ptlock ∨ s.ptlock = none)
    (hst : ∀ chan l, g = .handover chan l ∨ g = .fall chan l → t.ptlock = some p)
    (hno : ∀ chan l, g ≠ .asleep chan l)
    (hold : (s.table.proc p).state ≠ .SLEEPING ∨ ∀ chan l, s.doing p ≠ .asleep chan l) :
    Sound r t := by
  have hself : t.doing p = g := by rw [hdoing, Function.update_self]
  have hother : ∀ q, q ≠ p → t.doing q = s.doing q := fun q hq => by
    rw [hdoing, Function.update_of_ne hq]
  refine ⟨htable ▸ h.pids, htable ▸ h.built, fun q hlt hq => ?_, fun q hq => ?_,
    fun q chan l hq => ?_, fun q chan l hq hs => ?_, fun q chan hm hs => ?_⟩
  · rw [htable]
    by_cases hqp : q = p
    · subst hqp
      rw [hself] at hq
      exact halive hlt hq
    · rw [hother q hqp] at hq
      exact h.alive q hlt hq
  · by_cases hqp : q = p
    · subst hqp
      rw [hself] at hq
      exact hprocess hq
    · rw [hother q hqp] at hq
      exact h.process q hq
  · by_cases hqp : q = p
    · subst hqp
      rw [hself] at hq
      exact hst chan l hq
    · rw [hother q hqp] at hq
      have hpt := h.ptlock q chan l hq
      rcases hptlock with he | hnone
      · rw [he, hpt]
      · rw [hnone] at hpt
        cases hpt
  · rw [htable] at hs ⊢
    by_cases hqp : q = p
    · subst hqp
      rw [hself] at hq
      exact absurd hq (hno chan l)
    · rw [hother q hqp] at hq
      exact h.chan q chan l hq hs
  · rw [htable] at hs
    obtain ⟨l, hl⟩ := h.mine q chan hm hs
    have hqp : q ≠ p := by
      rintro rfl
      rcases hold with hold | hold
      · exact hold hs.1
      · exact hold chan l hl
    exact ⟨l, (hother q hqp).trans hl⟩

theorem Sound.withTable (h : Sound r s) (hu : Beside r s u) : Sound r { s with table := u } := by
  refine ⟨hu.pids, hu.built, hu.alive, h.process, h.ptlock, fun q chan l hq hs => ?_, fun q chan hm hs => ?_⟩
  · rcases hu.sleeps q hs with ⟨hs', hc⟩ | ⟨hout, _⟩
    · exact hc.trans (h.chan q chan l hq hs')
    · rw [show s.doing q = .asleep chan l from hq] at hout
      cases hout
  · rcases hu.sleeps q hs.1 with ⟨hs', hc⟩ | ⟨_, chan', hc, hmine⟩
    · exact h.mine q chan hm ⟨hs', hc.symm.trans hs.2⟩
    · obtain rfl := Option.some.inj (hs.2.symm.trans hc)
      rw [hmine] at hm
      cases hm

theorem Sound.beside_tidy (h : Sound r s) (hdoing : (s.doing p).isIdle r.idle = false)
    (hrun : s.running p) : Beside r s (s.table.tidy p) := by
  refine h.beside_same (.set rfl id Iff.rfl) (fun q hlt hq => ?_) (Ptable.set_built h.built id rfl rfl)
    (.set fun hs => ?_)
  · by_cases hqp : q = p
    · subst hqp
      have hs : ((s.table.tidy q).proc q).state = .RUNNING := (congrArg Proc.state Ptable.set_self).trans hrun
      exact ⟨by rw [hs]; simp, by rw [hs]; simp⟩
    · have he : (s.table.tidy p).proc q = s.table.proc q := Ptable.set_other hqp
      have hold := h.alive q hlt hq
      exact ⟨by rw [he]; exact hold.used, by rw [he]; exact hold.running⟩
  · have hs' : (s.table.proc p).state = .SLEEPING := hs
    cases hs'.symm.trans hrun

/-- The process that has ptable.lock falls asleep. -/
theorem Sound.fall (h : Sound r s) {chan : Chan} {l : L} (hdoing : s.doing p = .fall chan l)
    (hrun : s.running p ∨ NPROC ≤ p) :
    Sound r { s.moveTo p (.asleep chan l) with ptlock := none, table := s.table.sleep p chan } := by
  have hproc : p < NPROC := h.process p (by rw [hdoing]; rfl)
  have hrun : s.running p := hrun.resolve_right (Nat.not_le.mpr hproc)
  have halive : Alive s.table p := ⟨by rw [hrun]; simp, by rw [hrun]; simp⟩
  obtain ⟨hkeep, hbuilt⟩ := Ptable.sleep_keeps h.built halive chan
  have hptlock : s.ptlock = some p := h.ptlock p chan l (Or.inr hdoing)
  have hother : ∀ q, q ≠ p → (Function.update s.doing p (.asleep chan l) : ℕ → Stage L) q = s.doing q :=
    fun q hq => Function.update_of_ne hq _ _
  refine ⟨(sleep_sameIds hrun chan).pids h.pids, hbuilt, fun q hlt hq => ?_, fun q hq => ?_,
    fun q chan' l' hq => ?_, fun q chan' l' hq hs => ?_, fun q chan' hm hs => ?_⟩
  · by_cases hqp : q = p
    · subst hqp
      exact (hkeep q halive (by simp)).alive
    · refine (hkeep q (h.alive q hlt ?_) (by simp)).alive
      rwa [← hother q hqp]
  · by_cases hqp : q = p
    · rw [hqp]
      exact hproc
    · refine h.process q ?_
      rwa [← hother q hqp]
  · have hqp : q ≠ p := by
      rintro rfl
      have hself : (Function.update s.doing q (.asleep chan l) : ℕ → Stage L) q = .asleep chan l :=
        Function.update_self _ _ _
      rcases hq with hq | hq
      · cases hself.symm.trans hq
      · cases hself.symm.trans hq
    have hpt := h.ptlock q chan' l' (hq.imp (hother q hqp).symm.trans (hother q hqp).symm.trans)
    exact absurd (Option.some.inj (hpt.symm.trans hptlock)) hqp
  · by_cases hqp : q = p
    · subst hqp
      have hself : (Function.update s.doing q (.asleep chan l) : ℕ → Stage L) q = .asleep chan l :=
        Function.update_self _ _ _
      obtain ⟨rfl, _⟩ := Stage.asleep.inj (hself.symm.trans hq)
      show ((s.table.sleep q chan).proc q).chan = some chan
      exact congrArg Proc.chan Ptable.set_self
    · have hs' : ((s.table.sleep p chan).proc q).state = .SLEEPING := hs
      show ((s.table.sleep p chan).proc q).chan = some chan'
      rw [Ptable.sleep, Ptable.set_other hqp] at hs' ⊢
      exact h.chan q chan' l' ((hother q hqp).symm.trans hq) hs'
  · by_cases hqp : q = p
    · subst hqp
      have hc : ((s.table.sleep q chan).proc q).chan = some chan := congrArg Proc.chan Ptable.set_self
      obtain rfl := Option.some.inj (hc.symm.trans hs.2)
      exact ⟨l, Function.update_self _ _ _⟩
    · have hs' : SleepsOn (s.table.sleep p chan) chan' q := hs
      unfold SleepsOn at hs'
      rw [Ptable.sleep, Ptable.set_other hqp] at hs'
      obtain ⟨l', hl'⟩ := h.mine q chan' hm hs'
      exact ⟨l', (hother q hqp).trans hl'⟩

/-- A step of a process in the routine that neither falls asleep nor wakes up. -/
theorem Sound.forth (h : Sound r s) (hrun : s.running p ∨ NPROC ≤ p) (htable : t.table = s.table)
    (hdoing : t.doing = Function.update s.doing p g) (hprocess : g.sleeps = true → p < NPROC)
    (hptlock : t.ptlock = s.ptlock ∨ s.ptlock = none)
    (hst : ∀ chan l, g = .handover chan l ∨ g = .fall chan l → t.ptlock = some p)
    (hno : ∀ chan l, g ≠ .asleep chan l) (hold : ∀ chan l, s.doing p ≠ .asleep chan l) :
    Sound r t := by
  refine h.local htable hdoing (fun hlt _ => ?_) hprocess hptlock hst hno (Or.inr hold)
  have hrun : s.running p := hrun.resolve_right (Nat.not_le.mpr hlt)
  exact ⟨by rw [hrun]; simp, by rw [hrun]; simp⟩

theorem Sound.body (h : Sound r s) {l : L} (hdoing : s.doing p = .body l)
    (hrun : s.running p ∨ NPROC ≤ p) (ht : s.body r p l = some t) : Sound r t := by
  have hold : ∀ chan l, s.doing p ≠ .asleep chan l := by simp [hdoing]
  unfold Sys.body at ht
  split at ht
  · obtain rfl := Option.some.inj ht
    exact h.forth hrun rfl rfl (by simp [Stage.sleeps]) (Or.inl rfl) (by simp) (by simp) hold
  · obtain rfl := Option.some.inj ht
    exact h.forth hrun rfl rfl (by simp [Stage.sleeps]) (Or.inl rfl) (by simp) (by simp) hold
  · obtain ⟨hlt, ht⟩ := Option.ite_none_right_eq_some.mp ht
    obtain rfl := Option.some.inj ht
    exact h.forth hrun rfl rfl (fun _ => hlt) (Or.inl rfl) (by simp) (by simp) hold
  · obtain rfl := Option.some.inj ht
    exact h.forth hrun rfl rfl (by simp [Stage.sleeps]) (Or.inl rfl) (by simp) (by simp) hold

theorem Sound.go (h : Sound r s) (hrun : s.running p ∨ NPROC ≤ p) (ht : s.go r p = some t) :
    Sound r t := by
  unfold Sys.go at ht
  split at ht
  · cases ht
  · rename_i l hdoing
    obtain ⟨_, ht⟩ := Option.ite_none_right_eq_some.mp ht
    obtain rfl := Option.some.inj ht
    exact h.forth hrun rfl rfl (by simp [Stage.sleeps]) (Or.inl rfl) (by simp) (by simp) (by simp [hdoing])
  · rename_i l hdoing
    exact h.body hdoing hrun ht
  · rename_i chan l hdoing
    obtain ⟨_, ht⟩ := Option.ite_none_right_eq_some.mp ht
    obtain rfl := Option.some.inj ht
    have hbeside : Beside r s (s.table.wakeup1 (some chan)) := h.beside (a := .wakeup chan) rfl
    have hw := h.withTable hbeside
    refine hw.local (p := p) (g := .body l) rfl rfl (fun hlt _ => ?_) (by simp [Stage.sleeps])
      (Or.inl rfl) (by simp) (by simp) (Or.inr (by simp [hdoing]))
    exact hbeside.alive p hlt (by rw [hdoing]; rfl)
  · rename_i chan l hdoing
    obtain ⟨hpt, ht⟩ := Option.ite_none_right_eq_some.mp ht
    obtain rfl := Option.some.inj ht
    exact h.forth hrun rfl rfl (fun _ => h.process p (by rw [hdoing]; rfl)) (Or.inr hpt) (by simp) (by simp)
      (by simp [hdoing])
  · rename_i chan l hdoing
    obtain rfl := Option.some.inj ht
    exact h.forth hrun rfl rfl (fun _ => h.process p (by rw [hdoing]; rfl)) (Or.inl rfl)
      (fun _ _ _ => h.ptlock p chan l (Or.inl hdoing)) (by simp) (by simp [hdoing])
  · rename_i chan l hdoing
    obtain rfl := Option.some.inj ht
    exact h.fall hdoing hrun
  · rename_i chan l hdoing
    obtain ⟨_, ht⟩ := Option.ite_none_right_eq_some.mp ht
    obtain rfl := Option.some.inj ht
    have hproc : p < NPROC := h.process p (by rw [hdoing]; rfl)
    have hrun : s.running p := hrun.resolve_right (Nat.not_le.mpr hproc)
    have hbeside := h.beside_tidy (p := p) (by rw [hdoing]; rfl) hrun
    have hstate : ((s.table.tidy p).proc p).state = .RUNNING :=
      (congrArg Proc.state Ptable.set_self).trans hrun
    refine (h.withTable hbeside).local (p := p) (g := .acquire l) rfl rfl (fun hlt _ => ?_)
      (by simp [Stage.sleeps]) (Or.inl rfl) (by simp) (by simp) (Or.inl ?_)
    · exact hbeside.alive p hlt (by rw [hdoing]; rfl)
    · rw [hstate]
      simp

theorem Sound.step (h : Sound r s) {a : Act L} (ht : s.step r a = some t) : Sound r t := by
  cases a with
  | call p l' =>
    simp only [Sys.step] at ht
    split at ht
    · rename_i l hdoing
      obtain ⟨hcall, ht⟩ := Option.ite_none_right_eq_some.mp ht
      obtain rfl := Option.some.inj ht
      exact h.forth (hcall.imp And.left And.left) rfl rfl (by simp [Stage.sleeps]) (Or.inl rfl)
        (by simp) (by simp) (by simp [hdoing])
    · cases ht
  | free p l' =>
    simp only [Sys.step] at ht
    split at ht
    · rename_i l hdoing
      obtain ⟨hrun, ht⟩ := Option.ite_none_right_eq_some.mp ht
      obtain ⟨x, _, rfl⟩ := Option.map_eq_some_iff.mp ht
      exact h.forth (Or.inl hrun) rfl rfl (by simp [Stage.sleeps]) (Or.inl rfl) (by simp) (by simp)
        (by simp [hdoing])
    · cases ht
  | go p =>
    obtain ⟨hrun, ht⟩ := Option.ite_none_right_eq_some.mp ht
    exact h.go hrun ht
  | elsewhere a =>
    obtain ⟨_, ht⟩ := Option.ite_none_right_eq_some.mp ht
    obtain ⟨u, hu, rfl⟩ := Option.map_eq_some_iff.mp ht
    exact h.withTable (h.beside hu)

theorem view_moveTo (s : Sys D L) (p : ℕ) (g : Stage L) : (s.moveTo p g).view =
    s.view.put p (g.view ((s.table.proc p).state = .SLEEPING)) := by
  have hplace : (s.moveTo p g).view.place = (s.view.put p
      (g.view ((s.table.proc p).state = .SLEEPING))).place := by
    funext q
    by_cases hq : q = p
    · subst hq
      simp [Sys.view, Sys.moveTo, State.put]
    · simp [Sys.view, Sys.moveTo, State.put, hq]
  exact congrArg (fun f => (⟨s.data, s.lk, s.self, f⟩ : State ℕ D Chan L Self)) hplace

theorem view_locals (s : Sys D L) (p : ℕ) : s.view.locals p = (s.doing p).here := by
  show ((s.doing p).view _).here = _
  cases s.doing p with
  | asleep chan l =>
    show (if _ then _ else _ : Place Chan L).here = _
    split <;> rfl
  | _ => rfl

/-- A wakeup makes the sleepers of the channel runnable, and changes no process else. -/
theorem Sound.view_wakeup (h : Sound r s) (hptlock : s.ptlock = none) (chan : Chan) :
    Sys.view { s with table := s.table.wakeup1 (some chan) } = s.view.wakeAll chan := by
  have hids := wakeup1_sameIds s.table (some chan)
  have henv : Sys.self { s with table := s.table.wakeup1 (some chan) } = s.self := by
    funext q
    show Self.mk _ _ = Self.mk _ _
    rw [hids.pid, hids.killed]
  have hplace : (fun q => (s.doing q).view
      (((s.table.wakeup1 (some chan)).proc q).state = .SLEEPING)) =
      fun q => (s.view.place q).roused (· = chan) := by
    funext q
    show _ = ((s.doing q).view _).roused (· = chan)
    cases hdoing : s.doing q with
    | fall chan' l =>
      have hpt := h.ptlock q chan' l (Or.inr hdoing)
      rw [hptlock] at hpt
      cases hpt
    | asleep chan' l =>
      by_cases hs : (s.table.proc q).state = .SLEEPING
      · have hchan := h.chan q chan' l hdoing hs
        by_cases hc : chan' = chan
        · simp [Ptable.wakeup1, Stage.view, Place.roused, hs, hchan, hc]
        · simp [Ptable.wakeup1, Stage.view, Place.roused, hs, hchan, hc]
      · have hs' : ((s.table.wakeup1 (some chan)).proc q).state ≠ .SLEEPING :=
          fun hw => hs (fewer_wakeup1 _ _ q hw).1
        simp [Stage.view, Place.roused, hs, hs']
    | _ => rfl
  show (⟨s.data, s.lk, _, _⟩ : State ℕ D Chan L Self) = ⟨s.data, s.lk, s.self, _⟩
  rw [henv, hplace]

/-- For the monitor the rest of the kernel changes what processes are and wakes some. -/
theorem view_elsewhere (hu : Beside r s u) :
    Step r.monitor s.view (Sys.view { s with table := u }) := by
  refine .elsewhere (Sys.self { s with table := u }) (Sys.view { s with table := u }).place
    ⟨fun p hp => hu.pid p ?_, hu.pids.distinct⟩ fun p => ?_
  · cases hdoing : s.doing p with
    | outside l =>
      have hlocal : s.view.locals p = l := by
        show ((s.doing p).view _).here = l
        rw [hdoing]
        rfl
      rw [hlocal] at hp
      exact hp
    | _ => rfl
  · show (s.doing p).view ((u.proc p).state = .SLEEPING) = (s.doing p).view _ ∨ ∃ k l,
      (s.doing p).view ((s.table.proc p).state = .SLEEPING) = _ ∧ (s.doing p).view _ = _
    cases hdoing : s.doing p with
    | asleep chan l =>
      by_cases hs : (s.table.proc p).state = .SLEEPING
      · by_cases hs' : (u.proc p).state = .SLEEPING
        · left
          simp [Stage.view, hs, hs']
        · right
          exact ⟨chan, l, by simp [Stage.view, hs], by simp [Stage.view, hs']⟩
      · have hs' : (u.proc p).state ≠ .SLEEPING := by
          intro hw
          rcases hu.sleeps p hw with ⟨hold, _⟩ | ⟨hout, _⟩
          · exact hs hold
          · rw [hdoing] at hout
            cases hout
        left
        simp [Stage.view, hs, hs']
    | _ => exact Or.inl rfl

theorem view_body (hdoing : s.doing p = .body l) (ht : s.body r p l = some t) :
    Step r.monitor s.view t.view := by
  have hplace : s.view.place p = .inside l := by
    show (s.doing p).view _ = _
    rw [hdoing]
    rfl
  have hmove := Step.move (m := r.monitor) p l hplace
  have hbody : r.monitor.body s.view.data (s.view.env p) l = r.body s.data (s.self p) l := rfl
  rw [hbody] at hmove
  unfold Sys.body at ht
  split at ht
  · rename_i d l' he
    obtain rfl := Option.some.inj ht
    rw [he] at hmove
    show Step _ _ { (s.moveTo p (.body l')).view with data := d }
    rw [view_moveTo]
    exact hmove
  · rename_i chan l' he
    obtain rfl := Option.some.inj ht
    rw [he] at hmove
    rw [view_moveTo]
    exact hmove
  · rename_i chan l' he
    obtain ⟨_, ht⟩ := Option.ite_none_right_eq_some.mp ht
    obtain rfl := Option.some.inj ht
    rw [he] at hmove
    rw [view_moveTo]
    exact hmove
  · rename_i l' he
    obtain rfl := Option.some.inj ht
    rw [he] at hmove
    show Step _ _ { (s.moveTo p (.outside l')).view with lock := none }
    rw [view_moveTo]
    exact hmove

/-- A step in sleep that the monitor does not see. -/
theorem view_silent {f : Proc → Proc} (hself : ∀ x, (f x).pid = x.pid ∧ (f x).killed = x.killed)
    (hplace : g.view ((f (s.table.proc p)).state = .SLEEPING) = s.view.place p) :
    Sys.view { s.moveTo p g with ptlock := u', table := s.table.set p f } = s.view := by
  have henv : Sys.self { s.moveTo p g with ptlock := u', table := s.table.set p f } = s.self := by
    funext q
    show Self.mk _ _ = Self.mk _ _
    by_cases hq : q = p
    · subst hq
      rw [Ptable.set_self, (hself _).1, (hself _).2]
    · rw [Ptable.set_other hq]
  have hplaces : (Sys.view { s.moveTo p g with ptlock := u', table := s.table.set p f }).place =
      s.view.place := by
    funext q
    by_cases hq : q = p
    · subst hq
      rw [← hplace]
      simp [Sys.view, Sys.moveTo, Ptable.set]
    · simp [Sys.view, Sys.moveTo, Ptable.set, hq]
  show (⟨s.data, s.lk, _, _⟩ : State ℕ D Chan L Self) = ⟨s.data, s.lk, s.self, s.view.place⟩
  exact congrArg₂ (State.mk s.data s.lk) henv hplaces

theorem Sound.view_go (h : Sound r s) (hrun : s.running p ∨ NPROC ≤ p) (ht : s.go r p = some t) :
    t.view = s.view ∨ Step r.monitor s.view t.view := by
  have hplace : ∀ g, s.doing p = g →
      s.view.place p = g.view ((s.table.proc p).state = .SLEEPING) := by
    rintro g rfl
    rfl
  unfold Sys.go at ht
  split at ht
  · cases ht
  · rename_i l hdoing
    obtain ⟨hlk, ht⟩ := Option.ite_none_right_eq_some.mp ht
    obtain rfl := Option.some.inj ht
    right
    show Step _ _ { (s.moveTo p (.body l)).view with lock := some p }
    rw [view_moveTo]
    exact .enter p l (hplace _ hdoing) hlk
  · rename_i l hdoing
    exact Or.inr (view_body hdoing ht)
  · rename_i chan l hdoing
    obtain ⟨hpt, ht⟩ := Option.ite_none_right_eq_some.mp ht
    obtain rfl := Option.some.inj ht
    right
    show Step _ _ (Sys.moveTo { s with table := s.table.wakeup1 (some chan) } p (.body l)).view
    rw [view_moveTo, h.view_wakeup hpt chan]
    exact .wake p chan l (hplace _ hdoing)
  · rename_i chan l hdoing
    obtain ⟨_, ht⟩ := Option.ite_none_right_eq_some.mp ht
    obtain rfl := Option.some.inj ht
    left
    show (s.moveTo p (.handover chan l)).view = _
    rw [view_moveTo]
    exact State.put_self ((hplace _ hdoing).trans rfl)
  · rename_i chan l hdoing
    obtain rfl := Option.some.inj ht
    right
    show Step _ _ { (s.moveTo p (.fall chan l)).view with lock := none }
    rw [view_moveTo]
    exact .sink p chan l (hplace _ hdoing)
  · rename_i chan l hdoing
    obtain rfl := Option.some.inj ht
    refine Or.inl (view_silent (fun _ => ⟨rfl, rfl⟩) ?_)
    rw [hplace _ hdoing]
    simp [Stage.view]
  · rename_i chan l hdoing
    obtain ⟨_, ht⟩ := Option.ite_none_right_eq_some.mp ht
    obtain rfl := Option.some.inj ht
    have hproc : p < NPROC := h.process p (by rw [hdoing]; rfl)
    have hrun : s.running p := hrun.resolve_right (Nat.not_le.mpr hproc)
    refine Or.inl (view_silent (fun _ => ⟨rfl, rfl⟩) ?_)
    rw [hplace _ hdoing]
    refine (if_neg fun hs => ?_).symm
    cases hs.symm.trans hrun

/-- The kernel refines the monitor: each of its steps is one of the monitor, or none. -/
theorem Sound.refines (h : Sound r s) {a : Act L} (ht : s.step r a = some t) :
    t.view = s.view ∨ Step r.monitor s.view t.view := by
  have hplace : ∀ p g, s.doing p = g →
      s.view.place p = g.view ((s.table.proc p).state = .SLEEPING) := by
    rintro p g rfl
    rfl
  cases a with
  | call p l' =>
    simp only [Sys.step] at ht
    split at ht
    · rename_i l hdoing
      obtain ⟨hcall, ht⟩ := Option.ite_none_right_eq_some.mp ht
      obtain rfl := Option.some.inj ht
      right
      rw [view_moveTo]
      refine .call p l l' (hplace p _ hdoing) (hcall.imp (fun hc => ⟨?_, hc.2⟩) And.right)
      refine h.pids.positive p ?_
      rw [show (s.table.proc p).state = .RUNNING from hc.1]
      simp
    · cases ht
  | free p l' =>
    simp only [Sys.step] at ht
    split at ht
    · rename_i l hdoing
      obtain ⟨hrun, ht⟩ := Option.ite_none_right_eq_some.mp ht
      obtain ⟨x, hx, rfl⟩ := Option.map_eq_some_iff.mp ht
      right
      show Step _ _ { (s.moveTo p (.outside l')).view with data := x }
      rw [view_moveTo]
      exact .free p l l' x (hplace p _ hdoing) hx
    · cases ht
  | go p =>
    obtain ⟨hrun, ht⟩ := Option.ite_none_right_eq_some.mp ht
    exact h.view_go hrun ht
  | elsewhere a =>
    obtain ⟨_, ht⟩ := Option.ite_none_right_eq_some.mp ht
    obtain ⟨u, hu, rfl⟩ := Option.map_eq_some_iff.mp ht
    exact Or.inr (view_elsewhere (h.beside hu))

end Refinement

section Runs

variable {r : Routine D L} {s t : Sys D L}

/-- The routine after boot: init is the only process, and nobody has called yet. -/
def boot (d : D) (l : L) : Sys D L := ⟨booted.table, d, none, none, fun _ => .outside l⟩

theorem boot_sound {d : D} {l : L} (hl : r.idle l = true) : Sound r (boot d l) := by
  have hproc : ∀ p, ((boot d l).table.proc p).state ≠ .SLEEPING := by
    intro p
    show (booted.table.proc p).state ≠ _
    rw [booted_proc]
    split <;> simp
  have hbooted : emptyTable.userinit true true = some booted.table := rfl
  refine ⟨booted_inv.pids, Ptable.userinit_built emptyTable_built hbooted,
    fun p _ hp => ?_, fun p hp => ?_, fun p chan l' hp => ?_, fun p chan l' _ hs => absurd hs (hproc p),
    fun p chan _ hs => absurd hs.1 (hproc p)⟩
  · have hidle : Stage.isIdle r.idle (.outside l) = false := hp
    rw [Stage.isIdle, hl] at hidle
    cases hidle
  · cases hp
  · rcases hp with hp | hp <;> cases hp

theorem boot_exclusive (d : D) (l : L) : Exclusive (boot d l).view := by
  intro p
  exact iff_of_false Bool.false_ne_true (Option.some_ne_none p).symm

variable {J : D → (ℕ → Self) → (ℕ → L) → Prop} {blocked : D → Chan → L → Prop} {debt : L → Chan → Prop}

/-- What the moves of the routine keep is so at every moment. -/
structure Kept (r : Routine D L) (J : D → (ℕ → Self) → (ℕ → L) → Prop) (s : Sys D L) : Prop where
  sound : Sound r s
  exclusive : Exclusive s.view
  holds : Holds J s.view

theorem Kept.step (hJ : Keeps r.monitor J) (h : Kept r J s) {a : Act L} (ht : s.step r a = some t) :
    Kept r J t := by
  rcases h.sound.refines ht with he | hstep
  · exact ⟨h.sound.step ht, he ▸ h.exclusive, he ▸ h.holds⟩
  · exact ⟨h.sound.step ht, h.exclusive.step hstep, hJ.step h.holds hstep⟩

theorem always_kept (hJ : Keeps r.monitor J) (h : Kept r J s) (as : List (Act L)) :
    Always (Sys.step r) (Kept r J) s as :=
  always_of_invariant (fun _ _ _ h ht => Kept.step hJ h ht) h as

/-- While lk is free, whoever sleeps on a channel of the routine has to. -/
def NoneMissed (r : Routine D L) (blocked : D → Chan → L → Prop) (s : Sys D L) : Prop :=
  s.lk = none → ∀ chan p, r.mine chan = true → SleepsOn s.table chan p →
    ∃ l, s.doing p = .asleep chan l ∧ blocked s.data chan l

theorem Sound.noneMissed (h : Sound r s) (hm : Monitor.NoneMissed blocked s.view) :
    NoneMissed r blocked s := by
  intro hlk chan p hmine hs
  obtain ⟨l, hl⟩ := h.mine p chan hmine hs
  refine ⟨l, hl, hm hlk p chan l ?_⟩
  show (s.doing p).view _ = _
  rw [hl]
  exact if_pos hs.1

/-- A routine that pays its debts misses no wakeup. -/
theorem always_blocked (hJ : Keeps r.monitor J) (hpays : Pays r.monitor J blocked debt)
    (h : Kept r J s) (hpaid : Paid blocked debt s.view) (as : List (Act L)) :
    Always (Sys.step r) (NoneMissed r blocked) s as := by
  have hinv : Always (Sys.step r) (fun s => Kept r J s ∧ Paid blocked debt s.view) s as := by
    refine always_of_invariant (fun s a t hs ht => ?_) ⟨h, hpaid⟩ as
    refine ⟨hs.1.step hJ ht, ?_⟩
    rcases hs.1.sound.refines ht with he | hstep
    · exact he ▸ hs.2
    · exact hs.2.step hpays hs.1.exclusive hs.1.holds hstep
  exact hinv.mono fun s hs => hs.1.sound.noneMissed hs.2.noneMissed

theorem boot_paid (d : D) (l : L) : Paid blocked debt (boot d l).view := by
  constructor
  · intro p k l' hp
    cases hp
  · intro p k l' hp
    cases hp

end Runs

end NorthOS.SleepWakeup
