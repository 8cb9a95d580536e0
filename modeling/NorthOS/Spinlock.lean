import NorthOS.Proc
import NorthOS.Runs
import Mathlib.Data.List.Basic

/-!
Spinlocks and interrupts on any number of CPUs. A kernel thread is a list of
the operations it has still to do; a call puts the operations of a function in
front of it, and a step lets the thread of one CPU do its next operation. An
operation is what one CPU does with its own registers and one access to shared
memory, so the CPUs interleave inside acquire and release. swtch takes a CPU
from the thread of a process to that of its scheduler, whose loop takes it to
another process. An interrupt, which comes only while the CPU has interrupts
on, lets the thread do something else first.
-/
namespace NorthOS.Spinlock

open Process

inductive Thread
  | scheduler (c : ℕ)
  | proc (p : ℕ)
  deriving DecidableEq

inductive Panic
  | popcliInterruptible
  | popcli
  | acquire
  | release
  | schedPtableLock
  | schedLocks
  | schedRunning
  | schedInterruptible
  | zombieExit
  deriving DecidableEq

/-- `holding` panics with the message unless the lock is held as expected; `check` is the
three other checks of sched; `swtch` goes from a process to the scheduler, with the local
`intena` of sched saved before and written back by `restore`. -/
inductive Op
  | pushcli
  | popcli
  | holding (lk : ℕ) (expected : Bool) (msg : Panic)
  | xchg (lk : ℕ)
  | setcpu (lk : ℕ)
  | clearcpu (lk : ℕ)
  | unlock (lk : ℕ)
  | setState (st : ProcState)
  | check
  | swtch
  | restore
  | sti
  | loop (p : ℕ)
  | wakeup (woken : ℕ → Bool)
  | fork (np : ℕ)
  | wait (p : ℕ)
  | zombie

/-- The number of ptable.lock among the spinlocks. -/
def ptable : ℕ := 0

section Functions

def acquire (lk : ℕ) : List Op := [.pushcli, .holding lk false .acquire, .xchg lk, .setcpu lk]

def release (lk : ℕ) : List Op := [.holding lk true .release, .clearcpu lk, .unlock lk, .popcli]

def myproc : List Op := [.pushcli, .popcli]

def sched : List Op :=
  myproc ++ [.holding ptable true .schedPtableLock, .check, .swtch, .restore]

def yield : List Op :=
  acquire ptable ++ myproc ++ [.setState .RUNNABLE] ++ sched ++ release ptable

def sleep (lk : ℕ) : List Op :=
  if lk = ptable then myproc ++ [.setState .SLEEPING] ++ sched
  else myproc ++ acquire ptable ++ release lk ++ [.setState .SLEEPING] ++ sched ++
    release ptable ++ acquire lk

/-- The end of exit, where the process cannot be seen by its parent yet. -/
def exit : List Op := acquire ptable ++ [.setState .ZOMBIE] ++ sched ++ [.zombie]

def forkret : List Op := release ptable

/-- One turn of the scheduler's outer loop. -/
def scheduler : List Op := [.sti] ++ acquire ptable ++ [.loop 0]

end Functions

structure Lock where
  locked : Bool
  cpu : Option ℕ

/-- `thread` is whose stack the CPU is on, and `interrupts` the flag in its eflags. -/
structure Cpu where
  thread : Thread
  ncli : ℕ
  intena : Bool
  interrupts : Bool

/-- `code` is what the thread does next, `below` what its interrupt handlers have interrupted,
and `intena` the local of sched. The rest is history: the locks it has taken, the pushcli calls
that wait for their popcli, and the flag that the outermost of these calls found. -/
structure KThread where
  code : List Op
  below : List (List Op)
  intena : Bool
  held : List ℕ
  pushed : ℕ
  entered : Option Bool

structure Sys where
  cpus : ℕ → Cpu
  threads : Thread → KThread
  locks : ℕ → Lock
  state : ℕ → ProcState

inductive Outcome
  | blocked
  | panic (msg : Panic)
  | next (s : Sys)

def Outcome.next? : Outcome → Option Sys
  | .next s => some s
  | _ => none

namespace Cpu

def pushcli (x : Cpu) : Cpu :=
  { x with
    interrupts := false
    intena := if x.ncli = 0 then x.interrupts else x.intena
    ncli := x.ncli + 1 }

def popcli (x : Cpu) : Except Panic Cpu :=
  if x.interrupts then .error .popcliInterruptible
  else if x.ncli = 0 then .error .popcli
  else .ok { x with ncli := x.ncli - 1, interrupts := decide (x.ncli = 1) && x.intena }

end Cpu

namespace KThread

def pushcli (k : KThread) (interrupts : Bool) : KThread :=
  { k with
    pushed := k.pushed + 1
    entered := if k.held = [] ∧ k.pushed = 0 then some interrupts else k.entered }

def popcli (k : KThread) : KThread :=
  { k with
    pushed := k.pushed - 1
    entered := if k.held = [] ∧ k.pushed = 1 then none else k.entered }

/-- The pushcli of acquire is now that of the lock. -/
def lock (k : KThread) (lk : ℕ) : KThread :=
  { k with held := lk :: k.held, pushed := k.pushed - 1 }

def unlock (k : KThread) (lk : ℕ) : KThread :=
  { k with held := k.held.erase lk, pushed := k.pushed + 1 }

end KThread

namespace Sys

def thread (s : Sys) (c : ℕ) : Thread := (s.cpus c).thread

/-- The thread that CPU `c` runs. -/
def running (s : Sys) (c : ℕ) : KThread := s.threads (s.thread c)

/-- The CPU and its thread change. -/
def set (s : Sys) (c : ℕ) (x : Cpu) (k : KThread) : Sys :=
  { s with
    cpus := Function.update s.cpus c x
    threads := Function.update s.threads (s.thread c) k }

def setLock (s : Sys) (lk : ℕ) (l : Lock) : Sys :=
  { s with locks := Function.update s.locks lk l }

def setState (s : Sys) (p : ℕ) (st : ProcState) : Sys :=
  { s with state := Function.update s.state p st }

/-- swtch: the CPU goes on with another thread, which finds ptable.lock held. -/
def swtch (s : Sys) (c : ℕ) (k : KThread) (t : Thread) : Sys :=
  let s := s.set c { s.cpus c with thread := t } { k with held := k.held.erase ptable }
  { s with
    threads := Function.update s.threads t
      { s.threads t with held := ptable :: (s.threads t).held } }

def Held (s : Sys) (c lk : ℕ) : Prop := (s.locks lk).locked ∧ (s.locks lk).cpu = some c

instance (s : Sys) (c lk : ℕ) : Decidable (s.Held c lk) := inferInstanceAs (Decidable (_ ∧ _))

/-- The next operation of the thread of CPU `c`. -/
def exec (s : Sys) (c : ℕ) : Op → List Op → Outcome
  | .pushcli, rest =>
    .next (s.set c (s.cpus c).pushcli
      { (s.running c).pushcli (s.cpus c).interrupts with code := rest })
  | .popcli, rest =>
    match (s.cpus c).popcli with
    | .error msg => .panic msg
    | .ok x => .next (s.set c x { (s.running c).popcli with code := rest })
  | .holding lk expected msg, rest =>
    -- the lock is read with interrupts off
    match (s.cpus c).pushcli.popcli with
    | .error msg => .panic msg
    | .ok x =>
      if decide (s.Held c lk) = expected then .next (s.set c x { s.running c with code := rest })
      else .panic msg
  | .xchg lk, rest =>
    if (s.locks lk).locked then .blocked
    else .next ((s.set c (s.cpus c) { (s.running c).lock lk with code := rest }).setLock lk
      { s.locks lk with locked := true })
  | .setcpu lk, rest =>
    .next ((s.set c (s.cpus c) { s.running c with code := rest }).setLock lk
      { s.locks lk with cpu := some c })
  | .clearcpu lk, rest =>
    .next ((s.set c (s.cpus c) { s.running c with code := rest }).setLock lk
      { s.locks lk with cpu := none })
  | .unlock lk, rest =>
    .next ((s.set c (s.cpus c) { (s.running c).unlock lk with code := rest }).setLock lk
      { s.locks lk with locked := false })
  | .setState st, rest =>
    match s.thread c with
    | .scheduler _ => .blocked
    | .proc p => .next ((s.set c (s.cpus c) { s.running c with code := rest }).setState p st)
  | .check, rest =>
    match s.thread c with
    | .scheduler _ => .blocked
    | .proc p =>
      if (s.cpus c).ncli ≠ 1 then .panic .schedLocks
      else if s.state p = .RUNNING then .panic .schedRunning
      else if (s.cpus c).interrupts then .panic .schedInterruptible
      else .next (s.set c (s.cpus c) { s.running c with code := rest })
  | .swtch, rest =>
    .next (s.swtch c { s.running c with code := rest, intena := (s.cpus c).intena } (.scheduler c))
  | .restore, rest =>
    .next (s.set c { s.cpus c with intena := (s.running c).intena } { s.running c with code := rest })
  | .sti, rest =>
    .next (s.set c { s.cpus c with interrupts := true } { s.running c with code := rest })
  | .loop p, rest =>
    if NPROC ≤ p then
      .next (s.set c (s.cpus c) { s.running c with code := release ptable ++ scheduler })
    else if s.state p = .RUNNABLE then
      .next ((s.swtch c { s.running c with code := .loop (p + 1) :: rest } (.proc p)).setState p
        .RUNNING)
    else .next (s.set c (s.cpus c) { s.running c with code := .loop (p + 1) :: rest })
  | .wakeup woken, rest =>
    .next { s.set c (s.cpus c) { s.running c with code := rest } with
      state := fun p => if woken p ∧ s.state p = .SLEEPING then .RUNNABLE else s.state p }
  | .fork np, rest =>
    let s' := s.set c (s.cpus c) { s.running c with code := rest }
    if s.state np = .UNUSED then
      .next { s'.setState np .RUNNABLE with
        threads := Function.update s'.threads (.proc np) ⟨forkret, [], false, [], 0, none⟩ }
    else .next s'
  | .wait p, rest =>
    let s' := s.set c (s.cpus c) { s.running c with code := rest }
    .next (if s.state p = .ZOMBIE then s'.setState p .UNUSED else s')
  | .zombie, _ => .panic .zombieExit

end Sys

/-- What a thread may call between its operations. `wakeup`, `fork` and `wait` are what these
functions do with ptable.lock held: to wake sleepers, to make the child's slot ready, and to
free a zombie's. -/
inductive Call
  | acquire (lk : ℕ)
  | release (lk : ℕ)
  | pushcli
  | popcli
  | myproc
  | yield
  | sleep (lk : ℕ)
  | exit
  | wakeup (woken : ℕ → Bool)
  | fork (np : ℕ)
  | wait (p : ℕ)

namespace Call

def code : Call → List Op
  | .acquire lk => Spinlock.acquire lk
  | .release lk => Spinlock.release lk
  | .pushcli => [.pushcli]
  | .popcli => [.popcli]
  | .myproc => Spinlock.myproc
  | .yield => Spinlock.yield
  | .sleep lk => Spinlock.sleep lk
  | .exit => Spinlock.exit
  | .wakeup woken => [.wakeup woken]
  | .fork np => [.fork np]
  | .wait p => [.wait p]

/-- A thread releases the locks that it has taken, and undoes the pushcli calls that it has
made; only processes give up the CPU. -/
def Allowed (t : Thread) (k : KThread) : Call → Prop
  | .release lk => lk ∈ k.held
  | .popcli => 0 < k.pushed
  | .yield | .exit => ∃ p, t = .proc p
  | .sleep lk => (∃ p, t = .proc p) ∧ lk ∈ k.held
  | .wakeup _ | .fork _ | .wait _ => ptable ∈ k.held
  | .acquire _ | .pushcli | .myproc => True

end Call

inductive Act
  | op
  | call (k : Call)
  | interrupt
  | iret

instance (t : Thread) : Decidable (∃ p, t = .proc p) :=
  match t with
  | .scheduler _ => .isFalse nofun
  | .proc p => .isTrue ⟨p, rfl⟩

instance (t : Thread) (k : KThread) (call : Call) : Decidable (call.Allowed t k) := by
  cases call <;> unfold Call.Allowed <;> infer_instance

namespace Sys

/-- A step of CPU `c`. An interrupt handler returns with what it took given back, and so does
the kernel to a process's program. -/
def step (s : Sys) : ℕ × Act → Outcome
  | (c, .op) =>
    match (s.running c).code with
    | [] => .blocked
    | op :: rest => s.exec c op rest
  | (c, .call k) =>
    if (s.running c).code = [] ∧ k.Allowed (s.thread c) (s.running c) then
      .next (s.set c (s.cpus c) { s.running c with code := k.code })
    else .blocked
  | (c, .interrupt) =>
    if (s.cpus c).interrupts then
      .next (s.set c { s.cpus c with interrupts := false }
        { s.running c with code := [], below := (s.running c).code :: (s.running c).below })
    else .blocked
  | (c, .iret) =>
    if (s.running c).code = [] ∧ (s.running c).held = [] ∧ (s.running c).pushed = 0 then
      .next (s.set c { s.cpus c with interrupts := true }
        { s.running c with
          code := (s.running c).below.headD []
          below := (s.running c).below.tail })
    else .blocked

def next? (s : Sys) (a : ℕ × Act) : Option Sys := (s.step a).next?

/-- The first process waits to be run, and no CPU has begun with scheduler. -/
def start : Sys where
  cpus := fun c => ⟨.scheduler c, 0, false, false⟩
  threads := fun
    | .scheduler _ => ⟨scheduler, [], false, [], 0, none⟩
    | .proc _ => ⟨forkret, [], false, [], 0, none⟩
  locks := fun _ => ⟨false, none⟩
  state := fun p => if p = 0 then .RUNNABLE else .UNUSED

end Sys

/-- The outermost popcli of a thread on CPU `c` leaves the flag that its outermost pushcli
found. -/
def Restores (s : Sys) (c : ℕ) : Prop :=
  ∀ rest b, (s.running c).code = .popcli :: rest → (s.running c).held = [] →
    (s.running c).pushed = 1 → (s.running c).entered = some b →
      ∃ t, s.step (c, .op) = .next t ∧ (t.cpus c).interrupts = b

/-- The panics of popcli and release, and those of sched but for a caller with another lock. -/
def Panic.Excluded : Panic → Prop
  | .popcliInterruptible | .popcli | .release => True
  | .schedPtableLock | .schedRunning | .schedInterruptible => True
  | .acquire | .schedLocks | .zombieExit => False

structure Nested (s : Sys) : Prop where
  count : ∀ c, (s.cpus c).ncli = (s.running c).held.length + (s.running c).pushed
  off : ∀ c, 0 < (s.cpus c).ncli → (s.cpus c).interrupts = false
  restores : ∀ c p, s.thread c = .proc p → Restores s c
  panics : ∀ a msg, s.step a = .panic msg → ¬ msg.Excluded

end NorthOS.Spinlock
