import NorthOS.ExitWait

/-!
The scheduler with any number of CPUs. Each CPU runs its own copy of scheduler on a stack of
its own, or the kernel thread of a process on that process's kernel stack. A step is what one
CPU does up to the next point where the lock is taken or given up, or another stack is
switched to; the steps of all CPUs interleave. What fork does between its two critical
sections is done without the lock, as are the spinlocks and interrupts of the rest of the
kernel.
-/
namespace NorthOS.Scheduler

open Process Runs

/-- Who calls sched; wait does so through sleep. -/
inductive Caller
  | yield
  | sleep
  | exit
  | wait (curproc : ℕ)
  deriving DecidableEq

/-- Where swtch to a process's context goes on. sched has the local `intena`. -/
inductive Context
  | forkret
  | sched (k : Caller) (intena : Bool)
  deriving DecidableEq

/-- What takes ptable.lock. fork takes it in allocproc and at its end, with the child's
slot. -/
inductive Call
  | scheduler
  | yield
  | sleep (chan : ℕ)
  | wakeup (chan : ℕ)
  | kill (pid : ℤ)
  | allocproc
  | fork (np : ℕ)
  | exit (curproc : ℕ)
  | wait (curproc : ℕ)
  deriving DecidableEq

/-- Where a CPU is: anywhere else, waiting for the lock, inside with the lock, at the slot
`p` of the scheduler's loop, at the beginning of sched, or about to release the lock. -/
inductive Code
  | outside
  | acquire (k : Call)
  | locked (k : Call)
  | loop (p : ℕ)
  | sched (k : Caller)
  | release
  deriving DecidableEq

/-- How far a fork is with the slot it took. -/
inductive Stage
  | claimed
  | stacked
  | built
  deriving DecidableEq

/-- `stack` is the process on whose kernel stack the CPU runs, none for the stack of
scheduler; `scheduler` is the slot at which scheduler was left. -/
structure Cpu where
  proc : Option ℕ
  stack : Option ℕ
  scheduler : Option ℕ
  ncli : ℕ
  intena : Bool
  interrupts : Bool
  code : Code

namespace Cpu

def pushcli (x : Cpu) : Cpu :=
  { x with
    interrupts := false
    intena := if x.ncli = 0 then x.interrupts else x.intena
    ncli := x.ncli + 1 }

/-- With interrupts on, or with nothing pushed, it panics. -/
def popcli (x : Cpu) : Option Cpu :=
  if x.interrupts then none
  else if x.ncli = 0 then none
  else some { x with ncli := x.ncli - 1, interrupts := decide (x.ncli = 1) && x.intena }

end Cpu

/-- `lock` is the CPU that holds ptable.lock; `context` is what is saved on the kernel stack
of each process; `forking` is the slot that a process's fork fills. -/
structure Sys where
  table : Ptable
  lock : Option ℕ
  context : ℕ → Option Context
  forking : ℕ → Option (ℕ × Stage)
  cpus : ℕ → Cpu

inductive Act
  | interrupts (on : Bool)
  | pushcli
  | popcli
  | call (k : Call)
  | acquire
  | locked
  | loop
  | sched
  | release
  | kstack (kalloc : Bool)
  | copyuvm (ok : Bool)

namespace Sys

def state (s : Sys) (p : ℕ) : ProcState := (s.table.proc p).state

/-- The context of a process; without a kernel stack there is none. -/
def saved (s : Sys) (p : ℕ) : Option Context :=
  if (s.table.proc p).kstack then s.context p else none

def set (s : Sys) (c : ℕ) (x : Cpu) : Sys := { s with cpus := Function.update s.cpus c x }

/-- Who makes the call: scheduler from its own stack, the others for the process that runs;
interrupts may call wakeup at any time. A caller of sleep holds one spinlock, which it passes;
a process is in one call at a time, and init does not exit. -/
def MayCall (s : Sys) (x : Cpu) : Call → Prop
  | .scheduler => x.stack = none ∧ x.ncli = 0
  | .yield => x.proc.isSome ∧ x.ncli = 0
  | .sleep _ => x.proc.isSome ∧ x.ncli = 1
  | .wakeup _ | .kill _ => True
  | .allocproc => x.ncli = 0 ∧ ∃ p ∈ x.stack, s.forking p = none
  | .fork np => x.ncli = 0 ∧ ∃ p ∈ x.stack, s.forking p = some (np, .built)
  | .exit p => x.ncli = 0 ∧ x.proc = some p ∧ s.forking p = none ∧ p ≠ s.table.initproc
  | .wait p => x.ncli = 0 ∧ x.proc = some p ∧ s.forking p = none

instance (s : Sys) (x : Cpu) (k : Call) : Decidable (s.MayCall x k) := by
  cases k <;> unfold MayCall <;> infer_instance

/-- What a caller does once it has the lock. -/
def locked (s : Sys) (c : ℕ) : Call → Option Sys
  | .scheduler => some (s.set c { s.cpus c with code := .loop 0 })
  | .yield =>
    (s.cpus c).proc.map fun p =>
      { s.set c { s.cpus c with code := .sched .yield } with table := s.table.yield p }
  | .sleep chan =>
    (s.cpus c).proc.bind fun p => (s.cpus c).popcli.map fun x =>
      { s.set c { x with code := .sched .sleep } with table := s.table.sleep p (.addr chan) }
  | .wakeup chan =>
    some { s.set c { s.cpus c with code := .release } with
      table := s.table.wakeup1 (some (.addr chan)) }
  | .kill pid =>
    some { s.set c { s.cpus c with code := .release } with table := (s.table.killPid pid).1 }
  | .allocproc =>
    match s.table.claim with
    | none => some (s.set c { s.cpus c with code := .release })
    | some (u, np) =>
      (s.cpus c).stack.map fun p =>
        { s.set c { s.cpus c with code := .release } with
          table := u
          forking := Function.update s.forking p (some (np, .claimed)) }
  | .fork np =>
    (s.cpus c).stack.map fun p =>
      { s.set c { s.cpus c with code := .release } with
        table := s.table.release np
        forking := Function.update s.forking p none }
  | .exit p =>
    (s.table.exit p).map fun u =>
      { s.set c { s.cpus c with code := .sched .exit } with table := u }
  | .wait p =>
    some { s.set c { s.cpus c with
        code := if (s.table.wait p).2 = none then .sched (.wait p) else .release } with
      table := (s.table.wait p).1 }

/-- The kernel thread of `p` goes on from where it was; an exit that does panics. -/
def resume (s : Sys) (c p : ℕ) (x : Cpu) : Context → Option Sys
  | .forkret => some (s.set c { x with code := .release })
  | .sched .yield intena => some (s.set c { x with intena := intena, code := .release })
  | .sched .sleep intena =>
    some { s.set c { x with intena := intena, code := .release } with table := s.table.tidy p }
  | .sched (.wait curproc) intena =>
    some { s.set c { x with intena := intena, code := .locked (.wait curproc) } with
      table := s.table.tidy p }
  | .sched .exit _ => none

/-- One slot of the scheduler's loop. -/
def loop (s : Sys) (c p : ℕ) : Option Sys :=
  if p < NPROC then
    match s.table.schedule p with
    | none => some (s.set c { s.cpus c with code := .loop (p + 1) })
    | some u =>
      (s.saved p).bind fun ctx =>
        { s with table := u, context := Function.update s.context p none }.resume c p
          { s.cpus c with proc := some p, stack := some p, scheduler := some p } ctx
  else some (s.set c { s.cpus c with code := .release })

/-- The checks of sched, none of which may panic. -/
def Passes (s : Sys) (c p : ℕ) : Prop :=
  s.lock = some c ∧ (s.cpus c).ncli = 1 ∧ s.state p ≠ .RUNNING ∧ (s.cpus c).interrupts = false

instance (s : Sys) (c p : ℕ) : Decidable (s.Passes c p) := inferInstanceAs (Decidable (_ ∧ _))

def sched (s : Sys) (c : ℕ) (k : Caller) : Option Sys :=
  (s.cpus c).proc.bind fun p =>
    if s.Passes c p then
      (s.cpus c).scheduler.map fun i =>
        { s.set c { s.cpus c with proc := none, stack := none, code := .loop (i + 1) } with
          context := Function.update s.context p (some (.sched k (s.cpus c).intena)) }
    else none

/-- The kernel stack of a child, with a context at forkret. -/
def kstack (s : Sys) (p np : ℕ) (kalloc : Bool) : Sys :=
  if kalloc then
    { s with
      table := s.table.kstack np true
      context := Function.update s.context np (some .forkret)
      forking := Function.update s.forking p (some (np, .stacked)) }
  else
    { s with
      table := s.table.kstack np false
      forking := Function.update s.forking p none }

/-- The address space of a child. -/
def copyuvm (s : Sys) (p np : ℕ) (ok : Bool) : Sys :=
  { s with
    table := s.table.copyuvm p np ok
    forking := Function.update s.forking p (if ok then some (np, .built) else none) }

/-- A step of CPU `c`. -/
def step (s : Sys) : ℕ × Act → Option Sys
  | (c, .interrupts on) =>
    if (s.cpus c).code = .outside ∧ (s.cpus c).ncli = 0 then
      some (s.set c { s.cpus c with interrupts := on })
    else none
  | (c, .pushcli) => if (s.cpus c).code = .outside then some (s.set c (s.cpus c).pushcli) else none
  | (c, .popcli) =>
    if (s.cpus c).code = .outside then (s.cpus c).popcli.map fun x => s.set c x else none
  | (c, .call k) =>
    if (s.cpus c).code = .outside ∧ s.MayCall (s.cpus c) k then
      -- scheduler turns interrupts on first
      let x := if k = .scheduler then { s.cpus c with interrupts := true } else s.cpus c
      some (s.set c { x.pushcli with code := .acquire k })
    else none
  | (c, .acquire) =>
    match (s.cpus c).code with
    | .acquire k =>
      if s.lock = none then some { s.set c { s.cpus c with code := .locked k } with lock := some c }
      else none
    | _ => none
  | (c, .locked) =>
    match (s.cpus c).code with
    | .locked k => s.locked c k
    | _ => none
  | (c, .loop) =>
    match (s.cpus c).code with
    | .loop p => s.loop c p
    | _ => none
  | (c, .sched) =>
    match (s.cpus c).code with
    | .sched k => s.sched c k
    | _ => none
  | (c, .release) =>
    if (s.cpus c).code = .release ∧ s.lock = some c then
      (s.cpus c).popcli.map fun x => { s.set c { x with code := .outside } with lock := none }
    else none
  | (c, .kstack kalloc) =>
    if (s.cpus c).code = .outside then
      (s.cpus c).stack.bind fun p =>
        match s.forking p with
        | some (np, .claimed) => some (s.kstack p np kalloc)
        | _ => none
    else none
  | (c, .copyuvm ok) =>
    if (s.cpus c).code = .outside then
      (s.cpus c).stack.bind fun p =>
        match s.forking p with
        | some (np, .stacked) => some (s.copyuvm p np ok)
        | _ => none
    else none

/-- init waits to run for the first time, and no CPU has begun with scheduler's loop. -/
def start : Sys where
  table := booted.table
  lock := none
  context := fun p => if p = 0 then some .forkret else none
  forking := fun _ => none
  cpus := fun _ => ⟨none, none, none, 0, false, false, .outside⟩

end Sys

/-- No process is current on two CPUs. While the lock is free the processes that run are the
current ones, and a process that could run has a saved context and no CPU; with the lock
taken that can only fail for a process whose yield has it. A CPU at sched passes its
checks. -/
structure Exclusive (s : Sys) : Prop where
  oneCpu : ∀ c d p, (s.cpus c).proc = some p → (s.cpus d).proc = some p → c = d
  running : s.lock = none → ∀ p, s.state p = .RUNNING ↔ ∃ c, (s.cpus c).proc = some p
  runnable : s.lock = none → ∀ p, s.state p = .RUNNABLE →
    (s.saved p).isSome ∧ ∀ c, (s.cpus c).proc ≠ some p ∧ (s.cpus c).stack ≠ some p
  yielding : ∀ p, s.state p = .RUNNABLE →
    ((s.saved p).isSome ∧ ∀ c, (s.cpus c).proc ≠ some p ∧ (s.cpus c).stack ≠ some p) ∨
      ∃ c, s.lock = some c ∧ (s.cpus c).proc = some p ∧ (s.cpus c).code = .sched .yield
  passes : ∀ c k, (s.cpus c).code = .sched k → ∃ p, (s.cpus c).proc = some p ∧ s.Passes c p

section Invariant

/-- The state of a process that calls sched. -/
def Caller.state : Caller → ProcState
  | .yield => .RUNNABLE
  | .sleep | .wait _ => .SLEEPING
  | .exit => .ZOMBIE

/-- The state of the process that runs at this point. -/
def Code.state : Code → ProcState
  | .sched k => k.state
  | _ => .RUNNING

def Code.holds : Code → Prop
  | .locked _ | .loop _ | .sched _ | .release => True
  | .outside | .acquire _ => False

/-- The kernel thread of `p` can go on with the context. -/
def Context.Live (p : ℕ) : Context → Prop
  | .forkret => True
  | .sched k _ => k ≠ .exit ∧ ∀ q, k = .wait q → q = p

/-- What a CPU in a call knows of itself and of the fork that its process is in. -/
def Call.Fits (x : Cpu) (f : Option (ℕ × Stage)) : Call → Prop
  | .scheduler => x.stack = none ∧ x.ncli = 1
  | .yield => x.stack.isSome ∧ x.ncli = 1
  | .sleep _ => x.stack.isSome ∧ x.ncli = 2
  | .wakeup _ | .kill _ => 1 ≤ x.ncli
  | .allocproc => x.stack.isSome ∧ 1 ≤ x.ncli ∧ f = none
  | .fork np => x.stack.isSome ∧ 1 ≤ x.ncli ∧ f = some (np, .built)
  | .exit p | .wait p => x.stack = some p ∧ x.ncli = 1

def Cpu.Fits (x : Cpu) (f : Option (ℕ × Stage)) : Prop :=
  match x.code with
  | .outside => True
  | .acquire k | .locked k => k.Fits x f
  | .loop _ => x.stack = none ∧ x.ncli = 1
  | .sched k => x.stack.isSome ∧ x.ncli = 1 ∧ ∀ q, k = .wait q → x.stack = some q
  | .release => 1 ≤ x.ncli

/-- The fork that the process of a CPU is in. -/
def Cpu.fork (x : Cpu) (forking : ℕ → Option (ℕ × Stage)) : Option (ℕ × Stage) :=
  x.stack.bind forking

structure Sound (s : Sys) (c : ℕ) : Prop where
  proc : (s.cpus c).proc = (s.cpus c).stack
  scheduler : ∀ p, (s.cpus c).stack = some p → (s.cpus c).scheduler = some p
  interrupts : (s.cpus c).interrupts = true → (s.cpus c).ncli = 0
  lock : s.lock = some c ↔ (s.cpus c).code.holds
  fits : (s.cpus c).Fits ((s.cpus c).fork s.forking)

/-- A process that no CPU runs: if it may run again it has a context to do so. -/
def Idle (s : Sys) (p : ℕ) : Prop :=
  s.state p ≠ .RUNNING ∧ (s.state p = .SLEEPING ∨ s.state p = .RUNNABLE →
    (s.table.proc p).kstack = true ∧ ∃ ctx, s.context p = some ctx ∧ ctx.Live p)

/-- The slot that a fork fills. -/
def Embryo (s : Sys) (np : ℕ) (st : Stage) : Prop :=
  s.state np = .EMBRYO ∧
    (st ≠ .claimed → (s.table.proc np).kstack = true ∧ s.context np = some .forkret)

/-- The invariant. A process that no CPU runs is suspended with what it needs, whoever
holds the lock; of one that a CPU runs, that CPU's code tells the state. -/
structure Inv (s : Sys) : Prop where
  sound : ∀ c, Sound s c
  oneCpu : ∀ c d p, (s.cpus c).stack = some p → (s.cpus d).stack = some p → c = d
  on : ∀ c p, (s.cpus c).stack = some p →
    s.state p = (s.cpus c).code.state ∧ (s.table.proc p).kstack = true
  off : ∀ p, (∀ c, (s.cpus c).stack ≠ some p) → Idle s p
  fork : ∀ p np st, s.forking p = some (np, st) → Embryo s np st
  forks : ∀ p q np st st', s.forking p = some (np, st) → s.forking q = some (np, st') → p = q

variable {s s' : Sys} {c p np : ℕ}

theorem Cpu.fits_outside {x : Cpu} {f : Option (ℕ × Stage)} (h : x.code = .outside) : x.Fits f := by
  unfold Fits
  rw [h]
  trivial

theorem Caller.state_ne (k : Caller) : k.state ≠ .RUNNING ∧ k.state ≠ .EMBRYO := by
  cases k <;> exact ⟨by simp [state], by simp [state]⟩

/-- Only the CPU with the lock can be at sched. -/
theorem Inv.running (h : Inv s) {d : ℕ} (hd : (s.cpus d).stack = some p) (hlock : s.lock ≠ some d) :
    s.state p = .RUNNING := by
  rw [(h.on d p hd).1]
  have hno := mt (h.sound d).lock.mpr hlock
  revert hno
  cases (s.cpus d).code with
  | outside => exact fun _ => rfl
  | acquire k => exact fun _ => rfl
  | locked k => exact fun _ => rfl
  | loop p => exact fun _ => rfl
  | sched k => exact fun hno => absurd trivial hno
  | release => exact fun _ => rfl

theorem Inv.not_embryo (h : Inv s) {d : ℕ} (hd : (s.cpus d).stack = some p) :
    s.state p ≠ .EMBRYO := by
  rw [(h.on d p hd).1]
  cases (s.cpus d).code with
  | sched k => exact k.state_ne.2
  | _ => simp [Code.state]

theorem Inv.exclusive (h : Inv s) : Exclusive s := by
  have hcpus : ∀ c, (s.cpus c).proc = (s.cpus c).stack := fun c => (h.sound c).proc
  have hoff : ∀ p, s.state p = .RUNNABLE → (∀ c, (s.cpus c).stack ≠ some p) →
      (s.saved p).isSome ∧ ∀ c, (s.cpus c).proc ≠ some p ∧ (s.cpus c).stack ≠ some p := by
    intro p hp hno
    obtain ⟨hkstack, ctx, hctx, _⟩ := (h.off p hno).2 (Or.inr hp)
    unfold Sys.saved
    rw [if_pos hkstack, hctx]
    exact ⟨rfl, fun c => ⟨by rw [hcpus]; exact hno c, hno c⟩⟩
  have hheld : ∀ p, s.state p = .RUNNABLE → ∀ c, (s.cpus c).stack = some p → s.lock = some c := by
    intro p hp c hc
    by_contra hlock
    rw [h.running hc hlock] at hp
    cases hp
  refine ⟨fun c d p hc hd => ?_, fun hlock p => ⟨fun hp => ?_, ?_⟩, fun hlock p hp => ?_,
    fun p hp => ?_, fun c k hk => ?_⟩
  · rw [hcpus] at hc hd
    exact h.oneCpu c d p hc hd
  · by_contra hno
    refine (h.off p fun c hc => hno ⟨c, ?_⟩).1 hp
    rw [hcpus]
    exact hc
  · rintro ⟨c, hc⟩
    rw [hcpus] at hc
    exact h.running hc (by rw [hlock]; simp)
  · refine hoff p hp fun c hc => ?_
    have hc' := hheld p hp c hc
    rw [hlock] at hc'
    cases hc'
  · by_cases hon : ∃ c, (s.cpus c).stack = some p
    · obtain ⟨c, hc⟩ := hon
      refine Or.inr ⟨c, hheld p hp c hc, by rw [hcpus]; exact hc, ?_⟩
      have hstate := (h.on c p hc).1
      rw [hp] at hstate
      revert hstate
      cases (s.cpus c).code with
      | sched k => cases k <;> simp [Code.state, Caller.state]
      | _ => simp [Code.state]
    · exact Or.inl (hoff p hp fun c hc => hon ⟨c, hc⟩)
  · have hsound := h.sound c
    have hlock : s.lock = some c := hsound.lock.mpr (by rw [hk]; trivial)
    have hfits := hsound.fits
    unfold Cpu.Fits at hfits
    rw [hk] at hfits
    obtain ⟨p, hp⟩ := Option.isSome_iff_exists.mp hfits.1
    refine ⟨p, by rw [hcpus]; exact hp, hlock, hfits.2.1, ?_, ?_⟩
    · rw [(h.on c p hp).1, hk]
      exact k.state_ne.1
    · have hno := mt hsound.interrupts (by rw [hfits.2.1]; simp)
      simpa using hno

end Invariant

section Table

/-- The process is as it was, but for being woken up. -/
def Woken (a b : Proc) : Prop :=
  b.kstack = a.kstack ∧ (b.state = a.state ∨ a.state = .SLEEPING ∧ b.state = .RUNNABLE)

/-- What the holder of the lock does to a process that it does not run. -/
def Drift (a b : Proc) : Prop :=
  Woken a b ∨ a.state = .ZOMBIE ∧ b.state = .UNUSED ∨ a.state = .UNUSED ∧ b.state = .EMBRYO

variable {t u : Ptable} {a b d : Proc} {p q : ℕ}

theorem Woken.of_eq (h : b = a) : Woken a b := ⟨by rw [h], Or.inl (by rw [h])⟩

theorem Woken.trans (h : Woken a b) (h' : Woken b d) : Woken a d := by
  refine ⟨h'.1.trans h.1, ?_⟩
  rcases h'.2 with hs | ⟨hs, hs'⟩
  · rcases h.2 with h0 | ⟨h0, h1⟩
    · exact Or.inl (hs.trans h0)
    · exact Or.inr ⟨h0, hs.trans h1⟩
  · rcases h.2 with h0 | ⟨_, h1⟩
    · exact Or.inr ⟨h0.symm.trans hs, hs'⟩
    · rw [h1] at hs
      cases hs

theorem Woken.set {f : Proc → Proc} (h : Woken (t.proc p) (f (t.proc p))) (q : ℕ) :
    Woken (t.proc q) ((t.set p f).proc q) := by
  by_cases hq : q = p
  · rw [hq, Ptable.set_self]
    exact h
  · exact .of_eq (Ptable.set_other hq)

theorem wakeup1_woken (t : Ptable) (chan : Option Chan) (q : ℕ) :
    Woken (t.proc q) ((t.wakeup1 chan).proc q) := by
  rcases wakeup1_proc t chan q with ⟨he, _⟩ | ⟨hs, he⟩
  · exact .of_eq he
  · rw [he]
    exact ⟨rfl, Or.inr ⟨hs, rfl⟩⟩

theorem abandon_woken (t : Ptable) (curproc : ℕ) (ps : List ℕ) (q : ℕ) :
    Woken (t.proc q) ((t.abandon curproc ps).proc q) := by
  induction ps generalizing t with
  | nil => exact .of_eq rfl
  | cons p rest ih =>
    have hparent : Woken (t.proc q) ((t.set p fun x => { x with parent := some t.initproc }).proc
        q) :=
      .set ⟨rfl, Or.inl rfl⟩ q
    refine Woken.trans ?_ (ih _)
    dsimp only
    split
    · split
      · exact hparent.trans (wakeup1_woken _ _ q)
      · exact hparent
    · exact .of_eq rfl

theorem exit_woken (h : t.exit p = some u) :
    (∀ q, q ≠ p → Woken (t.proc q) (u.proc q)) ∧ (u.proc p).state = .ZOMBIE ∧
      (u.proc p).kstack = (t.proc p).kstack := by
  unfold Ptable.exit at h
  split at h
  · cases h
  · obtain rfl := Option.some.inj h
    have hall : ∀ q, Woken (t.proc q)
        (((t.wakeup1 ((t.proc p).parent.map .proc)).abandon p (List.range NPROC)).proc q) :=
      fun q => (wakeup1_woken t _ q).trans (abandon_woken _ p _ q)
    generalize (t.wakeup1 ((t.proc p).parent.map .proc)).abandon p (List.range NPROC) = v at hall ⊢
    refine ⟨fun q hq => ?_, by rw [Ptable.set_self], ?_⟩
    · rw [Ptable.set_other hq]
      exact hall q
    · rw [Ptable.set_self]
      exact (hall p).1

theorem killPid_woken (t : Ptable) (pid : ℤ) (q : ℕ) :
    Woken (t.proc q) ((t.killPid pid).1.proc q) := by
  rcases killPid_cases (Prod.eta (t.killPid pid)).symm with ⟨_, he, _⟩ | ⟨_, p, _, _, he⟩
  · rw [he]
    exact .of_eq rfl
  · rw [he]
    refine .set ⟨rfl, ?_⟩ q
    by_cases hs : (t.proc p).state = .SLEEPING
    · exact Or.inr ⟨hs, if_pos hs⟩
    · exact Or.inl (if_neg hs)

/-- wait frees one zombie or changes nothing else; the process itself may fall asleep. -/
theorem wait_drift (hrun : (t.proc p).state = .RUNNING) :
    (∀ q, q ≠ p → Drift (t.proc q) ((t.wait p).1.proc q)) ∧
      ((t.wait p).1.proc p).state = (if (t.wait p).2 = none then .SLEEPING else .RUNNING) ∧
      ((t.wait p).1.proc p).kstack = (t.proc p).kstack := by
  rcases wait_found (Prod.eta (t.wait p)).symm with ⟨z, _, hzombie, hr, he⟩ | ⟨_, ⟨hr, he⟩ | ⟨hr, he⟩⟩
  · have hpz : p ≠ z := by
      rintro rfl
      rw [hrun] at hzombie
      cases hzombie
    rw [hr, he, if_neg (by simp), Ptable.set_other hpz]
    refine ⟨fun q _ => ?_, hrun, rfl⟩
    by_cases hqz : q = z
    · rw [hqz, Ptable.set_self]
      exact Or.inr (Or.inl ⟨hzombie, rfl⟩)
    · rw [Ptable.set_other hqz]
      exact Or.inl (.of_eq rfl)
  · rw [hr, he, if_neg (by simp)]
    exact ⟨fun q _ => Or.inl (.of_eq rfl), hrun, rfl⟩
  · rw [hr, he, if_pos rfl]
    unfold Ptable.sleep
    rw [Ptable.set_self]
    exact ⟨fun q hq => Or.inl (.of_eq (Ptable.set_other hq)), rfl, rfl⟩

theorem claim_drift (h : t.claim = some (u, p)) :
    (t.proc p).state = .UNUSED ∧ (u.proc p).state = .EMBRYO ∧ ∀ q, q ≠ p → u.proc q = t.proc q := by
  unfold Ptable.claim at h
  obtain ⟨q, hq, he⟩ := Option.map_eq_some_iff.mp h
  obtain ⟨rfl, rfl⟩ := Prod.mk.inj he
  have hunused : (t.proc q).state = .UNUSED := by simpa using List.find?_some hq
  refine ⟨hunused, ?_, fun r hr => Function.update_of_ne hr _ _⟩
  show (Function.update t.proc q { t.proc q with state := .EMBRYO, pid := t.nextpid } q).state = _
  rw [Function.update_self]

end Table

section Step

variable {s : Sys} {c p np : ℕ} {u : Ptable} {l : Option ℕ} {f : ℕ → Option (ℕ × Stage)} {x : Cpu}

/-- A CPU that keeps to its stack. Of the other processes it may change the states if it
holds the lock; its own it leaves in the state that its code tells, and its own fork, which
it alone knows of, with a slot that is its own. -/
theorem Inv.act (h : Inv s)
    (hproc : x.proc = (s.cpus c).proc) (hstack : x.stack = (s.cpus c).stack)
    (hscheduler : x.scheduler = (s.cpus c).scheduler)
    (hinterrupts : x.interrupts = true → x.ncli = 0)
    (hlock : l = some c ↔ x.code.holds) (hlocks : ∀ d, d ≠ c → (l = some d ↔ s.lock = some d))
    (hfits : x.Fits (x.fork f))
    (hforking : ∀ p, (s.cpus c).stack ≠ some p → f p = s.forking p)
    (hothers : ∀ q, (s.cpus c).stack ≠ some q → u.proc q = s.table.proc q ∨
      s.lock = some c ∧ (Drift (s.table.proc q) (u.proc q) ∨
        (s.state q = .EMBRYO ∧ (u.proc q).state = .RUNNABLE ∧ (u.proc q).kstack = true ∧
          s.context q = some .forkret ∧ ∀ p st, f p ≠ some (q, st))))
    (hself : ∀ p, (s.cpus c).stack = some p →
      (u.proc p).state = x.code.state ∧ (u.proc p).kstack = (s.table.proc p).kstack)
    (hfork : ∀ p np st, (s.cpus c).stack = some p → f p = some (np, st) →
      (u.proc np).state = .EMBRYO ∧
        (st ≠ .claimed → (u.proc np).kstack = true ∧ s.context np = some .forkret) ∧
        ∀ q st', q ≠ p → s.forking q ≠ some (np, st')) :
    Inv { s with table := u, lock := l, forking := f, cpus := Function.update s.cpus c x } := by
  have hme : Function.update s.cpus c x c = x := Function.update_self _ _ _
  have hyou : ∀ d, d ≠ c → Function.update s.cpus c x d = s.cpus d := fun d hd =>
    Function.update_of_ne hd _ _
  have hstacks : ∀ d, (Function.update s.cpus c x d).stack = (s.cpus d).stack := by
    intro d
    by_cases hd : d = c
    · rw [hd, hme, hstack]
    · rw [hyou d hd]
  have hnot : ∀ d, d ≠ c → ∀ p, (s.cpus d).stack = some p → (s.cpus c).stack ≠ some p :=
    fun d hd p hp hc => hd (h.oneCpu d c p hp hc)
  -- a slot that a fork fills is left alone
  have hembryo : ∀ np, s.state np = .EMBRYO → (∃ p st, f p = some (np, st)) →
      (u.proc np).state = .EMBRYO ∧ (u.proc np).kstack = (s.table.proc np).kstack := by
    intro np hnp ⟨p, st, hp⟩
    have hoff : (s.cpus c).stack ≠ some np := fun hc => h.not_embryo hc hnp
    rcases hothers np hoff with he | ⟨_, hd | hborn⟩
    · rw [he]
      exact ⟨hnp, rfl⟩
    · rcases hd with ⟨hk, hs | ⟨hs, _⟩⟩ | ⟨hs, _⟩ | ⟨hs, _⟩
      · exact ⟨hs.trans hnp, hk⟩
      all_goals exact absurd (hnp.symm.trans hs) (by simp)
    · exact absurd hp (hborn.2.2.2.2 p st)
  refine ⟨fun d => ?_, fun d e p => ?_, fun d p => ?_, fun p => ?_, fun p np st hp => ?_,
    fun p q np st st' hp hq => ?_⟩
  · by_cases hd : d = c
    · subst hd
      refine ⟨?_, fun p => ?_, ?_, ?_, ?_⟩
      all_goals simp only [hme]
      · rw [hproc, hstack]
        exact (h.sound d).proc
      · rw [hscheduler, hstack]
        exact (h.sound d).scheduler p
      · exact hinterrupts
      · exact hlock
      · exact hfits
    · have hsound := h.sound d
      have hsame : (s.cpus d).fork f = (s.cpus d).fork s.forking := by
        unfold Cpu.fork
        cases hp : (s.cpus d).stack with
        | none => rfl
        | some p => exact hforking p (hnot d hd p hp)
      refine ⟨?_, fun p => ?_, ?_, ?_, ?_⟩
      all_goals simp only [hyou d hd]
      · exact hsound.proc
      · exact hsound.scheduler p
      · exact hsound.interrupts
      · rw [hlocks d hd]
        exact hsound.lock
      · rw [hsame]
        exact hsound.fits
  · simp only [hstacks]
    exact h.oneCpu d e p
  · simp only [hstacks]
    intro hp
    by_cases hd : d = c
    · subst hd
      rw [hme]
      obtain ⟨hstate, hkstack⟩ := hself p hp
      exact ⟨hstate, hkstack.trans (h.on d p hp).2⟩
    · rw [hyou d hd]
      have hon := h.on d p hp
      rcases hothers p (hnot d hd p hp) with he | ⟨hc, hd'⟩
      · unfold Sys.state
        rw [he]
        exact hon
      · have hrun := h.running hp (by rw [hc]; exact fun e => hd (Option.some.inj e).symm)
        rw [← hon.1, ← hon.2, hrun]
        have hrun' : (s.table.proc p).state = .RUNNING := hrun
        rcases hd' with (⟨hk, hs | ⟨hs, _⟩⟩ | ⟨hs, _⟩ | ⟨hs, _⟩) | ⟨hs, _⟩
        · exact ⟨hs.trans hrun, hk⟩
        all_goals exact absurd (hrun'.symm.trans hs) (by simp)
  · simp only [hstacks]
    intro hp
    have hidle := h.off p hp
    unfold Idle Sys.state at hidle ⊢
    rcases hothers p (hp c) with he
      | ⟨_, (⟨hk, hs | ⟨hs, hs'⟩⟩ | ⟨_, hs⟩ | ⟨_, hs⟩) | ⟨_, hs, hk, hctx, _⟩⟩
    · rw [he]
      exact hidle
    · rw [hk, hs]
      exact hidle
    · rw [hk, hs']
      exact ⟨by simp, fun _ => hidle.2 (Or.inl hs)⟩
    · rw [hs]
      exact ⟨by simp, by simp⟩
    · rw [hs]
      exact ⟨by simp, by simp⟩
    · rw [hs]
      exact ⟨by simp, fun _ => ⟨hk, .forkret, hctx, trivial⟩⟩
  · by_cases hc : (s.cpus c).stack = some p
    · obtain ⟨hstate, hready, _⟩ := hfork p np st hc hp
      exact ⟨hstate, hready⟩
    · have hold : s.forking p = some (np, st) := (hforking p hc).symm.trans hp
      obtain ⟨hstate, hready⟩ := h.fork p np st hold
      obtain ⟨hstate', hk⟩ := hembryo np hstate ⟨p, st, hp⟩
      refine ⟨hstate', fun hst => ?_⟩
      rw [hk]
      exact hready hst
  · by_cases hpq : p = q
    · exact hpq
    by_cases hc : (s.cpus c).stack = some p
    · have hq' : (s.cpus c).stack ≠ some q := fun e => hpq (Option.some.inj (hc.symm.trans e))
      exact absurd ((hforking q hq').symm.trans hq) ((hfork p np st hc hp).2.2 q st' (Ne.symm hpq))
    · have hold := (hforking p hc).symm.trans hp
      by_cases hc' : (s.cpus c).stack = some q
      · exact absurd hold ((hfork q np st' hc' hq).2.2 p st hpq)
      · exact h.forks p q np st st' hold ((hforking q hc').symm.trans hq)

/-- Only the CPU's own registers, its code and perhaps the lock change. -/
theorem Inv.move (h : Inv s)
    (hproc : x.proc = (s.cpus c).proc) (hstack : x.stack = (s.cpus c).stack)
    (hscheduler : x.scheduler = (s.cpus c).scheduler)
    (hinterrupts : x.interrupts = true → x.ncli = 0)
    (hlock : l = some c ↔ x.code.holds) (hlocks : ∀ d, d ≠ c → (l = some d ↔ s.lock = some d))
    (hfits : x.Fits (x.fork s.forking))
    (hcode : ∀ p, (s.cpus c).stack = some p → x.code.state = (s.cpus c).code.state) :
    Inv { s with lock := l, cpus := Function.update s.cpus c x } := by
  refine h.act (u := s.table) hproc hstack hscheduler hinterrupts hlock hlocks hfits
    (fun _ _ => rfl) (fun _ _ => Or.inl rfl) (fun p hp => ?_) fun p np st _ hnp => ?_
  · rw [hcode p hp]
    exact ⟨(h.on c p hp).1, rfl⟩
  · obtain ⟨hstate, hready⟩ := h.fork p np st hnp
    exact ⟨hstate, hready, fun q st' hq hq' => hq (h.forks q p np st' st hq' hnp)⟩

/-- The holder of the lock, in the middle of a call, changes the table. -/
theorem Inv.body (h : Inv s) (hheld : s.lock = some c)
    (hproc : x.proc = (s.cpus c).proc) (hstack : x.stack = (s.cpus c).stack)
    (hscheduler : x.scheduler = (s.cpus c).scheduler)
    (hinterrupts : x.interrupts = true → x.ncli = 0) (hholds : x.code.holds)
    (hfits : x.Fits (x.fork s.forking))
    (hothers : ∀ q, (s.cpus c).stack ≠ some q → Drift (s.table.proc q) (u.proc q))
    (hself : ∀ p, (s.cpus c).stack = some p →
      (u.proc p).state = x.code.state ∧ (u.proc p).kstack = (s.table.proc p).kstack) :
    Inv { s with table := u, cpus := Function.update s.cpus c x } := by
  refine h.act (l := s.lock) hproc hstack hscheduler hinterrupts ⟨fun _ => hholds, fun _ => hheld⟩
    (fun _ _ => Iff.rfl) hfits (fun _ _ => rfl) (fun q hq => Or.inr ⟨hheld, Or.inl (hothers q hq)⟩)
    hself fun p np st hp hnp => ?_
  obtain ⟨hstate, hready⟩ := h.fork p np st hnp
  have hoff : (s.cpus c).stack ≠ some np := fun hc => h.not_embryo hc hstate
  have hstate' : (s.table.proc np).state = .EMBRYO := hstate
  have hsame : (u.proc np).state = .EMBRYO ∧ (u.proc np).kstack = (s.table.proc np).kstack := by
    rcases hothers np hoff with ⟨hk, hs | ⟨hs, _⟩⟩ | ⟨hs, _⟩ | ⟨hs, _⟩
    · exact ⟨hs.trans hstate, hk⟩
    all_goals exact absurd (hstate'.symm.trans hs) (by simp)
  refine ⟨hsame.1, fun hst => ?_, fun q st' hq hq' => hq (h.forks q p np st' st hq' hnp)⟩
  rw [hsame.2]
  exact hready hst

/-- swtch from a process to the scheduler of its CPU, which has the lock and keeps it. -/
theorem Inv.leave (h : Inv s) {k : Caller} (hcode : (s.cpus c).code = .sched k)
    (hp : (s.cpus c).stack = some p) (i : ℕ) :
    Inv { s with
      context := Function.update s.context p (some (.sched k (s.cpus c).intena))
      cpus := Function.update s.cpus c
        { s.cpus c with proc := none, stack := none, code := .loop (i + 1) } } := by
  have hme : ∀ y : Cpu, Function.update s.cpus c y c = y := fun y => Function.update_self _ _ _
  have hyou : ∀ (y : Cpu) d, d ≠ c → Function.update s.cpus c y d = s.cpus d := fun y d hd =>
    Function.update_of_ne hd _ _
  have hsound := h.sound c
  have hfits := hsound.fits
  unfold Cpu.Fits at hfits
  rw [hcode] at hfits
  have hlock : s.lock = some c := hsound.lock.mpr (by rw [hcode]; trivial)
  have hstate := h.on c p hp
  rw [hcode] at hstate
  have hstacks : ∀ d q, (Function.update s.cpus c
      { s.cpus c with proc := none, stack := none, code := .loop (i + 1) } d).stack = some q →
      d ≠ c ∧ (s.cpus d).stack = some q := by
    intro d q hq
    by_cases hd : d = c
    · subst hd
      rw [hme] at hq
      cases hq
    · rw [hyou _ d hd] at hq
      exact ⟨hd, hq⟩
  refine ⟨fun d => ?_, fun d e q hd he => ?_, fun d q hq => ?_, fun q hq => ?_,
    fun q np st hq => ?_, h.forks⟩
  · by_cases hd : d = c
    · subst hd
      refine ⟨?_, fun q hq => ?_, ?_, ?_, ?_⟩
      all_goals simp only [hme] at *
      · cases hq
      · exact hsound.interrupts
      · exact ⟨fun _ => trivial, fun _ => hlock⟩
      · exact ⟨rfl, hfits.2.1⟩
    · have hd' := h.sound d
      refine ⟨?_, fun q => ?_, ?_, ?_, ?_⟩
      all_goals simp only [hyou _ d hd]
      · exact hd'.proc
      · exact hd'.scheduler q
      · exact hd'.interrupts
      · exact hd'.lock
      · exact hd'.fits
  · exact h.oneCpu d e q (hstacks d q hd).2 (hstacks e q he).2
  · obtain ⟨hd, hq'⟩ := hstacks d q hq
    simp only [hyou _ d hd]
    exact h.on d q hq'
  · by_cases hqp : q = p
    · subst hqp
      refine ⟨?_, fun hs => ⟨hstate.2, .sched k (s.cpus c).intena, Function.update_self _ _ _, ?_,
        ?_⟩⟩
      · show s.state q ≠ .RUNNING
        rw [hstate.1]
        exact k.state_ne.1
      · rintro rfl
        have hs' : s.state q = .SLEEPING ∨ s.state q = .RUNNABLE := hs
        rw [hstate.1] at hs'
        rcases hs' with hs' | hs' <;> cases hs'
      · intro r hr
        have hr' := hfits.2.2 r hr
        rw [hp] at hr'
        exact (Option.some.inj hr').symm
    · have hidle := h.off q fun d hd => by
        by_cases hdc : d = c
        · subst hdc
          exact hqp (Option.some.inj (hd.symm.trans hp))
        · refine hq d ?_
          simp only [hyou _ d hdc]
          exact hd
      refine ⟨hidle.1, fun hs => ?_⟩
      obtain ⟨hk, ctx, hctx, hlive⟩ := hidle.2 hs
      exact ⟨hk, ctx, (Function.update_of_ne hqp _ _).trans hctx, hlive⟩
  · obtain ⟨hembryo, hready⟩ := h.fork q np st hq
    have hne : np ≠ p := fun e => h.not_embryo hp (e ▸ hembryo)
    refine ⟨hembryo, fun hst => ⟨(hready hst).1, ?_⟩⟩
    exact (Function.update_of_ne hne _ _).trans (hready hst).2

/-- While a scheduler has the lock a runnable process is on no stack. -/
theorem Inv.nowhere (h : Inv s) (hheld : s.lock = some c) (hnone : (s.cpus c).stack = none)
    (hp : s.state p = .RUNNABLE) (d : ℕ) : (s.cpus d).stack ≠ some p := by
  intro hd
  have hdc : s.lock ≠ some d := by
    intro hlock
    rw [hheld] at hlock
    rw [← Option.some.inj hlock, hnone] at hd
    cases hd
  have hrunning := h.running hd hdc
  rw [hp] at hrunning
  cases hrunning

/-- swtch from a scheduler, which has the lock, to a process that was suspended. -/
theorem Inv.enter (h : Inv s) (hheld : s.lock = some c) (hnone : (s.cpus c).stack = none)
    (hp : s.state p = .RUNNABLE)
    (hproc : x.proc = some p) (hstack : x.stack = some p) (hscheduler : x.scheduler = some p)
    (hinterrupts : x.interrupts = true → x.ncli = 0) (hholds : x.code.holds)
    (hrun : x.code.state = .RUNNING) (hfits : x.Fits (x.fork s.forking))
    (hothers : ∀ q, q ≠ p → u.proc q = s.table.proc q)
    (hself : (u.proc p).state = .RUNNING ∧ (u.proc p).kstack = (s.table.proc p).kstack) :
    Inv { s with
      table := u
      context := Function.update s.context p none
      cpus := Function.update s.cpus c x } := by
  have hme : Function.update s.cpus c x c = x := Function.update_self _ _ _
  have hyou : ∀ d, d ≠ c → Function.update s.cpus c x d = s.cpus d := fun d hd =>
    Function.update_of_ne hd _ _
  have hoff := h.nowhere hheld hnone hp
  have hkstack := ((h.off p hoff).2 (Or.inr hp)).1
  have hstacks : ∀ d q, (Function.update s.cpus c x d).stack = some q →
      d = c ∧ q = p ∨ d ≠ c ∧ q ≠ p ∧ (s.cpus d).stack = some q := by
    intro d q hq
    by_cases hd : d = c
    · rw [hd, hme, hstack] at hq
      exact Or.inl ⟨hd, (Option.some.inj hq).symm⟩
    · rw [hyou d hd] at hq
      exact Or.inr ⟨hd, fun e => hoff d (e ▸ hq), hq⟩
  refine ⟨fun d => ?_, fun d e q hd he => ?_, fun d q hq => ?_, fun q hq => ?_,
    fun q np st hq => ?_, h.forks⟩
  · by_cases hd : d = c
    · subst hd
      refine ⟨?_, fun q hq => ?_, ?_, ?_, ?_⟩
      all_goals simp only [hme] at *
      · rw [hproc, hstack]
      · rw [hscheduler, ← hq, hstack]
      · exact hinterrupts
      · exact ⟨fun _ => hholds, fun _ => hheld⟩
      · exact hfits
    · have hd' := h.sound d
      refine ⟨?_, fun q => ?_, ?_, ?_, ?_⟩
      all_goals simp only [hyou d hd]
      · exact hd'.proc
      · exact hd'.scheduler q
      · exact hd'.interrupts
      · exact hd'.lock
      · exact hd'.fits
  · rcases hstacks d q hd with ⟨rfl, hqp⟩ | ⟨hdc, hqp, hd'⟩
    · rcases hstacks e q he with ⟨rfl, _⟩ | ⟨_, hne, _⟩
      · rfl
      · exact absurd hqp hne
    · rcases hstacks e q he with ⟨_, he'⟩ | ⟨_, _, he'⟩
      · exact absurd he' hqp
      · exact h.oneCpu d e q hd' he'
  · rcases hstacks d q hq with ⟨rfl, rfl⟩ | ⟨hdc, hqp, hd⟩
    · simp only [hme]
      exact ⟨hself.1.trans hrun.symm, hself.2.trans hkstack⟩
    · have hon := h.on d q hd
      unfold Sys.state
      simp only [hyou d hdc, hothers q hqp]
      exact hon
  · have hqp : q ≠ p := by
      rintro rfl
      exact hq c (by simp only [hme]; exact hstack)
    have hidle := h.off q fun d hd => by
      by_cases hdc : d = c
      · rw [hdc, hnone] at hd
        cases hd
      · refine hq d ?_
        simp only [hyou d hdc]
        exact hd
    unfold Idle Sys.state at hidle ⊢
    dsimp only
    rw [hothers q hqp, Function.update_of_ne hqp]
    exact hidle
  · obtain ⟨hembryo, hready⟩ := h.fork q np st hq
    have hne : np ≠ p := by
      rintro rfl
      rw [hp] at hembryo
      cases hembryo
    unfold Embryo Sys.state
    dsimp only
    rw [hothers np hne, Function.update_of_ne hne]
    exact ⟨hembryo, hready⟩

/-- Without the lock a fork fills its slot or gives it up. -/
theorem Inv.fill (h : Inv s) (hc : (s.cpus c).code = .outside) (hp : (s.cpus c).stack = some p)
    {st : Stage} (hnp : s.forking p = some (np, st)) {ctx : ℕ → Option Context}
    {o : Option (ℕ × Stage)}
    (hothers : ∀ q, q ≠ np → u.proc q = s.table.proc q ∧ ctx q = s.context q)
    (hself : o = none ∧ (u.proc np).state = .UNUSED ∨
      ∃ st', o = some (np, st') ∧ (u.proc np).state = .EMBRYO ∧ (u.proc np).kstack = true ∧
        ctx np = some .forkret) :
    Inv { s with table := u, context := ctx, forking := Function.update s.forking p o } := by
  have hembryo := (h.fork p np st hnp).1
  have hon : ∀ d q, (s.cpus d).stack = some q → q ≠ np := fun d q hd e => h.not_embryo hd
      (e ▸ hembryo)
  have hforking : ∀ q np' st', Function.update s.forking p o q = some (np', st') →
      q = p ∧ o = some (np', st') ∧ np' = np ∨ q ≠ p ∧ s.forking q = some (np', st') ∧
      np' ≠ np := by
    intro q np' st' hq
    by_cases hqp : q = p
    · rw [hqp, Function.update_self] at hq
      refine Or.inl ⟨hqp, hq, ?_⟩
      rcases hself with ⟨ho, _⟩ | ⟨st'', ho, _⟩
      · rw [ho] at hq
        cases hq
      · rw [ho] at hq
        cases hq
        rfl
    · rw [Function.update_of_ne hqp] at hq
      refine Or.inr ⟨hqp, hq, ?_⟩
      rintro rfl
      exact hqp (h.forks q p np' st' st hq hnp)
  refine ⟨fun d => ?_, h.oneCpu, fun d q hq => ?_, fun q hq => ?_, fun q np' st' hq => ?_,
    fun q r np' st1 st2 hq hr => ?_⟩
  · have hd := h.sound d
    refine ⟨hd.proc, hd.scheduler, hd.interrupts, hd.lock, ?_⟩
    by_cases hdp : (s.cpus d).stack = some p
    · rw [h.oneCpu d c p hdp hp]
      show (s.cpus c).Fits _
      unfold Cpu.Fits
      rw [hc]
      trivial
    · have hsame : (s.cpus d).fork (Function.update s.forking p o) = (s.cpus d).fork s.forking := by
        unfold Cpu.fork
        cases hq : (s.cpus d).stack with
        | none => rfl
        | some q =>
          refine Function.update_of_ne ?_ _ _
          rintro rfl
          exact hdp hq
      show (s.cpus d).Fits ((s.cpus d).fork (Function.update s.forking p o))
      rw [hsame]
      exact hd.fits
  · unfold Sys.state
    dsimp only
    rw [(hothers q (hon d q hq)).1]
    exact h.on d q hq
  · by_cases hqn : q = np
    · subst hqn
      rcases hself with ⟨_, hs⟩ | ⟨_, _, hs, _⟩
      all_goals
        refine ⟨?_, ?_⟩
        · show (u.proc q).state ≠ _
          rw [hs]
          simp
        · show (u.proc q).state = _ ∨ (u.proc q).state = _ → _
          rw [hs]
          simp
    · have hidle := h.off q hq
      unfold Idle Sys.state at hidle ⊢
      dsimp only
      rw [(hothers q hqn).1, (hothers q hqn).2]
      exact hidle
  · rcases hforking q np' st' hq with ⟨_, ho, rfl⟩ | ⟨_, hold, hne⟩
    · rcases hself with ⟨ho', _⟩ | ⟨_, _, hs, hk, hctx⟩
      · rw [ho'] at ho
        cases ho
      · exact ⟨hs, fun _ => ⟨hk, hctx⟩⟩
    · have hother := h.fork q np' st' hold
      unfold Embryo Sys.state at hother ⊢
      dsimp only
      rw [(hothers np' hne).1, (hothers np' hne).2]
      exact hother
  · rcases hforking q np' st1 hq with ⟨hqp, _, hnp1⟩ | ⟨_, hq', hne1⟩
    · rcases hforking r np' st2 hr with ⟨hrp, _, _⟩ | ⟨_, _, hne2⟩
      · rw [hqp, hrp]
      · exact absurd hnp1 hne2
    · rcases hforking r np' st2 hr with ⟨_, _, hnp2⟩ | ⟨_, hr', _⟩
      · exact absurd hnp2 hne1
      · exact h.forks q r np' st1 st2 hq' hr'

end Step

section Run

variable {s t : Sys} {c p : ℕ} {x y : Cpu}

theorem popcli_cases (h : x.popcli = some y) :
    1 ≤ x.ncli ∧ y.proc = x.proc ∧ y.stack = x.stack ∧ y.scheduler = x.scheduler ∧
      y.code = x.code ∧ y.ncli = x.ncli - 1 ∧ (y.interrupts = true → y.ncli = 0) := by
  unfold Cpu.popcli at h
  split at h
  · cases h
  split at h
  · cases h
  · rename_i hncli
    obtain rfl := Option.some.inj h
    refine ⟨Nat.one_le_iff_ne_zero.mpr hncli, rfl, rfl, rfl, rfl, rfl, fun hon => ?_⟩
    have hone : x.ncli = 1 := of_decide_eq_true (Bool.and_eq_true_iff.mp hon).1
    show x.ncli - 1 = 0
    rw [hone]

/-- The invariant of the CPU that moves. -/
theorem Inv.fits (h : Inv s) (c : ℕ) : (s.cpus c).Fits ((s.cpus c).fork s.forking) :=
  (h.sound c).fits

/-- A step outside of the lock keeps to the outside. -/
theorem Inv.outside (h : Inv s) (hc : (s.cpus c).code = .outside)
    (hproc : x.proc = (s.cpus c).proc) (hstack : x.stack = (s.cpus c).stack)
    (hscheduler : x.scheduler = (s.cpus c).scheduler)
    (hinterrupts : x.interrupts = true → x.ncli = 0) (hholds : ¬ x.code.holds)
    (hrun : x.code.state = .RUNNING)
    (hfits : x.Fits (x.fork s.forking)) : Inv (s.set c x) := by
  have hfree : s.lock ≠ some c := by
    intro hlock
    have := (h.sound c).lock.mp hlock
    rw [hc] at this
    exact this
  refine h.move (l := s.lock) hproc hstack hscheduler hinterrupts ?_ (fun _ _ => Iff.rfl) hfits
    fun p _ => ?_
  · exact ⟨fun hlock => absurd hlock hfree, fun hin => absurd hin hholds⟩
  · rw [hc, hrun]
    rfl

theorem Inv.mayCall (h : Inv s) {k : Call} (hk : s.MayCall (s.cpus c) k)
    (hproc : x.stack = (s.cpus c).stack) (hncli : x.ncli = (s.cpus c).ncli + 1) :
    k.Fits x (x.fork s.forking) := by
  have hsame := (h.sound c).proc
  have hpos : 1 ≤ x.ncli := by omega
  unfold Cpu.fork
  rw [hproc]
  cases k with
  | scheduler => exact ⟨hproc.trans hk.1, by rw [hncli, hk.2]⟩
  | yield => exact ⟨by rw [hproc, ← hsame]; exact hk.1, by rw [hncli, hk.2]⟩
  | sleep chan => exact ⟨by rw [hproc, ← hsame]; exact hk.1, by rw [hncli, hk.2]⟩
  | wakeup chan => exact hpos
  | kill pid => exact hpos
  | allocproc =>
    obtain ⟨_, p, hp, hfork⟩ := hk
    have hp' : (s.cpus c).stack = some p := hp
    exact ⟨by rw [hproc, hp']; rfl, hpos, by rw [hp']; exact hfork⟩
  | fork np =>
    obtain ⟨_, p, hp, hfork⟩ := hk
    have hp' : (s.cpus c).stack = some p := hp
    exact ⟨by rw [hproc, hp']; rfl, hpos, by rw [hp']; exact hfork⟩
  | exit p => exact ⟨by rw [hproc, ← hsame]; exact hk.2.1, by rw [hncli, hk.1]⟩
  | wait p => exact ⟨by rw [hproc, ← hsame]; exact hk.2.1, by rw [hncli, hk.1]⟩

/-- A caller has the lock, and the process on the stack runs. -/
theorem Inv.holder (h : Inv s) {k : Call} (hc : (s.cpus c).code = .locked k) :
    s.lock = some c ∧ k.Fits (s.cpus c) ((s.cpus c).fork s.forking) ∧
      ∀ p, (s.cpus c).stack = some p → (s.table.proc p).state = .RUNNING := by
  refine ⟨(h.sound c).lock.mpr (by rw [hc]; trivial), ?_, fun p hp => ?_⟩
  · have hfits := (h.sound c).fits
    unfold Cpu.Fits at hfits
    rw [hc] at hfits
    exact hfits
  · have hon := (h.on c p hp).1
    rw [hc] at hon
    exact hon

/-- yield and sleep leave the process on the stack in the state for which they go to sched. -/
theorem Inv.suspend (h : Inv s) {k : Call} (hc : (s.cpus c).code = .locked k) {caller : Caller}
    (hcaller : ∀ q, caller ≠ .wait q) (hp : (s.cpus c).stack = some p)
    (hproc : x.proc = (s.cpus c).proc) (hstack : x.stack = (s.cpus c).stack)
    (hscheduler : x.scheduler = (s.cpus c).scheduler)
    (hinterrupts : x.interrupts = true → x.ncli = 0)
    (hncli : x.ncli = 1) {f : Proc → Proc}
    (hself : (f (s.table.proc p)).state = caller.state ∧ (f (s.table.proc p)).kstack =
      (s.table.proc p).kstack) :
    Inv { s.set c { x with code := .sched caller } with table := s.table.set p f } := by
  obtain ⟨hheld, _, _⟩ := h.holder hc
  refine h.body hheld hproc hstack hscheduler hinterrupts trivial
    ⟨?_, hncli, fun q hq => absurd hq (hcaller q)⟩
    (fun q hq => ?_) fun q hq => ?_
  · show x.stack.isSome = true
    rw [hstack, hp]
    rfl
  · refine Or.inl (.of_eq (Ptable.set_other ?_))
    rintro rfl
    exact hq hp
  · obtain rfl := Option.some.inj (hp.symm.trans hq)
    rw [Ptable.set_self]
    exact hself

/-- wakeup and kill wake processes and give the lock back. -/
theorem Inv.wake (h : Inv s) {k : Call} (hc : (s.cpus c).code = .locked k)
    (hncli : 1 ≤ (s.cpus c).ncli)
    {u : Ptable} (hwoken : ∀ q, Woken (s.table.proc q) (u.proc q)) :
    Inv { s.set c { s.cpus c with code := .release } with table := u } := by
  obtain ⟨hheld, _, hrun⟩ := h.holder hc
  refine h.body hheld rfl rfl rfl (h.sound c).interrupts trivial hncli
    (fun q _ => Or.inl (hwoken q)) fun p hp => ?_
  obtain ⟨hk, hs | ⟨hs, _⟩⟩ := hwoken p
  · exact ⟨hs.trans (hrun p hp), hk⟩
  · rw [hrun p hp] at hs
    cases hs

/-- allocproc claims a slot for the fork of the process on the stack. -/
theorem Inv.claim (h : Inv s) (hc : (s.cpus c).code = .locked .allocproc)
    (hp : (s.cpus c).stack = some p)
    {u : Ptable} {np : ℕ} (hclaim : s.table.claim = some (u, np)) :
    Inv { s.set c { s.cpus c with code := .release } with
      table := u
      forking := Function.update s.forking p (some (np, .claimed)) } := by
  obtain ⟨hheld, hfits, hrun⟩ := h.holder hc
  obtain ⟨hunused, hembryo, hother⟩ := claim_drift hclaim
  have hnp : ∀ q, (s.cpus c).stack = some q → q ≠ np := by
    rintro q hq rfl
    rw [hrun q hq] at hunused
    cases hunused
  refine h.act rfl rfl rfl (h.sound c).interrupts ⟨fun _ => trivial, fun _ => hheld⟩
    (fun _ _ => Iff.rfl)
    hfits.2.1 (fun q hq => ?_) (fun q hq => ?_) (fun q hq => ?_) fun q m st hq hm => ?_
  · refine Function.update_of_ne ?_ _ _
    rintro rfl
    exact hq hp
  · by_cases hqn : q = np
    · subst hqn
      exact Or.inr ⟨hheld, Or.inl (Or.inr (Or.inr ⟨hunused, hembryo⟩))⟩
    · exact Or.inl (hother q hqn)
  · rw [hother q (hnp q hq)]
    exact ⟨hrun q hq, rfl⟩
  · obtain rfl := Option.some.inj (hp.symm.trans hq)
    rw [Function.update_self] at hm
    cases hm
    refine ⟨hembryo, fun hst => absurd rfl hst, fun r st' _ hr => ?_⟩
    have hr' : (s.table.proc np).state = .EMBRYO := (h.fork r np st' hr).1
    rw [hunused] at hr'
    cases hr'

/-- fork lets the child that it has built run. -/
theorem Inv.born (h : Inv s) {np : ℕ} (hc : (s.cpus c).code = .locked (.fork np))
    (hp : (s.cpus c).stack = some p) :
    Inv { s.set c { s.cpus c with code := .release } with
      table := s.table.release np
      forking := Function.update s.forking p none } := by
  obtain ⟨hheld, hfits, hrun⟩ := h.holder hc
  have hfork : s.forking p = some (np, .built) := by
    have hf := hfits.2.2
    unfold Cpu.fork at hf
    rw [hp] at hf
    exact hf
  obtain ⟨hembryo, hready⟩ := h.fork p np .built hfork
  obtain ⟨hkstack, hctx⟩ := hready (by simp)
  have hnp : ∀ q, (s.cpus c).stack = some q → q ≠ np := by
    rintro q hq rfl
    exact h.not_embryo hq hembryo
  refine h.act rfl rfl rfl (h.sound c).interrupts ⟨fun _ => trivial, fun _ => hheld⟩
    (fun _ _ => Iff.rfl)
    hfits.2.1 (fun q hq => ?_) (fun q hq => ?_) (fun q hq => ?_) fun q m st hq hm => ?_
  · refine Function.update_of_ne ?_ _ _
    rintro rfl
    exact hq hp
  · by_cases hqn : q = np
    · subst hqn
      refine Or.inr ⟨hheld, Or.inr ⟨hembryo, ?_, ?_, hctx, fun r st hr => ?_⟩⟩
      · unfold Ptable.release
        rw [Ptable.set_self]
      · unfold Ptable.release
        rw [Ptable.set_self]
        exact hkstack
      · by_cases hrp : r = p
        · rw [hrp, Function.update_self] at hr
          cases hr
        · rw [Function.update_of_ne hrp] at hr
          exact hrp (h.forks r p q st .built hr hfork)
    · exact Or.inl (Ptable.set_other hqn)
  · unfold Ptable.release
    rw [Ptable.set_other (hnp q hq)]
    exact ⟨hrun q hq, rfl⟩
  · obtain rfl := Option.some.inj (hp.symm.trans hq)
    rw [Function.update_self] at hm
    cases hm

/-- wait reaps a child, or sleeps, or finds none. -/
theorem Inv.waits (h : Inv s) (hc : (s.cpus c).code = .locked (.wait p)) :
    Inv { s.set c { s.cpus c with
        code := if (s.table.wait p).2 = none then .sched (.wait p) else .release } with
      table := (s.table.wait p).1 } := by
  obtain ⟨hheld, hfits, hrun⟩ := h.holder hc
  obtain ⟨hothers, hstate, hkstack⟩ := wait_drift (hrun p hfits.1)
  refine h.body hheld rfl rfl rfl (h.sound c).interrupts ?_ ?_ (fun q hq => hothers q ?_)
    fun q hq => ?_
  · dsimp only
    split <;> trivial
  · unfold Cpu.Fits
    by_cases hnone : (s.table.wait p).2 = none
    · rw [if_pos hnone]
      refine ⟨?_, hfits.2, fun q hq => ?_⟩
      · show (s.cpus c).stack.isSome = true
        rw [hfits.1]
        rfl
      · cases hq
        exact hfits.1
    · rw [if_neg hnone]
      exact hfits.2.ge
  · rintro rfl
    exact hq hfits.1
  · obtain rfl := Option.some.inj (hfits.1.symm.trans hq)
    refine ⟨?_, hkstack⟩
    rw [hstate]
    dsimp only
    split <;> rfl

/-- A caller that has the lock. -/
theorem Inv.locked (h : Inv s) {k : Call} (hc : (s.cpus c).code = .locked k)
    (ht : s.locked c k = some t) : Inv t := by
  have hsound := h.sound c
  obtain ⟨hheld, hfits, hrun⟩ := h.holder hc
  cases k with
  | scheduler =>
    obtain rfl := Option.some.inj ht
    refine h.body hheld rfl rfl rfl hsound.interrupts trivial hfits (fun q _ => Or.inl (.of_eq rfl))
      fun p hp => ?_
    rw [hfits.1] at hp
    cases hp
  | yield =>
    obtain ⟨p, hp, rfl⟩ := Option.map_eq_some_iff.mp ht
    rw [hsound.proc] at hp
    exact h.suspend hc (fun _ => by simp) hp rfl rfl rfl hsound.interrupts hfits.2 ⟨rfl, rfl⟩
  | sleep chan =>
    obtain ⟨p, hp, hpop⟩ := Option.bind_eq_some_iff.mp ht
    obtain ⟨y, hy, rfl⟩ := Option.map_eq_some_iff.mp hpop
    obtain ⟨_, hproc, hstack, hscheduler, _, hncli, hint⟩ := popcli_cases hy
    rw [hsound.proc] at hp
    refine h.suspend hc (fun _ => by simp) hp hproc hstack hscheduler hint ?_ ⟨rfl, rfl⟩
    rw [hncli, hfits.2]
  | wakeup chan =>
    obtain rfl := Option.some.inj ht
    exact h.wake hc hfits (wakeup1_woken _ _)
  | kill pid =>
    obtain rfl := Option.some.inj ht
    exact h.wake hc hfits (killPid_woken _ _)
  | allocproc =>
    unfold Sys.locked at ht
    dsimp only at ht
    cases hclaim : s.table.claim with
    | none =>
      rw [hclaim] at ht
      obtain rfl := Option.some.inj ht
      exact h.wake hc hfits.2.1 fun _ => .of_eq rfl
    | some r =>
      obtain ⟨u, np⟩ := r
      rw [hclaim] at ht
      obtain ⟨p, hp, rfl⟩ := Option.map_eq_some_iff.mp ht
      exact h.claim hc hp hclaim
  | fork np =>
    obtain ⟨p, hp, rfl⟩ := Option.map_eq_some_iff.mp ht
    exact h.born hc hp
  | exit p =>
    obtain ⟨u, hu, rfl⟩ := Option.map_eq_some_iff.mp ht
    obtain ⟨hothers, hzombie, hkstack⟩ := exit_woken hu
    refine h.body hheld rfl rfl rfl hsound.interrupts trivial ⟨?_, hfits.2, by simp⟩
      (fun q hq => Or.inl (hothers q ?_)) fun q hq => ?_
    · show (s.cpus c).stack.isSome = true
      rw [hfits.1]
      rfl
    · rintro rfl
      exact hq hfits.1
    · obtain rfl := Option.some.inj (hfits.1.symm.trans hq)
      exact ⟨hzombie, hkstack⟩
  | wait p =>
    obtain rfl := Option.some.inj ht
    exact h.waits hc

/-- One slot of the scheduler's loop, up to where the process it picks goes on. -/
theorem Inv.loop (h : Inv s) (hc : (s.cpus c).code = .loop p) (ht : s.loop c p = some t) :
    Inv t := by
  have hsound := h.sound c
  have hheld : s.lock = some c := hsound.lock.mpr (by rw [hc]; trivial)
  have hfits : (s.cpus c).stack = none ∧ (s.cpus c).ncli = 1 := by
    have hfits := hsound.fits
    unfold Cpu.Fits at hfits
    rw [hc] at hfits
    exact hfits
  have hstay : ∀ code : Code, code.holds →
      Cpu.Fits { s.cpus c with code := code } (Cpu.fork { s.cpus c with code := code } s.forking) →
      Inv (s.set c { s.cpus c with code := code }) := by
    intro code hholds hcode
    refine h.move (l := s.lock) rfl rfl rfl hsound.interrupts ⟨fun _ => hholds, fun _ => hheld⟩
      (fun _ _ => Iff.rfl) hcode fun q hq => ?_
    rw [hfits.1] at hq
    cases hq
  have hquiet : (s.cpus c).interrupts = true → (s.cpus c).ncli = 0 := hsound.interrupts
  unfold Sys.loop at ht
  split at ht
  · split at ht
    · obtain rfl := Option.some.inj ht
      exact hstay (.loop (p + 1)) trivial hfits
    · rename_i u hu
      obtain ⟨ctx, hctx, hresume⟩ := Option.bind_eq_some_iff.mp ht
      unfold Ptable.schedule at hu
      split at hu
      · rename_i hrunnable
        obtain rfl := Option.some.inj hu
        have hlive : ctx.Live p := by
          have hoff := h.nowhere hheld hfits.1 hrunnable
          obtain ⟨hkstack, ctx', hctx', hlive⟩ := (h.off p hoff).2 (Or.inr hrunnable)
          unfold Sys.saved at hctx
          rw [if_pos hkstack] at hctx
          obtain rfl := Option.some.inj (hctx.symm.trans hctx')
          exact hlive
        have hgo : ∀ (u : Ptable) (x : Cpu), x.proc = some p → x.stack = some p →
            x.scheduler = some p →
            x.interrupts = (s.cpus c).interrupts → x.ncli = (s.cpus c).ncli → x.code.holds →
            x.code.state = .RUNNING → x.Fits (x.fork s.forking) →
            (∀ q, q ≠ p → u.proc q = s.table.proc q) →
            ((u.proc p).state = .RUNNING ∧ (u.proc p).kstack = (s.table.proc p).kstack) →
            Inv { s with
              table := u
              context := Function.update s.context p none
              cpus := Function.update s.cpus c x } := by
          intro u x hproc hstack hscheduler hint hncli hholds hrun hx hothers hself
          refine h.enter hheld hfits.1 hrunnable hproc hstack hscheduler
            ?_ hholds hrun hx hothers hself
          rw [hint, hncli]
          exact hquiet
        have hone : 1 ≤ (s.cpus c).ncli := hfits.2.ge
        cases ctx with
        | forkret =>
          obtain rfl := Option.some.inj hresume
          refine hgo _ _ rfl rfl rfl rfl rfl trivial rfl hone
            (fun q hq => Function.update_of_ne hq _ _) ?_
          rw [Ptable.set_self]
          exact ⟨rfl, rfl⟩
        | sched k intena =>
          have htidy : ∀ q, q ≠ p →
              ((s.table.set p fun x => { x with state := .RUNNING }).tidy p).proc q =
              s.table.proc q :=
            fun q hq => (Ptable.set_other hq).trans (Ptable.set_other hq)
          cases k with
          | yield =>
            obtain rfl := Option.some.inj hresume
            refine hgo _ _ rfl rfl rfl rfl rfl trivial rfl hone
              (fun q hq => Function.update_of_ne hq _ _) ?_
            rw [Ptable.set_self]
            exact ⟨rfl, rfl⟩
          | sleep =>
            obtain rfl := Option.some.inj hresume
            refine hgo _ _ rfl rfl rfl rfl rfl trivial rfl hone htidy ?_
            unfold Ptable.tidy
            rw [Ptable.set_self, Ptable.set_self]
            exact ⟨rfl, rfl⟩
          | exit => cases hresume
          | wait q =>
            obtain rfl := hlive.2 q rfl
            obtain rfl := Option.some.inj hresume
            refine hgo _ _ rfl rfl rfl rfl rfl trivial rfl ⟨rfl, hfits.2⟩ htidy ?_
            unfold Ptable.tidy
            rw [Ptable.set_self, Ptable.set_self]
            exact ⟨rfl, rfl⟩
      · cases hu
  · obtain rfl := Option.some.inj ht
    exact hstay .release trivial hfits.2.ge

theorem Inv.kstack (h : Inv s) (hc : (s.cpus c).code = .outside) (hp : (s.cpus c).stack = some p)
    {np : ℕ} (hnp : s.forking p = some (np, .claimed)) (kalloc : Bool) :
    Inv (s.kstack p np kalloc) := by
  have hembryo : (s.table.proc np).state = .EMBRYO := (h.fork p np _ hnp).1
  cases kalloc with
  | false =>
    refine h.fill hc hp hnp (fun q hq => ⟨Function.update_of_ne hq _ _, rfl⟩) (Or.inl ⟨rfl, ?_⟩)
    unfold Ptable.kstack
    rw [if_neg (by simp), Ptable.set_self]
  | true =>
    refine h.fill hc hp hnp
      (fun q hq => ⟨Function.update_of_ne hq _ _, Function.update_of_ne hq _ _⟩)
      (Or.inr ⟨.stacked, rfl, ?_, ?_, Function.update_self _ _ _⟩)
    all_goals
      unfold Ptable.kstack
      rw [if_pos rfl, Ptable.set_self]
    exact hembryo

theorem Inv.copyuvm (h : Inv s) (hc : (s.cpus c).code = .outside) (hp : (s.cpus c).stack = some p)
    {np : ℕ} (hnp : s.forking p = some (np, .stacked)) (ok : Bool) : Inv (s.copyuvm p np ok) := by
  obtain ⟨hembryo, hready⟩ := h.fork p np _ hnp
  obtain ⟨hkstack, hctx⟩ := hready (by simp)
  cases ok with
  | false =>
    refine h.fill hc hp hnp (fun q hq => ⟨Function.update_of_ne hq _ _, rfl⟩) (Or.inl ⟨rfl, ?_⟩)
    unfold Ptable.copyuvm
    rw [if_neg (by simp), Ptable.set_self]
  | true =>
    have hself : (s.table.copyuvm p np true).proc np =
        { s.table.proc np with pgdir := s.table.nextpgdir, parent := some p } :=
        Function.update_self _ _ _
    refine h.fill hc hp hnp (fun q hq => ⟨Function.update_of_ne hq _ _, rfl⟩)
      (Or.inr ⟨.built, rfl, ?_, ?_, hctx⟩)
    · rw [hself]
      exact hembryo
    · rw [hself]
      exact hkstack

/-- Every step of every CPU keeps the invariant. -/
theorem Inv.step (h : Inv s) {a : ℕ × Act} (ht : s.step a = some t) : Inv t := by
  obtain ⟨c, a⟩ := a
  have hsound := h.sound c
  cases a with
  | interrupts on =>
    change (if (s.cpus c).code = .outside ∧ (s.cpus c).ncli = 0 then _ else _) = some t at ht
    split at ht
    · rename_i hc
      obtain rfl := Option.some.inj ht
      refine h.outside hc.1 rfl rfl rfl (fun _ => hc.2) ?_ ?_ ?_
      · rw [hc.1]
        exact id
      · rw [hc.1]
        rfl
      · exact Cpu.fits_outside hc.1
    · cases ht
  | pushcli =>
    change (if (s.cpus c).code = .outside then _ else _) = some t at ht
    split at ht
    · rename_i hc
      obtain rfl := Option.some.inj ht
      refine h.outside hc rfl rfl rfl (fun hon => by cases hon) ?_ ?_ ?_
      · show ¬ (s.cpus c).code.holds
        rw [hc]
        exact id
      · show (s.cpus c).code.state = _
        rw [hc]
        rfl
      · exact Cpu.fits_outside hc
    · cases ht
  | popcli =>
    change (if (s.cpus c).code = .outside then _ else _) = some t at ht
    split at ht
    · rename_i hc
      obtain ⟨x, hx, rfl⟩ := Option.map_eq_some_iff.mp ht
      obtain ⟨_, hproc, hstack, hscheduler, hcode, _, hint⟩ := popcli_cases hx
      rw [hc] at hcode
      refine h.outside hc hproc hstack hscheduler hint ?_ ?_ ?_
      · rw [hcode]
        exact id
      · rw [hcode]
        rfl
      · exact Cpu.fits_outside hcode
    · cases ht
  | call k =>
    change (if (s.cpus c).code = .outside ∧ s.MayCall (s.cpus c) k then _ else _) = some t at ht
    split at ht
    · rename_i hc
      obtain rfl := Option.some.inj ht
      have hsame : ∀ x : Cpu, (x = s.cpus c ∨ x = { s.cpus c with interrupts := true }) →
          x.pushcli.proc = (s.cpus c).proc ∧ x.pushcli.stack = (s.cpus c).stack ∧
            x.pushcli.scheduler = (s.cpus c).scheduler ∧ x.pushcli.ncli = (s.cpus c).ncli + 1 := by
        rintro x (rfl | rfl) <;> exact ⟨rfl, rfl, rfl, rfl⟩
      dsimp only
      have hx : (if k = .scheduler then { s.cpus c with interrupts := true } else s.cpus c) = s.cpus c ∨
          (if k = .scheduler then { s.cpus c with interrupts := true } else s.cpus c) =
            { s.cpus c with interrupts := true } := by
        split
        · exact Or.inr rfl
        · exact Or.inl rfl
      obtain ⟨hproc, hstack, hscheduler, hncli⟩ := hsame _ hx
      refine h.outside hc.1 hproc hstack hscheduler (fun hon => by cases hon) id rfl ?_
      exact h.mayCall hc.2 hstack hncli
    · cases ht
  | acquire =>
    change (match (s.cpus c).code with | .acquire k => _ | _ => _) = some t at ht
    split at ht
    · rename_i k hc
      split at ht
      · rename_i hfree
        obtain rfl := Option.some.inj ht
        have hfits : k.Fits (s.cpus c) ((s.cpus c).fork s.forking) := by
          have hfits := hsound.fits
          unfold Cpu.Fits at hfits
          rw [hc] at hfits
          exact hfits
        refine h.move rfl rfl rfl hsound.interrupts ⟨fun _ => trivial, fun _ => rfl⟩
          (fun d hd => ?_) ?_ fun p _ => ?_
        · rw [hfree]
          exact ⟨fun e => absurd (Option.some.inj e).symm hd, fun e => by cases e⟩
        · exact hfits
        · rw [hc]
          rfl
      · cases ht
    · cases ht
  | locked =>
    change (match (s.cpus c).code with | .locked k => _ | _ => _) = some t at ht
    split at ht
    · rename_i k hc
      exact h.locked hc ht
    · cases ht
  | loop =>
    change (match (s.cpus c).code with | .loop p => _ | _ => _) = some t at ht
    split at ht
    · rename_i p hc
      exact h.loop hc ht
    · cases ht
  | sched =>
    change (match (s.cpus c).code with | .sched k => _ | _ => _) = some t at ht
    split at ht
    · rename_i k hc
      obtain ⟨p, hp, hs⟩ := Option.bind_eq_some_iff.mp ht
      split at hs
      · obtain ⟨i, _, rfl⟩ := Option.map_eq_some_iff.mp hs
        rw [hsound.proc] at hp
        exact h.leave hc hp i
      · cases hs
    · cases ht
  | release =>
    change (if (s.cpus c).code = .release ∧ s.lock = some c then _ else _) = some t at ht
    split at ht
    · rename_i hc
      obtain ⟨x, hx, rfl⟩ := Option.map_eq_some_iff.mp ht
      obtain ⟨_, hproc, hstack, hscheduler, _, _, hint⟩ := popcli_cases hx
      refine h.move hproc hstack hscheduler hint ⟨fun e => (by cases e), fun hin => absurd hin id⟩
        (fun d hd => ?_) trivial fun p _ => ?_
      · rw [hc.2]
        exact ⟨fun e => (by cases e), fun e => absurd (Option.some.inj e).symm hd⟩
      · rw [hc.1]
        rfl
    · cases ht
  | kstack kalloc =>
    change (if (s.cpus c).code = .outside then _ else _) = some t at ht
    split at ht
    · rename_i hc
      obtain ⟨p, hp, hs⟩ := Option.bind_eq_some_iff.mp ht
      split at hs
      · rename_i np hnp
        obtain rfl := Option.some.inj hs
        exact h.kstack hc hp hnp kalloc
      · cases hs
    · cases ht
  | copyuvm ok =>
    change (if (s.cpus c).code = .outside then _ else _) = some t at ht
    split at ht
    · rename_i hc
      obtain ⟨p, hp, hs⟩ := Option.bind_eq_some_iff.mp ht
      split at hs
      · rename_i np hnp
        obtain rfl := Option.some.inj hs
        exact h.copyuvm hc hp hnp ok
      · cases hs
    · cases ht

theorem start_inv : Inv Sys.start := by
  have hproc : ∀ p, Sys.start.table.proc p = if p = 0 then ⟨.RUNNABLE, 1, none, none, false, true, 1⟩
      else ⟨.UNUSED, 0, none, none, false, false, 0⟩ := booted_proc
  refine ⟨fun c => ?_, fun c d p hc => ?_, fun c p hc => ?_, fun p _ => ?_, fun p np st hp => ?_,
    fun p q np st st' hp => ?_⟩
  · refine ⟨rfl, fun p hp => ?_, fun _ => rfl, ⟨fun e => ?_, fun e => absurd e id⟩, trivial⟩
    · cases hp
    · cases e
  · cases hc
  · cases hc
  · unfold Idle Sys.state
    rw [hproc]
    by_cases hp : p = 0
    · rw [if_pos hp, hp]
      exact ⟨by simp, fun _ => ⟨rfl, .forkret, rfl, trivial⟩⟩
    · rw [if_neg hp]
      exact ⟨by simp, by simp⟩
  · cases hp
  · cases hp

/-- In every run of every number of CPUs. -/
theorem always_exclusive (as : List (ℕ × Act)) : Always Sys.step Exclusive Sys.start as :=
  (always_of_invariant (fun _ _ _ h ht => h.step ht) start_inv as).mono fun _ h => h.exclusive

end Run

end NorthOS.Scheduler
