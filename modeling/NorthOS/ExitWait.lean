import NorthOS.Kill

/-!
How processes end. fork takes a slot under ptable.lock and fills it without the lock,
in three more steps; exit, kill, a scan of wait and what the scheduler does are one step
each, under the lock. Beside the table the system remembers what each process is in the
middle of, the pid of the process that forked each pid, the pids that exited, and those
that a wait returned.
-/
namespace NorthOS.Process

open Runs

namespace Ptable

/-- The part of allocproc under ptable.lock. -/
def claim (t : Ptable) : Option (Ptable × ℕ) :=
  ((List.range NPROC).find? fun p => (t.proc p).state = .UNUSED).map fun p =>
    ({ t.set p fun q => { q with state := .EMBRYO, pid := t.nextpid } with nextpid := t.nextpid + 1 }, p)

/-- The rest of allocproc: the kernel stack. -/
def kstack (t : Ptable) (np : ℕ) (kalloc : Bool) : Ptable :=
  if kalloc then t.set np fun q => { q with kstack := true } else t.set np fun q => { q with state := .UNUSED }

/-- The address space of a new process, and its parent. -/
def copyuvm (t : Ptable) (curproc np : ℕ) (ok : Bool) : Ptable :=
  if ok then
    { t.set np fun q => { q with pgdir := t.nextpgdir, parent := some curproc } with
      nextpgdir := t.nextpgdir + 1 }
  else t.set np fun q => { q with kstack := false, state := .UNUSED }

/-- The end of fork under ptable.lock. -/
def release (t : Ptable) (np : ℕ) : Ptable := t.set np fun q => { q with state := .RUNNABLE }

/-- The end of sleep, once the process runs again. -/
def tidy (t : Ptable) (p : ℕ) : Ptable := t.set p fun q => { q with chan := none }

/-- fork is these steps one after the other. -/
theorem fork_eq (t : Ptable) (curproc : ℕ) (kalloc copyuvm : Bool) :
    t.fork curproc kalloc copyuvm =
      match t.claim with
      | none => (t, none)
      | some (u, np) =>
        if kalloc then
          if copyuvm then
            ((((u.kstack np true).copyuvm curproc np true).release np), some t.nextpid)
          else ((u.kstack np true).copyuvm curproc np false, none)
        else (u.kstack np false, none) := by
  unfold fork allocproc claim
  cases hfind : (List.range NPROC).find? fun p => (t.proc p).state = .UNUSED with
  | none => rfl
  | some np =>
    cases kalloc with
    | false => rfl
    | true =>
      cases copyuvm with
      | false => rfl
      | true => simp [set, Ptable.kstack, Ptable.copyuvm, release]

end Ptable

/-- What a process is in the middle of: in fork with the child's slot, in the sleep of
wait, in another sleep, or anywhere else. -/
inductive Doing
  | other
  | stack (np : ℕ)
  | space (np : ℕ)
  | ready (np : ℕ)
  | waiting
  | asleep
  deriving DecidableEq

def Doing.child : Doing → Option ℕ
  | .stack np | .space np | .ready np => some np
  | .other | .waiting | .asleep => none

structure Family where
  table : Ptable
  doing : ℕ → Doing
  maker : ℕ → ℕ
  exited : List ℕ
  returned : List ℕ

inductive FamilyAct
  | claim (curproc : ℕ)
  | kstack (curproc : ℕ) (kalloc : Bool)
  | copyuvm (curproc : ℕ) (ok : Bool)
  | release (curproc : ℕ)
  | exit (curproc : ℕ)
  | wait (curproc : ℕ)
  | kill (curproc : ℕ) (pid : ℤ)
  | fault (curproc : ℕ)
  | sleep (curproc : ℕ) (a : ℕ)
  | awake (curproc : ℕ)
  | yield (curproc : ℕ)
  | schedule (p : ℕ)
  | wakeup (a : ℕ)

namespace Family

def pid (s : Family) (p : ℕ) : ℕ := (s.table.proc p).pid

def state (s : Family) (p : ℕ) : ProcState := (s.table.proc p).state

def parent (s : Family) (p : ℕ) : Option ℕ := (s.table.proc p).parent

/-- The table that a scan of wait looks at. -/
def scanned (s : Family) (p : ℕ) : Ptable :=
  if s.doing p = .waiting then s.table.tidy p else s.table

/-- The pid that a scan of wait returns. -/
def found (s : Family) (p : ℕ) : Option ℕ := ((s.scanned p).wait p).2.bind Int.toNat?

def turn (s : Family) (p : ℕ) (d : Doing) (t : Ptable) : Family :=
  { s with table := t, doing := Function.update s.doing p d }

/-- A process that runs and is in the middle of nothing else. -/
def free (s : Family) (p : ℕ) : Prop := s.state p = .RUNNING ∧ s.doing p = .other

instance (s : Family) (p : ℕ) : Decidable (s.free p) := inferInstanceAs (Decidable (_ ∧ _))

def step (s : Family) : FamilyAct → Option Family
  | .claim p =>
    if s.free p then
      match s.table.claim with
      | none => some s
      | some (u, np) => some (s.turn p (.stack np) u)
    else none
  | .kstack p kalloc =>
    match s.doing p with
    | .stack np =>
      if s.state p = .RUNNING then
        some (s.turn p (if kalloc then .space np else .other) (s.table.kstack np kalloc))
      else none
    | _ => none
  | .copyuvm p ok =>
    match s.doing p with
    | .space np =>
      if s.state p = .RUNNING then
        if ok then
          some { s.turn p (.ready np) (s.table.copyuvm p np true) with
            maker := Function.update s.maker (s.pid np) (s.pid p) }
        else some (s.turn p .other (s.table.copyuvm p np false))
      else none
    | _ => none
  | .release p =>
    match s.doing p with
    | .ready np => if s.state p = .RUNNING then some (s.turn p .other (s.table.release np)) else none
    | _ => none
  | .exit p =>
    if s.free p then
      (s.table.exit p).map fun u => { s with table := u, exited := s.pid p :: s.exited }
    else none
  | .wait p =>
    if s.state p = .RUNNING ∧ (s.doing p = .other ∨ s.doing p = .waiting) then
      some { s.turn p (if ((s.scanned p).wait p).2 = none then .waiting else .other)
          ((s.scanned p).wait p).1 with
        returned := (s.found p).toList ++ s.returned }
    else none
  | .kill p pid => if s.free p then some { s with table := (s.table.killPid pid).1 } else none
  | .fault p =>
    if s.free p then some { s with table := s.table.set p fun q => { q with killed := true } } else none
  | .sleep p a => if s.free p then some (s.turn p .asleep (s.table.sleep p (.addr a))) else none
  | .awake p =>
    if s.state p = .RUNNING ∧ s.doing p = .asleep then some (s.turn p .other (s.table.tidy p)) else none
  | .yield p =>
    if s.state p = .RUNNING ∧ s.doing p ≠ .waiting ∧ s.doing p ≠ .asleep then
      some { s with table := s.table.yield p }
    else none
  | .schedule p => (s.table.schedule p).map fun u => { s with table := u }
  | .wakeup a => some { s with table := s.table.wakeup1 (some (.addr a)) }

/-- The pid that a process answers to: of the process that forked it, and of init once
that one has exited. -/
def guardian (s : Family) (pid : ℕ) : ℕ :=
  if s.maker pid ∈ s.exited then s.pid s.table.initproc else s.maker pid

end Family

/-- What a wait returns is the pid of a process that exited and that no other wait
returned; the process that waits is its parent, and while it has a zombie child it does
not return without one. -/
def ByParent (s : Family) : FamilyAct → Prop
  | .wait p => s.state p = .RUNNING →
    (∀ pid ∈ s.found p, pid ∈ s.exited ∧ pid ∉ s.returned ∧ s.pid p = s.guardian pid) ∧
      ∀ q, s.parent q = some p → s.state q = .ZOMBIE → ∃ pid, s.found p = some pid
  | _ => True

/-- A process sleeps in wait: on its own address. -/
def InWait (t : Ptable) (p : ℕ) : Prop := (t.proc p).state = .SLEEPING ∧ (t.proc p).chan = some (.proc p)

/-- A process that exited has been returned once, or it is a zombie that its parent will
find; and every parent lives. -/
structure Accounted (s : Family) : Prop where
  once : s.exited.Nodup ∧ s.returned.Nodup
  exited : ∀ pid ∈ s.returned, pid ∈ s.exited
  kept : ∀ pid ∈ s.exited, pid ∉ s.returned →
    ∃! p, s.state p = .ZOMBIE ∧ s.pid p = pid
  zombie : ∀ p, s.state p = .ZOMBIE → s.pid p ∈ s.exited ∧ s.pid p ∉ s.returned ∧
    ∃ q, s.parent p = some q ∧ s.pid q = s.guardian (s.pid p)
  parent : ∀ p q, s.state p ≠ .UNUSED → s.parent p = some q → s.state q ≠ .UNUSED ∧ s.state q ≠ .ZOMBIE
  heard : ∀ p, InWait s.table p → ∀ q, s.parent q = some p → s.state q ≠ .ZOMBIE

section Kin

/-- All that its kin know of a process's state. -/
def ProcState.phase : ProcState → ProcState
  | .SLEEPING | .RUNNABLE | .RUNNING => .RUNNABLE
  | s => s

theorem ProcState.phase_unused {s : ProcState} : s.phase = .UNUSED ↔ s = .UNUSED := by
  cases s <;> decide

theorem ProcState.phase_embryo {s : ProcState} : s.phase = .EMBRYO ↔ s = .EMBRYO := by
  cases s <;> decide

theorem ProcState.phase_zombie {s : ProcState} : s.phase = .ZOMBIE ↔ s = .ZOMBIE := by
  cases s <;> decide

/-- The same processes in the slots, with the same parents. -/
structure SameKin (t u : Ptable) : Prop where
  initproc : u.initproc = t.initproc
  nextpid : u.nextpid = t.nextpid
  pid : ∀ p, (u.proc p).pid = (t.proc p).pid
  parent : ∀ p, (u.proc p).parent = (t.proc p).parent
  phase : ∀ p, (u.proc p).state.phase = (t.proc p).state.phase

/-- Besides, nobody starts to sleep in wait. -/
structure Quiet (t u : Ptable) : Prop extends SameKin t u where
  inWait : ∀ p, InWait u p → InWait t p

variable {t u v : Ptable} {p q : ℕ}

theorem Quiet.refl (t : Ptable) : Quiet t t :=
  ⟨⟨rfl, rfl, fun _ => rfl, fun _ => rfl, fun _ => rfl⟩, fun _ h => h⟩

theorem SameKin.set {f : Proc → Proc} (hpid : (f (t.proc p)).pid = (t.proc p).pid)
    (hparent : (f (t.proc p)).parent = (t.proc p).parent)
    (hphase : (f (t.proc p)).state.phase = (t.proc p).state.phase) : SameKin t (t.set p f) := by
  refine ⟨rfl, rfl, fun q => ?_, fun q => ?_, fun q => ?_⟩
  all_goals
    by_cases hq : q = p
    · subst hq
      rw [Ptable.set_self]
      assumption
    · rw [Ptable.set_other hq]

theorem Quiet.set {f : Proc → Proc} (hpid : (f (t.proc p)).pid = (t.proc p).pid)
    (hparent : (f (t.proc p)).parent = (t.proc p).parent)
    (hphase : (f (t.proc p)).state.phase = (t.proc p).state.phase)
    (hwait : (f (t.proc p)).state = .SLEEPING → (f (t.proc p)).chan = some (.proc p) → InWait t p) :
    Quiet t (t.set p f) := by
  refine ⟨.set hpid hparent hphase, ?_⟩
  rintro q ⟨hs, hc⟩
  by_cases hq : q = p
  · subst hq
    rw [Ptable.set_self] at hs hc
    exact hwait hs hc
  · rw [Ptable.set_other hq] at hs hc
    exact ⟨hs, hc⟩

theorem SameKin.unused (h : SameKin t u) (p : ℕ) :
    (u.proc p).state = .UNUSED ↔ (t.proc p).state = .UNUSED := by
  rw [← ProcState.phase_unused, h.phase, ProcState.phase_unused]

theorem SameKin.embryo (h : SameKin t u) (p : ℕ) :
    (u.proc p).state = .EMBRYO ↔ (t.proc p).state = .EMBRYO := by
  rw [← ProcState.phase_embryo, h.phase, ProcState.phase_embryo]

theorem SameKin.zombie (h : SameKin t u) (p : ℕ) :
    (u.proc p).state = .ZOMBIE ↔ (t.proc p).state = .ZOMBIE := by
  rw [← ProcState.phase_zombie, h.phase, ProcState.phase_zombie]

theorem SameKin.pids (h : SameKin t u) (ht : Pids t) : Pids u where
  positive := by
    intro p hp
    rw [h.pid]
    exact ht.positive p fun hu => hp ((h.unused p).mpr hu)
  below := by
    intro p
    rw [h.pid, h.nextpid]
    exact ht.below p
  distinct := by
    intro p q
    rw [h.pid, h.pid]
    exact ht.distinct p q
  inside := fun p hp => (h.unused p).mpr (ht.inside p hp)

theorem wakeup1_proc (t : Ptable) (chan : Option Chan) (p : ℕ) :
    (t.wakeup1 chan).proc p = t.proc p ∧ ¬ ((t.proc p).state = .SLEEPING ∧ (t.proc p).chan = chan) ∨
      (t.proc p).state = .SLEEPING ∧ (t.wakeup1 chan).proc p =
      { t.proc p with state := .RUNNABLE } := by
  by_cases hc : (t.proc p).state = .SLEEPING ∧ (t.proc p).chan = chan
  · exact Or.inr ⟨hc.1, if_pos hc⟩
  · exact Or.inl ⟨if_neg hc, hc⟩

theorem wakeup1_quiet (t : Ptable) (chan : Option Chan) : Quiet t (t.wakeup1 chan) := by
  refine ⟨⟨rfl, rfl, fun p => ?_, fun p => ?_, fun p => ?_⟩, ?_⟩
  · rcases wakeup1_proc t chan p with ⟨he, _⟩ | ⟨_, he⟩ <;> rw [he]
  · rcases wakeup1_proc t chan p with ⟨he, _⟩ | ⟨_, he⟩ <;> rw [he]
  · rcases wakeup1_proc t chan p with ⟨he, _⟩ | ⟨hs, he⟩
    · rw [he]
    · rw [he, hs]
      rfl
  · rintro p ⟨hs, hc⟩
    rcases wakeup1_proc t chan p with ⟨he, _⟩ | ⟨_, he⟩
    · rw [he] at hs hc
      exact ⟨hs, hc⟩
    · rw [he] at hs
      cases hs

/-- Nobody sleeps in wait whose address was woken. -/
theorem wakeup1_awake (t : Ptable) (p : ℕ) : ¬ InWait (t.wakeup1 (some (.proc p))) p := by
  rintro ⟨hs, hc⟩
  rcases wakeup1_proc t (some (.proc p)) p with ⟨he, hnot⟩ | ⟨_, he⟩
  · rw [he] at hs hc
    exact hnot ⟨hs, hc⟩
  · rw [he] at hs
    cases hs

theorem schedule_quiet (h : t.schedule p = some u) : Quiet t u := by
  unfold Ptable.schedule at h
  split at h
  · rename_i hrunnable
    obtain rfl := Option.some.inj h
    refine .set rfl rfl ?_ fun hs => by cases hs
    rw [hrunnable]
    rfl
  · cases h

theorem yield_quiet (hrun : (t.proc p).state = .RUNNING) : Quiet t (t.yield p) := by
  refine .set rfl rfl ?_ fun hs => by cases hs
  rw [hrun]
  rfl

theorem sleep_quiet (hrun : (t.proc p).state = .RUNNING) (a : ℕ) :
    Quiet t (t.sleep p (.addr a)) := by
  refine .set rfl rfl ?_ fun _ hc => by cases hc
  rw [hrun]
  rfl

theorem tidy_quiet (t : Ptable) (p : ℕ) : Quiet t (t.tidy p) :=
  .set rfl rfl rfl fun _ hc => by cases hc

theorem fault_quiet (t : Ptable) (p : ℕ) : Quiet t (t.set p fun q => { q with killed := true }) :=
  .set rfl rfl rfl fun hs hc => ⟨hs, hc⟩

theorem kill_quiet (t : Ptable) (pid : ℤ) : Quiet t (t.killPid pid).1 := by
  rcases killPid_cases (Prod.eta (t.killPid pid)).symm with ⟨_, he, _⟩ | ⟨_, q, _, _, he⟩
  · rw [he]
    exact .refl t
  · rw [he]
    refine .set rfl rfl ?_ fun hs hc => ?_
    · dsimp only
      split
      · rename_i hs
        rw [hs]
        rfl
      · rfl
    · dsimp only at hs hc
      split at hs
      · cases hs
      · exact ⟨hs, hc⟩

theorem kstack_quiet (t : Ptable) (np : ℕ) : Quiet t (t.kstack np true) :=
  Quiet.set (f := fun q => { q with kstack := true }) rfl rfl rfl fun hs hc => ⟨hs, hc⟩

/-- Some children of `p` have been passed to init, which has been woken for zombies. -/
structure Abandoned (t u : Ptable) (p : ℕ) (ps : List ℕ) : Prop where
  initproc : u.initproc = t.initproc
  nextpid : u.nextpid = t.nextpid
  pid : ∀ q, (u.proc q).pid = (t.proc q).pid
  parent : ∀ q, (u.proc q).parent =
    if q ∈ ps ∧ (t.proc q).parent = some p then some t.initproc else (t.proc q).parent
  phase : ∀ q, (u.proc q).state.phase = (t.proc q).state.phase
  inWait : ∀ q, InWait u q → InWait t q
  awake : ∀ q ∈ ps, (t.proc q).parent = some p → (t.proc q).state = .ZOMBIE → ¬ InWait u t.initproc

/-- One child is passed to init. -/
theorem adopt_abandoned (t : Ptable) (p q : ℕ) : Abandoned t (t.abandon p [q]) p [q] := by
  unfold Ptable.abandon
  by_cases hq : (t.proc q).parent = some p
  · rw [if_pos hq]
    have hset : ∀ u, Quiet (t.set q fun x => { x with parent := some t.initproc }) u →
        ((t.proc q).state = .ZOMBIE → ¬ InWait u t.initproc) → Abandoned t u p [q] := by
      intro u hu hawake
      have hone : ∀ r, (t.set q fun x => { x with parent := some t.initproc }).proc r =
          if r = q then { t.proc r with parent := some t.initproc } else t.proc r := by
        intro r
        by_cases hr : r = q
        · rw [hr, Ptable.set_self, if_pos rfl]
        · rw [Ptable.set_other hr, if_neg hr]
      refine ⟨hu.initproc, hu.nextpid, fun r => ?_, fun r => ?_, fun r => ?_, fun r hr => ?_, ?_⟩
      · rw [hu.pid, hone]
        split <;> rfl
      · rw [hu.parent, hone]
        by_cases hr : r = q
        · subst hr
          rw [if_pos rfl, if_pos ⟨List.mem_singleton_self r, hq⟩]
        · rw [if_neg hr, if_neg fun h => hr (List.mem_singleton.mp h.1)]
      · rw [hu.phase, hone]
        split <;> rfl
      · have hr' := hu.inWait r hr
        unfold InWait at hr'
        rw [hone] at hr'
        split at hr'
        · exact hr'
        · exact hr'
      · intro r hr _ hzombie
        rw [List.mem_singleton.mp hr] at hzombie
        exact hawake hzombie
    dsimp only [Ptable.abandon]
    rw [Ptable.set_self]
    split
    · exact hset _ (wakeup1_quiet _ _) fun _ => wakeup1_awake _ _
    · rename_i hzombie
      exact hset _ (.refl _) fun h => absurd h hzombie
  · rw [if_neg hq]
    refine ⟨rfl, rfl, fun _ => rfl, fun r => ?_, fun _ => rfl, fun _ h => h, fun r hr hr' => ?_⟩
    · have hno : ¬ (r ∈ [q] ∧ (t.proc r).parent = some p) := by
        rintro ⟨hr, hr'⟩
        rw [List.mem_singleton.mp hr] at hr'
        exact hq hr'
      rw [if_neg hno]
      rfl
    · rw [List.mem_singleton.mp hr] at hr'
      exact absurd hr' hq

theorem abandon_abandoned (t : Ptable) (p : ℕ) (ps : List ℕ) (hp : p ≠ t.initproc) :
    Abandoned t (t.abandon p ps) p ps := by
  induction ps generalizing t with
  | nil => exact ⟨rfl, rfl, fun _ => rfl, fun q => by simp [Ptable.abandon], fun _ => rfl,
      fun _ h => h, by simp⟩
  | cons q rest ih =>
    have hone := adopt_abandoned t p q
    have hrest := ih (t.abandon p [q]) (by rwa [hone.initproc])
    have he : t.abandon p (q :: rest) = (t.abandon p [q]).abandon p rest := rfl
    rw [he]
    generalize t.abandon p [q] = u at hone hrest ⊢
    generalize u.abandon p rest = v at hrest ⊢
    refine ⟨hrest.initproc.trans hone.initproc, hrest.nextpid.trans hone.nextpid,
      fun r => (hrest.pid r).trans (hone.pid r), fun r => ?_, fun r => (hrest.phase r).trans
      (hone.phase r), fun r hr => hone.inWait r (hrest.inWait r hr), fun r hr hparent hzombie => ?_⟩
    · rw [hrest.parent, hone.parent, hone.initproc]
      by_cases hr : (t.proc r).parent = some p
      · by_cases hrq : r = q
        · subst hrq
          simp [hr]
        · simp [hr, hrq]
      · simp [hr]
    · by_cases hrq : r = q
      · have hq := hone.awake q (List.mem_singleton_self q) (hrq ▸ hparent) (hrq ▸ hzombie)
        exact fun h => hq (hrest.inWait _ h)
      · have hmem : r ∈ rest := (List.mem_cons.mp hr).resolve_left hrq
        have hparent' : (u.proc r).parent = some p := by
          rw [hone.parent, if_neg fun h => hrq (List.mem_singleton.mp h.1)]
          exact hparent
        have hzombie' : (u.proc r).state = .ZOMBIE := by
          rw [← ProcState.phase_zombie, hone.phase, hzombie]
          rfl
        rw [← hone.initproc]
        exact hrest.awake r hmem hparent' hzombie'

/-- What exit does to the table, where slots outside it have no parent. -/
structure Exited (t u : Ptable) (p : ℕ) : Prop where
  notInit : p ≠ t.initproc
  initproc : u.initproc = t.initproc
  nextpid : u.nextpid = t.nextpid
  pid : ∀ q, (u.proc q).pid = (t.proc q).pid
  parent : ∀ q, (u.proc q).parent =
    if (t.proc q).parent = some p then some t.initproc else (t.proc q).parent
  zombie : (u.proc p).state = .ZOMBIE
  phase : ∀ q, q ≠ p → (u.proc q).state.phase = (t.proc q).state.phase
  inWait : ∀ q, InWait u q → InWait t q
  parentAwake : ∀ q, (t.proc p).parent = some q → ¬ InWait u q
  initAwake : ∀ q, (t.proc q).parent = some p → (t.proc q).state = .ZOMBIE → ¬ InWait u t.initproc

theorem exit_exited (houter : ∀ q, NPROC ≤ q → (t.proc q).parent = none) (h : t.exit p = some u) :
    Exited t u p := by
  unfold Ptable.exit at h
  split at h
  · cases h
  · rename_i hp
    obtain rfl := Option.some.inj h
    have hwoken := wakeup1_quiet t ((t.proc p).parent.map .proc)
    have hquiet : ∀ q, (t.proc p).parent = some q →
        ¬ InWait (t.wakeup1 ((t.proc p).parent.map .proc)) q := by
      intro q hq
      rw [hq]
      exact wakeup1_awake t q
    have hall := abandon_abandoned (t.wakeup1 ((t.proc p).parent.map .proc)) p (List.range NPROC)
      (by rwa [hwoken.initproc])
    generalize t.wakeup1 ((t.proc p).parent.map .proc) = w at hwoken hquiet hall ⊢
    generalize w.abandon p (List.range NPROC) = v at hall ⊢
    have hinside : ∀ q, (t.proc q).parent = some p → q ∈ List.range NPROC := by
      intro q hq
      rw [List.mem_range]
      by_contra hout
      rw [houter q (Nat.le_of_not_lt hout)] at hq
      cases hq
    have hwait : ∀ q, InWait (v.set p fun q => { q with state := .ZOMBIE }) q → InWait v q := by
      intro q hq
      unfold InWait at hq
      by_cases hqp : q = p
      · rw [hqp, Ptable.set_self] at hq
        cases hq.1
      · rwa [Ptable.set_other hqp] at hq
    refine ⟨hp, hall.initproc.trans hwoken.initproc, hall.nextpid.trans hwoken.nextpid, fun q => ?_,
      fun q => ?_, ?_, fun q hq => ?_, fun q hq => ?_, fun q hq hq' => ?_,
      fun q hq hzombie hq' => ?_⟩
    · have hv := (hall.pid q).trans (hwoken.pid q)
      by_cases hqp : q = p
      · subst hqp
        rw [Ptable.set_self]
        exact hv
      · rw [Ptable.set_other hqp]
        exact hv
    · have hv : (v.proc q).parent =
          if (t.proc q).parent = some p then some t.initproc else (t.proc q).parent := by
        rw [hall.parent, hwoken.parent, hwoken.initproc]
        by_cases hq : (t.proc q).parent = some p
        · rw [if_pos ⟨hinside q hq, hq⟩, if_pos hq]
        · rw [if_neg fun h => hq h.2, if_neg hq]
      by_cases hqp : q = p
      · subst hqp
        rw [Ptable.set_self]
        exact hv
      · rw [Ptable.set_other hqp]
        exact hv
    · rw [Ptable.set_self]
    · rw [Ptable.set_other hq]
      exact (hall.phase q).trans (hwoken.phase q)
    · exact hwoken.inWait q (hall.inWait q (hwait q hq))
    · exact hquiet q hq (hall.inWait q (hwait q hq'))
    · refine hall.awake q (hinside q hq) ?_ ?_ ?_
      · rw [hwoken.parent]
        exact hq
      · rw [← ProcState.phase_zombie, hwoken.phase, hzombie]
        rfl
      · rw [hwoken.initproc]
        exact hwait _ hq'

/-- A scan of wait frees the slot of a zombie child and returns its pid. Without one it
returns -1, or the process falls asleep. -/
theorem wait_found {r : Option ℤ} (h : t.wait p = (u, r)) :
    (∃ q, (t.proc q).parent = some p ∧ (t.proc q).state = .ZOMBIE ∧ r = some ((t.proc q).pid : ℤ) ∧
      u = t.set q fun x =>
        { x with kstack := false, pid := 0, parent := none, killed := false, state := .UNUSED }) ∨
      (∀ q, q < NPROC → (t.proc q).parent = some p → (t.proc q).state ≠ .ZOMBIE) ∧
        (r = some (-1) ∧ u = t ∨ r = none ∧ u = t.sleep p (.proc p)) := by
  unfold Ptable.wait at h
  split at h
  · rename_i q hq
    have hfound := List.find?_some hq
    rw [decide_eq_true_eq] at hfound
    obtain ⟨rfl, rfl⟩ := Prod.mk.inj h
    exact Or.inl ⟨q, hfound.1, hfound.2, rfl, rfl⟩
  · rename_i hnone
    refine Or.inr ⟨fun q hq hparent hzombie => ?_, ?_⟩
    · have hno := List.find?_eq_none.mp hnone q (List.mem_range.mpr hq)
      rw [decide_eq_true_eq] at hno
      exact hno ⟨hparent, hzombie⟩
    · split at h
      · obtain ⟨rfl, rfl⟩ := Prod.mk.inj h
        exact Or.inl ⟨rfl, rfl⟩
      · obtain ⟨rfl, rfl⟩ := Prod.mk.inj h
        exact Or.inr ⟨rfl, rfl⟩

theorem waitSleep_sameKin (hrun : (t.proc p).state.phase = .RUNNABLE) :
    SameKin t (t.sleep p (.proc p)) :=
  .set rfl rfl hrun.symm

theorem Exited.unused (h : Exited t u p) (hused : (t.proc p).state ≠ .UNUSED) (q : ℕ) :
    (u.proc q).state = .UNUSED ↔ (t.proc q).state = .UNUSED := by
  by_cases hq : q = p
  · rw [hq, h.zombie]
    exact iff_of_false (by simp) hused
  · rw [← ProcState.phase_unused, h.phase q hq, ProcState.phase_unused]

theorem Exited.embryo (h : Exited t u p) (hq : q ≠ p) :
    (u.proc q).state = .EMBRYO ↔ (t.proc q).state = .EMBRYO := by
  rw [← ProcState.phase_embryo, h.phase q hq, ProcState.phase_embryo]

theorem Exited.zombie_iff (h : Exited t u p) (hq : q ≠ p) :
    (u.proc q).state = .ZOMBIE ↔ (t.proc q).state = .ZOMBIE := by
  rw [← ProcState.phase_zombie, h.phase q hq, ProcState.phase_zombie]

theorem Exited.pids (h : Exited t u p) (ht : Pids t) (hused : (t.proc p).state ≠ .UNUSED) :
    Pids u := by
  refine ⟨fun q hq => ?_, fun q => ?_, fun q q' => ?_, fun q hq => ?_⟩
  · rw [h.pid]
    exact ht.positive q fun hq' => hq ((h.unused hused q).mpr hq')
  · rw [h.pid, h.nextpid]
    exact ht.below q
  · rw [h.pid, h.pid]
    exact ht.distinct q q'
  · exact (h.unused hused q).mpr (ht.inside q hq)

end Kin

section Ties

/-- The invariant. A slot that is not in use has no parent, and a parent is a process that
can still run; a slot that fork fills is EMBRYO and belongs to one process. -/
structure Ties (s : Family) : Prop where
  pids : Pids s.table
  unused : ∀ p, s.state p = .UNUSED → s.parent p = none
  init : (s.state s.table.initproc).phase = .RUNNABLE ∧ s.parent s.table.initproc = none
  parent : ∀ p q, s.parent p = some q → (s.state q).phase = .RUNNABLE ∧ p ≠ q
  tied : ∀ p q, s.parent p = some q → s.pid q = s.guardian (s.pid p)
  orphan : ∀ p, p ≠ s.table.initproc → s.state p ≠ .UNUSED → s.state p ≠ .EMBRYO → s.parent p ≠ none
  heard : ∀ p, InWait s.table p → ∀ q, s.parent q = some p → s.state q ≠ .ZOMBIE
  child : ∀ p np, (s.doing p).child = some np →
    s.state np = .EMBRYO ∧ s.parent np = if s.doing p = .ready np then some p else none
  children : ∀ p q np, (s.doing p).child = some np → (s.doing q).child = some np → p = q
  once : s.exited.Nodup ∧ s.returned.Nodup
  returned : ∀ pid ∈ s.returned, pid ∈ s.exited
  below : ∀ pid ∈ s.exited, pid < s.table.nextpid
  kept : ∀ pid ∈ s.exited, pid ∉ s.returned → ∃ p, s.state p = .ZOMBIE ∧ s.pid p = pid
  zombie : ∀ p, s.state p = .ZOMBIE → s.pid p ∈ s.exited ∧ s.pid p ∉ s.returned
  fresh : ∀ p, s.state p ≠ .UNUSED → s.state p ≠ .ZOMBIE → s.pid p ∉ s.exited

variable {s s' : Family} {u : Ptable} {p q np : ℕ}

theorem guardian_congr {x : ℕ} (hmaker : s'.maker x = s.maker x) (hexited : s'.exited = s.exited)
    (hinit : s'.pid s'.table.initproc = s.pid s.table.initproc) : s'.guardian x = s.guardian x := by
  unfold Family.guardian
  simp only [hmaker, hexited, hinit]

theorem Ties.accounted (h : Ties s) : Accounted s where
  once := h.once
  exited := h.returned
  kept := by
    intro pid hpid hnot
    obtain ⟨p, hp, he⟩ := h.kept pid hpid hnot
    refine ⟨p, ⟨hp, he⟩, ?_⟩
    rintro q ⟨hq, he'⟩
    refine h.pids.distinct q p (h.pids.positive q ?_) (he'.trans he.symm)
    intro hunused
    exact ProcState.noConfusion (hq.symm.trans hunused)
  zombie := by
    intro p hp
    obtain ⟨hexited, hnot⟩ := h.zombie p hp
    refine ⟨hexited, hnot, ?_⟩
    have hparent : s.parent p ≠ none := by
      refine h.orphan p ?_ ?_ ?_
      · intro he
        have hinit := h.init.1
        rw [← he, hp] at hinit
        cases hinit
      · rw [hp]
        simp
      · rw [hp]
        simp
    obtain ⟨q, hq⟩ := Option.ne_none_iff_exists'.mp hparent
    exact ⟨q, hq, h.tied p q hq⟩
  parent := by
    intro p q _ hq
    have hlive := (h.parent p q hq).1
    constructor
    · intro hunused
      rw [hunused] at hlive
      cases hlive
    · intro hzombie
      rw [hzombie] at hlive
      cases hlive
  heard := h.heard

/-- Steps that leave every process to its kin keep the invariant. -/
theorem Ties.same (h : Ties s) (hk : SameKin s.table u) {d : ℕ → Doing}
    (hheard : ∀ p, InWait u p → ∀ q, s.parent q = some p → s.state q ≠ .ZOMBIE)
    (hd : ∀ p np, (d p).child = some np →
      (s.doing p).child = some np ∧ (d p = .ready np ↔ s.doing p = .ready np)) :
    Ties { s with table := u, doing := d } := by
  have hguard : ∀ x, Family.guardian { s with table := u, doing := d } x = s.guardian x := by
    intro x
    refine guardian_congr rfl rfl ?_
    show (u.proc u.initproc).pid = s.pid s.table.initproc
    rw [hk.initproc, hk.pid]
    rfl
  refine ⟨hk.pids h.pids, fun p hp => ?_, ?_, fun p q hq => ?_, fun p q hq => ?_,
    fun p hp hunused hembryo => ?_,
    fun p hp q hq hzombie => ?_, fun p np hnp => ?_, fun p q np hp hq => ?_, h.once, h.returned, ?_,
    fun pid hpid hnot => ?_, fun p hp => ?_, fun p hunused hzombie => ?_⟩
  · exact (hk.parent p).trans (h.unused p ((hk.unused p).mp hp))
  · show (u.proc u.initproc).state.phase = .RUNNABLE ∧ (u.proc u.initproc).parent = none
    rw [hk.initproc, hk.phase, hk.parent]
    exact h.init
  · obtain ⟨hlive, hne⟩ := h.parent p q ((hk.parent p).symm.trans hq)
    exact ⟨(hk.phase q).trans hlive, hne⟩
  · rw [hguard]
    show (u.proc q).pid = s.guardian (u.proc p).pid
    rw [hk.pid, hk.pid]
    exact h.tied p q ((hk.parent p).symm.trans hq)
  · show (u.proc p).parent ≠ none
    rw [hk.parent]
    refine h.orphan p ?_ (fun hu => hunused ((hk.unused p).mpr hu)) fun hu => hembryo
      ((hk.embryo p).mpr hu)
    exact hp.trans_eq hk.initproc
  · exact hheard p hp q ((hk.parent q).symm.trans hq) ((hk.zombie q).mp hzombie)
  · obtain ⟨hchild, hready⟩ := hd p np hnp
    obtain ⟨hembryo, hparent⟩ := h.child p np hchild
    refine ⟨(hk.embryo np).mpr hembryo, (hk.parent np).trans (hparent.trans ?_)⟩
    exact if_congr hready.symm rfl rfl
  · exact h.children p q np (hd p np hp).1 (hd q np hq).1
  · intro x hx
    exact (h.below x hx).trans_eq hk.nextpid.symm
  · obtain ⟨p, hp, he⟩ := h.kept pid hpid hnot
    exact ⟨p, (hk.zombie p).mpr hp, (hk.pid p).trans he⟩
  · show (u.proc p).pid ∈ s.exited ∧ (u.proc p).pid ∉ s.returned
    rw [hk.pid]
    exact h.zombie p ((hk.zombie p).mp hp)
  · show (u.proc p).pid ∉ s.exited
    rw [hk.pid]
    exact h.fresh p (fun hu => hunused ((hk.unused p).mpr hu)) fun hu => hzombie
      ((hk.zombie p).mpr hu)

theorem Ties.quiet (h : Ties s) (hk : Quiet s.table u) {d : ℕ → Doing}
    (hd : ∀ p np, (d p).child = some np →
      (s.doing p).child = some np ∧ (d p = .ready np ↔ s.doing p = .ready np)) :
    Ties { s with table := u, doing := d } :=
  h.same hk.toSameKin (fun p hp => h.heard p (hk.inWait p hp)) hd

/-- A step of `p` changes one slot, which holds no process that can run before it. -/
structure Refilled (s s' : Family) (p np : ℕ) (d : Doing) : Prop where
  initproc : s'.table.initproc = s.table.initproc
  others : ∀ q, q ≠ np → s'.table.proc q = s.table.proc q
  dead : (s.state np).phase ≠ .RUNNABLE
  exited : s'.exited = s.exited
  returned : s'.returned = if s.state np = .ZOMBIE then s.pid np :: s.returned else s.returned
  guardian : ∀ q, q ≠ np → s'.guardian (s.pid q) = s.guardian (s.pid q)
  awake : s'.state np ≠ .ZOMBIE ∧ s'.state np ≠ .SLEEPING
  unused : s'.state np = .UNUSED → s'.parent np = none
  parent : ∀ q, s'.parent np = some q → (s.state q).phase = .RUNNABLE ∧ s.pid q = s'.guardian (s'.pid np)
  orphan : s'.state np = .UNUSED ∨ s'.state np = .EMBRYO ∨ s'.parent np ≠ none
  fresh : s'.state np ≠ .UNUSED → s'.pid np ∉ s.exited
  doing : s'.doing = Function.update s.doing p d
  own : ∀ q, (s.doing q).child = some np → q = p
  child : ∀ m, d.child = some m → m = np ∧ s'.state np = .EMBRYO ∧
    s'.parent np = if d = .ready np then some p else none

theorem Ties.refilled (h : Ties s) {d : Doing} (hr : Refilled s s' p np d) (hpids : Pids s'.table)
    (hnext : s.table.nextpid ≤ s'.table.nextpid) : Ties s' := by
  have hstate : ∀ q, q ≠ np → s'.state q = s.state q := fun q hq => congrArg Proc.state
      (hr.others q hq)
  have hparent : ∀ q, q ≠ np → s'.parent q = s.parent q := fun q hq => congrArg Proc.parent
      (hr.others q hq)
  have hpid : ∀ q, q ≠ np → s'.pid q = s.pid q := fun q hq => congrArg Proc.pid (hr.others q hq)
  have hlive : ∀ q, (s.state q).phase = .RUNNABLE → q ≠ np := by
    rintro q hq rfl
    exact hr.dead hq
  have hchild : ∀ q m, (s'.doing q).child = some m → q = p ∧ d.child = some m ∨
      q ≠ p ∧ m ≠ np ∧ s'.doing q = s.doing q := by
    intro q m hm
    rw [hr.doing] at hm
    by_cases hq : q = p
    · rw [hq, Function.update_self] at hm
      exact Or.inl ⟨hq, hm⟩
    · rw [Function.update_of_ne hq] at hm
      refine Or.inr ⟨hq, ?_, ?_⟩
      · rintro rfl
        exact hq (hr.own q hm)
      · rw [hr.doing, Function.update_of_ne hq]
  have hdistinct : s.state np = .ZOMBIE → ∀ q, q ≠ np → s.pid q ≠ s.pid np := by
    intro hz q hq he
    refine hq (h.pids.distinct np q (h.pids.positive np ?_) he.symm).symm
    intro hu
    exact ProcState.noConfusion (hz.symm.trans hu)
  refine ⟨hpids, fun q hq => ?_, ?_, fun q q' hq => ?_, fun q q' hq => ?_,
    fun q hq hunused hembryo => ?_,
    fun q hq q' hq' hzombie => ?_, fun q m hm => ?_, fun q q' m hq hq' => ?_, ⟨?_, ?_⟩, ?_, ?_,
    fun pid hpid' hnot => ?_, fun q hq => ?_, fun q hunused hzombie => ?_⟩
  · by_cases hqn : q = np
    · rw [hqn] at hq ⊢
      exact hr.unused hq
    · rw [hparent q hqn]
      exact h.unused q (hstate q hqn ▸ hq)
  · rw [hr.initproc, hstate _ (hlive _ h.init.1), hparent _ (hlive _ h.init.1)]
    exact h.init
  · have hq' : (s.state q').phase = .RUNNABLE ∧ q ≠ q' := by
      by_cases hqn : q = np
      · rw [hqn] at hq ⊢
        have hlive' := (hr.parent q' hq).1
        exact ⟨hlive', (hlive q' hlive').symm⟩
      · rw [hparent q hqn] at hq
        exact h.parent q q' hq
    rw [hstate q' (hlive q' hq'.1)]
    exact hq'
  · by_cases hqn : q = np
    · rw [hqn] at hq ⊢
      obtain ⟨hq', he⟩ := hr.parent q' hq
      rw [hpid q' (hlive q' hq')]
      exact he
    · rw [hparent q hqn] at hq
      rw [hpid q' (hlive q' (h.parent q q' hq).1), hpid q hqn, hr.guardian q hqn]
      exact h.tied q q' hq
  · by_cases hqn : q = np
    · rw [hqn] at hunused hembryo ⊢
      exact (hr.orphan.resolve_left hunused).resolve_left hembryo
    · rw [hstate q hqn] at hunused hembryo
      rw [hparent q hqn]
      exact h.orphan q (hq.trans_eq hr.initproc) hunused hembryo
  · have hqn : q ≠ np := by
      rintro rfl
      exact hr.awake.2 hq.1
    have hqn' : q' ≠ np := by
      rintro rfl
      exact hr.awake.1 hzombie
    rw [hparent q' hqn'] at hq'
    rw [hstate q' hqn'] at hzombie
    refine h.heard q ?_ q' hq' hzombie
    unfold InWait at hq ⊢
    rwa [hr.others q hqn] at hq
  · rcases hchild q m hm with ⟨rfl, hd⟩ | ⟨hq, hmn, hdoing⟩
    · obtain ⟨rfl, hembryo, hpar⟩ := hr.child m hd
      rw [hr.doing, Function.update_self]
      exact ⟨hembryo, hpar⟩
    · rw [hdoing] at hm ⊢
      rw [hstate m hmn, hparent m hmn]
      exact h.child q m hm
  · rcases hchild q m hq with ⟨rfl, hd⟩ | ⟨hqp, hmn, hdoing⟩
    · rcases hchild q' m hq' with ⟨rfl, _⟩ | ⟨_, hmn', _⟩
      · rfl
      · exact absurd (hr.child m hd).1 hmn'
    · rcases hchild q' m hq' with ⟨_, hd'⟩ | ⟨_, _, hdoing'⟩
      · exact absurd (hr.child m hd').1 hmn
      · rw [hdoing] at hq
        rw [hdoing'] at hq'
        exact h.children q q' m hq hq'
  · rw [hr.exited]
    exact h.once.1
  · rw [hr.returned]
    split
    · rename_i hz
      exact List.nodup_cons.mpr ⟨(h.zombie np hz).2, h.once.2⟩
    · exact h.once.2
  · intro x hx
    rw [hr.exited]
    rw [hr.returned] at hx
    split at hx
    · rename_i hz
      rcases List.mem_cons.mp hx with rfl | hx'
      · exact (h.zombie np hz).1
      · exact h.returned x hx'
    · exact h.returned x hx
  · intro x hx
    rw [hr.exited] at hx
    exact Nat.lt_of_lt_of_le (h.below x hx) hnext
  · rw [hr.exited] at hpid'
    rw [hr.returned] at hnot
    have hold : pid ∉ s.returned ∧ (s.state np = .ZOMBIE → pid ≠ s.pid np) := by
      split at hnot
      · exact ⟨List.not_mem_of_not_mem_cons hnot, fun _ => List.ne_of_not_mem_cons hnot⟩
      · rename_i hz
        exact ⟨hnot, fun hz' => absurd hz' hz⟩
    obtain ⟨q, hq, he⟩ := h.kept pid hpid' hold.1
    have hqn : q ≠ np := by
      rintro rfl
      exact hold.2 hq he.symm
    exact ⟨q, (hstate q hqn).trans hq, (hpid q hqn).trans he⟩
  · have hqn : q ≠ np := by
      rintro rfl
      exact hr.awake.1 hq
    rw [hstate q hqn] at hq
    obtain ⟨hexited, hnot⟩ := h.zombie q hq
    rw [hpid q hqn, hr.exited, hr.returned]
    refine ⟨hexited, ?_⟩
    split
    · rename_i hz
      exact List.not_mem_cons_of_ne_of_not_mem (hdistinct hz q hqn) hnot
    · exact hnot
  · rw [hr.exited]
    by_cases hqn : q = np
    · rw [hqn] at hunused ⊢
      exact hr.fresh hunused
    · rw [hstate q hqn] at hunused hzombie
      rw [hpid q hqn]
      exact h.fresh q hunused hzombie

/-- After an exit the children of the process answer to init, the others to whom they did. -/
theorem Ties.exit_tied (h : Ties s) (he : Exited s.table u p) (hused : s.state p ≠ .UNUSED) {q' : ℕ}
    (hq : (u.proc q).parent = some q') :
    (u.proc q').pid = Family.guardian { s with table := u, exited := s.pid p :: s.exited }
      (u.proc q).pid := by
  have hguard : ∀ x, Family.guardian { s with table := u, exited := s.pid p :: s.exited } x =
      if s.maker x ∈ s.pid p :: s.exited then s.pid s.table.initproc else s.maker x := by
    intro x
    unfold Family.guardian
    show (if _ then (u.proc u.initproc).pid else _) = _
    rw [he.pid, he.initproc]
    rfl
  rw [he.pid, he.pid, hguard]
  show s.pid q' = if s.maker (s.pid q) ∈ s.pid p :: s.exited then s.pid s.table.initproc
    else s.maker (s.pid q)
  rw [he.parent] at hq
  split at hq
  · rename_i hparent
    obtain rfl := Option.some.inj hq
    have ht := h.tied q p hparent
    unfold Family.guardian at ht
    rw [if_pos]
    split at ht
    · rename_i hmem
      exact List.mem_cons_of_mem _ hmem
    · rw [ht]
      exact List.mem_cons_self
  · rename_i hne
    have hqp : q' ≠ p := fun hqp => hne (hqp ▸ hq)
    have ht := h.tied q q' hq
    unfold Family.guardian at ht
    split at ht
    · rename_i hmem
      rw [if_pos (List.mem_cons_of_mem _ hmem)]
      exact ht
    · rename_i hmem
      have hnot : s.maker (s.pid q) ∉ s.pid p :: s.exited := by
        refine List.not_mem_cons_of_ne_of_not_mem (fun hm => hqp ?_) hmem
        refine (h.pids.distinct p q' (h.pids.positive p hused) ?_).symm
        exact (ht.trans hm).symm
      rw [if_neg hnot]
      exact ht

/-- Neither a parent that exit wakes nor init stays asleep with a zombie child. -/
theorem Ties.exit_heard (h : Ties s) (he : Exited s.table u p) (hq : InWait u q) {q' : ℕ}
    (hq' : (u.proc q').parent = some q) : (u.proc q').state ≠ .ZOMBIE := by
  intro hzombie
  rw [he.parent] at hq'
  by_cases hqp : q' = p
  · rw [hqp] at hq'
    split at hq'
    · rename_i hself
      exact (h.parent p p hself).2 rfl
    · exact he.parentAwake q hq' hq
  · have hzombie' : s.state q' = .ZOMBIE := (he.zombie_iff hqp).mp hzombie
    split at hq'
    · rename_i hparent
      obtain rfl := Option.some.inj hq'
      exact he.initAwake q' hparent hzombie' hq
    · exact h.heard q (he.inWait q hq) q' hq' hzombie'

/-- The slot that a fork of another process fills stays as it is. -/
theorem Ties.exit_child (h : Ties s) (he : Exited s.table u p) (hrun : s.state p = .RUNNING)
    (hother : s.doing p = .other) {m : ℕ} (hm : (s.doing q).child = some m) :
    (u.proc m).state = .EMBRYO ∧ (u.proc m).parent = if s.doing q = .ready m then some q else none := by
  obtain ⟨hembryo, hparent⟩ := h.child q m hm
  have hmp : m ≠ p := by
    rintro rfl
    rw [hrun] at hembryo
    cases hembryo
  refine ⟨(he.embryo hmp).mpr hembryo, ?_⟩
  have hnot : (s.table.proc m).parent ≠ some p := by
    intro hparentp
    have hready := hparent.symm.trans hparentp
    split at hready
    · obtain rfl := Option.some.inj hready
      rw [hother] at hm
      cases hm
    · cases hready
  rw [he.parent, if_neg hnot]
  exact hparent

/-- A process that exits passes its children to init. -/
theorem Ties.exit (h : Ties s) (hrun : s.state p = .RUNNING) (hother : s.doing p = .other)
    (hu : s.table.exit p = some u) :
    Ties { s with table := u, exited := s.pid p :: s.exited } := by
  have houter : ∀ q, NPROC ≤ q → (s.table.proc q).parent = none :=
    fun q hq => h.unused q (h.pids.inside q hq)
  have he := exit_exited houter hu
  have hused : s.state p ≠ .UNUSED := by
    rw [hrun]
    simp
  have hlive : s.state p ≠ .ZOMBIE := by
    rw [hrun]
    simp
  have hfresh := h.fresh p hused hlive
  have hinit : s.table.initproc ≠ p := fun hi => he.notInit hi.symm
  have hunused := he.unused hused
  refine ⟨he.pids h.pids hused, fun q hq => ?_, ?_, fun q q' hq => ?_,
    fun q q' hq => h.exit_tied he hused hq,
    fun q hq hqu hqe => ?_, fun q hq q' hq' => h.exit_heard he hq hq',
    fun q m hm => h.exit_child he hrun hother hm, h.children, ⟨?_, h.once.2⟩, ?_, ?_,
    fun pid hpid' hnot => ?_, fun q hq => ?_, fun q hqu hqz => ?_⟩
  · show (u.proc q).parent = none
    rw [he.parent, show (s.table.proc q).parent = none from h.unused q ((hunused q).mp hq)]
    rfl
  · show (u.proc u.initproc).state.phase = .RUNNABLE ∧ (u.proc u.initproc).parent = none
    rw [he.initproc, he.phase _ hinit, he.parent, show (s.table.proc s.table.initproc).parent =
      none from h.init.2]
    exact ⟨h.init.1, rfl⟩
  · show (u.proc q').state.phase = .RUNNABLE ∧ q ≠ q'
    have hq1 := (he.parent q).symm.trans hq
    split at hq1
    · rename_i hparent
      obtain rfl := Option.some.inj hq1
      rw [he.phase _ hinit]
      refine ⟨h.init.1, ?_⟩
      rintro rfl
      have hnone : (s.table.proc s.table.initproc).parent = none := h.init.2
      rw [hnone] at hparent
      cases hparent
    · rename_i hne
      rw [he.phase q' fun hqp => hne (hqp ▸ hq1)]
      exact h.parent q q' hq1
  · show (u.proc q).parent ≠ none
    rw [he.parent]
    split
    · simp
    · by_cases hqp : q = p
      · refine h.orphan q (hq.trans_eq he.initproc) (hqp ▸ hused) ?_
        rw [hqp, hrun]
        simp
      · exact h.orphan q (hq.trans_eq he.initproc) (fun hqu' => hqu ((hunused q).mpr hqu'))
          fun hqe' => hqe ((he.embryo hqp).mpr hqe')
  · exact List.nodup_cons.mpr ⟨hfresh, h.once.1⟩
  · exact fun x hx => List.mem_cons_of_mem _ (h.returned x hx)
  · intro x hx
    refine Nat.lt_of_lt_of_eq ?_ he.nextpid.symm
    rcases List.mem_cons.mp hx with rfl | hx'
    · exact h.pids.below p
    · exact h.below x hx'
  · rcases List.mem_cons.mp hpid' with rfl | hold
    · exact ⟨p, he.zombie, he.pid p⟩
    · obtain ⟨q, hq, hqe⟩ := h.kept pid hold hnot
      have hqp : q ≠ p := by
        rintro rfl
        exact hlive hq
      exact ⟨q, (he.zombie_iff hqp).mpr hq, (he.pid q).trans hqe⟩
  · show (u.proc q).pid ∈ _ ∧ (u.proc q).pid ∉ s.returned
    rw [he.pid]
    by_cases hqp : q = p
    · rw [hqp]
      exact ⟨List.mem_cons_self, fun hr => hfresh (h.returned _ hr)⟩
    · obtain ⟨hexited, hnot⟩ := h.zombie q ((he.zombie_iff hqp).mp hq)
      exact ⟨List.mem_cons_of_mem _ hexited, hnot⟩
  · show (u.proc q).pid ∉ _
    rw [he.pid]
    have hqp : q ≠ p := by
      rintro rfl
      exact hqz he.zombie
    have hqu' : s.state q ≠ .UNUSED := fun hq' => hqu ((hunused q).mpr hq')
    refine List.not_mem_cons_of_ne_of_not_mem (fun hm => hqp ?_)
      (h.fresh q hqu' fun hz => hqz ((he.zombie_iff hqp).mpr hz))
    exact h.pids.distinct q p (h.pids.positive q hqu') hm

/-- One slot changes, and keeps its pid, loses it, or gets the next one. -/
theorem Pids.slot {t : Ptable} (ht : Pids t) (hothers : ∀ q, q ≠ np → u.proc q = t.proc q)
    (hnext : t.nextpid ≤ u.nextpid) (hbelow : (u.proc np).pid < u.nextpid)
    (hpid : (u.proc np).pid = (t.proc np).pid ∨ (u.proc np).pid = 0 ∨ (u.proc np).pid = t.nextpid)
    (hpos : (u.proc np).state ≠ .UNUSED → 0 < (u.proc np).pid) (hin : np < NPROC) : Pids u := by
  have hne : ∀ q, q ≠ np → 0 < (u.proc q).pid → (u.proc q).pid ≠ (u.proc np).pid := by
    intro q hq hq0 he
    rw [hothers q hq] at hq0 he
    rcases hpid with hsame | hzero | hfresh
    · exact hq (ht.distinct q np hq0 (he.trans hsame))
    · exact Nat.ne_of_gt hq0 (he.trans hzero)
    · exact Nat.ne_of_lt (ht.below q) (he.trans hfresh)
  refine ⟨fun q hq => ?_, fun q => ?_, fun q q' hq0 he => ?_, fun q hq => ?_⟩
  · by_cases hqn : q = np
    · rw [hqn] at hq ⊢
      exact hpos hq
    · rw [hothers q hqn] at hq ⊢
      exact ht.positive q hq
  · by_cases hqn : q = np
    · rwa [hqn]
    · rw [hothers q hqn]
      exact Nat.lt_of_lt_of_le (ht.below q) hnext
  · by_cases hqn : q = np
    · by_cases hqn' : q' = np
      · rw [hqn, hqn']
      · rw [hqn] at he hq0
        exact absurd he.symm (hne q' hqn' (he ▸ hq0))
    · by_cases hqn' : q' = np
      · rw [hqn'] at he
        exact absurd he (hne q hqn hq0)
      · rw [hothers q hqn] at hq0 he
        rw [hothers q' hqn'] at he
        exact ht.distinct q q' hq0 he
  · rw [hothers q (Nat.ne_of_gt (Nat.lt_of_lt_of_le hin hq))]
    exact ht.inside q hq

/-- What the claim of a slot does. -/
structure Claimed (t u : Ptable) (np : ℕ) : Prop where
  inside : np < NPROC
  unused : (t.proc np).state = .UNUSED
  initproc : u.initproc = t.initproc
  nextpid : u.nextpid = t.nextpid + 1
  others : ∀ q, q ≠ np → u.proc q = t.proc q
  slot : u.proc np = { t.proc np with state := .EMBRYO, pid := t.nextpid }

theorem claim_claimed {t : Ptable} (h : t.claim = some (u, np)) : Claimed t u np := by
  obtain ⟨q, hq, he⟩ := Option.map_eq_some_iff.mp h
  obtain ⟨rfl, rfl⟩ := Prod.mk.inj he
  have hfound := List.find?_some hq
  rw [decide_eq_true_eq] at hfound
  exact ⟨List.mem_range.mp (List.mem_of_find?_eq_some hq), hfound, rfl, rfl,
    fun r hr => Function.update_of_ne hr _ _, Function.update_self ..⟩

theorem Ties.claim (h : Ties s) (hu : s.table.claim = some (u, np)) :
    Ties (s.turn p (.stack np) u) := by
  have hc := claim_claimed hu
  have hpid : (u.proc np).pid = s.table.nextpid := congrArg Proc.pid hc.slot
  have hstate : (u.proc np).state = .EMBRYO := congrArg Proc.state hc.slot
  have hparent : (u.proc np).parent = none := (congrArg Proc.parent hc.slot).trans
      (h.unused np hc.unused)
  have hpids : Pids u := by
    refine h.pids.slot hc.others ?_ ?_ (Or.inr (Or.inr hpid)) (fun _ => ?_) hc.inside
    · rw [hc.nextpid]
      exact Nat.le_succ _
    · rw [hpid, hc.nextpid]
      exact Nat.lt_succ_self _
    · rw [hpid]
      exact Nat.lt_of_le_of_lt (Nat.zero_le _) (h.pids.below 0)
  have hinit : s.table.initproc ≠ np := by
    intro he
    have hlive := h.init.1
    rw [he] at hlive
    unfold Family.state at hlive
    rw [hc.unused] at hlive
    cases hlive
  suffices hrefilled : Refilled s (s.turn p (.stack np) u) p np (.stack np) from
    h.refilled hrefilled hpids (hc.nextpid ▸ Nat.le_succ _)
  refine ⟨hc.initproc, hc.others, ?_, rfl, ?_, fun q _ => ?_, ?_, fun hq => ?_, fun q hq => ?_, ?_,
    fun _ hx => ?_,
    rfl, fun q hq => ?_, fun m hm => ?_⟩
  · unfold Family.state
    rw [hc.unused]
    decide
  · rw [if_neg]
    · rfl
    · unfold Family.state
      rw [hc.unused]
      decide
  · refine guardian_congr rfl rfl ?_
    show (u.proc u.initproc).pid = s.pid s.table.initproc
    rw [hc.initproc, hc.others _ hinit]
    rfl
  · constructor
    · exact fun hq => ProcState.noConfusion (hstate.symm.trans hq)
    · exact fun hq => ProcState.noConfusion (hstate.symm.trans hq)
  · exact ProcState.noConfusion (hstate.symm.trans hq)
  · exact absurd (hq.symm.trans hparent) (Option.some_ne_none q)
  · exact Or.inr (Or.inl hstate)
  · exact absurd hpid (Nat.ne_of_lt (h.below _ hx))
  · have hembryo := (h.child q np hq).1
    exact ProcState.noConfusion (hc.unused.symm.trans hembryo)
  · obtain rfl := Option.some.inj hm
    exact ⟨rfl, hstate, hparent⟩

/-- The process that forks changes the slot that it fills. -/
theorem Ties.fill (h : Ties s) (hchild : (s.doing p).child = some np) (hrun : s.state p = .RUNNING)
    {d : Doing} {m : ℕ → ℕ} (hinit : u.initproc = s.table.initproc)
    (hnext : u.nextpid = s.table.nextpid)
    (hothers : ∀ q, q ≠ np → u.proc q = s.table.proc q) (hpid : (u.proc np).pid = s.pid np)
    (hmaker : ∀ q, q ≠ np → m (s.pid q) = s.maker (s.pid q))
    (hslot : (u.proc np).state = .UNUSED ∧ (u.proc np).parent = none ∨
      ((u.proc np).state = .EMBRYO ∨ (u.proc np).state = .RUNNABLE) ∧ (u.proc np).parent = some p ∧
        (if m (s.pid np) ∈ s.exited then s.pid s.table.initproc else m (s.pid np)) = s.pid p)
    (hd : ∀ r, d.child = some r → r = np ∧ (u.proc np).state = .EMBRYO ∧ d = .ready np) :
    Ties { s with table := u, doing := Function.update s.doing p d, maker := m } := by
  obtain ⟨hembryo, _⟩ := h.child p np hchild
  have hused : s.state np ≠ .UNUSED := by
    rw [hembryo]
    simp
  have hdead : (s.state np).phase ≠ .RUNNABLE := by
    rw [hembryo]
    decide
  have hlive : (s.state p).phase = .RUNNABLE := by
    rw [hrun]
    rfl
  have hinit' : s.table.initproc ≠ np := by
    intro he
    exact hdead (he ▸ h.init.1)
  have hin : np < NPROC := by
    by_contra hout
    exact hused (h.pids.inside np (Nat.le_of_not_lt hout))
  have hpids : Pids u := by
    refine h.pids.slot hothers hnext.ge ?_ (Or.inl hpid) (fun _ => ?_) hin
    · rw [hpid, hnext]
      exact h.pids.below np
    · rw [hpid]
      exact h.pids.positive np hused
  suffices hrefilled : Refilled s
    { s with table := u, doing := Function.update s.doing p d, maker := m } p np d from
    h.refilled hrefilled hpids hnext.ge
  refine ⟨hinit, hothers, hdead, rfl, ?_, fun q hq => ?_, ?_, fun hq => ?_, fun q hq => ?_, ?_,
    fun _ => ?_,
    rfl, fun q hq => h.children q p np hq hchild, fun r hr => ?_⟩
  · rw [if_neg]
    rw [hembryo]
    simp
  · refine guardian_congr (hmaker q hq) rfl ?_
    show (u.proc u.initproc).pid = s.pid s.table.initproc
    rw [hinit, hothers _ hinit']
    rfl
  · constructor
    · intro hq
      change (u.proc np).state = _ at hq
      rcases hslot with ⟨hs, _⟩ | ⟨hs | hs, _⟩
      · exact ProcState.noConfusion (hs.symm.trans hq)
      · exact ProcState.noConfusion (hs.symm.trans hq)
      · exact ProcState.noConfusion (hs.symm.trans hq)
    · intro hq
      change (u.proc np).state = _ at hq
      rcases hslot with ⟨hs, _⟩ | ⟨hs | hs, _⟩
      · exact ProcState.noConfusion (hs.symm.trans hq)
      · exact ProcState.noConfusion (hs.symm.trans hq)
      · exact ProcState.noConfusion (hs.symm.trans hq)
  · change (u.proc np).state = _ at hq
    rcases hslot with ⟨_, hnone⟩ | ⟨hs | hs, _⟩
    · exact hnone
    · exact ProcState.noConfusion (hs.symm.trans hq)
    · exact ProcState.noConfusion (hs.symm.trans hq)
  · change (u.proc np).parent = _ at hq
    rcases hslot with ⟨_, hnone⟩ | ⟨_, hparent, hm⟩
    · exact absurd (hq.symm.trans hnone) (Option.some_ne_none q)
    · obtain rfl := Option.some.inj (hq.symm.trans hparent)
      refine ⟨hlive, ?_⟩
      have hg : Family.guardian
          { s with table := u, doing := Function.update s.doing q d, maker := m }
          (s.pid np) = s.pid q := by
        show (if m (s.pid np) ∈ s.exited then (u.proc u.initproc).pid else m (s.pid np)) = s.pid q
        rw [hinit, hothers _ hinit']
        exact hm
      exact hg.symm.trans (congrArg _ hpid.symm)
  · rcases hslot with ⟨hs, _⟩ | ⟨_, hparent, _⟩
    · exact Or.inl hs
    · refine Or.inr (Or.inr ?_)
      change (u.proc np).parent ≠ none
      rw [hparent]
      simp
  · show (u.proc np).pid ∉ s.exited
    rw [hpid]
    refine h.fresh np hused ?_
    rw [hembryo]
    simp
  · obtain ⟨he, hs, hready⟩ := hd r hr
    refine ⟨he, hs, ?_⟩
    rw [if_pos hready]
    rcases hslot with ⟨hs', _⟩ | ⟨_, hparent, _⟩
    · exact ProcState.noConfusion (hs.symm.trans hs')
    · exact hparent

theorem scanned_quiet (s : Family) (p : ℕ) : Quiet s.table (s.scanned p) := by
  unfold Family.scanned
  split
  · exact tidy_quiet s.table p
  · exact .refl s.table

/-- What a scan of wait finds: a zombie child, or none, and then the process sleeps or
returns -1. -/
theorem scan_found (s : Family) (p : ℕ) :
    (∃ q, s.parent q = some p ∧ s.state q = .ZOMBIE ∧ ((s.scanned p).wait p).2 =
      some (s.pid q : ℤ) ∧
      s.found p = some (s.pid q) ∧ ((s.scanned p).wait p).1 = (s.scanned p).set q fun x =>
        { x with kstack := false, pid := 0, parent := none, killed := false, state := .UNUSED }) ∨
      (∀ q, q < NPROC → s.parent q = some p → s.state q ≠ .ZOMBIE) ∧ s.found p = none ∧
        (((s.scanned p).wait p).2 = some (-1) ∧ ((s.scanned p).wait p).1 = s.scanned p ∨
          ((s.scanned p).wait p).2 = none ∧ ((s.scanned p).wait p).1 = (s.scanned p).sleep p
          (.proc p)) := by
  have hk := scanned_quiet s p
  rcases wait_found (Prod.eta ((s.scanned p).wait p)).symm with ⟨q, hparent, hzombie, hr, hu⟩ | ⟨hno, hr⟩
  · refine Or.inl ⟨q, (hk.parent q).symm.trans hparent, (hk.zombie q).mp hzombie, ?_, ?_, hu⟩
    · rw [hr, hk.pid]
      rfl
    · unfold Family.found
      rw [hr, hk.pid]
      rfl
  · refine Or.inr ⟨fun q hq hparent hzombie => ?_, ?_, hr⟩
    · exact hno q hq ((hk.parent q).trans hparent) ((hk.zombie q).mpr hzombie)
    · unfold Family.found
      rcases hr with ⟨hr, _⟩ | ⟨hr, _⟩
      · rw [hr]
        rfl
      · rw [hr]
        rfl

/-- A step that leaves its process with no slot to fill. -/
theorem idle_doing {d : Doing} (hd : d.child = none) (q np : ℕ)
    (hq : (Function.update s.doing p d q).child = some np) :
    (s.doing q).child = some np ∧
      (Function.update s.doing p d q = .ready np ↔ s.doing q = .ready np) := by
  by_cases hqp : q = p
  · rw [hqp, Function.update_self, hd] at hq
    cases hq
  · rw [Function.update_of_ne hqp] at hq ⊢
    exact ⟨hq, Iff.rfl⟩

theorem Ties.turn (h : Ties s) (hk : Quiet s.table u) {d : Doing} (hd : d.child = none) :
    Ties (s.turn p d u) :=
  h.quiet hk (idle_doing hd)

/-- A wait frees the slot of a zombie child. -/
theorem Ties.reap (h : Ties s) (p : ℕ) (hzombie : s.state q = .ZOMBIE) :
    Ties { s.turn p .other (s.table.set q fun x =>
      { x with kstack := false, pid := 0, parent := none, killed := false, state := .UNUSED }) with
    returned := s.pid q :: s.returned } := by
  have hfree : ∀ f : Proc → Proc, (f (s.table.proc q)).state = .UNUSED →
      (f (s.table.proc q)).pid = 0 → (f (s.table.proc q)).parent = none →
      Ties { s.turn p .other (s.table.set q f) with returned := s.pid q :: s.returned } := by
    intro f hstate hpid hnone
    have hset : (s.table.set q f).proc q = f (s.table.proc q) := Ptable.set_self
    have hin : q < NPROC := by
      by_contra hout
      exact ProcState.noConfusion ((h.pids.inside q (Nat.le_of_not_lt hout)).symm.trans hzombie)
    have hpids : Pids (s.table.set q f) := by
      refine h.pids.slot (fun r hr => Ptable.set_other hr) le_rfl ?_ (Or.inr (Or.inl ?_))
        (fun hq => ?_) hin
      · rw [hset, hpid]
        exact Nat.lt_of_le_of_lt (Nat.zero_le _) (h.pids.below 0)
      · rw [hset, hpid]
      · rw [hset] at hq
        exact absurd hstate hq
    have hinit : s.table.initproc ≠ q := by
      intro he
      have hlive := h.init.1
      rw [he, hzombie] at hlive
      cases hlive
    have hrefilled : Refilled s
        { s.turn p .other (s.table.set q f) with returned := s.pid q :: s.returned }
        p q .other := by
      refine ⟨rfl, fun r hr => Ptable.set_other hr, ?_, rfl, (if_pos hzombie).symm,
        fun r _ => ?_, ?_,
        fun _ => ?_, fun r hr => ?_, Or.inl ?_, fun hq => ?_, rfl, fun r hr => ?_,
        fun m hm => by cases hm⟩
      · rw [hzombie]
        decide
      · refine guardian_congr rfl rfl ?_
        exact congrArg Proc.pid (Ptable.set_other hinit)
      · constructor
        · exact fun hq => ProcState.noConfusion
            (hstate.symm.trans ((congrArg Proc.state hset).symm.trans hq))
        · exact fun hq => ProcState.noConfusion
            (hstate.symm.trans ((congrArg Proc.state hset).symm.trans hq))
      · exact (congrArg Proc.parent hset).trans hnone
      · exact absurd (hr.symm.trans ((congrArg Proc.parent hset).trans hnone))
          (Option.some_ne_none r)
      · exact (congrArg Proc.state hset).trans hstate
      · exact absurd ((congrArg Proc.state hset).trans hstate) hq
      · exact ProcState.noConfusion (hzombie.symm.trans (h.child r q hr).1)
    exact h.refilled hrefilled hpids le_rfl
  exact hfree _ rfl rfl rfl

theorem Ties.wait (h : Ties s) (hrun : s.state p = .RUNNING) :
    Ties { s.turn p (if ((s.scanned p).wait p).2 = none then .waiting else .other)
        ((s.scanned p).wait p).1 with returned := (s.found p).toList ++ s.returned } := by
  have hk := scanned_quiet s p
  have hscanned : Ties { s with table := s.scanned p } := h.quiet hk fun _ _ hq => ⟨hq, Iff.rfl⟩
  have hphase : ((s.scanned p).proc p).state.phase = .RUNNABLE := by
    rw [hk.phase]
    exact congrArg ProcState.phase hrun
  rcases scan_found s p with ⟨q, _, hzombie, hr, hf, hu⟩ | ⟨hno, hf, ⟨hr, hu⟩ | ⟨hr, hu⟩⟩
  · rw [hr, hf, hu]
    have hreap := hscanned.reap p (q := q) ((hk.zombie q).mpr hzombie)
    have hpid : ((s.scanned p).proc q).pid = s.pid q := hk.pid q
    unfold Family.pid at hreap
    dsimp only at hreap
    rw [hpid] at hreap
    exact hreap
  · rw [hr, hf, hu]
    exact h.turn hk rfl
  · rw [hr, hf, hu]
    refine hscanned.same (waitSleep_sameKin hphase) (fun r hr => ?_) (idle_doing rfl)
    by_cases hrp : r = p
    · intro q hq hz
      rw [hrp] at hq
      have hin : q < NPROC := by
        by_contra hout
        exact ProcState.noConfusion ((hscanned.pids.inside q (Nat.le_of_not_lt hout)).symm.trans hz)
      exact hno q hin ((hk.parent q).symm.trans hq) ((hk.zombie q).mp hz)
    · refine hscanned.heard r ?_
      unfold InWait at hr ⊢
      rwa [Ptable.sleep, Ptable.set_other hrp] at hr

/-- A fork that fails gives the slot back. -/
theorem Ties.abort (h : Ties s) (hchild : (s.doing p).child = some np)
    (hready : s.doing p ≠ .ready np)
    (hrun : s.state p = .RUNNING) {f : Proc → Proc} (hstate : (f (s.table.proc np)).state = .UNUSED)
    (hpid : (f (s.table.proc np)).pid = s.pid np)
    (hparent : (f (s.table.proc np)).parent = s.parent np) :
    Ties (s.turn p .other (s.table.set np f)) := by
  have hself : (s.table.set np f).proc np = f (s.table.proc np) := Ptable.set_self
  have hnone := (h.child p np hchild).2
  rw [if_neg hready] at hnone
  refine h.fill (d := .other) (m := s.maker) hchild hrun rfl rfl (fun q hq => Ptable.set_other hq)
    ?_ (fun _ _ => rfl) (Or.inl ⟨?_, ?_⟩) fun r hr => by cases hr
  · rw [hself, hpid]
  · rw [hself, hstate]
  · rw [hself, hparent, hnone]

/-- The new process gets its address space and its parent. -/
theorem Ties.space (h : Ties s) (hchild : (s.doing p).child = some np)
    (hrun : s.state p = .RUNNING) : Ties { s.turn p (.ready np) (s.table.copyuvm p np true) with
      maker := Function.update s.maker (s.pid np) (s.pid p) } := by
  have hself : (s.table.copyuvm p np true).proc np =
      { s.table.proc np with pgdir := s.table.nextpgdir, parent := some p } :=
      Function.update_self ..
  have hembryo := (h.child p np hchild).1
  have hused : s.state np ≠ .UNUSED := by
    rw [hembryo]
    simp
  have hfresh : s.pid p ∉ s.exited := by
    refine h.fresh p ?_ ?_
    · rw [hrun]
      simp
    · rw [hrun]
      simp
  refine h.fill (d := .ready np) hchild hrun rfl rfl (fun q hq => Function.update_of_ne hq ..) ?_
    (fun q hq => ?_) (Or.inr ⟨Or.inl ?_, ?_, ?_⟩) fun r hr => ⟨?_, ?_, rfl⟩
  · exact (congrArg Proc.pid hself).trans rfl
  · refine Function.update_of_ne (fun he => hq ?_) ..
    exact (h.pids.distinct np q (h.pids.positive np hused) he.symm).symm
  · exact (congrArg Proc.state hself).trans hembryo
  · exact congrArg Proc.parent hself
  · rw [Function.update_self, if_neg hfresh]
  · exact (Option.some.inj hr).symm
  · exact (congrArg Proc.state hself).trans hembryo

theorem Ties.release (h : Ties s) (hdoing : s.doing p = .ready np) (hrun : s.state p = .RUNNING) :
    Ties (s.turn p .other (s.table.release np)) := by
  have hself : (s.table.release np).proc np = { s.table.proc np with state := .RUNNABLE } :=
    Ptable.set_self
  have hchild : (s.doing p).child = some np := by
    rw [hdoing]
    rfl
  have hparent := (h.child p np hchild).2
  rw [if_pos hdoing] at hparent
  refine h.fill (d := .other) (m := s.maker) hchild hrun rfl rfl (fun q hq => Ptable.set_other hq)
    ?_ (fun _ _ => rfl) (Or.inr ⟨Or.inr ?_, ?_, (h.tied np p hparent).symm⟩) fun r hr => by cases hr
  · exact (congrArg Proc.pid hself).trans rfl
  · exact congrArg Proc.state hself
  · exact (congrArg Proc.parent hself).trans hparent

theorem Ties.step {a : FamilyAct} (h : Ties s) (hs : s.step a = some s') : Ties s' := by
  have hsame : ∀ {u}, Quiet s.table u → Ties { s with table := u } :=
    fun hk => h.quiet hk fun _ _ hq => ⟨hq, Iff.rfl⟩
  cases a with
  | claim p =>
    obtain ⟨hfree, hs⟩ := Option.ite_none_right_eq_some.mp hs
    split at hs
    · exact Option.some.inj hs ▸ h
    · rename_i u np hu
      exact Option.some.inj hs ▸ h.claim hu
  | kstack p kalloc =>
    dsimp only [Family.step] at hs
    split at hs
    · rename_i np hdoing
      obtain ⟨hrun, hs⟩ := Option.ite_none_right_eq_some.mp hs
      obtain rfl := Option.some.inj hs
      have hchild : (s.doing p).child = some np := by
        rw [hdoing]
        rfl
      cases kalloc with
      | true =>
        refine h.quiet (kstack_quiet s.table np) fun q m hq => ?_
        by_cases hqp : q = p
        · rw [hqp, Function.update_self] at hq ⊢
          rw [hchild, ← hq, hdoing]
          exact ⟨rfl, by simp⟩
        · rw [Function.update_of_ne hqp] at hq ⊢
          exact ⟨hq, Iff.rfl⟩
      | false =>
        refine h.abort (f := fun q => { q with state := .UNUSED }) hchild ?_ hrun rfl rfl rfl
        rw [hdoing]
        simp
    · cases hs
  | copyuvm p ok =>
    dsimp only [Family.step] at hs
    split at hs
    · rename_i np hdoing
      obtain ⟨hrun, hs⟩ := Option.ite_none_right_eq_some.mp hs
      have hchild : (s.doing p).child = some np := by
        rw [hdoing]
        rfl
      split at hs
      · obtain rfl := Option.some.inj hs
        exact h.space hchild hrun
      · obtain rfl := Option.some.inj hs
        refine h.abort (f := fun q => { q with kstack := false, state := .UNUSED }) hchild
          ?_ hrun rfl rfl rfl
        rw [hdoing]
        simp
    · cases hs
  | release p =>
    dsimp only [Family.step] at hs
    split at hs
    · rename_i np hdoing
      obtain ⟨hrun, hs⟩ := Option.ite_none_right_eq_some.mp hs
      exact Option.some.inj hs ▸ h.release hdoing hrun
    · cases hs
  | exit p =>
    obtain ⟨hfree, hs⟩ := Option.ite_none_right_eq_some.mp hs
    obtain ⟨u, hu, rfl⟩ := Option.map_eq_some_iff.mp hs
    exact h.exit hfree.1 hfree.2 hu
  | wait p =>
    obtain ⟨hdoing, hs⟩ := Option.ite_none_right_eq_some.mp hs
    exact Option.some.inj hs ▸ h.wait hdoing.1
  | kill p pid =>
    obtain ⟨_, hs⟩ := Option.ite_none_right_eq_some.mp hs
    exact Option.some.inj hs ▸ hsame (kill_quiet s.table pid)
  | fault p =>
    obtain ⟨_, hs⟩ := Option.ite_none_right_eq_some.mp hs
    exact Option.some.inj hs ▸ hsame (fault_quiet s.table p)
  | sleep p a =>
    obtain ⟨hfree, hs⟩ := Option.ite_none_right_eq_some.mp hs
    exact Option.some.inj hs ▸ h.turn (sleep_quiet hfree.1 a) rfl
  | awake p =>
    obtain ⟨_, hs⟩ := Option.ite_none_right_eq_some.mp hs
    exact Option.some.inj hs ▸ h.turn (tidy_quiet s.table p) rfl
  | yield p =>
    obtain ⟨hrun, hs⟩ := Option.ite_none_right_eq_some.mp hs
    exact Option.some.inj hs ▸ hsame (yield_quiet hrun.1)
  | schedule p =>
    obtain ⟨u, hu, rfl⟩ := Option.map_eq_some_iff.mp hs
    exact hsame (schedule_quiet hu)
  | wakeup a => exact Option.some.inj hs ▸ hsame (wakeup1_quiet s.table (some (.addr a)))

theorem Ties.byParent (h : Ties s) (a : FamilyAct) : ByParent s a := by
  cases a with
  | wait p =>
    intro _
    rcases scan_found s p with ⟨q, hparent, hzombie, _, hf, _⟩ | ⟨hno, hf, _⟩
    · refine ⟨fun pid hpid => ?_, fun _ _ _ => ⟨_, hf⟩⟩
      obtain rfl := Option.some.inj (hf.symm.trans hpid)
      obtain ⟨hexited, hnot⟩ := h.zombie q hzombie
      exact ⟨hexited, hnot, h.tied q p hparent⟩
    · refine ⟨fun pid hpid => absurd (hpid.symm.trans hf) (Option.some_ne_none pid),
        fun q hq hz => ?_⟩
      have hin : q < NPROC := by
        by_contra hout
        exact ProcState.noConfusion ((h.pids.inside q (Nat.le_of_not_lt hout)).symm.trans hz)
      exact absurd hz (hno q hin hq)
  | _ => trivial

end Ties

namespace Family

/-- init alone, before the scheduler first runs. -/
def start : Family := ⟨booted.table, fun _ => .other, fun _ => 0, [], []⟩

theorem start_proc (p : ℕ) : start.table.proc p =
    if p = 0 then ⟨.RUNNABLE, 1, none, none, false, true, 1⟩ else ⟨.UNUSED, 0, none, none, false, false, 0⟩ :=
  booted_proc p

theorem start_ties : Ties start := by
  have hparent : ∀ p, start.parent p = none := by
    intro p
    unfold parent
    rw [start_proc]
    split <;> rfl
  have hzombie : ∀ p, start.state p ≠ .ZOMBIE := by
    intro p
    unfold state
    rw [start_proc]
    split <;> simp
  refine ⟨booted_inv.pids, fun p _ => hparent p, ⟨rfl, hparent _⟩, fun p q hq => ?_,
    fun p q hq => ?_,
    fun p hp hunused _ => ?_, fun p _ q hq => ?_, fun p np hnp => ?_, fun p q np hnp => ?_,
    ⟨List.nodup_nil, List.nodup_nil⟩, fun _ h => h, fun _ h => ?_, fun _ h => ?_,
    fun p hp => absurd hp (hzombie p), fun p _ _ h => ?_⟩
  · exact absurd (hq.symm.trans (hparent p)) (Option.some_ne_none q)
  · exact absurd (hq.symm.trans (hparent p)) (Option.some_ne_none q)
  · refine absurd ?_ hunused
    unfold state
    rw [start_proc, if_neg (show p ≠ 0 from hp)]
  · exact absurd (hq.symm.trans (hparent q)) (Option.some_ne_none p)
  · cases hnp
  · cases hnp
  · cases h
  · cases h
  · cases h

/-- In every run each process that exits is returned by one wait of its parent, or is
still there for it, no parent is gone and no wait is missed. -/
theorem always_accounted (as : List FamilyAct) :
    Always step Accounted start as ∧ Along step ByParent start as := by
  have hkeep : ∀ s a t, Ties s → s.step a = some t → Ties t := fun _ _ _ h hs => h.step hs
  constructor
  · exact (always_of_invariant hkeep start_ties as).mono fun _ h => h.accounted
  · exact along_of_invariant (fun _ a h => h.byParent a) hkeep start_ties as

end Family

end NorthOS.Process
