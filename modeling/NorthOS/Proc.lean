import Mathlib.Logic.Function.Basic
import Mathlib.Data.List.Basic
import Mathlib.Data.Int.Notation
import Mathlib.Tactic.Common

/-!
The process table of proc.c. A process is an index of the table, as the kernel's
pointers to it are. fork, exit and wait are one step each: the slot a fork fills is
EMBRYO, which nobody else looks at, until it is RUNNABLE. An address space is known by
the number of its page directory, 0 for none; freeing one leaves the pointer to it.
-/
namespace NorthOS.Process

def NPROC : ℕ := 64

inductive ProcState
  | UNUSED | EMBRYO | SLEEPING | RUNNABLE | RUNNING | ZOMBIE
  deriving DecidableEq, Repr

/-- What a process sleeps on: a process, or any other address. -/
inductive Chan
  | proc (p : ℕ)
  | addr (a : ℕ)
  deriving DecidableEq

structure Proc where
  state : ProcState
  pid : ℕ
  parent : Option ℕ
  chan : Option Chan
  killed : Bool
  kstack : Bool
  pgdir : ℕ

/-- `nextpgdir` numbers the page directories as they are built. -/
structure Ptable where
  proc : ℕ → Proc
  initproc : ℕ
  nextpid : ℕ
  nextpgdir : ℕ

namespace Ptable

def set (t : Ptable) (p : ℕ) (f : Proc → Proc) : Ptable :=
  { t with proc := Function.update t.proc p (f (t.proc p)) }

/-- `kalloc` tells whether there is a page for the kernel stack. -/
def allocproc (t : Ptable) (kalloc : Bool) : Ptable × Option ℕ :=
  match (List.range NPROC).find? fun p => (t.proc p).state = .UNUSED with
  | none => (t, none)
  | some p =>
    let u := { t.set p fun q => { q with state := .EMBRYO, pid := t.nextpid } with
      nextpid := t.nextpid + 1 }
    if kalloc then (u.set p fun q => { q with kstack := true }, some p)
    else (u.set p fun q => { q with state := .UNUSED }, none)

/-- The first process. Without memory for it the kernel panics. -/
def userinit (t : Ptable) (kalloc setupkvm : Bool) : Option Ptable :=
  match t.allocproc kalloc with
  | (_, none) => none
  | (u, some p) =>
    if setupkvm then
      some { u.set p fun q => { q with pgdir := u.nextpgdir, state := .RUNNABLE } with
        initproc := p
        nextpgdir := u.nextpgdir + 1 }
    else none

/-- Returns the child's pid. -/
def fork (t : Ptable) (curproc : ℕ) (kalloc copyuvm : Bool) : Ptable × Option ℕ :=
  match t.allocproc kalloc with
  | (u, none) => (u, none)
  | (u, some np) =>
    if copyuvm then
      ({ u.set np fun q =>
          { q with pgdir := u.nextpgdir, parent := some curproc, state := .RUNNABLE } with
        nextpgdir := u.nextpgdir + 1 }, some (u.proc np).pid)
    else (u.set np fun q => { q with kstack := false, state := .UNUSED }, none)

def wakeup1 (t : Ptable) (chan : Option Chan) : Ptable :=
  { t with proc := fun p =>
      if (t.proc p).state = .SLEEPING ∧ (t.proc p).chan = chan then
        { t.proc p with state := .RUNNABLE }
      else t.proc p }

/-- The loop of exit that passes the children to init. -/
def abandon (t : Ptable) (curproc : ℕ) : List ℕ → Ptable
  | [] => t
  | p :: rest =>
    let u :=
      if (t.proc p).parent = some curproc then
        let v := t.set p fun q => { q with parent := some t.initproc }
        if (v.proc p).state = .ZOMBIE then v.wakeup1 (some (.proc t.initproc)) else v
      else t
    u.abandon curproc rest

/-- The part of exit under ptable.lock; init may not exit. -/
def exit (t : Ptable) (curproc : ℕ) : Option Ptable :=
  if curproc = t.initproc then none
  else
    let u := t.wakeup1 ((t.proc curproc).parent.map .proc)
    let v := u.abandon curproc (List.range NPROC)
    some (v.set curproc fun q => { q with state := .ZOMBIE })

/-- One scan of wait: the pid of a child that exited, -1 where there is no child to wait
for, or nothing, and the process sleeps until it scans again. -/
def wait (t : Ptable) (curproc : ℕ) : Ptable × Option ℤ :=
  match (List.range NPROC).find? fun p =>
      (t.proc p).parent = some curproc ∧ (t.proc p).state = .ZOMBIE with
  | some p =>
    (t.set p fun q =>
      { q with kstack := false, pid := 0, parent := none, killed := false, state := .UNUSED },
      some (t.proc p).pid)
  | none =>
    if ((List.range NPROC).any fun p => (t.proc p).parent = some curproc) = false ∨
        (t.proc curproc).killed then
      (t, some (-1))
    else
      (t.set curproc fun q => { q with chan := some (.proc curproc), state := .SLEEPING }, none)

/-- The process only exits when it next returns to user space. -/
def kill (t : Ptable) (pid : ℕ) : Ptable × ℤ :=
  match (List.range NPROC).find? fun p => (t.proc p).pid = pid with
  | some p =>
    (t.set p fun q => { q with
      killed := true
      state := if q.state = .SLEEPING then .RUNNABLE else q.state }, 0)
  | none => (t, -1)

/-- The scheduler picks the process. -/
def schedule (t : Ptable) (p : ℕ) : Option Ptable :=
  if (t.proc p).state = .RUNNABLE then some (t.set p fun q => { q with state := .RUNNING })
  else none

def yield (t : Ptable) (curproc : ℕ) : Ptable :=
  t.set curproc fun q => { q with state := .RUNNABLE }

def sleep (t : Ptable) (curproc : ℕ) (chan : Chan) : Ptable :=
  t.set curproc fun q => { q with chan := some chan, state := .SLEEPING }

/-- A successful exec runs the process in a new address space and frees the old one. -/
def exec (t : Ptable) (curproc : ℕ) : Ptable :=
  { t.set curproc fun q => { q with pgdir := t.nextpgdir } with nextpgdir := t.nextpgdir + 1 }

end Ptable

/-- The process has been created and has not exited. -/
structure Alive (t : Ptable) (p : ℕ) : Prop where
  used : (t.proc p).state ≠ .UNUSED
  running : (t.proc p).state ≠ .ZOMBIE

/-- A process in use has a stack and an address space. -/
structure Built (t : Ptable) : Prop where
  kstack : ∀ p, (t.proc p).state ≠ .UNUSED → (t.proc p).kstack = true
  pgdir : ∀ p, (t.proc p).state ≠ .UNUSED → (t.proc p).pgdir ≠ 0
  next : t.nextpgdir ≠ 0

/-- The process lives on under the same pid in the same address space. -/
structure LivesOn (t u : Ptable) (p : ℕ) : Prop where
  alive : Alive u p
  pid : (u.proc p).pid = (t.proc p).pid
  pgdir : (u.proc p).pgdir = (t.proc p).pgdir

/-- Every living process but the one named, if any, lives on. -/
def KeepsAlive (t u : Ptable) (except : Option ℕ) : Prop :=
  ∀ p, Alive t p → except ≠ some p → LivesOn t u p

variable {t u v : Ptable} {p : ℕ}

theorem LivesOn.trans (h : LivesOn t u p) (h' : LivesOn u v p) : LivesOn t v p :=
  ⟨h'.alive, h'.pid.trans h.pid, h'.pgdir.trans h.pgdir⟩

theorem LivesOn.of_eq (h : Alive t p) (he : u.proc p = t.proc p) : LivesOn t u p :=
  ⟨⟨by rw [he]; exact h.used, by rw [he]; exact h.running⟩, by rw [he], by rw [he]⟩

theorem KeepsAlive.refl (t : Ptable) (e : Option ℕ) : KeepsAlive t t e :=
  fun _ h _ => .of_eq h rfl

theorem KeepsAlive.trans {e : Option ℕ} (h : KeepsAlive t u none) (h' : KeepsAlive u v e) :
    KeepsAlive t v e := by
  intro p hp he
  have hu := h p hp (by simp)
  exact hu.trans (h' p hu.alive he)

/-- A change of one entry, of a process that lives on or was not alive. -/
theorem KeepsAlive.of_one (hother : ∀ q, q ≠ p → u.proc q = t.proc q)
    (hself : Alive t p → LivesOn t u p) : KeepsAlive t u none := by
  intro q hq _
  by_cases hqp : q = p
  · subst hqp
    exact hself hq
  · exact .of_eq hq (hother q hqp)

/-- The entry that changed is still in order. -/
theorem Built.of_one (h : Built t) (hother : ∀ q, q ≠ p → u.proc q = t.proc q)
    (hself : (u.proc p).state ≠ .UNUSED → (u.proc p).kstack = true ∧ (u.proc p).pgdir ≠ 0)
    (hnext : u.nextpgdir ≠ 0) : Built u := by
  refine ⟨fun q hq => ?_, fun q hq => ?_, hnext⟩
  · by_cases hqp : q = p
    · subst hqp
      exact (hself hq).1
    · rw [hother q hqp] at hq ⊢
      exact h.kstack q hq
  · by_cases hqp : q = p
    · subst hqp
      exact (hself hq).2
    · rw [hother q hqp] at hq ⊢
      exact h.pgdir q hq

namespace Ptable

theorem set_other {f : Proc → Proc} {q : ℕ} (h : q ≠ p) : (t.set p f).proc q = t.proc q :=
  Function.update_of_ne h _ _

theorem set_self {f : Proc → Proc} : (t.set p f).proc p = f (t.proc p) :=
  Function.update_self _ _ _

/-- A change of one living process that leaves it alive where it is. -/
theorem set_livesOn {f : Proc → Proc} (hstate : (f (t.proc p)).state ≠ .UNUSED ∧
      (f (t.proc p)).state ≠ .ZOMBIE)
    (hpid : (f (t.proc p)).pid = (t.proc p).pid)
    (hpgdir : (f (t.proc p)).pgdir = (t.proc p).pgdir) : KeepsAlive t (t.set p f) none := by
  refine .of_one (p := p) (fun q hq => set_other hq) fun _ => ?_
  exact ⟨⟨by rw [set_self]; exact hstate.1, by rw [set_self]; exact hstate.2⟩,
    by rw [set_self]; exact hpid, by rw [set_self]; exact hpgdir⟩

theorem set_built {f : Proc → Proc} (h : Built t)
    (hused : (f (t.proc p)).state ≠ .UNUSED → (t.proc p).state ≠ .UNUSED)
    (hkstack : (f (t.proc p)).kstack = (t.proc p).kstack)
    (hpgdir : (f (t.proc p)).pgdir = (t.proc p).pgdir) : Built (t.set p f) := by
  refine h.of_one (fun q hq => set_other hq) ?_ h.next
  rw [set_self]
  intro hstate
  rw [hkstack, hpgdir]
  exact ⟨h.kstack p (hused hstate), h.pgdir p (hused hstate)⟩

theorem wakeup1_keeps (t : Ptable) (chan : Option Chan) : KeepsAlive t (t.wakeup1 chan) none := by
  intro p hp _
  by_cases hc : (t.proc p).state = .SLEEPING ∧ (t.proc p).chan = chan
  · have he : (t.wakeup1 chan).proc p = { t.proc p with state := .RUNNABLE } := if_pos hc
    exact ⟨⟨by rw [he]; simp, by rw [he]; simp⟩, by rw [he], by rw [he]⟩
  · exact .of_eq hp (if_neg hc)

theorem wakeup1_built (h : Built t) (chan : Option Chan) : Built (t.wakeup1 chan) := by
  have hfields : ∀ p, ((t.wakeup1 chan).proc p).kstack = (t.proc p).kstack ∧
      ((t.wakeup1 chan).proc p).pgdir = (t.proc p).pgdir ∧
      (((t.wakeup1 chan).proc p).state ≠ .UNUSED → (t.proc p).state ≠ .UNUSED) := by
    intro p
    by_cases hc : (t.proc p).state = .SLEEPING ∧ (t.proc p).chan = chan
    · have he : (t.wakeup1 chan).proc p = { t.proc p with state := .RUNNABLE } := if_pos hc
      rw [he, hc.1]
      exact ⟨rfl, rfl, fun _ => by simp⟩
    · have he : (t.wakeup1 chan).proc p = t.proc p := if_neg hc
      rw [he]
      exact ⟨rfl, rfl, id⟩
  refine ⟨fun p hp => ?_, fun p hp => ?_, h.next⟩
  · rw [(hfields p).1]
    exact h.kstack p ((hfields p).2.2 hp)
  · rw [(hfields p).2.1]
    exact h.pgdir p ((hfields p).2.2 hp)

theorem abandon_keeps (h : Built t) (curproc : ℕ) (ps : List ℕ) :
    KeepsAlive t (t.abandon curproc ps) none ∧ Built (t.abandon curproc ps) := by
  induction ps generalizing t with
  | nil => exact ⟨.refl t none, h⟩
  | cons p rest ih =>
    have hone : ∀ u, u = (if (t.proc p).parent = some curproc then
        let v := t.set p fun q => { q with parent := some t.initproc }
        if (v.proc p).state = .ZOMBIE then v.wakeup1 (some (.proc t.initproc)) else v
        else t) → KeepsAlive t u none ∧ Built u := by
      intro u hu
      split at hu
      · have hv : KeepsAlive t (t.set p fun q => { q with parent := some t.initproc }) none := by
          refine .of_one (p := p) (fun q hq => set_other hq) fun hp => ?_
          exact ⟨⟨by rw [set_self]; exact hp.used, by rw [set_self]; exact hp.running⟩,
            by rw [set_self], by rw [set_self]⟩
        have hb : Built (t.set p fun q => { q with parent := some t.initproc }) :=
          set_built h id rfl rfl
        simp only at hu
        split at hu
        · subst hu
          exact ⟨hv.trans (wakeup1_keeps _ _), wakeup1_built hb _⟩
        · subst hu
          exact ⟨hv, hb⟩
      · rw [hu]
        exact ⟨.refl t none, h⟩
    obtain ⟨hk, hb⟩ := hone _ rfl
    obtain ⟨hk', hb'⟩ := ih hb
    exact ⟨hk.trans hk', hb'⟩

theorem exit_keeps (h : Built t) {curproc : ℕ} (he : t.exit curproc = some u) :
    KeepsAlive t u (some curproc) ∧ (Alive t curproc → Built u) := by
  unfold exit at he
  split at he
  · cases he
  simp only [Option.some.injEq] at he
  have hw := wakeup1_keeps t ((t.proc curproc).parent.map .proc)
  have hbw := wakeup1_built h ((t.proc curproc).parent.map .proc)
  obtain ⟨ha, hb⟩ := abandon_keeps hbw curproc (List.range NPROC)
  have hall := hw.trans ha
  generalize (t.wakeup1 ((t.proc curproc).parent.map .proc)).abandon curproc (List.range NPROC) = v
    at he hb hall
  subst he
  constructor
  · intro p hp hne
    have hv := hall p hp (by simp)
    exact hv.trans (.of_eq hv.alive (set_other fun e => hne (by rw [e])))
  · intro hcur
    exact set_built hb (fun _ => (hall curproc hcur (by simp)).alive.used) rfl rfl

/-- allocproc touches an unused entry, which it takes or leaves unused. -/
theorem allocproc_cases {kalloc : Bool} {r : Option ℕ} (h : t.allocproc kalloc = (u, r)) :
    (r = none ∧ u = t) ∨ ∃ p, (t.proc p).state = .UNUSED ∧
      (∀ q, q ≠ p → u.proc q = t.proc q) ∧ u.nextpgdir = t.nextpgdir ∧
      ((r = none ∧ (u.proc p).state = .UNUSED) ∨ (r = some p ∧ (u.proc p).kstack = true)) := by
  unfold allocproc at h
  split at h
  · obtain ⟨rfl, rfl⟩ := Prod.mk.inj h
    exact Or.inl ⟨rfl, rfl⟩
  · rename_i p hp
    have hunused : (t.proc p).state = .UNUSED := by simpa using List.find?_some hp
    right
    refine ⟨p, hunused, ?_⟩
    simp only at h
    split at h
    · obtain ⟨rfl, rfl⟩ := Prod.mk.inj h
      refine ⟨fun q hq => ?_, rfl, Or.inr ⟨rfl, congrArg Proc.kstack set_self⟩⟩
      rw [set_other hq]
      exact Function.update_of_ne hq _ _
    · obtain ⟨rfl, rfl⟩ := Prod.mk.inj h
      refine ⟨fun q hq => ?_, rfl, Or.inl ⟨rfl, congrArg Proc.state set_self⟩⟩
      rw [set_other hq]
      exact Function.update_of_ne hq _ _

theorem fork_keeps (h : Built t) (curproc : ℕ) (kalloc copyuvm : Bool) :
    KeepsAlive t (t.fork curproc kalloc copyuvm).1 none ∧
      Built (t.fork curproc kalloc copyuvm).1 := by
  unfold fork
  cases hu : t.allocproc kalloc with
  | mk u r =>
  rcases allocproc_cases hu with ⟨rfl, rfl⟩ | ⟨p, hunused, hother, hnext, hr⟩
  · exact ⟨.refl u none, h⟩
  have hdead : ¬ Alive t p := fun hp => hp.used hunused
  rcases hr with ⟨rfl, hstate⟩ | ⟨rfl, hkstack⟩
  · refine ⟨.of_one hother fun hp => absurd hp hdead, h.of_one hother ?_ ?_⟩
    · intro hne
      exact absurd hstate hne
    · rw [hnext]
      exact h.next
  · simp only
    split
    · have hfork : ∀ q, q ≠ p → (u.set p fun q => { q with
          pgdir := u.nextpgdir, parent := some curproc, state := .RUNNABLE }).proc q = t.proc q :=
        fun q hq => (set_other hq).trans (hother q hq)
      refine ⟨.of_one hfork fun hp => absurd hp hdead, h.of_one (p := p) hfork ?_ ?_⟩
      · intro _
        have hself : (u.set p fun q => { q with
            pgdir := u.nextpgdir, parent := some curproc, state := .RUNNABLE }).proc p =
            { u.proc p with pgdir := u.nextpgdir, parent := some curproc, state := .RUNNABLE } :=
          set_self
        refine ⟨(congrArg Proc.kstack hself).trans hkstack, fun he => h.next ?_⟩
        exact hnext.symm.trans ((congrArg Proc.pgdir hself).symm.trans he)
      · show u.nextpgdir + 1 ≠ 0
        omega
    · have hfail : ∀ q, q ≠ p → (u.set p fun q => { q with
          kstack := false, state := .UNUSED }).proc q = t.proc q :=
        fun q hq => (set_other hq).trans (hother q hq)
      refine ⟨.of_one hfail fun hp => absurd hp hdead, h.of_one hfail ?_ ?_⟩
      · dsimp only
        rw [set_self]
        exact fun hne => absurd rfl hne
      · exact hnext.trans_ne h.next

theorem sleep_keeps (h : Built t) (hp : Alive t p) (chan : Chan) :
    KeepsAlive t (t.sleep p chan) none ∧ Built (t.sleep p chan) := by
  unfold sleep
  refine ⟨set_livesOn ⟨?_, ?_⟩ rfl rfl, set_built h (fun _ => hp.used) rfl rfl⟩
  · simp
  · simp

theorem wait_keeps (h : Built t) {curproc : ℕ} (hcur : Alive t curproc) :
    KeepsAlive t (t.wait curproc).1 none ∧ Built (t.wait curproc).1 := by
  unfold wait
  split
  · rename_i p hp
    have hzombie : (t.proc p).state = .ZOMBIE := by
      have hfound := List.find?_some hp
      simp only [decide_eq_true_eq] at hfound
      exact hfound.2
    have hother : ∀ q, q ≠ p → (t.set p fun q => { q with
        kstack := false, pid := 0, parent := none, killed := false, state := .UNUSED }).proc q =
        t.proc q := fun q hq => set_other hq
    refine ⟨.of_one hother fun hp => absurd hzombie hp.running, h.of_one hother ?_ h.next⟩
    dsimp only
    rw [set_self]
    exact fun hne => absurd rfl hne
  · split
    · exact ⟨.refl t none, h⟩
    · exact sleep_keeps h hcur (.proc curproc)

theorem kill_keeps (h : Built t) (pid : ℕ) :
    KeepsAlive t (t.kill pid).1 none ∧ Built (t.kill pid).1 := by
  unfold kill
  split
  · rename_i p _
    dsimp only
    by_cases hs : (t.proc p).state = .SLEEPING
    · refine ⟨set_livesOn ?_ rfl rfl, set_built h ?_ rfl rfl⟩
      · simp [hs]
      · intro _
        rw [hs]
        simp
    · refine ⟨.of_one (p := p) (fun q hq => set_other hq) fun hp => ?_, set_built h ?_ rfl rfl⟩
      · have hself : (t.set p fun q => { q with
            killed := true
            state := if q.state = .SLEEPING then .RUNNABLE else q.state }).proc p =
            { t.proc p with killed := true } := by
          rw [set_self, if_neg hs]
        exact ⟨⟨by rw [hself]; exact hp.used, by rw [hself]; exact hp.running⟩, by rw [hself],
          by rw [hself]⟩
      · intro hne
        rwa [if_neg hs] at hne
  · exact ⟨.refl t none, h⟩

theorem schedule_keeps (h : Built t) (hs : t.schedule p = some u) :
    KeepsAlive t u none ∧ Built u := by
  unfold schedule at hs
  split at hs
  · rename_i hrunnable
    obtain rfl := Option.some.inj hs
    refine ⟨set_livesOn ⟨?_, ?_⟩ rfl rfl, set_built h ?_ rfl rfl⟩
    · simp
    · simp
    · intro _
      rw [hrunnable]
      simp
  · cases hs

theorem yield_keeps (h : Built t) (hp : Alive t p) :
    KeepsAlive t (t.yield p) none ∧ Built (t.yield p) := by
  unfold yield
  refine ⟨set_livesOn ⟨?_, ?_⟩ rfl rfl, set_built h (fun _ => hp.used) rfl rfl⟩
  · simp
  · simp

theorem exec_keeps (h : Built t) (hp : Alive t p) :
    KeepsAlive t (t.exec p) (some p) ∧ Built (t.exec p) := by
  have hother : ∀ q, q ≠ p → (t.exec p).proc q = t.proc q :=
    fun q hq => Function.update_of_ne hq _ _
  constructor
  · intro q hq hne
    exact .of_eq hq (hother q fun e => hne (by rw [e]))
  · refine h.of_one hother ?_ ?_
    · intro _
      have hself : (t.exec p).proc p = { t.proc p with pgdir := t.nextpgdir } :=
        Function.update_self _ _ _
      rw [hself]
      exact ⟨h.kstack p hp.used, h.next⟩
    · show t.nextpgdir + 1 ≠ 0
      omega

theorem userinit_built (h : Built t) {kalloc setupkvm : Bool}
    (hu : t.userinit kalloc setupkvm = some u) : Built u := by
  unfold userinit at hu
  cases hv : t.allocproc kalloc with
  | mk v r =>
  rw [hv] at hu
  rcases allocproc_cases hv with ⟨rfl, rfl⟩ | ⟨p, hunused, hother, hnext, ⟨rfl, _⟩ | ⟨rfl, hk⟩⟩
  · cases hu
  · cases hu
  · simp only at hu
    split at hu
    · obtain rfl := Option.some.inj hu
      have hself : (v.set p fun q => { q with
          pgdir := v.nextpgdir, state := .RUNNABLE }).proc p =
          { v.proc p with pgdir := v.nextpgdir, state := .RUNNABLE } := set_self
      have hrest : ∀ q, q ≠ p → (v.set p fun q => { q with
          pgdir := v.nextpgdir, state := .RUNNABLE }).proc q = t.proc q :=
        fun q hq => (set_other hq).trans (hother q hq)
      refine h.of_one (p := p) hrest ?_ ?_
      · intro _
        refine ⟨(congrArg Proc.kstack hself).trans hk, fun he => h.next ?_⟩
        exact hnext.symm.trans ((congrArg Proc.pgdir hself).symm.trans he)
      · show v.nextpgdir + 1 ≠ 0
        omega
    · cases hu

end Ptable

/-- The table before the first process. -/
def emptyTable : Ptable where
  proc := fun _ => ⟨.UNUSED, 0, none, none, false, false, 0⟩
  initproc := 0
  nextpid := 1
  nextpgdir := 1

theorem emptyTable_built : Built emptyTable :=
  ⟨fun _ h => absurd rfl h, fun _ h => absurd rfl h, by decide⟩

end NorthOS.Process
