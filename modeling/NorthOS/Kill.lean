import NorthOS.Proc
import NorthOS.Runs

/-!
Kill and the flag that it sets. Beside the process table the system remembers of each
slot whether its present process was named by a kill, or had a fault of its own. kill
looks at pids alone, and fork keeps the flag that it finds in the slot, so that the flag
tells the truth only as long as no kill names the pid of a slot that is not in use.
-/
namespace NorthOS.Process

open Runs

/-- The pids that the kernel hands out are not negative. -/
def Ptable.killPid (t : Ptable) : ℤ → Ptable × ℤ
  | .ofNat pid => t.kill pid
  | .negSucc _ => (t, -1)

structure Blamed where
  table : Ptable
  blamed : ℕ → Bool

/-- What the running process `curproc` does, and what the scheduler and interrupts do. -/
inductive KillAct
  | fork (curproc : ℕ) (kalloc copyuvm : Bool)
  | exit (curproc : ℕ)
  | wait (curproc : ℕ)
  | kill (curproc : ℕ) (pid : ℤ)
  | fault (curproc : ℕ)
  | schedule (p : ℕ)
  | yield (curproc : ℕ)
  | sleep (curproc : ℕ) (chan : Chan)
  | wakeup (chan : Chan)

namespace Blamed

def used (s : Blamed) (p : ℕ) : Bool := decide ((s.table.proc p).state ≠ .UNUSED)

/-- The process table after a system call of the running process. -/
def withTable (s : Blamed) (curproc : ℕ) (t : Ptable) : Option Blamed :=
  if (s.table.proc curproc).state = .RUNNING then some { s with table := t } else none

/-- A new process has no history; a kill blames the processes with the pid. -/
def step (s : Blamed) : KillAct → Option Blamed
  | .fork p kalloc copyuvm =>
    (s.withTable p (s.table.fork p kalloc copyuvm).1).map fun t =>
      { t with blamed := fun q => s.used q && s.blamed q }
  | .exit p => (s.table.exit p).bind fun t => s.withTable p t
  | .wait p => s.withTable p (s.table.wait p).1
  | .kill p pid =>
    (s.withTable p (s.table.killPid pid).1).map fun t =>
      { t with blamed := fun q => s.blamed q || s.used q && decide ((s.table.proc q).pid = pid) }
  | .fault p =>
    (s.withTable p (s.table.set p fun q => { q with killed := true })).map fun t =>
      { t with blamed := Function.update s.blamed p true }
  | .schedule p => (s.table.schedule p).map fun t => { s with table := t }
  | .yield p => s.withTable p (s.table.yield p)
  | .sleep p chan => s.withTable p (s.table.sleep p chan)
  | .wakeup chan => some { s with table := s.table.wakeup1 (some chan) }

end Blamed

/-- No process has the flag without a reason. -/
def Justified (s : Blamed) : Prop :=
  ∀ p, (s.table.proc p).state ≠ .UNUSED → (s.table.proc p).killed = true → s.blamed p = true

/-- No slot that is not in use has the pid that is killed. -/
def NamesNoSpare (s : Blamed) : KillAct → Prop
  | .kill _ pid => ∀ p, p < NPROC → ((s.table.proc p).pid : ℤ) = pid →
    (s.table.proc p).state ≠ .UNUSED
  | _ => True

section Pids

/-- The pids of the table: those of processes are positive and differ. -/
structure Pids (t : Ptable) : Prop where
  positive : ∀ p, (t.proc p).state ≠ .UNUSED → 0 < (t.proc p).pid
  below : ∀ p, (t.proc p).pid < t.nextpid
  distinct : ∀ p q, 0 < (t.proc p).pid → (t.proc p).pid = (t.proc q).pid → p = q
  inside : ∀ p, NPROC ≤ p → (t.proc p).state = .UNUSED

/-- The same slots are in use, with the same pids and flags. -/
structure SameIds (t u : Ptable) : Prop where
  nextpid : u.nextpid = t.nextpid
  pid : ∀ p, (u.proc p).pid = (t.proc p).pid
  unused : ∀ p, (u.proc p).state = .UNUSED ↔ (t.proc p).state = .UNUSED
  killed : ∀ p, (u.proc p).killed = (t.proc p).killed

variable {t u v : Ptable} {p q : ℕ}

theorem SameIds.refl (t : Ptable) :
    SameIds t t := ⟨rfl, fun _ => rfl, fun _ => Iff.rfl, fun _ => rfl⟩

theorem SameIds.trans (h : SameIds t u) (h' : SameIds u v) : SameIds t v where
  nextpid := h'.nextpid.trans h.nextpid
  pid := fun p => (h'.pid p).trans (h.pid p)
  unused := fun p => (h'.unused p).trans (h.unused p)
  killed := fun p => (h'.killed p).trans (h.killed p)

theorem SameIds.pids (h : SameIds t u) (ht : Pids t) : Pids u where
  positive := by
    intro p hp
    rw [h.pid]
    exact ht.positive p fun hu => hp ((h.unused p).mpr hu)
  below := by
    intro p
    rw [h.pid, h.nextpid]
    exact ht.below p
  distinct := by
    intro p q
    rw [h.pid, h.pid]
    exact ht.distinct p q
  inside := fun p hp => (h.unused p).mpr (ht.inside p hp)

theorem SameIds.set {f : Proc → Proc} (hpid : (f (t.proc p)).pid = (t.proc p).pid)
    (hunused : (f (t.proc p)).state = .UNUSED ↔ (t.proc p).state = .UNUSED)
    (hkilled : (f (t.proc p)).killed = (t.proc p).killed) : SameIds t (t.set p f) := by
  refine ⟨rfl, fun q => ?_, fun q => ?_, fun q => ?_⟩
  all_goals
    by_cases hq : q = p
    · subst hq
      rw [Ptable.set_self]
      assumption
    · rw [Ptable.set_other hq]

theorem wakeup1_sameIds (t : Ptable) (chan : Option Chan) : SameIds t (t.wakeup1 chan) := by
  have hone : ∀ p, (t.wakeup1 chan).proc p = t.proc p ∨
      (t.proc p).state = .SLEEPING ∧ (t.wakeup1 chan).proc p =
      { t.proc p with state := .RUNNABLE } := by
    intro p
    by_cases hc : (t.proc p).state = .SLEEPING ∧ (t.proc p).chan = chan
    · exact Or.inr ⟨hc.1, if_pos hc⟩
    · exact Or.inl (if_neg hc)
  refine ⟨rfl, fun p => ?_, fun p => ?_, fun p => ?_⟩
  · rcases hone p with he | ⟨_, he⟩ <;> rw [he]
  · rcases hone p with he | ⟨hs, he⟩
    · rw [he]
    · rw [he, hs]
      simp
  · rcases hone p with he | ⟨_, he⟩ <;> rw [he]

theorem abandon_sameIds (curproc : ℕ) (ps : List ℕ) : SameIds t (t.abandon curproc ps) := by
  induction ps generalizing t with
  | nil => exact .refl t
  | cons p rest ih =>
    have hparent : SameIds t (t.set p fun q => { q with parent := some t.initproc }) :=
      .set rfl Iff.rfl rfl
    refine SameIds.trans ?_ ih
    dsimp only
    split
    · split
      · exact hparent.trans (wakeup1_sameIds _ _)
      · exact hparent
    · exact .refl t

theorem exit_sameIds (hrun : (t.proc p).state = .RUNNING) (h : t.exit p = some u) :
    SameIds t u := by
  unfold Ptable.exit at h
  split at h
  · cases h
  · obtain rfl := Option.some.inj h
    have hwoken := wakeup1_sameIds t ((t.proc p).parent.map .proc)
    have hall := hwoken.trans (abandon_sameIds p (List.range NPROC))
    generalize (t.wakeup1 ((t.proc p).parent.map .proc)).abandon p (List.range NPROC) = v at hall ⊢
    refine hall.trans (.set rfl ?_ rfl)
    rw [hall.unused p, hrun]
    simp

theorem schedule_sameIds (h : t.schedule p = some u) : SameIds t u := by
  unfold Ptable.schedule at h
  split at h
  · rename_i hrunnable
    obtain rfl := Option.some.inj h
    refine .set rfl ?_ rfl
    rw [hrunnable]
    simp
  · cases h

theorem yield_sameIds (hrun : (t.proc p).state = .RUNNING) : SameIds t (t.yield p) := by
  refine .set rfl ?_ rfl
  rw [hrun]
  simp

theorem sleep_sameIds (hrun : (t.proc p).state = .RUNNING) (chan : Chan) :
    SameIds t (t.sleep p chan) := by
  refine .set rfl ?_ rfl
  rw [hrun]
  simp

/-- wait frees the slot of a child that exited, or leaves the ids as they are. -/
theorem wait_cases (hrun : (t.proc p).state = .RUNNING) (h : (t.wait p).1 = u) :
    SameIds t u ∨ ∃ q, (t.proc q).state = .ZOMBIE ∧ u = t.set q fun x =>
      { x with kstack := false, pid := 0, parent := none, killed := false, state := .UNUSED } := by
  unfold Ptable.wait at h
  split at h
  · rename_i q hq
    have hfound := List.find?_some hq
    simp only [decide_eq_true_eq] at hfound
    right
    refine ⟨q, hfound.2, ?_⟩
    rw [← h]
  · left
    split at h
    · obtain rfl := h
      exact .refl _
    · obtain rfl := h
      exact sleep_sameIds hrun (.proc p)

/-- kill sets the flag of the first slot with the pid. -/
theorem killPid_cases {pid r : ℤ} (h : t.killPid pid = (u, r)) :
    (r = -1 ∧ u = t ∧ ∀ q, q < NPROC → ((t.proc q).pid : ℤ) ≠ pid) ∨
      r = 0 ∧ ∃ q, q < NPROC ∧ ((t.proc q).pid : ℤ) = pid ∧ u = t.set q fun x =>
        { x with killed := true, state := if x.state = .SLEEPING then .RUNNABLE else x.state } := by
  cases pid with
  | negSucc n =>
    obtain ⟨rfl, rfl⟩ := Prod.mk.inj h
    exact Or.inl ⟨rfl, rfl, fun q _ => by omega⟩
  | ofNat n =>
    have h' : t.kill n = (u, r) := h
    unfold Ptable.kill at h'
    split at h'
    · rename_i q hq
      obtain ⟨rfl, rfl⟩ := Prod.mk.inj h'
      have hpid : (t.proc q).pid = n := by simpa using List.find?_some hq
      have hlt : q < NPROC := List.mem_range.mp (List.mem_of_find?_eq_some hq)
      exact Or.inr ⟨rfl, q, hlt, by rw [hpid]; rfl, rfl⟩
    · rename_i hnone
      obtain ⟨rfl, rfl⟩ := Prod.mk.inj h'
      refine Or.inl ⟨rfl, rfl, fun q hq he => ?_⟩
      have hne := List.find?_eq_none.mp hnone q (List.mem_range.mpr hq)
      rw [decide_eq_true_eq] at hne
      exact hne (Int.ofNat.inj he)

/-- What a fork leaves of the slot that it tried: the next pid and the old flag. -/
structure Forked (t u : Ptable) (np : ℕ) (r : Option ℕ) : Prop where
  inside : np < NPROC
  unused : (t.proc np).state = .UNUSED
  others : ∀ q, q ≠ np → u.proc q = t.proc q
  nextpid : u.nextpid = t.nextpid + 1
  pid : (u.proc np).pid = t.nextpid
  killed : (u.proc np).killed = (t.proc np).killed
  result : r = none ∧ (u.proc np).state = .UNUSED ∨ r = some t.nextpid ∧ (u.proc np).state = .RUNNABLE

theorem fork_cases {kalloc copyuvm : Bool} {r : Option ℕ} (h : t.fork p kalloc copyuvm = (u, r)) :
    (r = none ∧ u = t) ∨ ∃ np, Forked t u np r := by
  unfold Ptable.fork Ptable.allocproc at h
  cases hfind : (List.range NPROC).find? fun p => (t.proc p).state = .UNUSED with
  | none =>
    rw [hfind] at h
    obtain ⟨rfl, rfl⟩ := Prod.mk.inj h
    exact Or.inl ⟨rfl, rfl⟩
  | some np =>
    rw [hfind] at h
    have hunused : (t.proc np).state = .UNUSED := by simpa using List.find?_some hfind
    have hlt : np < NPROC := List.mem_range.mp (List.mem_of_find?_eq_some hfind)
    right
    refine ⟨np, ?_⟩
    cases kalloc with
    | false =>
      obtain ⟨rfl, rfl⟩ := Prod.mk.inj h
      refine ⟨hlt, hunused, fun q hq => ?_, rfl, ?_, ?_, Or.inl ⟨rfl, ?_⟩⟩
      · simp [Ptable.set, hq]
      all_goals simp [Ptable.set]
    | true =>
      cases copyuvm with
      | false =>
        obtain ⟨rfl, rfl⟩ := Prod.mk.inj h
        refine ⟨hlt, hunused, fun q hq => ?_, rfl, ?_, ?_, Or.inl ⟨rfl, ?_⟩⟩
        · simp [Ptable.set, hq]
        all_goals simp [Ptable.set]
      | true =>
        obtain ⟨rfl, rfl⟩ := Prod.mk.inj h
        refine ⟨hlt, hunused, fun q hq => ?_, rfl, ?_, ?_, Or.inr ⟨?_, ?_⟩⟩
        · simp [Ptable.set, hq]
        all_goals simp [Ptable.set]

theorem Forked.pids {np : ℕ} {r : Option ℕ} (h : Forked t u np r) (ht : Pids t) : Pids u where
  positive := by
    intro q hq
    by_cases hqn : q = np
    · rw [hqn, h.pid]
      exact Nat.lt_of_le_of_lt (Nat.zero_le _) (ht.below np)
    · rw [h.others q hqn] at hq ⊢
      exact ht.positive q hq
  below := by
    intro q
    rw [h.nextpid]
    by_cases hqn : q = np
    · rw [hqn, h.pid]
      exact Nat.lt_succ_self _
    · rw [h.others q hqn]
      exact Nat.lt_succ_of_lt (ht.below q)
  distinct := by
    intro q q' hpos he
    by_cases hq : q = np
    · by_cases hq' : q' = np
      · rw [hq, hq']
      · rw [hq, h.pid, h.others q' hq'] at he
        exact absurd he (Nat.ne_of_gt (ht.below q'))
    · rw [h.others q hq] at hpos he
      by_cases hq' : q' = np
      · rw [hq', h.pid] at he
        exact absurd he (Nat.ne_of_lt (ht.below q))
      · rw [h.others q' hq'] at he
        exact ht.distinct q q' hpos he
  inside := by
    intro q hq
    rw [h.others q (Nat.ne_of_gt (Nat.lt_of_lt_of_le h.inside hq))]
    exact ht.inside q hq

/-- The pid of a slot that is freed is 0. -/
theorem Pids.free (ht : Pids t) {f : Proc → Proc} (hpid : (f (t.proc p)).pid = 0)
    (hstate : (f (t.proc p)).state = .UNUSED) : Pids (t.set p f) := by
  refine ⟨fun q hq => ?_, fun q => ?_, fun q q' hpos he => ?_, fun q hq => ?_⟩
  · by_cases hqp : q = p
    · subst hqp
      rw [Ptable.set_self] at hq
      exact absurd hstate hq
    · rw [Ptable.set_other hqp] at hq ⊢
      exact ht.positive q hq
  · by_cases hqp : q = p
    · subst hqp
      rw [Ptable.set_self, hpid]
      exact Nat.lt_of_le_of_lt (Nat.zero_le _) (ht.below q)
    · rw [Ptable.set_other hqp]
      exact ht.below q
  · have hq : q ≠ p := by
      rintro rfl
      rw [Ptable.set_self, hpid] at hpos
      exact Nat.lt_irrefl 0 hpos
    have hq' : q' ≠ p := by
      rintro rfl
      rw [he, Ptable.set_self, hpid] at hpos
      exact Nat.lt_irrefl 0 hpos
    rw [Ptable.set_other hq] at hpos he
    rw [Ptable.set_other hq'] at he
    exact ht.distinct q q' hpos he
  · by_cases hqp : q = p
    · subst hqp
      rw [Ptable.set_self]
      exact hstate
    · rw [Ptable.set_other hqp]
      exact ht.inside q hq

end Pids

section Flags

/-- The flag of a slot that is not in use is clear, and that of a process has a reason. -/
structure FlagInv (s : Blamed) : Prop where
  pids : Pids s.table
  spare : ∀ p, (s.table.proc p).state = .UNUSED → (s.table.proc p).killed = false
  justified : Justified s

variable {s t : Blamed} {u : Ptable} {p : ℕ} {a : KillAct}

theorem Blamed.withTable_eq (h : s.withTable p u = some t) :
    (s.table.proc p).state = .RUNNING ∧ t = { s with table := u } := by
  unfold Blamed.withTable at h
  split at h
  · rename_i hrun
    exact ⟨hrun, (Option.some.inj h).symm⟩
  · cases h

theorem FlagInv.same (h : FlagInv s) (hu : SameIds s.table u) : FlagInv { s with table := u } where
  pids := hu.pids h.pids
  spare := by
    intro p hp
    dsimp only
    rw [hu.killed]
    exact h.spare p ((hu.unused p).mp hp)
  justified := by
    intro p hp hkilled
    dsimp only at hp hkilled
    rw [hu.killed] at hkilled
    exact h.justified p (fun hunused => hp ((hu.unused p).mpr hunused)) hkilled

theorem FlagInv.fork (h : FlagInv s) {kalloc copyuvm : Bool} : FlagInv
    ⟨(s.table.fork p kalloc copyuvm).1, fun q => s.used q && s.blamed q⟩ := by
  have hused : ∀ q, (s.table.proc q).state ≠ .UNUSED → s.used q = true :=
    fun q hq => decide_eq_true hq
  rcases fork_cases (Prod.eta (s.table.fork p kalloc copyuvm)).symm with ⟨_, he⟩ | ⟨np, hfork⟩
  · rw [he]
    refine ⟨h.pids, h.spare, fun q hq hkilled => ?_⟩
    dsimp only
    rw [hused q hq, h.justified q hq hkilled]
    rfl
  · refine ⟨hfork.pids h.pids, fun q hq => ?_, fun q hq hkilled => ?_⟩
    · by_cases hqn : q = np
      · rw [hqn, hfork.killed]
        exact h.spare np hfork.unused
      · dsimp only at hq ⊢
        rw [hfork.others q hqn] at hq ⊢
        exact h.spare q hq
    · by_cases hqn : q = np
      · rw [hqn, hfork.killed, h.spare np hfork.unused] at hkilled
        cases hkilled
      · dsimp only at hq hkilled ⊢
        rw [hfork.others q hqn] at hq hkilled
        rw [hused q hq, h.justified q hq hkilled]
        rfl

theorem FlagInv.wait (h : FlagInv s) (hrun : (s.table.proc p).state = .RUNNING) :
    FlagInv { s with table := (s.table.wait p).1 } := by
  rcases wait_cases hrun rfl with hsame | ⟨q, hzombie, he⟩
  · exact h.same hsame
  · rw [he]
    have hpids : Pids (s.table.set q fun x => { x with
        kstack := false, pid := 0, parent := none, killed := false, state := .UNUSED }) :=
      h.pids.free rfl rfl
    refine ⟨hpids, fun q' hq' => ?_, fun q' hq' hkilled => ?_⟩
    · by_cases hqq : q' = q
      · dsimp only
        rw [hqq, Ptable.set_self]
      · dsimp only at hq' ⊢
        rw [Ptable.set_other hqq] at hq' ⊢
        exact h.spare q' hq'
    · by_cases hqq : q' = q
      · dsimp only at hkilled
        rw [hqq, Ptable.set_self] at hkilled
        cases hkilled
      · dsimp only at hq' hkilled
        rw [Ptable.set_other hqq] at hq' hkilled
        exact h.justified q' hq' hkilled

/-- A process gets the flag, and blame for it. -/
theorem FlagInv.flag (h : FlagInv s) {f : Proc → Proc} {blamed : ℕ → Bool}
    (hpid : (f (s.table.proc p)).pid = (s.table.proc p).pid)
    (hused : (s.table.proc p).state ≠ .UNUSED) (hused' : (f (s.table.proc p)).state ≠ .UNUSED)
    (hself : blamed p = true) (hmore : ∀ q, s.blamed q = true → blamed q = true) :
    FlagInv ⟨s.table.set p f, blamed⟩ := by
  have hids : ∀ q, ((s.table.set p f).proc q).pid = (s.table.proc q).pid ∧
      (((s.table.set p f).proc q).state = .UNUSED ↔ (s.table.proc q).state = .UNUSED) := by
    intro q
    by_cases hqp : q = p
    · subst hqp
      rw [Ptable.set_self]
      exact ⟨hpid, fun hu => absurd hu hused', fun hu => absurd hu hused⟩
    · rw [Ptable.set_other hqp]
      exact ⟨rfl, Iff.rfl⟩
  refine ⟨⟨fun q hq => ?_, fun q => ?_, fun q q' => ?_, fun q hq => ?_⟩, fun q hq => ?_,
    fun q hq hkilled => ?_⟩
  · dsimp only at hq ⊢
    rw [(hids q).1]
    exact h.pids.positive q fun hu => hq ((hids q).2.mpr hu)
  · dsimp only
    rw [(hids q).1]
    exact h.pids.below q
  · dsimp only
    rw [(hids q).1, (hids q').1]
    exact h.pids.distinct q q'
  · exact (hids q).2.mpr (h.pids.inside q hq)
  · have hqp : q ≠ p := by
      rintro rfl
      exact hused ((hids q).2.mp hq)
    dsimp only
    rw [Ptable.set_other hqp]
    exact h.spare q ((hids q).2.mp hq)
  · by_cases hqp : q = p
    · rw [hqp]
      exact hself
    · dsimp only at hq hkilled
      rw [Ptable.set_other hqp] at hq hkilled
      exact hmore q (h.justified q hq hkilled)

theorem FlagInv.step (h : FlagInv s) (hspare : NamesNoSpare s a) (hs : s.step a = some t) :
    FlagInv t := by
  cases a with
  | fork p kalloc copyuvm =>
    obtain ⟨w, hw, rfl⟩ := Option.map_eq_some_iff.mp hs
    obtain ⟨_, rfl⟩ := Blamed.withTable_eq hw
    exact h.fork
  | exit p =>
    obtain ⟨u, hu, hw⟩ := Option.bind_eq_some_iff.mp hs
    obtain ⟨hrun, rfl⟩ := Blamed.withTable_eq hw
    exact h.same (exit_sameIds hrun hu)
  | wait p =>
    obtain ⟨hrun, rfl⟩ := Blamed.withTable_eq hs
    exact h.wait hrun
  | kill p pid =>
    obtain ⟨w, hw, rfl⟩ := Option.map_eq_some_iff.mp hs
    obtain ⟨_, rfl⟩ := Blamed.withTable_eq hw
    rcases killPid_cases (Prod.eta (s.table.killPid pid)).symm with ⟨_, he, _⟩ | ⟨_, q, hlt, hpid, he⟩
    · rw [he]
      refine ⟨h.pids, h.spare, fun q hq hkilled => ?_⟩
      dsimp only
      rw [h.justified q hq hkilled]
      rfl
    · have hused := hspare q hlt hpid
      rw [he]
      refine h.flag (f := fun x => { x with
        killed := true, state := if x.state = .SLEEPING then .RUNNABLE else x.state })
        rfl hused ?_ ?_ fun q' hq' => ?_
      · dsimp only
        split
        · simp
        · exact hused
      · rw [Blamed.used, decide_eq_true hused, hpid, decide_eq_true rfl]
        exact Bool.or_true _
      · rw [hq']
        rfl
  | fault p =>
    obtain ⟨w, hw, rfl⟩ := Option.map_eq_some_iff.mp hs
    obtain ⟨hrun, rfl⟩ := Blamed.withTable_eq hw
    have hused : (s.table.proc p).state ≠ .UNUSED := by
      rw [hrun]
      simp
    refine h.flag (f := fun q => { q with killed := true }) rfl hused hused
      (Function.update_self ..) fun q hq => ?_
    by_cases hqp : q = p
    · rw [hqp]
      exact Function.update_self ..
    · rw [Function.update_of_ne hqp]
      exact hq
  | schedule p =>
    obtain ⟨u, hu, rfl⟩ := Option.map_eq_some_iff.mp hs
    exact h.same (schedule_sameIds hu)
  | yield p =>
    obtain ⟨hrun, rfl⟩ := Blamed.withTable_eq hs
    exact h.same (yield_sameIds hrun)
  | sleep p chan =>
    obtain ⟨hrun, rfl⟩ := Blamed.withTable_eq hs
    exact h.same (sleep_sameIds hrun chan)
  | wakeup chan =>
    obtain rfl := Option.some.inj hs
    exact h.same (wakeup1_sameIds _ _)

end Flags

/-- The table with the first process. -/
def booted : Blamed := ⟨(emptyTable.userinit true true).getD emptyTable, fun _ => false⟩

theorem booted_proc (p : ℕ) : booted.table.proc p =
    if p = 0 then ⟨.RUNNABLE, 1, none, none, false, true, 1⟩ else ⟨.UNUSED, 0, none, none, false, false, 0⟩ := by
  by_cases hp : p = 0
  · rw [hp]
    rfl
  · rw [if_neg hp]
    show Function.update (Function.update (Function.update _ 0 _) 0 _) 0 _ p = _
    rw [Function.update_of_ne hp, Function.update_of_ne hp, Function.update_of_ne hp]
    rfl

theorem booted_inv : FlagInv booted := by
  have hproc := booted_proc
  have hnext : booted.table.nextpid = 2 := rfl
  refine ⟨⟨fun p hp => ?_, fun p => ?_, fun p q hpos he => ?_, fun p hp => ?_⟩, fun p hp => ?_,
    fun p _ hkilled => ?_⟩
  all_goals rw [hproc] at *
  · split at hp
    · rename_i h0
      rw [if_pos h0]
      exact Nat.one_pos
    · exact absurd rfl hp
  · rw [hnext]
    split
    · exact Nat.lt_succ_self 1
    · exact Nat.two_pos
  · rw [hproc] at he
    by_cases hp : p = 0
    · by_cases hq : q = 0
      · rw [hp, hq]
      · rw [if_pos hp, if_neg hq] at he
        cases he
    · rw [if_neg hp] at hpos
      exact absurd hpos (Nat.lt_irrefl 0)
  · have hlimit : NPROC = 64 := rfl
    rw [if_neg (by omega)]
  · split
    · rfl
    · rfl
  · split at hkilled
    · cases hkilled
    · cases hkilled

end NorthOS.Process
