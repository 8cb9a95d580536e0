import NorthOS.Spinlock

/-!
The nesting of pushcli and spinlocks. What the operations a thread has still to
do rely on is checked against the locks it holds and the pushcli calls that
wait, and every function passes this check where it may be called. A thread
that no CPU runs goes on holding ptable.lock alone, whichever CPU takes it up,
so a switch moves that lock and its pushcli from one thread to another. Of the
interrupt flag that a process found when it began to take locks, the CPU has
the value in intena, or the process has it in the local of sched.
-/
namespace NorthOS.Spinlock

open Process

/-- The operations can be done with the locks `h` and `n` pushcli calls; `parked` says that the
thread's process is no longer RUNNING. -/
def Safe (t : Thread) : List ℕ → ℕ → Bool → List Op → Prop
  | _, _, parked, [] => parked = false
  | h, n, parked, .pushcli :: rest => Safe t h (n + 1) parked rest
  | h, n, parked, .popcli :: rest => 0 < n ∧ Safe t h (n - 1) parked rest
  | h, n, parked, .holding lk expected msg :: rest =>
    (if expected then lk ∈ h else ¬ msg.Excluded) ∧ Safe t h n parked rest
  | h, n, parked, .xchg lk :: rest =>
    0 < n ∧ rest.head? = some (.setcpu lk) ∧ Safe t (lk :: h) (n - 1) parked rest
  | h, n, parked, .setcpu lk :: rest => lk ∈ h ∧ Safe t h n parked rest
  | h, n, parked, .clearcpu lk :: rest =>
    lk ∈ h ∧ rest.head? = some (.unlock lk) ∧ Safe t h n parked rest
  | h, n, parked, .unlock lk :: rest =>
    lk ∈ h ∧ parked = false ∧ Safe t (h.erase lk) (n + 1) parked rest
  | h, n, _, .setState st :: rest =>
    (∃ p, t = .proc p) ∧ ptable ∈ h ∧ st ≠ .RUNNING ∧ Safe t h n true rest
  | h, n, parked, .check :: rest =>
    parked = true ∧ ptable ∈ h ∧ (h = [ptable] → n = 0 → Safe t h n parked rest)
  | h, n, parked, .swtch :: rest =>
    h = [ptable] ∧ n = 0 ∧ parked = true ∧ rest.head? = some .restore ∧ Safe t h n false rest
  | h, n, parked, .restore :: rest => Safe t h n parked rest
  | h, n, parked, .sti :: rest => h = [] ∧ n = 0 ∧ Safe t h n parked rest
  | h, n, parked, .loop _ :: rest =>
    (∃ c, t = .scheduler c) ∧ h = [ptable] ∧ n = 0 ∧ parked = false ∧ rest = []
  | h, n, parked, .wakeup _ :: rest => ptable ∈ h ∧ parked = false ∧ Safe t h n parked rest
  | h, n, parked, .fork _ :: rest => ptable ∈ h ∧ parked = false ∧ Safe t h n parked rest
  | h, n, parked, .wait _ :: rest => ptable ∈ h ∧ parked = false ∧ Safe t h n parked rest
  | _, _, _, .zombie :: _ => True

/-- Only the operation after a switch writes back the local of sched. -/
def Paired : List Op → Prop
  | [] => True
  | op :: rest => (rest.head? = some .restore → op = .swtch) ∧ Paired rest

section Functions

variable {t : Thread} {h : List ℕ} {n lk p : ℕ} {parked : Bool} {rest : List Op}

theorem safe_acquire (hrest : Safe t (lk :: h) n parked rest) :
    Safe t h n parked (acquire lk ++ rest) :=
  ⟨id, Nat.succ_pos n, rfl, List.mem_cons_self, hrest⟩

theorem safe_release (hlk : lk ∈ h) (hrest : Safe t (h.erase lk) n false rest) :
    Safe t h n false (release lk ++ rest) :=
  ⟨hlk, hlk, rfl, hlk, rfl, Nat.succ_pos n, hrest⟩

theorem safe_myproc (hrest : Safe t h n parked rest) : Safe t h n parked (myproc ++ rest) :=
  ⟨Nat.succ_pos n, hrest⟩

theorem safe_sched (hlk : ptable ∈ h) (hrest : Safe t [ptable] 0 false rest) :
    Safe t h n true (sched ++ rest) := by
  refine ⟨Nat.succ_pos n, hlk, rfl, hlk, fun hh hn => ?_⟩
  rw [Nat.add_sub_cancel] at hn
  subst hh hn
  exact ⟨rfl, rfl, rfl, rfl, hrest⟩

theorem safe_yield : Safe (.proc p) h n false yield := by
  refine safe_acquire (safe_myproc ⟨⟨p, rfl⟩, List.mem_cons_self, nofun, ?_⟩)
  refine safe_sched List.mem_cons_self ?_
  exact safe_release List.mem_cons_self (show Safe _ _ _ _ [] from rfl)

theorem safe_sleep (hlk : lk ∈ h) : Safe (.proc p) h n false (sleep lk) := by
  unfold sleep
  split
  · rename_i he
    subst he
    exact safe_myproc ⟨⟨p, rfl⟩, hlk, nofun, safe_sched hlk (show Safe _ _ _ _ [] from rfl)⟩
  · rename_i hne
    have hptable : ptable ∈ (ptable :: h).erase lk :=
      (List.mem_erase_of_ne (Ne.symm hne)).mpr List.mem_cons_self
    refine safe_myproc (safe_acquire (safe_release (List.mem_cons_of_mem _ hlk) ?_))
    refine ⟨⟨p, rfl⟩, hptable, nofun, safe_sched hptable ?_⟩
    exact safe_release List.mem_cons_self (safe_acquire (show Safe _ _ _ _ [] from rfl))

theorem safe_exit : Safe (.proc p) h n false exit := by
  refine safe_acquire ⟨⟨p, rfl⟩, List.mem_cons_self, nofun, ?_⟩
  exact safe_sched List.mem_cons_self trivial

theorem safe_scheduler {c : ℕ} : Safe (.scheduler c) [] 0 false scheduler :=
  ⟨rfl, rfl, safe_acquire ⟨⟨c, rfl⟩, rfl, rfl, rfl, rfl⟩⟩

theorem safe_code {k : KThread} {call : Call} (hcall : call.Allowed t k) :
    Safe t k.held k.pushed false call.code := by
  cases call with
  | acquire lk => exact safe_acquire (show Safe _ _ _ _ [] from rfl)
  | release lk => exact safe_release hcall (show Safe _ _ _ _ [] from rfl)
  | pushcli => exact rfl
  | popcli => exact ⟨hcall, rfl⟩
  | myproc => exact safe_myproc (show Safe _ _ _ _ [] from rfl)
  | yield =>
    obtain ⟨p, rfl⟩ := hcall
    exact safe_yield
  | sleep lk =>
    obtain ⟨⟨p, rfl⟩, hlk⟩ := hcall
    exact safe_sleep hlk
  | exit =>
    obtain ⟨p, rfl⟩ := hcall
    exact safe_exit
  | wakeup woken => exact ⟨hcall, rfl, rfl⟩
  | fork np => exact ⟨hcall, rfl, rfl⟩
  | wait p => exact ⟨hcall, rfl, rfl⟩

theorem paired_code {call : Call} : Paired call.code ∧ call.code.head? ≠ some .restore := by
  cases call with
  | sleep lk =>
    show Paired (sleep lk) ∧ (sleep lk).head? ≠ some .restore
    unfold sleep
    split <;> simp [Paired, myproc, acquire, release, sched]
  | _ => simp [Paired, Call.code, myproc, acquire, release, sched, Spinlock.yield, Spinlock.exit]

theorem paired_scheduler : Paired (release ptable ++ scheduler) := by
  simp [Paired, release, scheduler, acquire]

end Functions

section Invariant

/-- A thread that no CPU runs goes on with ptable.lock. -/
structure Suspended (t : Thread) (k : KThread) : Prop where
  held : k.held = []
  pushed : k.pushed = 0
  code : Safe t [ptable] 0 false k.code
  paired : Paired k.code
  below : ∀ code ∈ k.below, Safe t [] 0 false code ∧ Paired code
  entered : ∀ p b, t = .proc p → k.entered = some b → k.code.head? = some .restore ∧ k.intena = b

/-- The process of a thread is about to give up the CPU. -/
def parked (s : Sys) : Thread → Bool
  | .scheduler _ => false
  | .proc p => decide (s.state p ≠ .RUNNING)

/-- The CPU `x` with number `c`, and the thread `k` that it runs. -/
structure Running (s : Sys) (c : ℕ) (x : Cpu) (k : KThread) : Prop where
  own : ∀ d, x.thread = .scheduler d → d = c
  count : x.ncli = k.held.length + k.pushed
  quiet : x.interrupts = true → x.ncli = 0
  nodup : k.held.Nodup
  locked : ∀ lk ∈ k.held, (s.locks lk).locked = true
  cpu : ∀ lk ∈ k.held, k.code.head? ≠ some (.setcpu lk) → k.code.head? ≠ some (.unlock lk) →
    (s.locks lk).cpu = some c
  code : Safe x.thread k.held k.pushed (parked s x.thread) k.code
  paired : Paired k.code
  below : ∀ code ∈ k.below, Safe x.thread [] 0 false code ∧ Paired code
  ptable : parked s x.thread = true → ptable ∈ k.held
  outside : k.held = [] → k.pushed = 0 → k.entered = none
  entered : ∀ p b, x.thread = .proc p → k.entered = some b →
    (k.code.head? = some .restore → k.intena = b) ∧
      (k.code.head? ≠ some .restore → x.intena = b)

structure Inv (s : Sys) : Prop where
  runs : ∀ c, Running s c (s.cpus c) (s.running c)
  oneCpu : ∀ c d, s.thread c = s.thread d → c = d
  exclusive : ∀ c d lk, lk ∈ (s.running c).held → lk ∈ (s.running d).held → c = d
  suspended : ∀ t, (∀ c, s.thread c ≠ t) → Suspended t (s.threads t)
  notRunning : ∀ p, (∀ c, s.thread c ≠ .proc p) → s.state p ≠ .RUNNING

variable {s s' : Sys} {c : ℕ}

theorem parked_congr {t : Thread}
    (hstate : ∀ p, t = .proc p → (s'.state p = .RUNNING ↔ s.state p = .RUNNING)) :
    parked s' t = parked s t := by
  cases t with
  | scheduler d => rfl
  | proc p =>
    unfold parked
    rw [decide_eq_decide, not_iff_not]
    exact hstate p rfl

/-- The frame rule: what another CPU runs keeps its facts where its thread, its locks and the
state of its process stay. -/
theorem Running.frame {x : Cpu} {k : KThread} (h : Running s c x k)
    (hlocks : ∀ lk ∈ k.held, s'.locks lk = s.locks lk)
    (hstate : ∀ p, x.thread = .proc p → (s'.state p = .RUNNING ↔ s.state p = .RUNNING)) :
    Running s' c x k := by
  have hparked : parked s' x.thread = parked s x.thread := parked_congr hstate
  refine { h with locked := ?_, cpu := ?_, code := hparked ▸ h.code, ptable := hparked ▸ h.ptable }
  · intro lk hlk
    rw [hlocks lk hlk]
    exact h.locked lk hlk
  · intro lk hlk
    rw [hlocks lk hlk]
    exact h.cpu lk hlk

/-- A step of one CPU that stays on its thread. -/
theorem Inv.step_alone (h : Inv s) (hcpus : ∀ d, d ≠ c → s'.cpus d = s.cpus d)
    (hthread : s'.thread c = s.thread c)
    (hthreads : ∀ u, u ≠ s.thread c → s'.threads u = s.threads u)
    (hlocks : ∀ d lk, d ≠ c → lk ∈ (s.running d).held → s'.locks lk = s.locks lk)
    (hheld : ∀ d lk, d ≠ c → lk ∈ (s'.running c).held → lk ∉ (s.running d).held)
    (hstate : ∀ p, s.thread c ≠ .proc p → s'.state p = s.state p)
    (hrun : Running s' c (s'.cpus c) (s'.running c)) : Inv s' := by
  have hsame : ∀ d, s'.thread d = s.thread d := by
    intro d
    by_cases hd : d = c
    · rw [hd, hthread]
    · unfold Sys.thread
      rw [hcpus d hd]
  have hother : ∀ d, d ≠ c → s'.running d = s.running d := by
    intro d hd
    have hne : s.thread d ≠ s.thread c := fun he => hd (h.oneCpu d c he)
    unfold Sys.running
    rw [hsame d]
    exact hthreads _ hne
  refine ⟨fun d => ?_, fun d e hde => ?_, fun d e lk hd he => ?_, fun t ht => ?_, fun p hp => ?_⟩
  · by_cases hd : d = c
    · rw [hd]
      exact hrun
    · rw [hcpus d hd, hother d hd]
      refine (h.runs d).frame (fun lk => hlocks d lk hd) fun p hp => ?_
      rw [hstate p fun hc => hd (h.oneCpu d c (hp.trans hc.symm))]
  · rw [hsame, hsame] at hde
    exact h.oneCpu d e hde
  · by_cases hdc : d = c
    · by_cases hec : e = c
      · rw [hdc, hec]
      · rw [hother e hec] at he
        exact absurd he (hheld e lk hec (hdc ▸ hd))
    · rw [hother d hdc] at hd
      by_cases hec : e = c
      · exact absurd hd (hheld d lk hdc (hec ▸ he))
      · rw [hother e hec] at he
        exact h.exclusive d e lk hd he
  · have ht' : ∀ d, s.thread d ≠ t := fun d => hsame d ▸ ht d
    rw [hthreads t (ht' c).symm]
    exact h.suspended t ht'
  · have hp' : ∀ d, s.thread d ≠ .proc p := fun d => hsame d ▸ hp d
    rw [hstate p (hp' c)]
    exact h.notRunning p hp'

section Set

variable {x : Cpu} {k : KThread} (hx : x.thread = s.thread c)

theorem set_cpu : (s.set c x k).cpus c = x := Function.update_self ..

include hx in
theorem set_thread : (s.set c x k).thread c = s.thread c := by
  unfold Sys.thread
  rw [set_cpu]
  exact hx

include hx in
theorem set_running : (s.set c x k).running c = k := by
  have hthread : (s.set c x k).thread c = s.thread c := set_thread hx
  unfold Sys.running
  rw [hthread]
  exact Function.update_self ..

/-- The CPU and its thread change, and nothing else does. -/
theorem Inv.put (h : Inv s) (hx : x.thread = s.thread c) (hheld : k.held = (s.running c).held)
    (hrun : Running s c x k) : Inv (s.set c x k) := by
  refine h.step_alone (fun d hd => Function.update_of_ne hd ..) (set_thread hx)
    (fun u hu => Function.update_of_ne hu ..) (fun _ _ _ _ => rfl) (fun d lk hd hlk hin => ?_)
    (fun _ _ => rfl) ?_
  · rw [set_running hx, hheld] at hlk
    exact hd (h.exclusive d c lk hin hlk)
  · rw [set_running hx, set_cpu]
    exact hrun.frame (fun _ _ => rfl) fun _ _ => Iff.rfl

theorem setLock_self {lk : ℕ} {l : Lock} : (s.setLock lk l).locks lk = l := Function.update_self ..

theorem setLock_ne {lk lk' : ℕ} {l : Lock} (h : lk' ≠ lk) :
    (s.setLock lk l).locks lk' = s.locks lk' := Function.update_of_ne h ..

/-- The thread changes, and one lock that no other CPU holds. -/
theorem Inv.putLock (h : Inv s) {lk : ℕ} {l : Lock} (hlk : ∀ d, d ≠ c → lk ∉ (s.running d).held)
    (hheld : ∀ lk' ∈ k.held, lk' = lk ∨ lk' ∈ (s.running c).held)
    (hrun : Running (s.setLock lk l) c (s.cpus c) k) :
    Inv ((s.set c (s.cpus c) k).setLock lk l) := by
  have hself : ((s.set c (s.cpus c) k).setLock lk l).running c = k := set_running (s := s) rfl
  have hcpu : ((s.set c (s.cpus c) k).setLock lk l).cpus c = s.cpus c := set_cpu (s := s) (k := k)
  refine h.step_alone (fun d hd => Function.update_of_ne hd ..) (set_thread (s := s) (k := k) rfl)
    (fun u hu => Function.update_of_ne hu ..) (fun d lk' hd hin => ?_) (fun d lk' hd hlk' hin => ?_)
    (fun _ _ => rfl) ?_
  · refine Function.update_of_ne ?_ ..
    rintro rfl
    exact hlk d hd hin
  · rw [hself] at hlk'
    rcases hheld lk' hlk' with rfl | hown
    · exact hlk d hd hin
    · exact hd (h.exclusive d c lk' hin hown)
  · rw [hself, hcpu]
    exact hrun.frame (fun _ _ => rfl) fun _ _ => Iff.rfl

/-- The thread changes, and the state of its own process. -/
theorem Inv.putState (h : Inv s) {p : ℕ} {st : ProcState} (hp : s.thread c = .proc p)
    (hheld : k.held = (s.running c).held) (hrun : Running (s.setState p st) c (s.cpus c) k) :
    Inv ((s.set c (s.cpus c) k).setState p st) := by
  have hself : ((s.set c (s.cpus c) k).setState p st).running c = k := set_running (s := s) rfl
  have hcpu : ((s.set c (s.cpus c) k).setState p st).cpus c = s.cpus c := set_cpu (s := s) (k := k)
  refine h.step_alone (fun d hd => Function.update_of_ne hd ..) (set_thread (s := s) (k := k) rfl)
    (fun u hu => Function.update_of_ne hu ..) (fun _ _ _ _ => rfl) (fun d lk hd hin hin' => ?_)
    (fun q hq => Function.update_of_ne ?_ ..) ?_
  · rw [hself, hheld] at hin
    exact hd (h.exclusive d c lk hin' hin)
  · rintro rfl
    exact hq hp
  · rw [hself, hcpu]
    exact hrun.frame (fun _ _ => rfl) fun _ _ => Iff.rfl

end Set

/-- The CPU switches to a thread that no CPU runs, and ptable.lock goes with it. -/
theorem Inv.switch (h : Inv s) {k : KThread} {u : Thread} {st : ℕ → ProcState}
    (hheld : (s.running c).held = [ptable]) (hpushed : (s.running c).pushed = 0)
    (hcpu : (s.locks ptable).cpu = some c)
    (hleft : Suspended (s.thread c) { k with held := k.held.erase ptable })
    (hu : ∀ d, s.thread d ≠ u) (hown : ∀ d, u = .scheduler d → d = c)
    (hparked : parked { s with state := st } u = false)
    (hstate : ∀ q, u ≠ .proc q → st q = s.state q)
    (hoff : ∀ q, s.thread c = .proc q → st q ≠ .RUNNING) :
    Inv { s.swtch c k u with state := st } := by
  have hrun := h.runs c
  have hnew := h.suspended u hu
  generalize hs' : ({ s.swtch c k u with state := st } : Sys) = s'
  have hcpus : s'.cpus c = { s.cpus c with thread := u } := by
    rw [← hs']
    exact Function.update_self ..
  have hcpus' : ∀ d, d ≠ c → s'.cpus d = s.cpus d := by
    intro d hd
    rw [← hs']
    exact Function.update_of_ne hd ..
  have hthread : s'.thread c = u := congrArg Cpu.thread hcpus
  have hthread' : ∀ d, d ≠ c → s'.thread d = s.thread d := fun d hd => congrArg Cpu.thread
      (hcpus' d hd)
  have hold : s'.threads (s.thread c) = { k with held := k.held.erase ptable } := by
    rw [← hs']
    exact (Function.update_of_ne (hu c) ..).trans (Function.update_self ..)
  have hentered : s'.threads u = { s.threads u with held := [ptable] } := by
    rw [← hs']
    refine (Function.update_self ..).trans ?_
    have hsame : (s.set c { s.cpus c with thread := u }
        { k with held := k.held.erase ptable }).threads u =
        s.threads u := Function.update_of_ne (hu c).symm ..
    rw [hsame, hnew.held]
  have hother : ∀ t, t ≠ s.thread c → t ≠ u → s'.threads t = s.threads t := by
    intro t ht htu
    rw [← hs']
    exact (Function.update_of_ne htu ..).trans (Function.update_of_ne ht ..)
  have hrunning : s'.running c = { s.threads u with held := [ptable] } := by
    unfold Sys.running
    rw [hthread, hentered]
  have hrunning' : ∀ d, d ≠ c → s'.running d = s.running d := by
    intro d hd
    unfold Sys.running
    rw [hthread' d hd]
    exact hother _ (fun he => hd (h.oneCpu d c he)) (hu d)
  have hlocks : s'.locks = s.locks := by
    rw [← hs']
    rfl
  have hst : s'.state = st := by
    rw [← hs']
  have hparked' : parked s' u = false := by
    unfold parked at hparked ⊢
    rw [hst]
    exact hparked
  refine ⟨fun d => ?_, fun d e hde => ?_, fun d e lk hd he => ?_, fun t ht => ?_, fun q hq => ?_⟩
  · by_cases hd : d = c
    · subst hd
      rw [hcpus, hrunning]
      exact {
        own := hown
        count := by
          show (s.cpus d).ncli = 1 + (s.threads u).pushed
          rw [hrun.count, hheld, hpushed, hnew.pushed]
          rfl
        quiet := hrun.quiet
        nodup := List.nodup_cons.mpr ⟨List.not_mem_nil, List.nodup_nil⟩
        locked := fun lk hlk => by
          rw [hlocks]
          exact hrun.locked lk (hheld ▸ hlk)
        cpu := fun lk hlk _ _ => by
          rw [hlocks, List.mem_singleton.mp hlk]
          exact hcpu
        code := by
          show Safe u [ptable] (s.threads u).pushed (parked s' u) (s.threads u).code
          rw [hparked', hnew.pushed]
          exact hnew.code
        paired := hnew.paired
        below := hnew.below
        ptable := fun hp => absurd (hparked'.symm.trans hp) Bool.false_ne_true
        outside := nofun
        entered := fun p b hp hb => by
          obtain ⟨hhead, hintena⟩ := hnew.entered p b hp hb
          exact ⟨fun _ => hintena, fun hne => absurd hhead hne⟩ }
    · rw [hcpus' d hd, hrunning' d hd]
      refine (h.runs d).frame (fun lk _ => by rw [hlocks]) fun q hq => ?_
      rw [hst, hstate q fun he => hu d (hq.trans he.symm)]
  · by_cases hd : d = c <;> by_cases he : e = c
    · rw [hd, he]
    · rw [hd, hthread, hthread' e he] at hde
      exact absurd hde.symm (hu e)
    · rw [he, hthread, hthread' d hd] at hde
      exact absurd hde (hu d)
    · rw [hthread' d hd, hthread' e he] at hde
      exact h.oneCpu d e hde
  · have hin : ∀ d, lk ∈ (s'.running d).held → lk ∈ (s.running d).held := by
      intro d hd
      by_cases hdc : d = c
      · rw [hdc, hrunning] at hd
        rw [hdc, hheld]
        exact hd
      · rw [hrunning' d hdc] at hd
        exact hd
    exact h.exclusive d e lk (hin d hd) (hin e he)
  · have htu : t ≠ u := fun he => ht c (hthread.trans he.symm)
    by_cases hold' : t = s.thread c
    · rw [hold', hold]
      exact hleft
    · rw [hother t hold' htu]
      refine h.suspended t fun d hd => ?_
      by_cases hdc : d = c
      · exact hold' (hdc ▸ hd.symm)
      · exact ht d ((hthread' d hdc).trans hd)
  · rw [hst]
    by_cases hcq : s.thread c = .proc q
    · exact hoff q hcq
    · have huq : u ≠ .proc q := fun he => hq c (hthread.trans he)
      rw [hstate q huq]
      refine h.notRunning q fun d hd => ?_
      by_cases hdc : d = c
      · exact hcq (hdc ▸ hd)
      · exact hq d ((hthread' d hdc).trans hd)

/-- Which processes are RUNNING is all that matters of their states. -/
theorem Inv.restate (h : Inv s) {st : ℕ → ProcState}
    (hst : ∀ p, st p = .RUNNING ↔ s.state p = .RUNNING) : Inv { s with state := st } where
  runs d := (h.runs d).frame (fun _ _ => rfl) fun p _ => hst p
  oneCpu := h.oneCpu
  exclusive := h.exclusive
  suspended := h.suspended
  notRunning p hp := mt (hst p).mp (h.notRunning p hp)

/-- A thread that no CPU runs may be replaced. -/
theorem Inv.renew (h : Inv s) {t : Thread} {k : KThread} (ht : ∀ d, s.thread d ≠ t)
    (hk : Suspended t k) : Inv { s with threads := Function.update s.threads t k } := by
  generalize hs' : ({ s with threads := Function.update s.threads t k } : Sys) = s'
  have hrunning : ∀ d, s'.running d = s.running d := by
    intro d
    rw [← hs']
    exact Function.update_of_ne (ht d) ..
  have hsame : s'.cpus = s.cpus ∧ s'.locks = s.locks ∧ s'.state = s.state := by
    rw [← hs']
    exact ⟨rfl, rfl, rfl⟩
  obtain ⟨hcpus, hlocks, hstate⟩ := hsame
  have hthread : ∀ d, s'.thread d = s.thread d := fun d => congrArg (fun f => (f d).thread) hcpus
  refine ⟨fun d => ?_, fun d e hde => ?_, fun d e lk hd he => ?_, fun u hu => ?_, fun p hp => ?_⟩
  · rw [hrunning, hcpus]
    exact (h.runs d).frame (fun lk _ => by rw [hlocks]) fun p _ => by rw [hstate]
  · rw [hthread, hthread] at hde
    exact h.oneCpu d e hde
  · rw [hrunning] at hd he
    exact h.exclusive d e lk hd he
  · by_cases he : u = t
    · have hnew : s'.threads u = k := by
        rw [← hs', he]
        exact Function.update_self ..
      rw [hnew, he]
      exact hk
    · have hold : s'.threads u = s.threads u := by
        rw [← hs']
        exact Function.update_of_ne he ..
      rw [hold]
      exact h.suspended u fun d hd => hu d ((hthread d).trans hd)
  · rw [hstate]
    exact h.notRunning p fun d hd => hp d ((hthread d).trans hd)

/-- With ptable.lock held, a process that is not RUNNING is on no other CPU. -/
theorem Inv.offCpu (h : Inv s) (hptable : ptable ∈ (s.running c).held)
    (hparked : parked s (s.thread c) = false) {p : ℕ} (hp : s.state p ≠ .RUNNING) :
    ∀ d, s.thread d ≠ .proc p := by
  intro d hd
  have hpd : parked s (s.thread d) = true := by
    rw [hd]
    exact decide_eq_true hp
  obtain rfl := h.exclusive c d ptable hptable ((h.runs d).ptable hpd)
  exact Bool.false_ne_true (hparked.symm.trans hpd)

/-- The operations that neither switch nor stand between taking a lock and recording it. -/
def Op.Plain : Op → Prop
  | .setcpu _ | .unlock _ | .restore | .swtch => False
  | _ => True

theorem Running.plain {x : Cpu} {k : KThread} (h : Running s c x k) {op : Op} {rest : List Op}
    (hcode : k.code = op :: rest) (hop : op.Plain) :
    (∀ lk ∈ k.held, (s.locks lk).cpu = some c) ∧ Paired rest ∧ rest.head? ≠ some .restore ∧
      ∀ p b, x.thread = .proc p → k.entered = some b → x.intena = b := by
  have hpaired := h.paired
  rw [hcode] at hpaired
  have hhead : ∀ op', ¬ op'.Plain → k.code.head? ≠ some op' := by
    intro op' hop' he
    rw [hcode] at he
    exact hop' (Option.some.inj he ▸ hop)
  refine ⟨fun lk hlk => h.cpu lk hlk (hhead _ id) (hhead _ id), hpaired.2, fun he => ?_,
    fun p b hp hb => ?_⟩
  · exact (hpaired.1 he ▸ hop : Op.Plain .swtch)
  · exact (h.entered p b hp hb).2 (hhead _ id)

/-- The code moves on, and nothing else changes. -/
theorem Running.advance {x : Cpu} {k : KThread} (h : Running s c x k) {op : Op}
    {rest code : List Op}
    (hcode : k.code = op :: rest) (hop : op.Plain) (hhead : code.head? ≠ some .restore)
    (hpaired : Paired code) (hsafe : Safe x.thread k.held k.pushed (parked s x.thread) code) :
    Running s c x { k with code := code } := by
  obtain ⟨hcpu, _, _, hintena⟩ := h.plain hcode hop
  exact { h with
    cpu := fun lk hlk _ _ => hcpu lk hlk
    code := hsafe
    paired := hpaired
    entered := fun p b hp hb => ⟨fun he => absurd he hhead, fun _ => hintena p b hp hb⟩ }

end Invariant

section Operations

/-- What an operation may lead to. -/
def Keeps : Outcome → Prop
  | .blocked => True
  | .panic msg => ¬ msg.Excluded
  | .next s => Inv s

variable {s : Sys} {c lk : ℕ} {rest : List Op}

theorem Running.depth {x : Cpu} {k : KThread} (h : Running s c x k) :
    x.ncli = 0 ↔ k.held = [] ∧ k.pushed = 0 := by
  rw [h.count, Nat.add_eq_zero_iff, List.length_eq_zero_iff]

theorem Inv.pushcli (h : Inv s) (hcode : (s.running c).code = .pushcli :: rest) :
    Keeps (s.exec c .pushcli rest) := by
  have hrun := h.runs c
  obtain ⟨hcpu, hpaired, hhead, hintena⟩ := hrun.plain hcode trivial
  have hsafe := hrun.code
  rw [hcode] at hsafe
  refine h.put rfl rfl { hrun with
    count := ?_, quiet := nofun, cpu := fun lk hlk _ _ => hcpu lk hlk, code := hsafe
    paired := hpaired, outside := fun _ hn => absurd hn (Nat.succ_ne_zero _), entered := ?_ }
  · show (s.cpus c).ncli + 1 = (s.running c).held.length + ((s.running c).pushed + 1)
    rw [hrun.count, Nat.add_assoc]
  · intro p b hp hb
    refine ⟨fun he => absurd he hhead, fun _ => ?_⟩
    dsimp only [KThread.pushcli, Cpu.pushcli] at hb ⊢
    by_cases hzero : (s.cpus c).ncli = 0
    · rw [if_pos (hrun.depth.mp hzero)] at hb
      rw [if_pos hzero]
      exact Option.some.inj hb
    · rw [if_neg (mt hrun.depth.mpr hzero)] at hb
      rw [if_neg hzero]
      exact hintena p b hp hb

/-- popcli does not panic, and what it leaves is this. -/
theorem Running.popcli {x : Cpu} {k : KThread} (h : Running s c x k) (hpushed : 0 < k.pushed) :
    x.popcli = .ok { x with
      ncli := x.ncli - 1, interrupts := decide (x.ncli = 1) && x.intena } := by
  have hne : x.ncli ≠ 0 := fun he => hpushed.ne' (h.depth.mp he).2
  have hoff : ¬ x.interrupts = true := fun hon => hne (h.quiet hon)
  unfold Cpu.popcli
  rw [if_neg hoff, if_neg hne]

theorem Inv.popcli (h : Inv s) (hcode : (s.running c).code = .popcli :: rest) :
    Keeps (s.exec c .popcli rest) := by
  have hrun := h.runs c
  obtain ⟨hcpu, hpaired, hhead, hintena⟩ := hrun.plain hcode trivial
  have hsafe := hrun.code
  rw [hcode] at hsafe
  obtain ⟨hpushed, hsafe⟩ := hsafe
  have hcount := hrun.count
  unfold Sys.exec
  rw [hrun.popcli hpushed]
  refine h.put rfl rfl { hrun with
    count := ?_, quiet := fun hon => ?_, cpu := fun lk hlk _ _ => hcpu lk hlk, code := hsafe
    paired := hpaired, outside := fun hheld hn => ?_, entered := fun p b hp hb => ?_ }
  · dsimp only [KThread.popcli]
    omega
  · have hone := of_decide_eq_true (Bool.and_eq_true_iff.mp hon).1
    dsimp only
    omega
  · dsimp only [KThread.popcli] at hheld hn ⊢
    exact if_pos ⟨hheld, by omega⟩
  · refine ⟨fun he => absurd he hhead, fun _ => hintena p b hp ?_⟩
    dsimp only [KThread.popcli] at hb
    split at hb
    · cases hb
    · exact hb

/-- Asking for a lock leaves the CPU as it was, but for intena where it does not matter. -/
theorem Running.holding {x : Cpu} {k : KThread} (h : Running s c x k) :
    x.pushcli.popcli = .ok { x with intena := if x.ncli = 0 then x.interrupts else x.intena } := by
  unfold Cpu.popcli Cpu.pushcli
  rw [if_neg Bool.false_ne_true, if_neg (Nat.succ_ne_zero _)]
  by_cases hzero : x.ncli = 0
  · simp [hzero]
  · have hoff : x.interrupts = false := by
      by_contra hon
      exact hzero (h.quiet (Bool.not_eq_false _ ▸ hon))
    simp [hzero, hoff]

theorem Inv.holding (h : Inv s) {expected : Bool} {msg : Panic}
    (hcode : (s.running c).code = .holding lk expected msg :: rest) :
    Keeps (s.exec c (.holding lk expected msg) rest) := by
  have hrun := h.runs c
  obtain ⟨hcpu, hpaired, hhead, hintena⟩ := hrun.plain hcode trivial
  have hsafe := hrun.code
  rw [hcode] at hsafe
  obtain ⟨hexpected, hsafe⟩ := hsafe
  unfold Sys.exec
  rw [hrun.holding]
  dsimp only
  split
  · refine h.put rfl rfl { hrun with
      cpu := fun lk hlk _ _ => hcpu lk hlk, code := hsafe, paired := hpaired
      entered := fun p b hp hb => ⟨fun he => absurd he hhead, fun _ => ?_⟩ }
    have hne : (s.cpus c).ncli ≠ 0 := by
      intro he
      obtain ⟨hheld, hpushed⟩ := hrun.depth.mp he
      cases (hrun.outside hheld hpushed).symm.trans hb
    dsimp only
    rw [if_neg hne]
    exact hintena p b hp hb
  · rename_i hnot
    cases expected with
    | false => exact hexpected
    | true => exact absurd (decide_eq_true ⟨hrun.locked lk hexpected, hcpu lk hexpected⟩) hnot

theorem Inv.xchg (h : Inv s) (hcode : (s.running c).code = .xchg lk :: rest) :
    Keeps (s.exec c (.xchg lk) rest) := by
  have hrun := h.runs c
  obtain ⟨hcpu, hpaired, hhead, hintena⟩ := hrun.plain hcode trivial
  have hsafe := hrun.code
  rw [hcode] at hsafe
  obtain ⟨hpushed, hnext, hsafe⟩ := hsafe
  have hcount := hrun.count
  show Keeps (if (s.locks lk).locked then _ else _)
  by_cases hfree : (s.locks lk).locked = true
  · rw [if_pos hfree]
    trivial
  rw [if_neg hfree]
  have hno : ∀ d, lk ∉ (s.running d).held := fun d hin => hfree ((h.runs d).locked lk hin)
  have hother : ∀ lk' ∈ (s.running c).held, lk' ≠ lk := fun lk' hin he => hno c (he ▸ hin)
  refine h.putLock (fun d _ => hno d) (fun lk' hin => List.mem_cons.mp hin) { hrun with
    count := ?_, nodup := List.nodup_cons.mpr ⟨hno c, hrun.nodup⟩, locked := fun lk' hin => ?_
    cpu := fun lk' hin hset _ => ?_, code := hsafe, paired := hpaired
    ptable := fun hp => List.mem_cons_of_mem _ (hrun.ptable hp), outside := nofun
    entered := fun p b hp hb => ⟨fun he => absurd he hhead, fun _ => hintena p b hp hb⟩ }
  · dsimp only [KThread.lock]
    rw [List.length_cons]
    omega
  · rcases List.mem_cons.mp hin with rfl | hin
    · exact congrArg Lock.locked setLock_self
    · exact (congrArg Lock.locked (setLock_ne (hother lk' hin))).trans (hrun.locked lk' hin)
  · rcases List.mem_cons.mp hin with rfl | hin
    · exact absurd hnext hset
    · exact (congrArg Lock.cpu (setLock_ne (hother lk' hin))).trans (hcpu lk' hin)

theorem Inv.setcpu (h : Inv s) (hcode : (s.running c).code = .setcpu lk :: rest) :
    Keeps (s.exec c (.setcpu lk) rest) := by
  have hrun := h.runs c
  have hsafe := hrun.code
  have hpaired := hrun.paired
  rw [hcode] at hsafe hpaired
  obtain ⟨hlk, hsafe⟩ := hsafe
  have hhead : rest.head? ≠ some .restore := fun he => nomatch hpaired.1 he
  refine h.putLock (fun d hd hin => hd (h.exclusive d c lk hin hlk)) (fun lk' hin => .inr hin)
    { hrun with
    locked := fun lk' hin => ?_, cpu := fun lk' hin _ _ => ?_, code := hsafe, paired := hpaired.2
    entered := fun p b hp hb => ⟨fun he => absurd he hhead, fun _ => ?_⟩ }
  · by_cases he : lk' = lk
    · rw [he]
      exact (congrArg Lock.locked setLock_self).trans (hrun.locked lk hlk)
    · exact (congrArg Lock.locked (setLock_ne he)).trans (hrun.locked lk' hin)
  · by_cases he : lk' = lk
    · rw [he]
      exact congrArg Lock.cpu setLock_self
    · refine (congrArg Lock.cpu (setLock_ne he)).trans (hrun.cpu lk' hin ?_ ?_)
      · rw [hcode]
        exact fun heq => he (Op.setcpu.inj (Option.some.inj heq)).symm
      · rw [hcode]
        exact nofun
  · refine (hrun.entered p b hp hb).2 ?_
    rw [hcode]
    exact nofun

theorem Inv.clearcpu (h : Inv s) (hcode : (s.running c).code = .clearcpu lk :: rest) :
    Keeps (s.exec c (.clearcpu lk) rest) := by
  have hrun := h.runs c
  obtain ⟨hcpu, hpaired, hhead, hintena⟩ := hrun.plain hcode trivial
  have hsafe := hrun.code
  rw [hcode] at hsafe
  obtain ⟨hlk, hnext, hsafe⟩ := hsafe
  refine h.putLock (fun d hd hin => hd (h.exclusive d c lk hin hlk)) (fun lk' hin => .inr hin)
    { hrun with
    locked := fun lk' hin => ?_, cpu := fun lk' hin _ hun => ?_, code := hsafe, paired := hpaired
    entered := fun p b hp hb => ⟨fun he => absurd he hhead, fun _ => hintena p b hp hb⟩ }
  · by_cases he : lk' = lk
    · rw [he]
      exact (congrArg Lock.locked setLock_self).trans (hrun.locked lk hlk)
    · exact (congrArg Lock.locked (setLock_ne he)).trans (hrun.locked lk' hin)
  · by_cases he : lk' = lk
    · exact absurd (he ▸ hnext) hun
    · exact (congrArg Lock.cpu (setLock_ne he)).trans (hcpu lk' hin)

theorem Inv.unlock (h : Inv s) (hcode : (s.running c).code = .unlock lk :: rest) :
    Keeps (s.exec c (.unlock lk) rest) := by
  have hrun := h.runs c
  have hsafe := hrun.code
  have hpaired := hrun.paired
  have hcount := hrun.count
  rw [hcode] at hsafe hpaired
  obtain ⟨hlk, hparked, hsafe⟩ := hsafe
  have hhead : rest.head? ≠ some .restore := fun he => nomatch hpaired.1 he
  have hother : ∀ lk' ∈ (s.running c).held.erase lk, lk' ≠ lk ∧ lk' ∈ (s.running c).held :=
    fun lk' hin => hrun.nodup.mem_erase_iff.mp hin
  refine h.putLock (fun d hd hin => hd (h.exclusive d c lk hin hlk))
    (fun lk' hin => .inr (hother lk' hin).2) { hrun with
    count := ?_, nodup := hrun.nodup.erase lk, locked := fun lk' hin => ?_
    cpu := fun lk' hin _ _ => ?_, code := hsafe, paired := hpaired.2
    ptable := fun hp => absurd (hparked.symm.trans hp) Bool.false_ne_true
    outside := fun _ hn => absurd hn (Nat.succ_ne_zero _)
    entered := fun p b hp hb => ⟨fun he => absurd he hhead, fun _ => ?_⟩ }
  · dsimp only [KThread.unlock]
    have hpos := List.length_pos_of_mem hlk
    rw [List.length_erase_of_mem hlk]
    omega
  · obtain ⟨hne, hin⟩ := hother lk' hin
    exact (congrArg Lock.locked (setLock_ne hne)).trans (hrun.locked lk' hin)
  · obtain ⟨hne, hin⟩ := hother lk' hin
    refine (congrArg Lock.cpu (setLock_ne hne)).trans (hrun.cpu lk' hin ?_ ?_)
    · rw [hcode]
      exact nofun
    · rw [hcode]
      exact fun heq => hne (Op.unlock.inj (Option.some.inj heq)).symm
  · refine (hrun.entered p b hp hb).2 ?_
    rw [hcode]
    exact nofun

theorem Inv.setState (h : Inv s) {st : ProcState}
    (hcode : (s.running c).code = .setState st :: rest) :
    Keeps (s.exec c (.setState st) rest) := by
  have hrun := h.runs c
  obtain ⟨hcpu, hpaired, hhead, hintena⟩ := hrun.plain hcode trivial
  have hsafe := hrun.code
  rw [hcode] at hsafe
  obtain ⟨⟨p, hp⟩, hptable, hst, hsafe⟩ := hsafe
  have hp' : s.thread c = .proc p := hp
  unfold Sys.exec
  rw [hp']
  have hparked : parked (s.setState p st) (s.cpus c).thread = true := by
    rw [hp]
    refine decide_eq_true ?_
    show Function.update s.state p st p ≠ .RUNNING
    rw [Function.update_self]
    exact hst
  exact h.putState hp rfl { hrun with
    cpu := fun lk hin _ _ => hcpu lk hin, code := hparked ▸ hsafe, paired := hpaired
    ptable := fun _ => hptable
    entered := fun q b hq hb => ⟨fun he => absurd he hhead, fun _ => hintena q b hq hb⟩ }

theorem Inv.check (h : Inv s) (hcode : (s.running c).code = .check :: rest) :
    Keeps (s.exec c .check rest) := by
  have hrun := h.runs c
  obtain ⟨_, hpaired, hhead, _⟩ := hrun.plain hcode trivial
  have hsafe := hrun.code
  have hcount := hrun.count
  rw [hcode] at hsafe
  obtain ⟨hparked, hptable, hsafe⟩ := hsafe
  unfold Sys.exec
  cases ht : s.thread c with
  | scheduler d => trivial
  | proc p =>
    dsimp only
    have hstate : s.state p ≠ .RUNNING := by
      have hp : parked s (s.thread c) = true := hparked
      rw [ht] at hp
      exact of_decide_eq_true hp
    by_cases hone : (s.cpus c).ncli = 1
    swap
    · rw [if_pos hone]
      exact id
    have hoff : ¬ (s.cpus c).interrupts = true := fun hon => by
      have := hrun.quiet hon
      omega
    rw [if_neg (not_not.mpr hone), if_neg hstate, if_neg hoff]
    refine h.put rfl rfl (hrun.advance hcode trivial hhead hpaired (hsafe ?_ ?_))
    · have hlen : (s.running c).held.length = 1 := by
        have := List.length_pos_of_mem hptable
        omega
      obtain ⟨lk, hlk⟩ := List.length_eq_one_iff.mp hlen
      rw [hlk, List.mem_singleton] at hptable
      rw [hlk, hptable]
    · have := List.length_pos_of_mem hptable
      omega

theorem Inv.restore (h : Inv s) (hcode : (s.running c).code = .restore :: rest) :
    Keeps (s.exec c .restore rest) := by
  have hrun := h.runs c
  have hsafe := hrun.code
  have hpaired := hrun.paired
  rw [hcode] at hsafe hpaired
  have hhead : rest.head? ≠ some .restore := fun he => nomatch hpaired.1 he
  refine h.put rfl rfl { hrun with
    cpu := fun lk hin _ _ => hrun.cpu lk hin ?_ ?_, code := hsafe, paired := hpaired.2
    entered := fun p b hp hb => ⟨fun he => absurd he hhead, fun _ => ?_⟩ }
  · rw [hcode]
    exact nofun
  · rw [hcode]
    exact nofun
  · refine (hrun.entered p b hp hb).1 ?_
    rw [hcode]
    rfl

theorem Inv.sti (h : Inv s) (hcode : (s.running c).code = .sti :: rest) :
    Keeps (s.exec c .sti rest) := by
  have hrun := h.runs c
  obtain ⟨_, hpaired, hhead, _⟩ := hrun.plain hcode trivial
  have hsafe := hrun.code
  rw [hcode] at hsafe
  obtain ⟨hheld, hpushed, hsafe⟩ := hsafe
  exact h.put rfl rfl { hrun.advance hcode trivial hhead hpaired hsafe with
    quiet := fun _ => hrun.depth.mpr ⟨hheld, hpushed⟩ }

theorem Inv.swtch (h : Inv s) (hcode : (s.running c).code = .swtch :: rest) :
    Keeps (s.exec c .swtch rest) := by
  have hrun := h.runs c
  have hsafe := hrun.code
  have hpaired := hrun.paired
  rw [hcode] at hsafe hpaired
  obtain ⟨hheld, hpushed, hparked, hnext, hsafe⟩ := hsafe
  have hcpu : (s.locks ptable).cpu = some c := by
    refine hrun.cpu ptable (hheld ▸ List.mem_cons_self) ?_ ?_
    all_goals
      rw [hcode]
      exact nofun
  have hstate : ∀ p, s.thread c = .proc p → s.state p ≠ .RUNNING := by
    intro p hp
    have hpark : parked s (s.thread c) = true := hparked
    rw [hp] at hpark
    exact of_decide_eq_true hpark
  refine h.switch hheld hpushed hcpu ?_ (fun d hd => ?_)
    (fun d he => (Thread.scheduler.inj he).symm) rfl
    (fun _ _ => rfl) hstate
  · have herase : (s.running c).held.erase ptable = [] := by
      rw [hheld]
      rfl
    refine ⟨herase, hpushed, hheld ▸ hpushed ▸ hsafe, hpaired.2, hrun.below,
      fun p b hp hb => ⟨hnext, ?_⟩⟩
    refine (hrun.entered p b hp hb).2 ?_
    rw [hcode]
    exact nofun
  · obtain rfl := (h.runs d).own c hd
    have hpark : parked s (s.thread c) = true := hparked
    rw [hd] at hpark
    exact Bool.false_ne_true hpark

theorem Inv.loop (h : Inv s) {p : ℕ} (hcode : (s.running c).code = .loop p :: rest) :
    Keeps (s.exec c (.loop p) rest) := by
  have hrun := h.runs c
  obtain ⟨hcpu, hpaired, hhead, _⟩ := hrun.plain hcode trivial
  have hsafe := hrun.code
  rw [hcode] at hsafe
  obtain ⟨⟨d, hd⟩, hheld, hpushed, hparked, rfl⟩ := hsafe
  obtain rfl := hrun.own d hd
  have hptable : ptable ∈ (s.running d).held := hheld ▸ List.mem_cons_self
  have hagain : Safe (s.cpus d).thread (s.running d).held (s.running d).pushed
      (parked s (s.cpus d).thread) [.loop (p + 1)] := ⟨⟨d, hd⟩, hheld, hpushed, hparked, rfl⟩
  show Keeps (if NPROC ≤ p then _ else if s.state p = .RUNNABLE then _ else _)
  by_cases hend : NPROC ≤ p
  · rw [if_pos hend]
    refine h.put rfl rfl (hrun.advance hcode trivial nofun paired_scheduler ?_)
    rw [hparked, hheld, hpushed, hd]
    exact safe_release List.mem_cons_self safe_scheduler
  rw [if_neg hend]
  by_cases hrunnable : s.state p = .RUNNABLE
  swap
  · rw [if_neg hrunnable]
    exact h.put rfl rfl (hrun.advance hcode trivial nofun ⟨nofun, trivial⟩ hagain)
  rw [if_pos hrunnable]
  have hoff := h.offCpu hptable hparked (p := p) (by rw [hrunnable]; exact nofun)
  refine h.switch hheld hpushed (hcpu ptable hptable) ?_ hoff nofun ?_ (fun q hq => ?_)
    fun q hq => ?_
  · have herase : (s.running d).held.erase ptable = [] := by
      rw [hheld]
      rfl
    refine ⟨herase, hpushed, ⟨⟨d, hd⟩, rfl, rfl, rfl, rfl⟩, ⟨nofun, trivial⟩, hrun.below,
      fun q b hq => ?_⟩
    exact nomatch hd.symm.trans hq
  · show decide (Function.update s.state p .RUNNING p ≠ .RUNNING) = false
    rw [Function.update_self]
    rfl
  · refine Function.update_of_ne ?_ ..
    rintro rfl
    exact hq rfl
  · exact nomatch hd.symm.trans hq

/-- The three operations on the table leave the CPU and its locks alone. -/
theorem Inv.onTable (h : Inv s) {op : Op} (hcode : (s.running c).code = op :: rest) (hop : op.Plain)
    (hsafe : ptable ∈ (s.running c).held ∧ parked s (s.cpus c).thread = false ∧
      Safe (s.cpus c).thread (s.running c).held (s.running c).pushed
      (parked s (s.cpus c).thread) rest) :
    Inv (s.set c (s.cpus c) { s.running c with code := rest }) := by
  obtain ⟨_, hpaired, hhead, _⟩ := (h.runs c).plain hcode hop
  exact h.put rfl rfl ((h.runs c).advance hcode hop hhead hpaired hsafe.2.2)

theorem Inv.wakeup (h : Inv s) {woken : ℕ → Bool}
    (hcode : (s.running c).code = .wakeup woken :: rest) :
    Keeps (s.exec c (.wakeup woken) rest) := by
  have hsafe := (h.runs c).code
  rw [hcode] at hsafe
  refine (h.onTable hcode trivial hsafe).restate fun p => ?_
  show (if woken p ∧ s.state p = .SLEEPING then _ else _) = _ ↔ _
  split
  · rename_i hp
    show _ ↔ s.state p = .RUNNING
    rw [hp.2]
    exact ⟨nofun, nofun⟩
  · exact Iff.rfl

/-- A process of another state than RUNNING gets another state than RUNNING. -/
theorem setState_running {p : ℕ} {st : ProcState} (hst : st ≠ .RUNNING)
    (hp : s.state p ≠ .RUNNING) (q : ℕ) :
    (s.setState p st).state q = .RUNNING ↔ s.state q = .RUNNING := by
  by_cases hq : q = p
  · subst hq
    have hnew : (s.setState q st).state q = st := Function.update_self ..
    rw [hnew]
    exact ⟨fun he => absurd he hst, fun he => absurd he hp⟩
  · have hold : (s.setState p st).state q = s.state q := Function.update_of_ne hq ..
    rw [hold]

theorem Inv.fork (h : Inv s) {np : ℕ} (hcode : (s.running c).code = .fork np :: rest) :
    Keeps (s.exec c (.fork np) rest) := by
  have hsafe := (h.runs c).code
  rw [hcode] at hsafe
  have hinv := h.onTable hcode trivial hsafe
  show Keeps (if s.state np = .UNUSED then _ else _)
  by_cases hunused : s.state np = .UNUSED
  swap
  · rw [if_neg hunused]
    exact hinv
  rw [if_pos hunused]
  have hnot : s.state np ≠ .RUNNING := by
    rw [hunused]
    exact nofun
  refine (hinv.restate (setState_running (show ProcState.RUNNABLE ≠ .RUNNING from nofun)
    hnot)).renew (fun d hd => ?_) ?_
  · refine h.offCpu hsafe.1 hsafe.2.1 hnot d ?_
    have hsame : Function.update s.cpus c (s.cpus c) = s.cpus := Function.update_eq_self c s.cpus
    exact (congrArg Cpu.thread (congrFun hsame d)).symm.trans hd
  · exact ⟨rfl, rfl, safe_release List.mem_cons_self (show Safe _ _ _ _ [] from rfl),
      by simp [Paired, forkret, release], List.forall_mem_nil _, nofun⟩

theorem Inv.wait (h : Inv s) {p : ℕ} (hcode : (s.running c).code = .wait p :: rest) :
    Keeps (s.exec c (.wait p) rest) := by
  have hsafe := (h.runs c).code
  rw [hcode] at hsafe
  have hinv := h.onTable hcode trivial hsafe
  show Inv (if s.state p = .ZOMBIE then _ else _)
  by_cases hzombie : s.state p = .ZOMBIE
  · rw [if_pos hzombie]
    refine hinv.restate (setState_running (show ProcState.UNUSED ≠ .RUNNING from nofun) ?_)
    show s.state p ≠ .RUNNING
    rw [hzombie]
    exact nofun
  · rw [if_neg hzombie]
    exact hinv

/-- Every operation keeps the invariant, or stops the system with a panic that is not excluded. -/
theorem Inv.exec (h : Inv s) {op : Op} (hcode : (s.running c).code = op :: rest) :
    Keeps (s.exec c op rest) := by
  cases op with
  | pushcli => exact h.pushcli hcode
  | popcli => exact h.popcli hcode
  | holding lk expected msg => exact h.holding hcode
  | xchg lk => exact h.xchg hcode
  | setcpu lk => exact h.setcpu hcode
  | clearcpu lk => exact h.clearcpu hcode
  | unlock lk => exact h.unlock hcode
  | setState st => exact h.setState hcode
  | check => exact h.check hcode
  | swtch => exact h.swtch hcode
  | restore => exact h.restore hcode
  | sti => exact h.sti hcode
  | loop p => exact h.loop hcode
  | wakeup woken => exact h.wakeup hcode
  | fork np => exact h.fork hcode
  | wait p => exact h.wait hcode
  | zombie => exact id

end Operations

section Runs

variable {s t : Sys} {as : List (ℕ × Act)}

theorem Inv.call (h : Inv s) {c : ℕ} {k : Call} (hcode : (s.running c).code = [])
    (hk : k.Allowed (s.thread c) (s.running c)) :
    Inv (s.set c (s.cpus c) { s.running c with code := k.code }) := by
  have hrun := h.runs c
  have hsafe := hrun.code
  rw [hcode] at hsafe
  have hparked : parked s (s.cpus c).thread = false := hsafe
  have hhead : ∀ op, (s.running c).code.head? ≠ some op := by
    intro op
    rw [hcode]
    exact nofun
  obtain ⟨hpaired, hstart⟩ := (paired_code : Paired k.code ∧ _)
  exact h.put rfl rfl { hrun with
    cpu := fun lk hlk _ _ => hrun.cpu lk hlk (hhead _) (hhead _)
    code := hparked ▸ safe_code hk
    paired := hpaired
    entered := fun p b hp hb => ⟨fun he => absurd he hstart, fun _ => (hrun.entered p b hp hb).2
      (hhead _)⟩ }

/-- An interrupt finds the thread without locks. -/
theorem Inv.interrupt (h : Inv s) {c : ℕ} (hon : (s.cpus c).interrupts = true) :
    Inv (s.set c { s.cpus c with interrupts := false }
      { s.running c with code := [], below := (s.running c).code :: (s.running c).below }) := by
  have hrun := h.runs c
  obtain ⟨hheld, hpushed⟩ := hrun.depth.mp (hrun.quiet hon)
  have hparked : parked s (s.cpus c).thread = false := by
    by_contra hp
    have hin := hrun.ptable (Bool.not_eq_false _ ▸ hp)
    rw [hheld] at hin
    exact List.not_mem_nil hin
  have hsafe := hrun.code
  rw [hheld, hpushed, hparked] at hsafe
  have hentered := hrun.outside hheld hpushed
  refine h.put rfl rfl { hrun with
    quiet := nofun, cpu := fun lk hlk _ _ => ?_, code := hparked, paired := trivial
    below := List.forall_mem_cons.mpr ⟨⟨hsafe, hrun.paired⟩, hrun.below⟩
    entered := fun p b _ hb => nomatch hentered.symm.trans hb }
  rw [hheld] at hlk
  exact absurd hlk List.not_mem_nil

theorem Inv.iret (h : Inv s) {c : ℕ} (hcode : (s.running c).code = [])
    (hheld : (s.running c).held = []) (hpushed : (s.running c).pushed = 0) :
    Inv (s.set c { s.cpus c with interrupts := true }
      { s.running c with
        code := (s.running c).below.headD []
        below := (s.running c).below.tail }) := by
  have hrun := h.runs c
  have hsafe := hrun.code
  rw [hcode] at hsafe
  have hparked : parked s (s.cpus c).thread = false := hsafe
  have hentered := hrun.outside hheld hpushed
  have htop : Safe (s.cpus c).thread [] 0 false ((s.running c).below.headD []) ∧
      Paired ((s.running c).below.headD []) := by
    cases hb : (s.running c).below with
    | nil => exact ⟨rfl, trivial⟩
    | cons code codes => exact hrun.below code (hb ▸ List.mem_cons_self)
  refine h.put rfl rfl { hrun with
    quiet := fun _ => hrun.depth.mpr ⟨hheld, hpushed⟩, cpu := fun lk hlk _ _ => ?_, code := ?_
    paired := htop.2, below := fun code hin => hrun.below code (List.mem_of_mem_tail hin)
    entered := fun p b _ hb => nomatch hentered.symm.trans hb }
  · rw [hheld] at hlk
    exact absurd hlk List.not_mem_nil
  · rw [hparked, hheld, hpushed]
    exact htop.1

theorem Inv.step (h : Inv s) (a : ℕ × Act) : Keeps (s.step a) := by
  obtain ⟨c, a⟩ := a
  cases a with
  | op =>
    show Keeps (match (s.running c).code with | [] => .blocked | op :: rest => s.exec c op rest)
    cases hcode : (s.running c).code with
    | nil => trivial
    | cons op rest => exact h.exec hcode
  | call k =>
    show Keeps (if _ then _ else _)
    split
    · rename_i hk
      exact h.call hk.1 hk.2
    · trivial
  | interrupt =>
    show Keeps (if _ then _ else _)
    split
    · rename_i hon
      exact h.interrupt hon
    · trivial
  | iret =>
    show Keeps (if _ then _ else _)
    split
    · rename_i hk
      exact h.iret hk.1 hk.2.1 hk.2.2
    · trivial

theorem start_inv : Inv Sys.start where
  runs c := {
    own := fun d hd => (Thread.scheduler.inj hd).symm
    count := rfl
    quiet := nofun
    nodup := List.nodup_nil
    locked := List.forall_mem_nil _
    cpu := List.forall_mem_nil _
    code := safe_scheduler
    paired := by
      show Paired scheduler
      simp [Paired, scheduler, Spinlock.acquire]
    below := List.forall_mem_nil _
    ptable := nofun
    outside := fun _ _ => rfl
    entered := nofun }
  oneCpu c d hcd := Thread.scheduler.inj hcd
  exclusive c d lk hlk := absurd hlk List.not_mem_nil
  suspended t ht := by
    cases t with
    | scheduler c => exact absurd rfl (ht c)
    | proc p => exact ⟨rfl, rfl, safe_release List.mem_cons_self (show Safe _ _ _ _ [] from rfl),
        by simp [Paired, Sys.start, forkret, Spinlock.release], List.forall_mem_nil _, nofun⟩
  notRunning p _ := by
    show (if p = 0 then ProcState.RUNNABLE else .UNUSED) ≠ .RUNNING
    split <;> exact nofun

theorem step_op {c : ℕ} {op : Op} {rest : List Op} (hcode : (s.running c).code = op :: rest) :
    s.step (c, .op) = s.exec c op rest := by
  show (match (s.running c).code with | [] => Outcome.blocked | op :: rest => s.exec c op rest) = _
  rw [hcode]

theorem step_popcli {c : ℕ} {x : Cpu} {rest : List Op}
    (hcode : (s.running c).code = .popcli :: rest)
    (hx : (s.cpus c).popcli = .ok x) :
    s.step (c, .op) = .next (s.set c x { (s.running c).popcli with code := rest }) := by
  rw [step_op hcode]
  unfold Sys.exec
  rw [hx]

theorem Inv.nested (h : Inv s) : Nested s where
  count c := (h.runs c).count
  off c hpos := by
    by_contra hon
    have := (h.runs c).quiet (Bool.not_eq_false _ ▸ hon)
    omega
  restores c p hp rest b hcode hheld hpushed hentered := by
    have hrun := h.runs c
    have hpopcli := hrun.popcli (hpushed ▸ Nat.one_pos)
    have hintena : (s.cpus c).intena = b := by
      refine (hrun.entered p b hp hentered).2 ?_
      rw [hcode]
      exact nofun
    have hone : (s.cpus c).ncli = 1 := by
      rw [hrun.count, hheld, hpushed]
      rfl
    refine ⟨_, step_popcli hcode hpopcli, ?_⟩
    rw [set_cpu]
    simp only [hone, hintena, decide_true, Bool.true_and]
  panics a msg hmsg := by
    have hkeeps := h.step a
    rw [hmsg] at hkeeps
    exact hkeeps

/-- In every run of any number of CPUs. -/
theorem always_nested (as : List (ℕ × Act)) : Runs.Always Sys.next? Nested Sys.start as := by
  refine (Runs.always_of_invariant (fun s a t h ht => ?_) start_inv as).mono fun _ h => h.nested
  have hkeeps := h.step a
  unfold Sys.next? Outcome.next? at ht
  split at ht
  · rename_i u hu
    rw [hu] at hkeeps
    exact Option.some.inj ht ▸ hkeeps
  · cases ht

end Runs

section Scheduler

open NorthOS.Runs

/-- The loop of the scheduler passes the processes that are not RUNNABLE. -/
theorem loop_runs {s : Sys} {c p : ℕ} (n : ℕ) (hp : p + n = NPROC)
    (hcode : (s.running c).code = [.loop p]) (hidle : ∀ q, p ≤ q → s.state q ≠ .RUNNABLE) :
    run Sys.next? s (List.replicate (n + 1) (c, .op)) =
      some (s.set c (s.cpus c) { s.running c with code := release ptable ++ scheduler }) := by
  have hstep : s.next? (c, .op) = (if NPROC ≤ p then
      .next (s.set c (s.cpus c) { s.running c with code := release ptable ++ scheduler })
    else if s.state p = .RUNNABLE then
      .next ((s.swtch c { s.running c with code := [.loop (p + 1)] } (.proc p)).setState p .RUNNING)
    else .next (s.set c (s.cpus c) { s.running c with code := [.loop (p + 1)] }) : Outcome).next? :=
    congrArg Outcome.next? (step_op hcode)
  rw [List.replicate_succ, run, hstep]
  induction n generalizing s p with
  | zero =>
    rw [if_pos (show NPROC ≤ p from hp.ge)]
    rfl
  | succ n ih =>
    rw [if_neg (by omega), if_neg (hidle p le_rfl)]
    generalize hu : s.set c (s.cpus c) { s.running c with code := [.loop (p + 1)] } = u
    have hrunning : u.running c = { s.running c with code := [.loop (p + 1)] } := by
      rw [← hu]
      exact set_running rfl
    have hthread : u.thread c = s.thread c := by
      rw [← hu]
      exact set_thread rfl
    have hlast : u.set c (u.cpus c) { u.running c with code := release ptable ++ scheduler } =
        s.set c (s.cpus c) { s.running c with code := release ptable ++ scheduler } := by
      unfold Sys.set
      rw [hrunning, hthread, ← hu]
      unfold Sys.set
      simp only [Function.update_self, Function.update_idem]
    have hcode' : (u.running c).code = [.loop (p + 1)] := by rw [hrunning]
    have hidle' : ∀ q, p + 1 ≤ q → u.state q ≠ .RUNNABLE := by
      rw [← hu]
      exact fun q hq => hidle q (Nat.le_of_succ_le hq)
    rw [← hlast]
    show run Sys.next? u (List.replicate (n + 1) (c, .op)) = _
    rw [List.replicate_succ, run]
    have hnext : u.next? (c, .op) = _ := congrArg Outcome.next? (step_op hcode')
    rw [hnext]
    exact ih (by omega) hcode' hidle' hnext

/-- A system in which only CPU 0 and the first process have begun. -/
def alone (x : Cpu) (ks kp : KThread) (l : Lock) (st : ProcState) : Sys where
  cpus := Function.update Sys.start.cpus 0 x
  threads := Function.update (Function.update Sys.start.threads (.scheduler 0) ks) (.proc 0) kp
  locks := Function.update Sys.start.locks ptable l
  state := Function.update Sys.start.state 0 st

/-- The scheduler takes ptable.lock with interrupts on, and picks the first process. -/
theorem alone_picked : run Sys.next? Sys.start (List.replicate 6 (0, .op)) =
    some (alone ⟨.proc 0, 1, true, false⟩ ⟨[.loop 1], [], false, [], 0, some true⟩
      ⟨forkret, [], false, [ptable], 0, none⟩ ⟨true, some 0⟩ .RUNNING) := by
  simp [List.replicate, run, Sys.next?, Outcome.next?, Sys.step, Sys.exec, Sys.running,
    Sys.thread, Sys.set,
    Sys.start, scheduler, Spinlock.acquire, Cpu.pushcli, Cpu.popcli, KThread.pushcli, KThread.lock,
    Sys.setLock, Sys.setState, Sys.swtch, Sys.Held, ptable, NPROC, alone]

/-- It begins with interrupts on. -/
theorem alone_forkret : run Sys.next? (alone ⟨.proc 0, 1, true, false⟩
      ⟨[.loop 1], [], false, [], 0, some true⟩ ⟨forkret, [], false, [ptable], 0,
      none⟩ ⟨true, some 0⟩ .RUNNING) (List.replicate 4 (0, .op)) =
    some (alone ⟨.proc 0, 0, true, true⟩ ⟨[.loop 1], [], false, [], 0, some true⟩
      ⟨[], [], false, [], 0, none⟩ ⟨false, none⟩ .RUNNING) := by
  simp [List.replicate, run, Sys.next?, Outcome.next?, Sys.step, Sys.exec, Sys.running,
    Sys.thread, Sys.set,
    Sys.start, forkret, Spinlock.release, Cpu.pushcli, Cpu.popcli, KThread.popcli, KThread.unlock,
    Sys.setLock, Sys.Held, ptable, alone]

/-- On a clock tick it takes the lock with interrupts off. -/
theorem alone_tick : run Sys.next? (alone ⟨.proc 0, 0, true, true⟩
      ⟨[.loop 1], [], false, [], 0, some true⟩ ⟨[], [], false, [], 0, none⟩ ⟨false, none⟩ .RUNNING)
      ((0, .interrupt) :: (0, .call .yield) :: List.replicate 4 (0, .op)) =
    some (alone ⟨.proc 0, 1, false, false⟩ ⟨[.loop 1], [], false, [], 0, some true⟩
      ⟨Spinlock.yield.drop 4, [[]], false, [ptable], 0, some false⟩ ⟨true, some 0⟩ .RUNNING) := by
  simp [List.replicate, run, Sys.next?, Outcome.next?, Sys.step, Sys.exec, Sys.running,
    Sys.thread, Sys.set,
    Sys.start, Spinlock.acquire, Cpu.pushcli, Cpu.popcli, KThread.pushcli, KThread.popcli,
    KThread.lock, Sys.setLock, Sys.Held, ptable, alone, Call.Allowed, Call.code, Spinlock.yield]

theorem alone_runnable : run Sys.next? (alone ⟨.proc 0, 1, false, false⟩
      ⟨[.loop 1], [], false, [], 0, some true⟩
      ⟨Spinlock.yield.drop 4, [[]], false, [ptable], 0, some false⟩ ⟨true, some 0⟩ .RUNNING)
      (List.replicate 5 (0, .op)) =
    some (alone ⟨.proc 0, 1, false, false⟩ ⟨[.loop 1], [], false, [], 0, some true⟩
      ⟨Spinlock.yield.drop 9, [[]], false, [ptable], 0, some false⟩ ⟨true, some 0⟩ .RUNNABLE) := by
  simp [List.replicate, run, Sys.next?, Outcome.next?, Sys.step, Sys.exec, Sys.running,
    Sys.thread, Sys.set,
    Sys.start, Spinlock.acquire, Spinlock.myproc, Cpu.pushcli, Cpu.popcli, KThread.pushcli,
    KThread.popcli, Sys.setState, ptable, alone, Spinlock.yield, sched]

/-- It gives up the CPU, with the flag that it found saved. -/
theorem alone_yield : run Sys.next? (alone ⟨.proc 0, 1, false, false⟩
      ⟨[.loop 1], [], false, [], 0, some true⟩
      ⟨Spinlock.yield.drop 9, [[]], false, [ptable], 0, some false⟩ ⟨true, some 0⟩ .RUNNABLE)
      (List.replicate 3 (0, .op)) =
    some (alone ⟨.scheduler 0, 1, false, false⟩ ⟨[.loop 1], [], false, [ptable], 0, some true⟩
      ⟨.restore :: Spinlock.release ptable, [[]], false, [], 0, some false⟩ ⟨true,
      some 0⟩ .RUNNABLE) := by
  simp [List.replicate, run, Sys.next?, Outcome.next?, Sys.step, Sys.exec, Sys.running,
    Sys.thread, Sys.set,
    Sys.start, Spinlock.acquire, Spinlock.release, Cpu.pushcli, Cpu.popcli, Sys.swtch,
    Sys.Held, ptable, alone, Spinlock.yield, sched, Spinlock.myproc]
  have hne : Thread.proc 0 ≠ .scheduler 0 := by decide
  rw [Function.update_comm hne, Function.update_idem]

/-- The scheduler comes to the last popcli of its release with intena as the process had it. -/
theorem alone_release {s : Sys} {kp : KThread} (hs : s = alone ⟨.scheduler 0, 1, false, false⟩
      ⟨[.loop 1], [], false, [ptable], 0, some true⟩ kp ⟨true, some 0⟩ .RUNNABLE) :
    ∃ t, run Sys.next? (s.set 0 (s.cpus 0)
      { s.running 0 with code := Spinlock.release ptable ++ scheduler })
        (List.replicate 3 (0, .op)) = some t ∧
      t.cpus 0 = ⟨.scheduler 0, 1, false, false⟩ ∧
      t.running 0 = ⟨.popcli :: scheduler, [], false, [], 1, some true⟩ := by
  subst hs
  simp [List.replicate, run, Sys.next?, Outcome.next?, Sys.step, Sys.exec, Sys.running,
    Sys.thread, Sys.set,
    Spinlock.release, Cpu.pushcli, Cpu.popcli, KThread.unlock, Sys.setLock, Sys.Held, ptable, alone]

/-- The scheduler's own release need not restore the flag of its acquire. -/
theorem not_always_restores : ¬ ∀ as : List (ℕ × Act),
    Always Sys.next? (fun s => ∀ c, Restores s c) Sys.start as := by
  intro hall
  obtain ⟨s, hs⟩ : ∃ s, s = alone ⟨.scheduler 0, 1, false, false⟩
      ⟨[.loop 1], [], false, [ptable], 0, some true⟩
      ⟨.restore :: Spinlock.release ptable, [[]], false, [], 0, some false⟩
      ⟨true, some 0⟩ .RUNNABLE :=
    ⟨_, rfl⟩
  have hloop := loop_runs (s := s) (c := 0) (p := 1) 63 rfl
    (by rw [hs]; simp [alone, Sys.running, Sys.thread]) (fun q hq => by
      rw [hs]
      have hne : q ≠ 0 := by omega
      simp [alone, Sys.start, hne])
  obtain ⟨t, ht, hcpu, hrunning⟩ := alone_release hs
  have hrun : run Sys.next? Sys.start (List.replicate 6 (0, .op) ++ (List.replicate 4 (0, .op) ++
      (((0, .interrupt) :: (0, .call .yield) :: List.replicate 4 (0, .op)) ++
        (List.replicate 5 (0, .op) ++ (List.replicate 3 (0, .op) ++
          (List.replicate 64 (0, .op) ++ List.replicate 3 (0, .op))))))) = some t := by
    rw [run_append, alone_picked, Option.bind_some, run_append, alone_forkret, Option.bind_some,
      run_append, alone_tick, Option.bind_some, run_append, alone_runnable, Option.bind_some,
      run_append, alone_yield, Option.bind_some, run_append, ← hs, hloop, Option.bind_some, ht]
  have hrestores := (always_iff_run _ _).mp (hall _) _ t (List.prefix_refl _) hrun 0
  obtain ⟨u, hu, hon⟩ := hrestores scheduler true (by rw [hrunning]) (by rw [hrunning])
    (by rw [hrunning]) (by rw [hrunning])
  have hpopcli : (t.cpus 0).popcli = .ok ⟨.scheduler 0, 0, false, false⟩ := by
    rw [hcpu]
    rfl
  obtain rfl := Outcome.next.inj (hu.symm.trans (step_popcli (by rw [hrunning]) hpopcli))
  rw [set_cpu] at hon
  exact Bool.false_ne_true hon

end Scheduler

end NorthOS.Spinlock
