import NorthOS.Pipe

/-!
Sleepers of a pipe. Whoever changes the pipe under p->lock owes a wakeup to the processes
that sleep on the counter it changed, until it has called wakeup. sleep gives p->lock
back before the process is asleep, so a process counts as a sleeper from then on. A
writer that gives up at a full pipe does not pay what it owes.
-/
namespace NorthOS.Pipes

open Process Runs

def SleepsOn (t : Ptable) (chan : Chan) (p : ℕ) : Prop :=
  (t.proc p).state = .SLEEPING ∧ (t.proc p).chan = some chan

/-- The process sleeps on the channel, or it is in sleep and has given p->lock back. -/
def Sleeper (s : Sys) (chan : Chan) (p : ℕ) : Prop :=
  SleepsOn s.table chan p ∨ ∃ c, s.doing p = some (c, .fall) ∧ c.chan = chan

/-- What the sleepers of a channel wait for has not happened. -/
def Pipe.Blocked (pipe : Pipe) (chan : Chan) : Prop :=
  (chan = nreadChan → pipe.empty ∧ pipe.writeopen = true) ∧
    (chan = nwriteChan → pipe.full ∧ pipe.readopen = true)

/-- While p->lock is free, who sleeps on a counter has to. -/
def NoneMissed (s : Sys) : Prop :=
  s.lock = none → ∀ chan p, SleepsOn s.table chan p → s.pipe.Blocked chan

/-- No writer gives up at a full pipe that has a sleeping reader. -/
def NoSilentExit (s : Sys) : Act → Prop
  | .go p => ∀ addr i, s.doing p = some (.write addr i, .body) → i < addr.length → s.pipe.full →
    (s.pipe.readopen = false ∨ s.killed p = true) → ∀ q, ¬ Sleeper s nreadChan q
  | _ => True

/-- The channel that the process in the call wakes before it releases p->lock. -/
def owes : Call → Stage → Option Chan
  | .write _ _, .body | .write _ _, .wake => some nreadChan
  | .copy _ _, .body => some nwriteChan
  | c, .finish => some c.wakes
  | _, _ => none

def Sys.owed (s : Sys) : Option Chan :=
  s.lock.bind fun p => (s.doing p).bind fun d => owes d.1 d.2

/-- The process is on its way into sleep and still holds p->lock. -/
def Stage.sinks : Stage → Bool
  | .wake | .sleep | .handover => true
  | _ => false

theorem Stage.holds_of_sinks {st : Stage} (h : st.sinks = true) : st.holds = true := by
  cases st <;> first | rfl | cases h

/-- The invariant: a channel with sleepers is blocked, or somebody owes it a wakeup. -/
structure Paid (s : Sys) : Prop where
  exclusive : ∀ p c st, s.doing p = some (c, st) → st.holds = true → s.lock = some p
  holder : ∀ p, s.lock = some p → ∃ c st, s.doing p = some (c, st) ∧ st.holds = true
  ptlock : ∀ p c st, s.doing p = some (c, st) → st = .handover ∨ st = .fall → s.ptlock = some p
  sinking : ∀ p c st, s.doing p = some (c, st) → st.sinks = true → s.pipe.Blocked c.chan
  paid : ∀ chan p, Sleeper s chan p → s.pipe.Blocked chan ∨ s.owed = some chan

section Table

variable {t u : Ptable} {chan chan' : Chan} {p q : ℕ}

theorem sleepsOn_wakeup1 (h : SleepsOn (t.wakeup1 (some chan')) chan p) :
    SleepsOn t chan p ∧ chan ≠ chan' := by
  obtain ⟨hs, hc⟩ := h
  rcases wakeup1_proc t (some chan') p with ⟨he, hnot⟩ | ⟨_, he⟩
  · rw [he] at hs hc
    refine ⟨⟨hs, hc⟩, ?_⟩
    rintro rfl
    exact hnot ⟨hs, hc⟩
  · rw [he] at hs
    cases hs

theorem sleepsOn_set {f : Proc → Proc}
    (hf : (f (t.proc q)).state = .SLEEPING → (f (t.proc q)).chan = some chan →
    SleepsOn t chan q) (h : SleepsOn (t.set q f) chan p) : SleepsOn t chan p := by
  obtain ⟨hs, hc⟩ := h
  by_cases hp : p = q
  · subst hp
    rw [Ptable.set_self] at hs hc
    exact hf hs hc
  · rw [Ptable.set_other hp] at hs hc
    exact ⟨hs, hc⟩

theorem sleepsOn_sleep (h : SleepsOn (t.sleep q chan') chan p) :
    SleepsOn t chan p ∨ p = q ∧ chan = chan' := by
  obtain ⟨hs, hc⟩ := h
  by_cases hp : p = q
  · subst hp
    have he : ((t.sleep p chan').proc p).chan = some chan' := congrArg Proc.chan Ptable.set_self
    exact Or.inr ⟨rfl, Option.some.inj (hc.symm.trans he)⟩
  · rw [Ptable.sleep, Ptable.set_other hp] at hs hc
    exact Or.inl ⟨hs, hc⟩

theorem sleepsOn_schedule (hu : t.schedule q = some u) (h : SleepsOn u chan p) :
    SleepsOn t chan p := by
  unfold Ptable.schedule at hu
  split at hu
  · obtain rfl := Option.some.inj hu
    exact sleepsOn_set (fun hs => by cases hs) h
  · cases hu

theorem sleepsOn_kill {pid : ℤ} (h : SleepsOn (t.killPid pid).1 chan p) : SleepsOn t chan p := by
  rcases killPid_cases (Prod.eta (t.killPid pid)).symm with ⟨_, he, _⟩ | ⟨_, q, _, _, he⟩
  · rwa [he] at h
  · rw [he] at h
    refine sleepsOn_set (fun hs hc => ?_) h
    dsimp only at hs hc
    split at hs
    · cases hs
    · exact ⟨hs, hc⟩

end Table

section Paid

variable {s w : Sys} {p : ℕ} {x : Option (Call × Stage)} {c : Call} {st : Stage}

theorem blocked_other {pipe : Pipe} {chan : Chan} (hr : chan ≠ nreadChan) (hw : chan ≠ nwriteChan) :
    pipe.Blocked chan :=
  ⟨fun he => absurd he hr, fun he => absurd he hw⟩

theorem Paid.noneMissed (h : Paid s) : NoneMissed s := by
  intro hlock chan p hp
  refine (h.paid chan p (Or.inl hp)).resolve_right fun ho => ?_
  unfold Sys.owed at ho
  rw [hlock] at ho
  cases ho

theorem Sys.owed_eq (hlock : s.lock = some p) (hdoing : s.doing p = some (c, st)) :
    s.owed = owes c st := by
  unfold owed
  rw [hlock, Option.bind_some, hdoing, Option.bind_some]

/-- A step of the process that holds the lock. -/
theorem Paid.held (h : Paid s) (hlock : s.lock = some p)
    (hdoing : w.doing = Function.update s.doing p x)
    (hkeep : w.lock = some p ∧ (∃ c st, x = some (c, st) ∧ st.holds = true) ∨
      w.lock = none ∧ ∀ c st, x = some (c, st) → st.holds = false)
    (hptlock : (w.ptlock = s.ptlock ∨ s.ptlock = none) ∧
      ∀ c st, x = some (c, st) → st = .handover ∨ st = .fall → w.ptlock = some p)
    (hsinking : ∀ c st, x = some (c, st) → st.sinks = true → w.pipe.Blocked c.chan)
    (hpaid : ∀ chan, (∃ q, Sleeper w chan q) → w.pipe.Blocked chan ∨ w.owed = some chan) :
    Paid w := by
  have hself : w.doing p = x := by
    rw [hdoing, Function.update_self]
  have hother : ∀ q, q ≠ p → w.doing q = s.doing q := by
    intro q hq
    rw [hdoing, Function.update_of_ne hq]
  have halone : ∀ q c st, q ≠ p → w.doing q = some (c, st) → st.holds = false := by
    intro q c st hq hs
    rw [hother q hq] at hs
    rw [← Bool.not_eq_true]
    intro hholds
    have hl := h.exclusive q c st hs hholds
    rw [hlock] at hl
    exact hq (Option.some.inj hl).symm
  refine ⟨fun q c st hs hholds => ?_, fun q hq => ?_, fun q c st hs hst => ?_,
    fun q c st hs hsinks => ?_, fun chan q hq => hpaid chan ⟨q, hq⟩⟩
  · by_cases hq : q = p
    · subst hq
      rcases hkeep with ⟨hl, _⟩ | ⟨_, hno⟩
      · exact hl
      · rw [hno c st (hself.symm.trans hs)] at hholds
        cases hholds
    · rw [halone q c st hq hs] at hholds
      cases hholds
  · rcases hkeep with ⟨hl, c, st, hx, hholds⟩ | ⟨hl, _⟩
    · obtain rfl := Option.some.inj (hl.symm.trans hq)
      exact ⟨c, st, hself.trans hx, hholds⟩
    · rw [hl] at hq
      cases hq
  · by_cases hq : q = p
    · subst hq
      exact hptlock.2 c st (hself.symm.trans hs) hst
    · rw [hother q hq] at hs
      have hpt := h.ptlock q c st hs hst
      rcases hptlock.1 with he | hnone
      · rw [he, hpt]
      · rw [hnone] at hpt
        cases hpt
  · by_cases hq : q = p
    · subst hq
      exact hsinking c st (hself.symm.trans hs) hsinks
    · have hholds := Stage.holds_of_sinks hsinks
      rw [halone q c st hq hs] at hholds
      cases hholds

/-- The sleepers after a step of `p` that does not put it to sleep. -/
theorem Sleeper.before {chan : Chan} {q : ℕ} (h : Sleeper w chan q)
    (hdoing : w.doing = Function.update s.doing p x) (hx : ∀ c, x ≠ some (c, .fall))
    (htable : SleepsOn w.table chan q → SleepsOn s.table chan q) : Sleeper s chan q := by
  rcases h with hs | ⟨c, hd, hc⟩
  · exact Or.inl (htable hs)
  · rw [hdoing] at hd
    by_cases hq : q = p
    · rw [hq, Function.update_self] at hd
      exact absurd hd (hx c)
    · rw [Function.update_of_ne hq] at hd
      exact Or.inr ⟨c, hd, hc⟩

/-- A step under p->lock that leaves the process table alone. -/
theorem Paid.stay (h : Paid s) (hold : s.doing p = some (c, .body)) {c' : Call} {st' : Stage}
    (hdoing : w.doing = Function.update s.doing p (some (c', st')))
    (htable : w.table = s.table) (hptlock : w.ptlock = s.ptlock) (hlock' : w.lock = s.lock)
    (hholds : st'.holds = true ∧ st' ≠ .handover)
    (hsinking : st'.sinks = true → w.pipe.Blocked c'.chan)
    (hpaid : ∀ chan, s.pipe.Blocked chan ∨ owes c .body = some chan →
      w.pipe.Blocked chan ∨ owes c' st' = some chan) : Paid w := by
  have hlock : s.lock = some p := h.exclusive p c .body hold rfl
  have hself : w.doing p = some (c', st') := by
    rw [hdoing, Function.update_self]
  have hfall : st' ≠ .fall := by
    rintro rfl
    cases hholds.1
  refine h.held hlock hdoing (Or.inl ⟨hlock'.trans hlock, c', st', rfl, hholds.1⟩)
    ⟨Or.inl hptlock, fun c st hc hst => ?_⟩ (fun c st hc => ?_) ?_
  · obtain ⟨rfl, rfl⟩ := Prod.mk.inj (Option.some.inj hc)
    rcases hst with hst | hst
    · exact absurd hst hholds.2
    · exact absurd hst hfall
  · obtain ⟨rfl, rfl⟩ := Prod.mk.inj (Option.some.inj hc)
    exact hsinking
  · rintro chan ⟨q, hq⟩
    have hq' : Sleeper s chan q := by
      refine hq.before hdoing (fun c hc => ?_) fun hs => htable ▸ hs
      exact hfall (Prod.mk.inj (Option.some.inj hc)).2
    rw [Sys.owed_eq (hlock'.trans hlock) hself]
    refine hpaid chan ?_
    rw [← Sys.owed_eq hlock hold]
    exact h.paid chan q hq'

/-- The release of p->lock by a process that owes no sleeper a wakeup. -/
theorem Paid.quit (h : Paid s) (hold : s.doing p = some (c, st)) (hholds : st.holds = true)
    (hdoing : w.doing = Function.update s.doing p none) (htable : w.table = s.table)
    (hptlock : w.ptlock = s.ptlock) (hlock' : w.lock = none) (hpipe : w.pipe = s.pipe)
    (howes : ∀ chan q, Sleeper s chan q → owes c st ≠ some chan) : Paid w := by
  have hlock : s.lock = some p := h.exclusive p c st hold hholds
  refine h.held hlock hdoing (Or.inr ⟨hlock', fun _ _ hx => by cases hx⟩)
    ⟨Or.inl hptlock, fun _ _ hx => by cases hx⟩ (fun _ _ hx => by cases hx) ?_
  rintro chan ⟨q, hq⟩
  have hq' : Sleeper s chan q :=
    hq.before hdoing (fun c hc => by cases hc) fun hs => htable ▸ hs
  rcases h.paid chan q hq' with hb | ho
  · rw [hpipe]
    exact Or.inl hb
  · rw [Sys.owed_eq hlock hold] at ho
    exact absurd ho (howes chan q hq')

theorem nwriteChan_ne : nwriteChan ≠ nreadChan := by decide

theorem Paid.body (h : Paid s) (hold : s.doing p = some (c, .body))
    (hexit : NoSilentExit s (.go p)) : Paid (s.body p c) := by
  cases c with
  | write addr i =>
    dsimp only [Sys.body]
    split
    · rename_i hi
      split
      · rename_i hfull
        split
        · rename_i hgives
          refine h.quit hold rfl rfl rfl rfl rfl rfl fun chan q hq ho => ?_
          obtain rfl := Option.some.inj ho
          exact hexit addr i hold hi hfull hgives q hq
        · rename_i hgoes
          have hopen : s.pipe.readopen = true := by
            rw [← Bool.not_eq_false]
            exact fun hr => hgoes (Or.inl hr)
          refine h.stay hold rfl rfl rfl rfl ⟨rfl, by simp⟩ (fun _ => ?_) fun _ => id
          exact ⟨fun he => absurd he nwriteChan_ne, fun _ => ⟨hfull, hopen⟩⟩
      · rename_i hfull
        refine h.stay hold rfl rfl rfl rfl ⟨rfl, by simp⟩ (fun hs => by cases hs) fun chan hc => ?_
        by_cases hr : chan = nreadChan
        · exact Or.inr (congrArg some hr.symm)
        · by_cases hw : chan = nwriteChan
          · rcases hc with hb | ho
            · exact absurd (hb.2 hw).1 hfull
            · exact absurd (Option.some.inj ho).symm hr
          · exact Or.inl (blocked_other hr hw)
    · exact h.stay hold rfl rfl rfl rfl ⟨rfl, by simp⟩ (fun hs => by cases hs) fun _ => id
  | read n =>
    dsimp only [Sys.body]
    split
    · rename_i hempty
      split
      · exact h.quit hold rfl rfl rfl rfl rfl rfl fun _ _ _ ho => by cases ho
      · refine h.stay hold rfl rfl rfl rfl ⟨rfl, by simp⟩ (fun _ => ?_) fun _ => id
        exact ⟨fun _ => hempty, fun he => absurd he.symm nwriteChan_ne⟩
    · refine h.stay hold rfl rfl rfl rfl ⟨rfl, by simp⟩ (fun hs => by cases hs) fun chan hc => ?_
      exact Or.inl (hc.resolve_right fun ho => by cases ho)
  | copy n addr =>
    dsimp only [Sys.body]
    split
    · rename_i hmore
      refine h.stay hold rfl rfl rfl rfl ⟨rfl, by simp⟩ (fun hs => by cases hs) fun chan hc => ?_
      by_cases hw : chan = nwriteChan
      · exact Or.inr (congrArg some hw.symm)
      · by_cases hr : chan = nreadChan
        · rcases hc with hb | ho
          · exact absurd (hb.1 hr).1 hmore.2
          · exact absurd (Option.some.inj ho).symm hw
        · exact Or.inl (blocked_other hr hw)
    · exact h.stay hold rfl rfl rfl rfl ⟨rfl, by simp⟩ (fun hs => by cases hs) fun _ => id
  | close writable =>
    have howes : ∀ chan, ¬ owes (.close writable) .body = some chan := fun _ ho => by cases ho
    cases writable with
    | true =>
      refine h.stay hold rfl rfl rfl rfl ⟨rfl, by simp⟩ (fun hs => by cases hs) fun chan hc => ?_
      by_cases hr : chan = nreadChan
      · exact Or.inr (congrArg some hr.symm)
      · refine Or.inl ⟨fun he => absurd he hr, fun he => ?_⟩
        exact (hc.resolve_right (howes chan)).2 he
    | false =>
      refine h.stay hold rfl rfl rfl rfl ⟨rfl, by simp⟩ (fun hs => by cases hs) fun chan hc => ?_
      by_cases hw : chan = nwriteChan
      · exact Or.inr (congrArg some hw.symm)
      · refine Or.inl ⟨fun he => ?_, fun he => absurd he hw⟩
        exact (hc.resolve_right (howes chan)).1 he

/-- After a wakeup under p->lock the channel has no sleepers. -/
theorem Paid.wakes (h : Paid s) (hold : s.doing p = some (c, st)) (hholds : st.holds = true)
    {chan' : Chan}
    (howes : ∀ chan, owes c st = some chan → chan = chan') (hpt : s.ptlock = none) {st' : Stage}
    (hst' : st'.holds = true ∧ st' ≠ .handover) (hsinks : st'.sinks = true → st.sinks = true) :
    Paid { s.moveTo p c st' with table := s.table.wakeup1 (some chan') } := by
  have hlock : s.lock = some p := h.exclusive p c st hold hholds
  have hfall : st' ≠ .fall := by
    rintro rfl
    cases hst'.1
  refine h.held (w := { s.moveTo p c st' with table := s.table.wakeup1 (some chan') }) hlock rfl
    (Or.inl ⟨hlock, c, st', rfl, hst'.1⟩) ⟨Or.inl rfl, fun c st hc hst => ?_⟩
    (fun c' st'' hc hs => ?_) ?_
  · obtain ⟨rfl, rfl⟩ := Prod.mk.inj (Option.some.inj hc)
    rcases hst with hst | hst
    · exact absurd hst hst'.2
    · exact absurd hst hfall
  · obtain ⟨rfl, rfl⟩ := Prod.mk.inj (Option.some.inj hc)
    exact h.sinking p c st hold (hsinks hs)
  · rintro chan ⟨q, hq⟩
    have hbefore : Sleeper s chan q ∧ chan ≠ chan' := by
      rcases hq with hs | ⟨c', hd, _⟩
      · obtain ⟨hs, hne⟩ := sleepsOn_wakeup1 hs
        exact ⟨Or.inl hs, hne⟩
      · change Function.update s.doing p (some (c, st')) q = some (c', .fall) at hd
        by_cases hqp : q = p
        · rw [hqp, Function.update_self] at hd
          exact absurd (Prod.mk.inj (Option.some.inj hd)).2 hfall
        · rw [Function.update_of_ne hqp] at hd
          have hnone := h.ptlock q c' .fall hd (Or.inr rfl)
          rw [hpt] at hnone
          cases hnone
    refine Or.inl ((h.paid chan q hbefore.1).resolve_right fun ho => hbefore.2 ?_)
    rw [Sys.owed_eq hlock hold] at ho
    exact howes chan ho

/-- A step of a process that does not hold p->lock, which it may take. -/
theorem Paid.outside (h : Paid s) (hout : ∀ c st, s.doing p = some (c, st) → st.holds = false)
    {st' : Stage}
    (hdoing : w.doing = Function.update s.doing p (some (c, st'))) (hpipe : w.pipe = s.pipe)
    (hptlock : w.ptlock = s.ptlock ∨ s.ptlock = some p)
    (hlock : w.lock = s.lock ∧ st' = .lock ∨ w.lock = s.lock ∧ st' = .asleep ∨
      s.lock = none ∧ w.lock = some p ∧ st' = .body)
    (hsleeper : ∀ chan q, Sleeper w chan q → Sleeper s chan q) : Paid w := by
  have hself : w.doing p = some (c, st') := by
    rw [hdoing, Function.update_self]
  have hother : ∀ q, q ≠ p → w.doing q = s.doing q := by
    intro q hq
    rw [hdoing, Function.update_of_ne hq]
  have hstage : st'.sinks = false ∧ st' ≠ .handover ∧ st' ≠ .fall := by
    rcases hlock with ⟨_, rfl⟩ | ⟨_, rfl⟩ | ⟨_, _, rfl⟩
    · simp [Stage.sinks]
    · simp [Stage.sinks]
    · simp [Stage.sinks]
  have hkeep : w.lock = s.lock ∧ st'.holds = false ∨ s.lock = none ∧ w.lock = some p ∧
      st'.holds = true := by
    rcases hlock with ⟨hl, rfl⟩ | ⟨hl, rfl⟩ | ⟨hl, hl', rfl⟩
    · exact Or.inl ⟨hl, rfl⟩
    · exact Or.inl ⟨hl, rfl⟩
    · exact Or.inr ⟨hl, hl', rfl⟩
  have hnot : ∀ q, s.lock = some q → q ≠ p := by
    rintro q hq rfl
    obtain ⟨c', st, hd, hholds⟩ := h.holder q hq
    rw [hout c' st hd] at hholds
    cases hholds
  refine ⟨fun q c' st hd hholds => ?_, fun q hq => ?_, fun q c' st hd hst => ?_,
    fun q c' st hd hsinks => ?_, fun chan q hq => ?_⟩
  · by_cases hqp : q = p
    · subst hqp
      obtain ⟨_, rfl⟩ := Prod.mk.inj (Option.some.inj (hself.symm.trans hd))
      rcases hkeep with ⟨_, hno⟩ | ⟨_, hl, _⟩
      · rw [hno] at hholds
        cases hholds
      · exact hl
    · rw [hother q hqp] at hd
      have hl := h.exclusive q c' st hd hholds
      rcases hkeep with ⟨hl', _⟩ | ⟨hnone, _, _⟩
      · rw [hl', hl]
      · rw [hnone] at hl
        cases hl
  · rcases hkeep with ⟨hl, _⟩ | ⟨_, hl, hholds⟩
    · rw [hl] at hq
      rw [hother q (hnot q hq)]
      exact h.holder q hq
    · obtain rfl := Option.some.inj (hl.symm.trans hq)
      exact ⟨c, st', hself, hholds⟩
  · by_cases hqp : q = p
    · subst hqp
      obtain ⟨_, rfl⟩ := Prod.mk.inj (Option.some.inj (hself.symm.trans hd))
      rcases hst with hst | hst
      · exact absurd hst hstage.2.1
      · exact absurd hst hstage.2.2
    · rw [hother q hqp] at hd
      have hpt := h.ptlock q c' st hd hst
      rcases hptlock with he | he
      · rw [he, hpt]
      · rw [he] at hpt
        exact absurd (Option.some.inj hpt).symm hqp
  · by_cases hqp : q = p
    · subst hqp
      obtain ⟨_, rfl⟩ := Prod.mk.inj (Option.some.inj (hself.symm.trans hd))
      rw [hstage.1] at hsinks
      cases hsinks
    · rw [hother q hqp] at hd
      rw [hpipe]
      exact h.sinking q c' st hd hsinks
  · rw [hpipe]
    refine (h.paid chan q (hsleeper chan q hq)).imp_right fun ho => ?_
    unfold Sys.owed at ho ⊢
    rcases hkeep with ⟨hl, _⟩ | ⟨hl, _⟩
    · rw [hl]
      cases hr : s.lock with
      | none =>
        rw [hr] at ho
        cases ho
      | some r =>
        rw [hr, Option.bind_some] at ho
        rw [Option.bind_some, hother r (hnot r hr)]
        exact ho
    · rw [hl] at ho
      cases ho

theorem Paid.go (h : Paid s) (hold : s.doing p = some (c, st)) (hexit : NoSilentExit s (.go p))
    (hs : s.go p c st = some w) : Paid w := by
  have hout : st.holds = false → ∀ c' st', s.doing p = some (c', st') → st'.holds = false := by
    intro hno c' st' hd
    obtain ⟨_, rfl⟩ := Prod.mk.inj (Option.some.inj (hold.symm.trans hd))
    exact hno
  cases st with
  | body =>
    obtain rfl := Option.some.inj hs
    exact h.body hold hexit
  | lock =>
    obtain ⟨hfree, hs⟩ := Option.ite_none_right_eq_some.mp hs
    obtain rfl := Option.some.inj hs
    exact h.outside (hout rfl) rfl rfl (Or.inl rfl) (Or.inr (Or.inr ⟨hfree, rfl, rfl⟩))
      fun chan q hq => hq.before rfl (fun c hc => by cases hc) id
  | wake =>
    obtain ⟨hpt, hs⟩ := Option.ite_none_right_eq_some.mp hs
    obtain rfl := Option.some.inj hs
    refine h.wakes hold rfl (fun chan ho => ?_) hpt ⟨rfl, by simp⟩ fun _ => rfl
    cases c with
    | write addr i => exact (Option.some.inj ho).symm
    | _ => cases ho
  | sleep =>
    obtain ⟨hpt, hs⟩ := Option.ite_none_right_eq_some.mp hs
    obtain rfl := Option.some.inj hs
    have hlock := h.exclusive p c .sleep hold rfl
    refine h.held hlock rfl (Or.inl ⟨hlock, c, .handover, rfl, rfl⟩)
      ⟨Or.inr hpt, fun _ _ _ _ => rfl⟩ (fun c' st' hc _ => ?_) ?_
    · obtain ⟨rfl, _⟩ := Prod.mk.inj (Option.some.inj hc)
      exact h.sinking p c .sleep hold rfl
    · rintro chan ⟨q, hq⟩
      have hq' : Sleeper s chan q := hq.before rfl (fun c hc => by cases hc) id
      refine Or.inl ((h.paid chan q hq').resolve_right fun ho => ?_)
      rw [Sys.owed_eq hlock hold] at ho
      cases c <;> cases ho
  | handover =>
    obtain rfl := Option.some.inj hs
    have hlock := h.exclusive p c .handover hold rfl
    refine h.held hlock rfl (Or.inr ⟨rfl, fun c' st' hc => ?_⟩)
      ⟨Or.inl rfl, fun _ _ _ _ => h.ptlock p c .handover hold (Or.inl rfl)⟩
      (fun c' st' hc hsinks => ?_) ?_
    · obtain ⟨_, rfl⟩ := Prod.mk.inj (Option.some.inj hc)
      rfl
    · obtain ⟨_, rfl⟩ := Prod.mk.inj (Option.some.inj hc)
      cases hsinks
    · rintro chan ⟨q, hq⟩
      left
      by_cases hchan : chan = c.chan
      · rw [hchan]
        exact h.sinking p c .handover hold rfl
      · have hq' : Sleeper s chan q := by
          rcases hq with hs | ⟨c', hd, hc⟩
          · exact Or.inl hs
          · change Function.update s.doing p (some (c, .fall)) q = some (c', .fall) at hd
            by_cases hqp : q = p
            · rw [hqp, Function.update_self] at hd
              obtain ⟨rfl, _⟩ := Prod.mk.inj (Option.some.inj hd)
              exact absurd hc.symm hchan
            · rw [Function.update_of_ne hqp] at hd
              exact Or.inr ⟨c', hd, hc⟩
        refine (h.paid chan q hq').resolve_right fun ho => ?_
        rw [Sys.owed_eq hlock hold] at ho
        cases c <;> cases ho
  | fall =>
    obtain rfl := Option.some.inj hs
    refine h.outside (hout rfl) rfl rfl (Or.inr (h.ptlock p c .fall hold (Or.inr rfl)))
      (Or.inr (Or.inl ⟨rfl, rfl⟩)) fun chan q hq => ?_
    rcases hq with hs | ⟨c', hd, hc⟩
    · rcases sleepsOn_sleep hs with hs' | ⟨rfl, rfl⟩
      · exact Or.inl hs'
      · exact Or.inr ⟨c, hold, rfl⟩
    · change Function.update s.doing p (some (c, .asleep)) q = some (c', .fall) at hd
      by_cases hqp : q = p
      · rw [hqp, Function.update_self] at hd
        cases hd
      · rw [Function.update_of_ne hqp] at hd
        exact Or.inr ⟨c', hd, hc⟩
  | asleep =>
    obtain ⟨_, hs⟩ := Option.ite_none_right_eq_some.mp hs
    obtain rfl := Option.some.inj hs
    refine h.outside (hout rfl) rfl rfl (Or.inl rfl) (Or.inl ⟨rfl, rfl⟩) fun chan q hq => ?_
    exact hq.before rfl (fun c hc => by cases hc)
      (sleepsOn_set (f := fun q => { q with chan := none })
      fun _ hc => by cases hc)
  | finish =>
    obtain ⟨hpt, hs⟩ := Option.ite_none_right_eq_some.mp hs
    obtain rfl := Option.some.inj hs
    refine h.wakes hold rfl (fun chan ho => ?_) hpt ⟨rfl, by simp⟩ fun hs => by cases hs
    cases c <;> exact (Option.some.inj ho).symm
  | leave =>
    obtain rfl := Option.some.inj hs
    refine h.quit hold rfl rfl rfl rfl rfl rfl fun chan q _ ho => ?_
    cases c <;> cases ho

theorem Paid.withTable (h : Paid s) {t : Ptable}
    (ht : ∀ chan q, (chan = nreadChan ∨ chan = nwriteChan) →
    SleepsOn t chan q → SleepsOn s.table chan q) (hs : s.withTable t = some w) : Paid w := by
  obtain ⟨_, hs⟩ := Option.ite_none_right_eq_some.mp hs
  obtain rfl := Option.some.inj hs
  refine ⟨h.exclusive, h.holder, h.ptlock, h.sinking, fun chan q hq => ?_⟩
  by_cases hr : chan = nreadChan
  · exact h.paid chan q (hq.imp_left (ht chan q (Or.inl hr)))
  · by_cases hw : chan = nwriteChan
    · exact h.paid chan q (hq.imp_left (ht chan q (Or.inr hw)))
    · exact Or.inl (blocked_other hr hw)

theorem Paid.enter (h : Paid s) (hs : s.enter p c = some w) : Paid w := by
  obtain ⟨⟨_, hidle, _⟩, hs⟩ := Option.ite_none_right_eq_some.mp hs
  obtain rfl := Option.some.inj hs
  refine h.outside (fun c' st' hd => ?_) rfl rfl (Or.inl rfl) (Or.inl ⟨rfl, rfl⟩)
    fun chan q hq => hq.before rfl (fun c hc => by cases hc) id
  rw [hidle] at hd
  cases hd

theorem Paid.step (h : Paid s) {a : Act} (hexit : NoSilentExit s a) (hs : s.step a = some w) :
    Paid w := by
  cases a with
  | write p addr => exact h.enter hs
  | read p n => exact h.enter hs
  | close p writable => exact h.enter hs
  | go p =>
    dsimp only [Sys.step] at hs
    split at hs
    · rename_i c st hold
      obtain ⟨_, hs⟩ := Option.ite_none_right_eq_some.mp hs
      exact h.go hold hexit hs
    · cases hs
  | kill p pid =>
    obtain ⟨_, hs⟩ := Option.ite_none_right_eq_some.mp hs
    exact h.withTable (fun _ _ _ => sleepsOn_kill) hs
  | fault p =>
    obtain ⟨_, hs⟩ := Option.ite_none_right_eq_some.mp hs
    exact h.withTable (fun _ _ _ => sleepsOn_set fun hs hc => ⟨hs, hc⟩) hs
  | schedule p =>
    obtain ⟨t, ht, hs⟩ := Option.bind_eq_some_iff.mp hs
    exact h.withTable (fun _ _ _ => sleepsOn_schedule ht) hs
  | yield p =>
    obtain ⟨_, hs⟩ := Option.ite_none_right_eq_some.mp hs
    exact h.withTable (fun _ _ _ => sleepsOn_set fun hs => by cases hs) hs
  | sleep p a =>
    obtain ⟨_, hs⟩ := Option.ite_none_right_eq_some.mp hs
    refine h.withTable (fun chan q hchan hq => (sleepsOn_sleep hq).resolve_right fun he => ?_) hs
    rcases hchan with hr | hw
    · exact absurd (Chan.addr.inj (he.2.symm.trans hr)) (by omega)
    · exact absurd (Chan.addr.inj (he.2.symm.trans hw)) (by omega)
  | wakeup chan => exact h.withTable (fun _ _ _ hq => (sleepsOn_wakeup1 hq).1) hs

end Paid

/-- In a run in which no writer gives up at a full pipe with a sleeping reader, no wakeup
is missed. -/
theorem always_noneMissed {t : Ptable} (data : ℕ → UInt8)
    (ht : ∀ p, ¬ SleepsOn t nreadChan p ∧ ¬ SleepsOn t nwriteChan p) {as : List Act}
    (hexit : Meets Sys.step NoSilentExit (.fresh t data) as) :
    Always Sys.step NoneMissed (.fresh t data) as := by
  have hfresh : Paid (.fresh t data) := by
    refine ⟨fun p c st hd => ?_, fun p hl => ?_, fun p c st hd => ?_, fun p c st hd => ?_,
      fun chan p hp => ?_⟩
    · cases hd
    · cases hl
    · cases hd
    · cases hd
    rcases hp with hs | ⟨c, hd, _⟩
    · refine Or.inl (blocked_other ?_ ?_)
      · rintro rfl
        exact (ht p).1 hs
      · rintro rfl
        exact (ht p).2 hs
    · cases hd
  exact (always_of_meets (fun _ _ _ h hexit hs => h.step hexit hs) hfresh hexit).mono fun _ h =>
    h.noneMissed

/-- Three processes on three processors. -/
def threeRunning : Ptable where
  proc := fun p => if p < 3 then ⟨.RUNNING, p + 1, none, none, false, true, 1⟩ else ⟨.UNUSED, 0, none, none, false, false, 0⟩
  initproc := 0
  nextpid := 4
  nextpgdir := 2

theorem threeRunning_awake (chan : Chan) (p : ℕ) : ¬ SleepsOn threeRunning chan p := by
  rintro ⟨hs, _⟩
  simp only [threeRunning] at hs
  split at hs
  · cases hs
  · cases hs

/-- A reader falls asleep at the empty pipe, and a writer of one byte wakes it. -/
def handover : List Act :=
  [.read 0 1, .go 0, .go 0, .go 0, .go 0, .go 0, .write 1 [7], .go 1, .go 1, .go 1, .go 1, .go 1]

theorem handover_noneMissed :
    Always Sys.step NoneMissed (.fresh threeRunning fun _ => 0) handover := by
  refine always_noneMissed _ (fun p => ⟨threeRunning_awake _ p, threeRunning_awake _ p⟩) ?_
  -- the pipe is never full
  iterate 12
    intro s hs
    obtain rfl := Option.some.inj hs
    refine ⟨by first | trivial | exact fun _ _ _ _ hfull => absurd hfull (by decide), ?_⟩
  trivial

/-- A writer fills the pipe byte by byte. -/
theorem run_puts {addr : List UInt8} {p : ℕ} (k : ℕ) {i : ℕ} {s : Sys}
    (hdoing : s.doing p = some (.write addr i, .body))
    (hrun : s.running p) (hopen : s.pipe.readopen = true) (hbounded : s.pipe.Bounded)
    (hroom : s.pipe.count + k ≤ PIPESIZE) (hlen : i + k ≤ addr.length) :
    ∃ t, run Sys.step s (List.replicate k (.go p)) = some t ∧
      t.doing p = some (.write addr (i + k), .body) ∧
      t.table = s.table ∧ t.pipe.readopen = true ∧ t.pipe.Bounded ∧
      t.pipe.count = s.pipe.count + k := by
  induction k generalizing i s with
  | zero => exact ⟨s, rfl, hdoing, rfl, hopen, hbounded, (Nat.add_zero _).symm⟩
  | succ k ih =>
    have hi : i < addr.length := by omega
    have hfull : ¬ s.pipe.full := by
      rw [Pipe.full_iff hbounded]
      omega
    have hfreed : ¬ s.freed := fun hf => by
      rw [hf.1] at hopen
      cases hopen
    have hstep : s.step (.go p) = some { s.moveTo p (.write addr (i + 1)) .body with
        pipe := s.pipe.put addr[i], stored := s.stored ++ [addr[i]] } := by
      dsimp only [Sys.step]
      rw [hdoing]
      dsimp only [Sys.go, Sys.body]
      rw [if_pos ⟨hrun, hfreed⟩, dif_pos hi, if_neg hfull]
    have hcount : (s.pipe.put addr[i]).count = s.pipe.count + 1 := Pipe.count_put hbounded _
    obtain ⟨t, ht, hd, htable, hopen', hb, hc⟩ :=
      ih (i := i + 1) (s := { s.moveTo p (.write addr (i + 1)) .body with
        pipe := s.pipe.put addr[i], stored := s.stored ++ [addr[i]] }) (Function.update_self ..)
          hrun hopen
      (hbounded.put hfull _) (by dsimp only; omega) (by omega)
    refine ⟨t, ?_, ?_, htable, hopen', hb, ?_⟩
    · rw [List.replicate_succ]
      exact (congrArg (fun o => o.bind fun u => run Sys.step u (List.replicate k (.go p)))
        hstep).trans ht
    · rw [hd, Nat.add_assoc, Nat.add_comm 1]
    · rw [hc]
      dsimp only
      omega

/-- A reader sleeps, a killed writer fills the pipe and gives up, and the reader sleeps on. -/
def silentExit : List Act :=
  [.read 0 1, .go 0, .go 0, .go 0, .go 0, .go 0, .write 1 (List.replicate 513 0), .go 1, .kill 2 2] ++
    List.replicate 512 (.go 1) ++ [.go 1]

theorem silentExit_missed :
    ¬ Always Sys.step NoneMissed (.fresh threeRunning fun _ => 0) silentExit := by
  intro halways
  obtain ⟨s, hs, hdoing, hrun, hkilled, hpipe, hsleeps⟩ : ∃ s,
      run Sys.step (.fresh threeRunning fun _ => 0) [.read 0 1, .go 0, .go 0, .go 0, .go 0, .go 0,
        .write 1 (List.replicate 513 0), .go 1, .kill 2 2] = some s ∧
      s.doing 1 = some (.write (List.replicate 513 0) 0, .body) ∧ s.running 1 ∧ s.killed 1 = true ∧
      s.pipe = (Sys.fresh threeRunning fun _ => 0).pipe ∧ SleepsOn s.table nreadChan 0 :=
    ⟨_, rfl, rfl, rfl, rfl, rfl, rfl, rfl⟩
  have hbounded : s.pipe.Bounded := by
    rw [hpipe]
    exact (fresh_fifo threeRunning fun _ => 0).bounded
  have hcount : s.pipe.count = 0 := by
    refine (Pipe.empty_iff hbounded).mp ?_
    rw [hpipe]
    rfl
  have hopen : s.pipe.readopen = true := by
    rw [hpipe]
    rfl
  obtain ⟨t, ht, hdoing', htable, hopen', hbounded', hcount'⟩ :=
    run_puts 512 hdoing hrun hopen hbounded (by rw [hcount]; exact le_rfl)
      (by rw [List.length_replicate]; decide)
  have hfull : t.pipe.full := by
    rw [Pipe.full_iff hbounded', hcount', hcount]
    rfl
  have hfreed : ¬ t.freed := fun hf => by
    rw [hf.1] at hopen'
    cases hopen'
  have hrun' : t.running 1 := by
    unfold Sys.running
    rwa [htable]
  have hkilled' : t.killed 1 = true := by
    unfold Sys.killed
    rwa [htable]
  have hexit : t.step (.go 1) = some (t.release 1) := by
    dsimp only [Sys.step]
    rw [hdoing']
    dsimp only [Sys.go, Sys.body]
    rw [if_pos ⟨hrun', hfreed⟩, dif_pos (by rw [List.length_replicate]; decide), if_pos hfull,
      if_pos (Or.inr hkilled')]
  have hall : run Sys.step (.fresh threeRunning fun _ => 0) silentExit = some (t.release 1) := by
    unfold silentExit
    rw [run_append, run_append, hs, Option.bind_some, ht, Option.bind_some]
    show (t.step (.go 1)).bind _ = _
    rw [hexit]
    rfl
  have hend := (always_iff_run _ _).mp halways silentExit (t.release 1) List.prefix_rfl hall
  have hsleeps' : SleepsOn (t.release 1).table nreadChan 0 := by
    show SleepsOn t.table nreadChan 0
    rwa [htable]
  have hempty : t.pipe.empty := ((hend rfl nreadChan 0 hsleeps').1 rfl).1
  rw [Pipe.empty_iff hbounded', hcount', hcount] at hempty
  cases hempty

end NorthOS.Pipes
