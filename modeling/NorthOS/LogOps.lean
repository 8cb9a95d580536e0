import Mathlib.Data.Finset.Card
import NorthOS.Log
import NorthOS.SleepWakeup

/-!
begin_op, log_write and end_op in steps under log.lock. log_write looks at the header before
it takes the lock, and commit empties the header without it; in between other processes go
on. Whoever ends the last operation commits, and begin_op sleeps while somebody commits or
while the header might not have room.
-/
namespace NorthOS.LogOps

open Process Runs Monitor SleepWakeup

/-- The address of log. -/
def logChan : Chan := .addr 0

/-- Outside of operations, in begin_op, in an operation, in log_write, in end_op, in commit
and behind it, and in a panic. -/
inductive Local
  | idle
  | begin
  | begun
  | active
  | checked (b : ℕ)
  | absorb (b : ℕ)
  | wrote
  | ending
  | ended
  | doCommit
  | commit
  | cleared
  | finish
  | finished
  | done
  | panicked (e : LogPanic)
  deriving DecidableEq

/-- What log_write looks at before it takes the lock. -/
def check (log : Log) : Option LogPanic :=
  if log.n ≥ LOGSIZE ∨ log.n + 1 ≥ log.size then some .tooBig
  else if log.outstanding < 1 then some .outsideOfTrans
  else none

/-- What log_write does under the lock. -/
def absorb (log : Log) (b : ℕ) : Log :=
  { log with lh := if b ∈ log.lh then log.lh else log.lh ++ [b] }

theorem logWrite_eq (log : Log) (b : ℕ) : log.logWrite b =
    match check log with
    | some e => .error e
    | none => .ok (absorb log b) := by
  unfold Log.logWrite check
  split
  · rfl
  · split <;> rfl

/-- The code under log.lock. After a panic nothing more happens. -/
def body (log : Log) (_ : Self) : Local → Move Log Chan Local
  | .begin =>
    match log.beginOp with
    | some log' => .stay log' .begun
    | none => .sleep logChan .begin
  | .begun => .leave .active
  | .absorb b => .stay (absorb log b) .wrote
  | .wrote => .leave .active
  | .ending =>
    match log.endOp with
    | .ok (log', true) => .stay log' .doCommit
    | .ok (log', false) => .stay log' .ended
    | .error e => .stay log (.panicked e)
  | .ended => .wake logChan .done
  | .doCommit => .leave .commit
  | .finish => .stay { log with committing := false } .finished
  | .finished => .wake logChan .done
  | .done => .leave .idle
  | l => .stay log l

/-- The check of log_write, and `log.lh.n = 0` in commit. -/
def free (log : Log) : Local → Local → Option Log
  | .active, .checked _ => if check log = none then some log else none
  | .active, .panicked e => if check log = some e then some log else none
  | .commit, .cleared => some { log with lh := [] }
  | _, _ => none

def calls : Local → Local → Bool
  | .idle, .begin => true
  | .checked b, .absorb b' => decide (b = b')
  | .active, .ending => true
  | .cleared, .finish => true
  | _, _ => false

def routine : Routine Log Local where
  body := body
  free := free
  calls := calls
  interrupts := fun _ _ => false
  idle := fun l => decide (l = .idle)
  mine := fun chan => decide (chan = logChan)
  mine_proc := fun _ => rfl

abbrev Sys := SleepWakeup.Sys Log Local

def step : Sys → Act Local → Option Sys := SleepWakeup.Sys.step routine

/-- After initlog, with init as the only process. -/
def boot (start size : ℕ) : Sys := SleepWakeup.boot ⟨start, size, 0, false, []⟩ .idle

/-- Counted in log.outstanding. -/
def Local.inOp : Local → Bool
  | .begun | .active | .checked _ | .absorb _ | .wrote | .ending | .panicked _ => true
  | _ => false

/-- log.committing is the process's doing. -/
def Local.commits : Local → Bool
  | .doCommit | .commit | .cleared | .finish => true
  | _ => false

/-- The operations are counted, and a commit is alone. -/
structure Counted (log : Log) (env : ℕ → Self) (f : ℕ → Local) : Prop where
  counted : ∃ ops : Finset ℕ, (∀ p, p ∈ ops ↔ (f p).inOp = true) ∧ ops.card = log.outstanding
  flag : Flagged Local.commits log.committing f
  quiet : log.committing = true → log.outstanding = 0
  panic : ∀ p e, f p = .panicked e → e = .tooBig

section Counting

variable {log log' : Log} {env : ℕ → Self} {f : ℕ → Local} {p : ℕ} {l : Local}

/-- An operation is going on. -/
theorem Counted.outstanding (h : Counted log env f) (hp : (f p).inOp = true) :
    0 < log.outstanding := by
  obtain ⟨ops, hops, hcard⟩ := h.counted
  rw [← hcard]
  exact Finset.card_pos.mpr ⟨p, (hops p).mpr hp⟩

theorem Counted.committing (h : Counted log env f) (hp : (f p).inOp = true) :
    log.committing = false := by
  have hpos := h.outstanding hp
  rw [← Bool.not_eq_true]
  intro hc
  rw [h.quiet hc] at hpos
  exact Nat.lt_irrefl 0 hpos

theorem panic_update (h : Counted log env f) (hl : ∀ e, l = .panicked e → e = .tooBig) :
    ∀ q e, Function.update f p l q = .panicked e → e = .tooBig := by
  intro q e hq
  by_cases hqp : q = p
  · rw [hqp, Function.update_self] at hq
    exact hl e hq
  · rw [Function.update_of_ne hqp] at hq
    exact h.panic q e hq

/-- A move that neither begins nor ends an operation or a commit. -/
theorem Counted.move (h : Counted log env f) (hactive : l.inOp = (f p).inOp)
    (hcommits : l.commits = (f p).commits) (hl : ∀ e, l = .panicked e → e = .tooBig)
    (hout : log'.outstanding = log.outstanding) (hcom : log'.committing = log.committing) :
    Counted log' env (Function.update f p l) := by
  obtain ⟨ops, hops, hcard⟩ := h.counted
  refine ⟨⟨ops, fun q => ?_, by rw [hcard, hout]⟩, hcom ▸ h.flag.move hcommits, ?_, panic_update h hl⟩
  · rw [owns_update hactive, hops]
  · rw [hcom, hout]
    exact h.quiet

theorem Counted.begin (h : Counted log env f) (hp : f p = .begin) (hb : log.beginOp = some log') :
    Counted log' env (Function.update f p .begun) := by
  obtain ⟨hc, _, rfl⟩ := Log.beginOp_eq_some.mp hb
  obtain ⟨ops, hops, hcard⟩ := h.counted
  have hnot : p ∉ ops := by
    rw [hops, hp]
    exact Bool.false_ne_true
  refine ⟨⟨insert p ops, fun q => ?_, ?_⟩, ?_, ?_, panic_update h (by simp)⟩
  · rw [Finset.mem_insert]
    by_cases hq : q = p
    · subst hq
      rw [Function.update_self]
      exact iff_of_true (Or.inl rfl) rfl
    · rw [Function.update_of_ne hq, ← hops q]
      exact or_iff_right hq
  · rw [Finset.card_insert_of_notMem hnot, hcard]
  · exact h.flag.move (by rw [hp]; rfl)
  · intro hc'
    rw [show log.committing = true from hc'] at hc
    cases hc

theorem Counted.ending (h : Counted log env f) (hp : f p = .ending) {doCommit : Bool}
    (he : log.endOp = .ok (log', doCommit)) :
    Counted log' env (Function.update f p (if doCommit then .doCommit else .ended)) := by
  have hactive : (f p).inOp = true := by rw [hp]; rfl
  have hpos := h.outstanding hactive
  have hcom := h.committing hactive
  obtain ⟨ops, hops, hcard⟩ := h.counted
  have hcount : ∀ l : Local, l.inOp = false → ∃ ops' : Finset ℕ,
      (∀ q, q ∈ ops' ↔ (Function.update f p l q).inOp = true) ∧ ops'.card = log.outstanding - 1 := by
    intro l hl
    refine ⟨ops.erase p, fun q => ?_, ?_⟩
    · rw [Finset.mem_erase]
      by_cases hq : q = p
      · subst hq
        rw [Function.update_self, hl]
        exact iff_of_false (fun hm => hm.1 rfl) Bool.false_ne_true
      · rw [Function.update_of_ne hq, ← hops q]
        exact and_iff_right hq
    · rw [Finset.card_erase_of_mem ((hops p).mpr hactive), hcard]
  unfold Log.endOp at he
  rw [hcom] at he
  by_cases hlast : log.outstanding - 1 = 0
  · simp only [hlast, if_true] at he
    cases he
    refine ⟨?_, h.flag.take hcom rfl, fun _ => rfl, panic_update h (by simp)⟩
    obtain ⟨ops', hops', hcard'⟩ := hcount .doCommit rfl
    exact ⟨ops', hops', hcard'.trans hlast⟩
  · simp only [hlast, if_false] at he
    cases he
    refine ⟨hcount .ended rfl, ?_, ?_, panic_update h (by simp)⟩
    · have hflag : Flagged Local.commits log.committing (Function.update f p .ended) :=
        h.flag.move (by rw [hp]; rfl)
      rwa [hcom] at hflag
    · intro hc
      cases hc

theorem Counted.finish (h : Counted log env f) (hp : f p = .finish) :
    Counted { log with committing := false } env (Function.update f p .finished) := by
  obtain ⟨ops, hops, hcard⟩ := h.counted
  have hsame : ∀ q, (Function.update f p Local.finished q).inOp = (f q).inOp :=
    owns_update (by rw [hp]; rfl)
  refine ⟨⟨ops, fun q => ?_, hcard⟩, h.flag.give (by rw [hp]; rfl) rfl, ?_,
    panic_update h (by simp)⟩
  · rw [hsame, hops]
  · intro hc
    cases hc

theorem counted_keeps : Keeps routine.monitor Counted where
  call d e f p l' h hcall := by
    rcases hcall with ⟨_, hcall⟩ | hcall
    · change calls (f p) l' = true at hcall
      cases hp : f p with
      | idle =>
        rw [hp] at hcall
        cases l' with
        | begin => exact h.move (by rw [hp]; rfl) (by rw [hp]; rfl) (by simp) rfl rfl
        | _ => cases hcall
      | checked b =>
        rw [hp] at hcall
        cases l' with
        | absorb b' => exact h.move (by rw [hp]; rfl) (by rw [hp]; rfl) (by simp) rfl rfl
        | _ => cases hcall
      | active =>
        rw [hp] at hcall
        cases l' with
        | ending => exact h.move (by rw [hp]; rfl) (by rw [hp]; rfl) (by simp) rfl rfl
        | _ => cases hcall
      | cleared =>
        rw [hp] at hcall
        cases l' with
        | finish => exact h.move (by rw [hp]; rfl) (by rw [hp]; rfl) (by simp) rfl rfl
        | _ => cases hcall
      | _ => rw [hp] at hcall; cases hcall
    · cases hcall
  free d e f p d' l' h hfree := by
    change free d (f p) l' = some d' at hfree
    cases hp : f p with
    | active =>
      rw [hp] at hfree
      cases l' with
      | checked b =>
        obtain ⟨_, hfree⟩ := Option.ite_none_right_eq_some.mp hfree
        obtain rfl := Option.some.inj hfree
        exact h.move (by rw [hp]; rfl) (by rw [hp]; rfl) (by simp) rfl rfl
      | panicked err =>
        obtain ⟨hcheck, hfree⟩ := Option.ite_none_right_eq_some.mp hfree
        obtain rfl := Option.some.inj hfree
        refine h.move (by rw [hp]; rfl) (by rw [hp]; rfl) ?_ rfl rfl
        intro e' he'
        obtain rfl := Local.panicked.inj he'
        have hpos := h.outstanding (p := p) (by rw [hp]; rfl)
        unfold check at hcheck
        split at hcheck
        · exact (Option.some.inj hcheck).symm
        · rw [if_neg (by omega)] at hcheck
          cases hcheck
      | _ => cases hfree
    | commit =>
      rw [hp] at hfree
      cases l' with
      | cleared =>
        obtain rfl := Option.some.inj hfree
        exact h.move (by rw [hp]; rfl) (by rw [hp]; rfl) (by simp) rfl rfl
      | _ => cases hfree
    | _ => rw [hp] at hfree; cases hfree
  body d e f p h := by
    show Counted ((body d (e p) (f p)).data d) e (Function.update f p (body d (e p) (f p)).next)
    have hsame : ∀ l, f p = l → Counted d e (Function.update f p l) := by
      rintro l rfl
      rwa [Function.update_eq_self]
    cases hp : f p with
    | begin =>
      cases hb : d.beginOp with
      | some log' =>
        simp only [body, hb]
        exact h.begin hp hb
      | none =>
        simp only [body, hb]
        exact hsame _ hp
    | ending =>
      have hactive : (f p).inOp = true := by rw [hp]; rfl
      cases he : d.endOp with
      | ok x =>
        obtain ⟨log', doCommit⟩ := x
        have hend := h.ending hp he
        cases doCommit with
        | true =>
          simp only [body, he]
          exact hend
        | false =>
          simp only [body, he]
          exact hend
      | error err =>
        unfold Log.endOp at he
        rw [h.committing hactive] at he
        simp only [Bool.false_eq_true, if_false] at he
        split at he <;> cases he
    | finish => exact h.finish hp
    | panicked err => exact hsame _ hp
    | idle => exact hsame _ hp
    | active => exact hsame _ hp
    | checked b => exact hsame _ hp
    | commit => exact hsame _ hp
    | cleared => exact hsame _ hp
    | _ => exact h.move (by rw [hp]; rfl) (by rw [hp]; rfl) (by simp [body, Move.next]) rfl rfl
  elsewhere d e e' f h _ := ⟨h.counted, h.flag, h.quiet, h.panic⟩

/-- A process that sleeps in begin_op is blocked while begin_op cannot go on. -/
def Blocked (log : Log) (chan : Chan) (l : Local) : Prop :=
  chan = logChan → log.beginOp = none ∧ l = .begin

/-- The end of an operation and the end of a commit owe a wakeup until they have called it. -/
def debt (l : Local) (chan : Chan) : Prop := (l = .ended ∨ l = .finished) ∧ chan = logChan

/-- More blocks in the header, the same operations. -/
theorem beginOp_absorb {b : ℕ} (h : log.beginOp = none) : (absorb log b).beginOp = none := by
  have hn : log.n ≤ (absorb log b).n := by
    show log.lh.length ≤ (if b ∈ log.lh then log.lh else log.lh ++ [b]).length
    split
    · exact Nat.le_refl _
    · simp
  unfold Log.beginOp at h ⊢
  split at h
  · rename_i hc
    exact if_pos hc
  · rename_i hc
    split at h
    · rename_i hfull
      have hc' : ¬ (absorb log b).committing = true := hc
      rw [if_neg hc', if_pos]
      exact Nat.lt_of_lt_of_le hfull (Nat.add_le_add_right hn _)
    · cases h

theorem counted_pays : Pays routine.monitor Counted Blocked debt where
  free d e f p d' l' h hfree k l hk := by
    change free d (f p) l' = some d' at hfree
    cases hp : f p with
    | active =>
      rw [hp] at hfree
      cases l' with
      | checked b =>
        obtain ⟨_, hfree⟩ := Option.ite_none_right_eq_some.mp hfree
        obtain rfl := Option.some.inj hfree
        exact hk
      | panicked err =>
        obtain ⟨_, hfree⟩ := Option.ite_none_right_eq_some.mp hfree
        obtain rfl := Option.some.inj hfree
        exact hk
      | _ => cases hfree
    | commit =>
      rw [hp] at hfree
      cases l' with
      | cleared =>
        obtain rfl := Option.some.inj hfree
        have hcom : d.committing = true := h.flag.set.mpr ⟨p, by rw [hp]; rfl⟩
        intro hchan
        refine ⟨?_, (hk hchan).2⟩
        unfold Log.beginOp
        exact if_pos hcom
      | _ => cases hfree
    | _ => rw [hp] at hfree; cases hfree
  stay d e f p d' l' h hbody k l hk := by
    have hb : body d (e p) (f p) = .stay d' l' := hbody
    have hdebt : ¬ debt (f p) k → Blocked d k l := fun hno => hk.resolve_right hno
    have hsame : body d (e p) (f p) = .stay d (f p) → Blocked d' k l ∨ debt l' k := by
      intro he
      rw [he] at hb
      obtain ⟨rfl, rfl⟩ := Move.stay.inj hb
      exact hk
    cases hp : f p with
    | begin =>
      rw [hp] at hb
      have hblocked := hdebt (by rw [hp]; rintro ⟨h | h, _⟩ <;> cases h)
      simp only [body] at hb
      split at hb
      · rename_i log' hsome
        left
        intro hchan
        rw [(hblocked hchan).1] at hsome
        cases hsome
      · cases hb
    | absorb b =>
      rw [hp] at hb
      have hblocked := hdebt (by rw [hp]; rintro ⟨h | h, _⟩ <;> cases h)
      obtain ⟨rfl, rfl⟩ := Move.stay.inj hb
      exact Or.inl fun hchan => ⟨beginOp_absorb (hblocked hchan).1, (hblocked hchan).2⟩
    | ending =>
      rw [hp] at hb
      have hblocked := hdebt (by rw [hp]; rintro ⟨h | h, _⟩ <;> cases h)
      by_cases hchan : k = logChan
      · simp only [body] at hb
        split at hb
        · rename_i log' he
          obtain ⟨rfl, rfl⟩ := Move.stay.inj hb
          have hcom : log'.committing = true := (h.ending hp he).flag.set.mpr ⟨p, by simp [Local.commits]⟩
          left
          intro hc
          refine ⟨?_, (hblocked hc).2⟩
          unfold Log.beginOp
          exact if_pos hcom
        · obtain ⟨rfl, rfl⟩ := Move.stay.inj hb
          exact Or.inr ⟨Or.inl rfl, hchan⟩
        · obtain ⟨rfl, rfl⟩ := Move.stay.inj hb
          exact Or.inl hblocked
      · exact Or.inl fun hc => absurd hc hchan
    | finish =>
      rw [hp] at hb
      obtain ⟨rfl, rfl⟩ := Move.stay.inj hb
      by_cases hchan : k = logChan
      · exact Or.inr ⟨Or.inr rfl, hchan⟩
      · exact Or.inl fun hc => absurd hc hchan
    | idle => exact hsame (by rw [hp]; rfl)
    | active => exact hsame (by rw [hp]; rfl)
    | checked b => exact hsame (by rw [hp]; rfl)
    | commit => exact hsame (by rw [hp]; rfl)
    | cleared => exact hsame (by rw [hp]; rfl)
    | panicked err => exact hsame (by rw [hp]; rfl)
    | _ => rw [hp] at hb; cases hb
  wake d e f p k' l' h hbody k hk := by
    have hb : body d (e p) (f p) = .wake k' l' := hbody
    obtain ⟨hp | hp, rfl⟩ := hk
    · rw [hp] at hb
      obtain ⟨rfl, rfl⟩ := Move.wake.inj hb
      exact Or.inl rfl
    · rw [hp] at hb
      obtain ⟨rfl, rfl⟩ := Move.wake.inj hb
      exact Or.inl rfl
  sleep d e f p k' l' h hbody := by
    have hb : body d (e p) (f p) = .sleep k' l' := hbody
    cases hp : f p with
    | begin =>
      rw [hp] at hb
      simp only [body] at hb
      split at hb
      · cases hb
      · rename_i hnone
        obtain ⟨rfl, rfl⟩ := Move.sleep.inj hb
        refine ⟨fun _ => ⟨hnone, rfl⟩, ?_⟩
        rintro k ⟨h | h, _⟩ <;> cases h
    | ending =>
      rw [hp] at hb
      simp only [body] at hb
      split at hb <;> cases hb
    | _ => rw [hp] at hb; cases hb
  leave d e f p l' h hbody k hk := by
    have hb : body d (e p) (f p) = .leave l' := hbody
    obtain ⟨hp | hp, _⟩ := hk
    · rw [hp] at hb
      cases hb
    · rw [hp] at hb
      cases hb

end Counting

/-- log.outstanding is the number of operations between begin_op and end_op, nobody commits
but one process and only while there is no operation, and end_op does not panic. -/
structure Sound (s : Sys) : Prop where
  outstanding : ∃ ops : Finset ℕ, (∀ p, p ∈ ops ↔ (s.doing p).here.inOp = true) ∧
    ops.card = s.data.outstanding
  commit : ∀ p, (s.doing p).here.commits = true → s.data.committing = true ∧
    (∀ q, (s.doing q).here.inOp = false) ∧ ∀ q, (s.doing q).here.commits = true → q = p
  panic : ∀ p e, (s.doing p).here = .panicked e → e = .tooBig

/-- While log.lock is free, who sleeps in begin_op could not go on. -/
def NoneMissed (s : Sys) : Prop :=
  s.lk = none → ∀ p, Pipes.SleepsOn s.table logChan p →
    s.doing p = .asleep logChan .begin ∧ s.data.beginOp = none

section Runs

variable {s : Sys}

theorem sound_of_kept (h : Kept routine Counted s) : Sound s := by
  have hl : s.view.locals = fun p => (s.doing p).here := funext (view_locals s)
  have hc : Counted s.data s.self s.view.locals := h.holds
  rw [hl] at hc
  refine ⟨hc.counted, fun p hp => ?_, hc.panic⟩
  have hcom : s.data.committing = true := hc.flag.set.mpr ⟨p, hp⟩
  refine ⟨hcom, fun q => ?_, fun q hq => hc.flag.alone q p hq hp⟩
  rw [← Bool.not_eq_true]
  intro hq
  rw [hc.committing hq] at hcom
  cases hcom

theorem boot_kept (start size : ℕ) : Kept routine Counted (boot start size) := by
  refine ⟨boot_sound rfl, boot_exclusive _ _, ⟨∅, fun p => ?_, rfl⟩, ⟨?_, fun p q hp => ?_⟩,
    fun hc => ?_, fun p e hp => ?_⟩
  · exact iff_of_false (Finset.notMem_empty p) Bool.false_ne_true
  · refine iff_of_false Bool.false_ne_true ?_
    rintro ⟨p, hp⟩
    cases hp
  · cases hp
  · cases hc
  · cases hp

/-- In every interleaving of operations and commits, a commit is alone, and no process that
waits in begin_op misses the wakeup that lets it go on. -/
theorem always_groupCommit (start size : ℕ) (as : List (Act Local)) :
    Always step (fun s => Sound s ∧ NoneMissed s) (boot start size) as := by
  have hkept := always_kept counted_keeps (boot_kept start size) as
  have hnone := always_blocked counted_keeps counted_pays (boot_kept start size) (boot_paid _ _) as
  rw [always_iff_run] at hkept hnone
  refine (always_iff_run _ _).mpr fun bs t hbs ht => ?_
  refine ⟨sound_of_kept (hkept bs t hbs ht), fun hlk p hs => ?_⟩
  obtain ⟨l, hl, hblocked⟩ := hnone bs t hbs ht hlk logChan p rfl hs
  obtain ⟨hb, rfl⟩ := hblocked rfl
  exact ⟨hl, hb⟩

end Runs

end NorthOS.LogOps
