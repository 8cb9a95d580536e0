import NorthOS.SleepWakeup

/-!
The clock. The timer interrupt of CPU 0 counts ticks under tickslock and wakes the
processes in sys_sleep, which compare the counter, a 32-bit number that wraps around, with
its value when they began; sys_uptime reads it. The ticks since boot are counted beside it.
-/
namespace NorthOS.Ticks

open Process Runs Monitor SleepWakeup

/-- `count` are the ticks since boot. -/
structure Clock where
  ticks : ℕ
  count : ℕ

/-- `n` is the argument of sys_sleep, `ticks0` its local variable and `start` the ticks since
boot when it was set; `now` are the ticks since boot when sys_uptime reads the counter. -/
inductive Local
  | idle
  | sleep (n : ℤ)
  | loop (n : ℤ) (ticks0 start : ℕ)
  | slept (n : ℤ) (start : ℕ) (r : ℤ)
  | timer
  | ticked
  | timed
  | uptime
  | xticks (now : ℕ) (r : ℕ)

/-- The address of ticks. -/
def ticksChan : Chan := .addr 0

/-- The comparison is one of unsigned numbers, to which C converts the int. -/
def wait (n : ℤ) : ℕ := (n % (2 ^ 32 : ℕ)).toNat

/-- ticks - ticks0, as the code computes it. -/
def elapsed (ticks ticks0 : ℕ) : ℕ := (ticks + 2 ^ 32 - ticks0) % 2 ^ 32

/-- The code under tickslock. -/
def body (c : Clock) (myproc : Self) : Local → Move Clock Chan Local
  | .sleep n => .stay c (.loop n c.ticks c.count)
  | .loop n ticks0 start =>
    if elapsed c.ticks ticks0 < wait n then
      if myproc.killed then .stay c (.slept n start (-1)) else .sleep ticksChan (.loop n ticks0 start)
    else .stay c (.slept n start 0)
  | .slept _ _ _ => .leave .idle
  | .timer => .stay ⟨(c.ticks + 1) % 2 ^ 32, c.count + 1⟩ .ticked
  | .ticked => .wake ticksChan .timed
  | .timed => .leave .idle
  | .uptime => .stay c (.xticks c.count c.ticks)
  | .xticks _ _ => .leave .idle
  | .idle => .leave .idle

def calls : Local → Local → Bool
  | .idle, .sleep _ => true
  | .idle, .uptime => true
  | _, _ => false

/-- The interrupts of the other CPUs only acknowledge. -/
def interrupts : Local → Local → Bool
  | .idle, .timer => true
  | _, _ => false

def Local.isIdle : Local → Bool
  | .idle => true
  | _ => false

def routine : Routine Clock Local where
  body := body
  free := fun _ _ _ => none
  calls := calls
  interrupts := interrupts
  idle := Local.isIdle
  mine := fun chan => decide (chan = ticksChan)
  mine_proc := fun _ => rfl

abbrev Sys := SleepWakeup.Sys Clock Local

def step : Sys → Act Local → Option Sys := SleepWakeup.Sys.step routine

def boot : Sys := SleepWakeup.boot ⟨0, 0⟩ .idle

/-- What a process in the loop, or on its way out, knows of the clock. -/
def Local.Fits (c : Clock) (myproc : Self) : Local → Prop
  | .loop _ ticks0 start => ticks0 = start % 2 ^ 32 ∧ start ≤ c.count
  | .slept n start r => start ≤ c.count ∧
    (r = 0 ∧ wait n ≤ c.count - start ∨ r = -1 ∧ myproc.killed = true)
  | .xticks now r => now ≤ c.count ∧ r = now % 2 ^ 32
  | _ => True

/-- The counter shows the ticks since boot, up to the wrap. -/
structure Counted (c : Clock) (env : ℕ → Self) (f : ℕ → Local) : Prop where
  ticks : c.ticks = c.count % 2 ^ 32
  fits : ∀ p, (f p).Fits c (env p)

section Counting

variable {c : Clock} {env : ℕ → Self} {f : ℕ → Local} {p : ℕ} {l : Local}

theorem elapsed_eq {count start : ℕ} (h : start ≤ count) :
    elapsed (count % 2 ^ 32) (start % 2 ^ 32) = (count - start) % 2 ^ 32 := by
  unfold elapsed
  omega

theorem Counted.move (h : Counted c env f) (hl : l.Fits c (env p)) :
    Counted c env (Function.update f p l) := by
  refine ⟨h.ticks, fun q => ?_⟩
  by_cases hq : q = p
  · subst hq
    rw [Function.update_self]
    exact hl
  · rw [Function.update_of_ne hq]
    exact h.fits q

/-- What was true of the clock stays true as it goes on. -/
theorem Local.Fits.tick {c' : Clock} {myproc : Self} (h : l.Fits c myproc) (hc : c.count ≤ c'.count) :
    l.Fits c' myproc := by
  cases l with
  | loop n ticks0 start => exact ⟨h.1, h.2.trans hc⟩
  | slept n start r =>
    refine ⟨h.1.trans hc, h.2.imp (fun hr => ⟨hr.1, ?_⟩) id⟩
    exact hr.2.trans (Nat.sub_le_sub_right hc start)
  | xticks now r => exact ⟨h.1.trans hc, h.2⟩
  | _ => trivial

theorem Counted.timer (h : Counted c env f) :
    Counted ⟨(c.ticks + 1) % 2 ^ 32, c.count + 1⟩ env (Function.update f p .ticked) := by
  have hall : Counted ⟨(c.ticks + 1) % 2 ^ 32, c.count + 1⟩ env f := by
    refine ⟨?_, fun q => (h.fits q).tick (Nat.le_succ _)⟩
    show (c.ticks + 1) % 2 ^ 32 = (c.count + 1) % 2 ^ 32
    rw [h.ticks, Nat.mod_add_mod]
  exact hall.move trivial

/-- The loop of sys_sleep is left with 0 after the ticks that were asked for. -/
theorem Counted.loop (h : Counted c env f) {n : ℤ} {ticks0 start : ℕ}
    (hp : f p = .loop n ticks0 start) (hover : ¬ elapsed c.ticks ticks0 < wait n) :
    Local.Fits c (env p) (.slept n start 0) := by
  have hfits := h.fits p
  rw [hp] at hfits
  obtain ⟨rfl, hle⟩ := hfits
  rw [h.ticks, elapsed_eq hle] at hover
  refine ⟨hle, Or.inl ⟨rfl, ?_⟩⟩
  exact (Nat.not_lt.mp hover).trans (Nat.mod_le _ _)

theorem counted_keeps : Keeps routine.monitor Counted where
  call d e f p l' h hcall := by
    have hl : l'.Fits d (e p) := by
      rcases hcall with ⟨_, hcall⟩ | hcall
      · change calls (f p) l' = true at hcall
        unfold calls at hcall
        split at hcall
        · trivial
        · trivial
        · cases hcall
      · change interrupts (f p) l' = true at hcall
        unfold interrupts at hcall
        split at hcall
        · trivial
        · cases hcall
    exact h.move hl
  free d e f p d' l' h hfree := by cases hfree
  body d e f p h := by
    show Counted ((body d (e p) (f p)).data d) e (Function.update f p (body d (e p) (f p)).next)
    have hfits := h.fits p
    cases hp : f p with
    | sleep n => exact h.move ⟨h.ticks, Nat.le_refl _⟩
    | loop n ticks0 start =>
      rw [hp] at hfits
      by_cases hlt : elapsed d.ticks ticks0 < wait n
      · by_cases hkilled : (e p).killed = true
        · simp only [body, hlt, hkilled, if_true]
          exact h.move ⟨hfits.2, Or.inr ⟨rfl, hkilled⟩⟩
        · simp only [body, hlt, hkilled, if_true]
          exact h.move hfits
      · simp only [body, hlt, if_false]
        exact h.move (h.loop hp hlt)
    | timer => exact h.timer
    | uptime => exact h.move ⟨Nat.le_refl _, h.ticks⟩
    | _ => exact h.move trivial
  elsewhere d e e' f h hch := by
    refine ⟨h.ticks, fun p => ?_⟩
    have hfits := h.fits p
    cases hp : f p with
    | slept n start r =>
      rw [hp] at hfits
      have hkilled := (hch.1 p (by rw [hp]; rfl)).2
      exact ⟨hfits.1, hfits.2.imp id fun hr => ⟨hr.1, hkilled hr.2⟩⟩
    | loop n ticks0 start => rwa [hp] at hfits
    | xticks now r => rwa [hp] at hfits
    | _ => trivial

/-- A process that sleeps in sys_sleep is blocked before its time. -/
def Blocked (c : Clock) (chan : Chan) (l : Local) : Prop :=
  chan = ticksChan → ∃ n ticks0 start, l = .loop n ticks0 start ∧ elapsed c.ticks ticks0 < wait n

/-- A tick owes a wakeup until it has called it. -/
def debt (l : Local) (chan : Chan) : Prop := l = .ticked ∧ chan = ticksChan

theorem counted_pays : Pays routine.monitor Counted Blocked debt where
  free d e f p d' l' h hfree := by cases hfree
  stay d e f p d' l' h hbody k l hk := by
    have hb : body d (e p) (f p) = .stay d' l' := hbody
    have hsame : f p ≠ .ticked → d' = d → Blocked d' k l ∨ debt l' k := by
      rintro hp rfl
      exact Or.inl (hk.resolve_right fun hd => hp hd.1)
    cases hp : f p with
    | loop n ticks0 start =>
      rw [hp] at hb
      simp only [body] at hb
      split at hb
      · split at hb
        · exact hsame (by rw [hp]; simp) (Move.stay.inj hb).1.symm
        · cases hb
      · exact hsame (by rw [hp]; simp) (Move.stay.inj hb).1.symm
    | timer =>
      rw [hp] at hb
      obtain ⟨rfl, rfl⟩ := Move.stay.inj hb
      by_cases hchan : k = ticksChan
      · exact Or.inr ⟨rfl, hchan⟩
      · exact Or.inl fun he => absurd he hchan
    | sleep n =>
      rw [hp] at hb
      exact hsame (by rw [hp]; simp) (Move.stay.inj hb).1.symm
    | uptime =>
      rw [hp] at hb
      exact hsame (by rw [hp]; simp) (Move.stay.inj hb).1.symm
    | _ => rw [hp] at hb; cases hb
  wake d e f p k' l' h hbody k hk := by
    have hb : body d (e p) (f p) = .wake k' l' := hbody
    rw [hk.1] at hb
    obtain ⟨rfl, rfl⟩ := Move.wake.inj hb
    exact Or.inl hk.2
  sleep d e f p k' l' h hbody := by
    have hb : body d (e p) (f p) = .sleep k' l' := hbody
    cases hp : f p with
    | loop n ticks0 start =>
      rw [hp] at hb
      simp only [body] at hb
      split at hb
      · rename_i hlt
        split at hb
        · cases hb
        · obtain ⟨rfl, rfl⟩ := Move.sleep.inj hb
          exact ⟨fun _ => ⟨n, ticks0, start, rfl, hlt⟩, fun k hk => by cases hk.1⟩
      · cases hb
    | _ => rw [hp] at hb; cases hb
  leave d e f p l' h hbody k hk := by
    have hb : body d (e p) (f p) = .leave l' := hbody
    rw [hk.1] at hb
    cases hb

end Counting

/-- A sys_sleep that is over has slept long enough and returns 0, or was killed and returns
-1, and sys_uptime returns the ticks since boot up to the wrap. -/
def Returns (s : Sys) : Prop :=
  ∀ p, (∀ n start r, (s.doing p).here = .slept n start r →
      r = 0 ∧ start + wait n ≤ s.data.count ∨ r = -1 ∧ (s.table.proc p).killed = true) ∧
    ∀ now r, (s.doing p).here = .xticks now r → now ≤ s.data.count ∧ r = now % 2 ^ 32

/-- While tickslock is free nobody sleeps in sys_sleep whose time has come. -/
def NoneLate (s : Sys) : Prop :=
  s.lk = none → ∀ p, Pipes.SleepsOn s.table ticksChan p → ∃ n ticks0 start,
    s.doing p = .asleep ticksChan (.loop n ticks0 start) ∧ (s.data.count - start) % 2 ^ 32 < wait n

section Runs

variable {s : Sys}

theorem fits_of_kept (h : Kept routine Counted s) (p : ℕ) :
    (s.doing p).here.Fits s.data (s.self p) := by
  rw [← view_locals]
  exact h.holds.fits p

theorem returns_of_kept (h : Kept routine Counted s) : Returns s := by
  intro p
  have hfits := fits_of_kept h p
  constructor
  · intro n start r hp
    rw [hp] at hfits
    obtain ⟨hle, hr⟩ := hfits
    refine hr.imp (fun hr => ⟨hr.1, ?_⟩) id
    have hw := hr.2
    omega
  · intro now r hp
    rw [hp] at hfits
    exact hfits

theorem noneLate_of_kept (h : Kept routine Counted s) (hm : NoneMissed routine Blocked s) :
    NoneLate s := by
  intro hlk p hs
  obtain ⟨l, hl, hblocked⟩ := hm hlk ticksChan p rfl hs
  obtain ⟨n, ticks0, start, rfl, hlt⟩ := hblocked rfl
  refine ⟨n, ticks0, start, hl, ?_⟩
  have hfits := fits_of_kept h p
  rw [hl] at hfits
  obtain ⟨rfl, hle⟩ := hfits
  have hticks : s.data.ticks = s.data.count % 2 ^ 32 := h.holds.ticks
  rwa [hticks, elapsed_eq hle] at hlt

theorem boot_kept : Kept routine Counted boot := by
  refine ⟨boot_sound rfl, boot_exclusive _ _, rfl, fun p => trivial⟩

/-- In every interleaving of sleepers, kills and ticks, sys_sleep returns 0 only after its
time and -1 only to a killed process, and no tick leaves a process asleep whose time has
come. -/
theorem always_slept (as : List (Act Local)) :
    Always step (fun s => Returns s ∧ NoneLate s) boot as := by
  have hkept := always_kept counted_keeps boot_kept as
  have hnone := always_blocked counted_keeps counted_pays boot_kept (boot_paid _ _) as
  rw [always_iff_run] at hkept hnone
  refine (always_iff_run _ _).mpr fun bs t hbs ht => ?_
  have hk := hkept bs t hbs ht
  exact ⟨returns_of_kept hk, noneLate_of_kept hk (hnone bs t hbs ht)⟩

end Runs

end NorthOS.Ticks
