import NorthOS.Console
import NorthOS.SleepWakeup

/-!
The readers that sleep in consoleread. The loops of consoleread and consoleintr run here a
character at a time under cons.lock, and consoleintr, which is called from the interrupts of
the keyboard and the serial port, wakes the readers each time it commits input.
-/
namespace NorthOS.ConsoleWait

open Process Runs Monitor SleepWakeup Console

/-- `n` bytes of `target` are still to be read, and `dst` has been stored; `cs` are the
characters that an interrupt still has to handle. -/
inductive Local
  | idle
  | read (n target : ℕ) (dst : List UInt8)
  | returned (result : ℤ) (dst : List UInt8)
  | intr (cs : List UInt8)
  | committed (cs : List UInt8)

/-- &input.r -/
def rChan : Chan := .addr 0

/-- The code under cons.lock. -/
def body (i : Input) (myproc : Self) : Local → Move Input Chan Local
  | .read 0 target dst => .stay i (.returned target dst)
  | .read (n + 1) target dst =>
    if i.r = i.w then
      if myproc.killed then .stay i (.returned (-1) dst) else .sleep rChan (.read (n + 1) target dst)
    else if i.next = ctrlD then
      -- mid-line it is kept for the next read
      .stay (if n + 1 < target then i.take.untake else i.take) (.returned (target - (n + 1 : ℕ)) dst)
    else if i.next = newline then .stay i.take (.returned (target - n) (dst ++ [i.next]))
    else .stay i.take (.read n target (dst ++ [i.next]))
  | .returned _ _ => .leave .idle
  | .intr [] => .leave .idle
  | .intr (c :: cs) => .stay (i.key c).1 (if (i.key c).2 then .committed cs else .intr cs)
  | .committed cs => .wake rChan (.intr cs)
  | .idle => .leave .idle

def calls : Local → Local → Bool
  | .idle, .read n target dst => decide (n = target ∧ dst = [])
  | _, _ => false

def interrupts : Local → Local → Bool
  | .idle, .intr _ => true
  | _, _ => false

def Local.isIdle : Local → Bool
  | .idle => true
  | _ => false

def routine : Routine Input Local where
  body := body
  free := fun _ _ _ => none
  calls := calls
  interrupts := interrupts
  idle := Local.isIdle
  mine := fun chan => decide (chan = rChan)
  mine_proc := fun _ => rfl

abbrev Sys := SleepWakeup.Sys Input Local

def step : Sys → Act Local → Option Sys := SleepWakeup.Sys.step routine

def boot : Sys := SleepWakeup.boot ⟨fun _ => 0, 0, 0, 0⟩ .idle

section Keys

variable {i : Input} {c : UInt8}

theorem killLine_ends (fuel : ℕ) (i : Input) : (i.killLine fuel).r = i.r ∧ (i.killLine fuel).w = i.w := by
  induction fuel generalizing i with
  | zero => exact ⟨rfl, rfl⟩
  | succ fuel ih =>
    unfold Input.killLine
    split
    · exact ih i.back
    · exact ⟨rfl, rfl⟩

/-- A key that does not wake the readers has committed nothing. -/
theorem key_silent (h : (i.key c).2 = false) : (i.key c).1.r = i.r ∧ (i.key c).1.w = i.w := by
  by_cases hP : c = ctrlP
  · simp [Input.key, hP]
  by_cases hU : c = ctrlU
  · simpa [Input.key, hU, ctrlU, ctrlP] using killLine_ends _ i
  by_cases hH : c = ctrlH ∨ c = delete
  · simp only [Input.key, hP, hU, hH, if_false, if_true]
    split <;> exact ⟨rfl, rfl⟩
  by_cases hroom : c ≠ 0 ∧ Console.dist i.r i.e < INPUT_BUF
  · simp only [Input.key, if_neg hP, if_neg hU, if_neg hH, if_pos hroom] at h ⊢
    generalize (if c = carriageReturn then newline else c) = c' at h ⊢
    split
    · rename_i hcommit
      rw [if_pos hcommit] at h
      cases h
    · exact ⟨rfl, rfl⟩
  · simp [Input.key, hP, hU, hH, hroom]

end Keys

/-- A process that sleeps in consoleread is blocked as long as no input is committed. -/
def Blocked (i : Input) (chan : Chan) (l : Local) : Prop :=
  chan = rChan → i.r = i.w ∧ ∃ n target dst, l = .read (n + 1) target dst

/-- Input that has been committed is owed to the readers. -/
def debt (l : Local) (chan : Chan) : Prop := (∃ cs, l = .committed cs) ∧ chan = rChan

theorem trivial_keeps : Keeps routine.monitor fun _ _ _ => True :=
  ⟨fun _ _ _ _ _ _ _ => trivial, fun _ _ _ _ _ _ _ _ => trivial, fun _ _ _ _ _ => trivial,
    fun _ _ _ _ _ _ => trivial⟩

/-- A reader changes the ring only where there is input, and then nobody sleeps. -/
theorem read_stays {i i' : Input} {self : Self} {n target : ℕ} {dst : List UInt8} {l' l : Local}
    {k : Chan} (hb : body i self (.read n target dst) = .stay i' l') (hk : Blocked i k l) :
    Blocked i' k l := by
  intro hchan
  obtain ⟨hempty, hl⟩ := hk hchan
  refine ⟨?_, hl⟩
  cases n with
  | zero =>
    obtain ⟨rfl, _⟩ := Move.stay.inj hb
    exact hempty
  | succ n =>
    simp only [body, hempty, if_true] at hb
    split at hb
    · obtain ⟨rfl, _⟩ := Move.stay.inj hb
      exact hempty
    · cases hb

theorem trivial_pays : Pays routine.monitor (fun _ _ _ => True) Blocked debt where
  free d e f p d' l' _ hfree := by cases hfree
  stay d e f p d' l' _ hbody k l hk := by
    have hb : body d (e p) (f p) = .stay d' l' := hbody
    cases hp : f p with
    | read n target dst =>
      rw [hp] at hb
      refine Or.inl (read_stays hb (hk.resolve_right ?_))
      rw [hp]
      rintro ⟨⟨cs, hcs⟩, _⟩
      cases hcs
    | intr cs =>
      rw [hp] at hb
      have hblocked : Blocked d k l := by
        refine hk.resolve_right ?_
        rw [hp]
        rintro ⟨⟨cs, hcs⟩, _⟩
        cases hcs
      cases cs with
      | nil => cases hb
      | cons c cs =>
        obtain ⟨rfl, rfl⟩ := Move.stay.inj hb
        by_cases hchan : k = rChan
        · cases hwake : (d.key c).2 with
          | true => exact Or.inr ⟨⟨cs, rfl⟩, hchan⟩
          | false =>
            obtain ⟨hr, hw⟩ := key_silent hwake
            left
            intro hc
            rw [hr, hw]
            exact hblocked hc
        · exact Or.inl fun hc => absurd hc hchan
    | _ => rw [hp] at hb; cases hb
  wake d e f p k' l' _ hbody k hk := by
    have hb : body d (e p) (f p) = .wake k' l' := hbody
    obtain ⟨⟨cs, hp⟩, rfl⟩ := hk
    rw [hp] at hb
    obtain ⟨rfl, rfl⟩ := Move.wake.inj hb
    exact Or.inl rfl
  sleep d e f p k' l' _ hbody := by
    have hb : body d (e p) (f p) = .sleep k' l' := hbody
    cases hp : f p with
    | read n target dst =>
      rw [hp] at hb
      have hnone : ∀ k, ¬ debt (.read n target dst) k := by
        rintro k ⟨⟨cs, hcs⟩, _⟩
        cases hcs
      cases n with
      | zero => cases hb
      | succ n =>
        simp only [body] at hb
        split at hb
        · rename_i hempty
          split at hb
          · cases hb
          · obtain ⟨rfl, rfl⟩ := Move.sleep.inj hb
            exact ⟨fun _ => ⟨hempty, n, target, dst, rfl⟩, hnone⟩
        · split at hb
          · cases hb
          · split at hb <;> cases hb
    | intr cs => rw [hp] at hb; cases cs <;> cases hb
    | _ => rw [hp] at hb; cases hb
  leave d e f p l' _ hbody k hk := by
    have hb : body d (e p) (f p) = .leave l' := hbody
    obtain ⟨⟨cs, hp⟩, _⟩ := hk
    rw [hp] at hb
    cases hb

/-- While cons.lock is free, nobody sleeps in consoleread where input has been committed. -/
def NoneMissed (s : Sys) : Prop :=
  s.lk = none → ∀ p, Pipes.SleepsOn s.table rChan p → s.data.r = s.data.w ∧
    ∃ n target dst, s.doing p = .asleep rChan (.read (n + 1) target dst)

/-- In every interleaving of readers, keys and kills no reader sleeps through a line. -/
theorem always_awake (as : List (Act Local)) : Always step NoneMissed boot as := by
  have hkept : Kept routine (fun _ _ _ => True) boot := ⟨boot_sound rfl, boot_exclusive _ _, trivial⟩
  refine (always_blocked trivial_keeps trivial_pays hkept (boot_paid _ _) as).mono fun s hs hlk p hp => ?_
  obtain ⟨l, hl, hblocked⟩ := hs hlk rChan p rfl hp
  obtain ⟨hempty, n, target, dst, rfl⟩ := hblocked rfl
  exact ⟨hempty, n, target, dst, hl⟩

end NorthOS.ConsoleWait
