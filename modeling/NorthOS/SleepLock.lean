import NorthOS.SleepWakeup

/-!
Sleep locks. acquiresleep and releasesleep run in steps under lk->lk, and a process that
has to wait sleeps on the address of the lock. A process that acquiresleep has returned to
has the lock until it calls releasesleep; it may sleep, fork and be killed meanwhile, but a
process exits only without locks. Seen from outside the lock is one variable, the process
that has it.
-/
namespace NorthOS.SleepLock

open Process Runs Monitor SleepWakeup

structure Sleeplock where
  locked : Bool
  pid : ℕ

/-- `held` tells of a process in holdingsleep whether it has the lock. -/
inductive Local
  | idle
  | acquiresleep
  | acquired
  | holding
  | releasesleep
  | cleared
  | released
  | holdingsleep (held : Bool)
  | answer (held r : Bool)
  deriving DecidableEq

/-- The address of the lock. -/
def lkChan : Chan := .addr 0

def initsleeplock : Sleeplock := ⟨false, 0⟩

/-- The code under lk->lk. -/
def body (lk : Sleeplock) (myproc : Self) : Local → Move Sleeplock Chan Local
  | .acquiresleep => if lk.locked then .sleep lkChan .acquiresleep else .stay ⟨true, myproc.pid⟩ .acquired
  | .acquired => .leave .holding
  | .releasesleep => .stay ⟨false, 0⟩ .cleared
  | .cleared => .wake lkChan .released
  | .holdingsleep held => .stay lk (.answer held (lk.locked && lk.pid = myproc.pid))
  | .answer held _ => .leave (if held then .holding else .idle)
  | .released => .leave .idle
  | .idle => .leave .idle
  | .holding => .leave .holding

/-- Only who has the lock releases it: brelse, iunlock and their like check. -/
def calls : Local → Local → Bool
  | .idle, .acquiresleep => true
  | .idle, .holdingsleep held => !held
  | .holding, .releasesleep => true
  | .holding, .holdingsleep held => held
  | _, _ => false

def routine : Routine Sleeplock Local where
  body := body
  free := fun _ _ _ => none
  calls := calls
  interrupts := fun _ _ => false
  idle := fun l => decide (l = .idle)
  mine := fun chan => decide (chan = lkChan)
  mine_proc := fun _ => rfl

abbrev Sys := SleepWakeup.Sys Sleeplock Local

def step : Sys → Act Local → Option Sys := SleepWakeup.Sys.step routine

/-- After initsleeplock, with init as the only process. -/
def boot : Sys := SleepWakeup.boot initsleeplock .idle

/-- lk->locked is the process's doing. -/
def Local.owns : Local → Bool
  | .acquired | .holding | .releasesleep | .holdingsleep true | .answer true _ => true
  | _ => false

/-- acquiresleep has returned, and releasesleep has not been called. -/
def Local.has : Local → Bool
  | .holding | .holdingsleep true | .answer true _ => true
  | _ => false

/-- The lock is taken by one process or none, whose pid it shows, and holdingsleep knows. -/
structure Owned (lk : Sleeplock) (env : ℕ → Self) (f : ℕ → Local) : Prop where
  distinct : ∀ p q, 0 < (env p).pid → (env p).pid = (env q).pid → p = q
  positive : ∀ p, f p ≠ .idle → 0 < (env p).pid
  flag : Flagged Local.owns lk.locked f
  pid : ∀ p, (f p).owns = true → lk.pid = (env p).pid
  answer : ∀ p held r, f p = .answer held r → r = held

section Owner

variable {lk : Sleeplock} {env : ℕ → Self} {f : ℕ → Local} {p : ℕ} {l : Local}

/-- A move that neither takes nor gives back the lock. -/
theorem Owned.move (h : Owned lk env f) (howns : l.owns = (f p).owns) (hpos : l ≠ .idle → 0 < (env p).pid)
    (hanswer : ∀ held r, l = .answer held r → r = held) : Owned lk env (Function.update f p l) := by
  refine ⟨h.distinct, fun q hq => ?_, h.flag.move howns, fun q hq => ?_, fun q held r hq => ?_⟩
  · by_cases hqp : q = p
    · subst hqp
      rw [Function.update_self] at hq
      exact hpos hq
    · rw [Function.update_of_ne hqp] at hq
      exact h.positive q hq
  · rw [owns_update howns] at hq
    exact h.pid q hq
  · by_cases hqp : q = p
    · subst hqp
      rw [Function.update_self] at hq
      exact hanswer held r hq
    · rw [Function.update_of_ne hqp] at hq
      exact h.answer q held r hq

/-- A process that is in a call moves on. -/
theorem Owned.onward (h : Owned lk env f) (hne : f p ≠ .idle) (howns : l.owns = (f p).owns)
    (hanswer : ∀ held r, l = .answer held r → r = held) : Owned lk env (Function.update f p l) :=
  h.move howns (fun _ => h.positive p hne) hanswer

theorem Owned.take (h : Owned lk env f) (hfree : lk.locked = false) (hp : f p ≠ .idle) :
    Owned ⟨true, (env p).pid⟩ env (Function.update f p .acquired) := by
  have hflag : Flagged Local.owns true (Function.update f p .acquired) := h.flag.take hfree rfl
  have hself : (Function.update f p .acquired : ℕ → Local) p = .acquired := Function.update_self _ _ _
  refine ⟨h.distinct, fun q hq => ?_, hflag, fun q hq => ?_, fun q held r hq => ?_⟩
  · by_cases hqp : q = p
    · rw [hqp]
      exact h.positive p hp
    · rw [Function.update_of_ne hqp] at hq
      exact h.positive q hq
  · rw [hflag.alone q p hq (by rw [hself]; rfl)]
  · have hqp : q ≠ p := by
      rintro rfl
      cases hself.symm.trans hq
    rw [Function.update_of_ne hqp] at hq
    exact h.answer q held r hq

theorem Owned.give (h : Owned lk env f) (hp : f p = .releasesleep) :
    Owned initsleeplock env (Function.update f p .cleared) := by
  have hself : (Function.update f p .cleared : ℕ → Local) p = .cleared := Function.update_self _ _ _
  have hflag : Flagged Local.owns false (Function.update f p .cleared) :=
    h.flag.give (by rw [hp]; rfl) rfl
  refine ⟨h.distinct, fun q hq => ?_, hflag, fun q hq => ?_, fun q held r hq => ?_⟩
  · by_cases hqp : q = p
    · rw [hqp]
      exact h.positive p (by rw [hp]; simp)
    · rw [Function.update_of_ne hqp] at hq
      exact h.positive q hq
  · cases hflag.set.mpr ⟨q, hq⟩
  · have hqp : q ≠ p := by
      rintro rfl
      cases hself.symm.trans hq
    rw [Function.update_of_ne hqp] at hq
    exact h.answer q held r hq

/-- holdingsleep compares the pid with the process's own, and pids differ. -/
theorem Owned.answers (h : Owned lk env f) {held : Bool} (hp : f p = .holdingsleep held) :
    (lk.locked && decide (lk.pid = (env p).pid)) = held := by
  cases held with
  | true =>
    have howns : (f p).owns = true := by rw [hp]; rfl
    rw [h.flag.set.mpr ⟨p, howns⟩, h.pid p howns]
    simp
  | false =>
    rw [Bool.and_eq_false_iff]
    by_contra hno
    push Not at hno
    obtain ⟨hlocked, hpid⟩ := hno
    obtain ⟨q, hq⟩ := h.flag.set.mp (by simpa using hlocked)
    have he : (env q).pid = (env p).pid := (h.pid q hq).symm.trans (by simpa using hpid)
    have hpos : 0 < (env q).pid := h.positive q fun hi => by rw [hi] at hq; cases hq
    obtain rfl := h.distinct q p hpos he
    rw [hp] at hq
    cases hq

theorem owned_keeps : Keeps routine.monitor Owned where
  call d e f p l' h hcall := by
    rcases hcall with ⟨hpos, hcall⟩ | hcall
    · have hgo : ∀ l, f p = l → calls l l' = true → Owned d e (Function.update f p l') := by
        intro l hl hc
        cases l with
        | idle =>
          cases l' with
          | acquiresleep => exact h.move (by rw [hl]; rfl) (fun _ => hpos) (by simp)
          | holdingsleep held =>
            cases held with
            | false => exact h.move (by rw [hl]; rfl) (fun _ => hpos) (by simp)
            | true => cases hc
          | _ => cases hc
        | holding =>
          cases l' with
          | releasesleep => exact h.move (by rw [hl]; rfl) (fun _ => hpos) (by simp)
          | holdingsleep held =>
            cases held with
            | true => exact h.move (by rw [hl]; rfl) (fun _ => hpos) (by simp)
            | false => cases hc
          | _ => cases hc
        | _ => cases hc
      exact hgo _ rfl hcall
    · cases hcall
  free d e f p d' l' h hfree := by cases hfree
  body d e f p h := by
    show Owned ((body d (e p) (f p)).data d) e (Function.update f p (body d (e p) (f p)).next)
    cases hp : f p with
    | idle =>
      have hsame : Function.update f p Local.idle = f := by rw [← hp, Function.update_eq_self]
      exact hsame.symm ▸ h
    | acquiresleep =>
      unfold body
      by_cases hlocked : d.locked = true
      · simp only [hlocked, if_true]
        exact h.onward (by rw [hp]; simp) (by rw [hp]; rfl) (by simp [Move.next])
      · simp only [hlocked]
        exact h.take (by simpa using hlocked) (by rw [hp]; simp)
    | acquired => exact h.onward (by rw [hp]; simp) (by rw [hp]; rfl) (by simp [body, Move.next])
    | holding =>
      have hsame : Function.update f p Local.holding = f := by rw [← hp, Function.update_eq_self]
      exact hsame.symm ▸ h
    | releasesleep => exact h.give hp
    | cleared => exact h.onward (by rw [hp]; simp) (by rw [hp]; rfl) (by simp [body, Move.next])
    | released =>
      exact h.move (by rw [hp]; rfl) (fun hne => absurd rfl hne) (by simp [body, Move.next])
    | holdingsleep held =>
      refine h.onward (by rw [hp]; simp) (by rw [hp]; cases held <;> rfl) ?_
      intro held' r he
      obtain ⟨rfl, rfl⟩ := Local.answer.inj he
      exact h.answers hp
    | answer held r =>
      cases held with
      | true => exact h.onward (by rw [hp]; simp) (by rw [hp]; rfl) (by simp [body, Move.next])
      | false =>
        exact h.move (by rw [hp]; rfl) (fun hne => absurd rfl hne) (by simp [body, Move.next])
  elsewhere d e e' f h hch := by
    refine ⟨hch.2, fun p hp => ?_, h.flag, fun p hp => ?_, h.answer⟩
    · rw [(hch.1 p (by simpa [routine] using hp)).1]
      exact h.positive p hp
    · have hne : f p ≠ .idle := fun hi => by rw [hi] at hp; cases hp
      rw [(hch.1 p (by simpa [routine] using hne)).1]
      exact h.pid p hp

end Owner

/-- The lock as one variable: the process that has it, from the moment acquiresleep takes
it to the moment releasesleep clears it. -/
def Owner (s : Sys) (o : Option ℕ) : Prop := ∀ p, (s.doing p).here.owns = true ↔ o = some p

def Has (s : Sys) (p : ℕ) : Prop := (s.doing p).here.has = true

/-- One process at most has the lock, the lock shows its pid, and holdingsleep answers
whether the caller has it. -/
structure Exclusive (s : Sys) : Prop where
  alone : ∀ p q, Has s p → Has s q → p = q
  shown : ∀ p, Has s p → s.data = ⟨true, (s.table.proc p).pid⟩
  free : s.data.locked = false → ∀ p, ¬ Has s p
  owner : ∃ o, Owner s o
  answer : ∀ p held r, (s.doing p).here = .answer held r → (r = true ↔ Has s p)

/-- A step takes the free lock for a process in acquiresleep, gives it back for its owner
in releasesleep, or leaves it alone. -/
def Atomic (s : Sys) (a : Act Local) : Prop :=
  ∀ o t, Owner s o → step s a = some t → Owner t o ∨
    (∃ p, a = .go p ∧ s.doing p = .body .acquiresleep ∧ o = none ∧ Owner t (some p)) ∨
    ∃ p, a = .go p ∧ s.doing p = .body .releasesleep ∧ o = some p ∧ Owner t none

section Runs

variable {s t : Sys} {p : ℕ}

theorem Local.owns_of_has {l : Local} (h : l.has = true) : l.owns = true := by
  cases l with
  | holdingsleep held => cases held <;> first | rfl | cases h
  | answer held r => cases held <;> first | rfl | cases h
  | holding => rfl
  | _ => cases h

theorem owned_of_kept (h : Kept routine Owned s) : Owned s.data s.self fun p => (s.doing p).here := by
  have hl : s.view.locals = fun p => (s.doing p).here := funext (view_locals s)
  have hh : Owned s.data s.self s.view.locals := h.holds
  rwa [hl] at hh

theorem exclusive_of_kept (h : Kept routine Owned s) : Exclusive s := by
  have ho := owned_of_kept h
  have hshown : ∀ p, Has s p → s.data = ⟨true, (s.table.proc p).pid⟩ := by
    intro p hp
    have howns := Local.owns_of_has hp
    have hlocked := ho.flag.set.mpr ⟨p, howns⟩
    have hpid := ho.pid p howns
    cases hd : s.data with
    | mk locked pid =>
      rw [hd] at hlocked hpid
      dsimp only at hlocked hpid
      rw [hlocked, hpid]
      rfl
  refine ⟨fun p q hp hq => ho.flag.alone p q (Local.owns_of_has hp) (Local.owns_of_has hq), hshown,
    fun hfree p hp => ?_, ?_, fun p held r hp => ?_⟩
  · rw [hshown p hp] at hfree
    cases hfree
  · by_cases hsome : ∃ p, (s.doing p).here.owns = true
    · obtain ⟨p, hp⟩ := hsome
      refine ⟨some p, fun q => ⟨fun hq => congrArg some (ho.flag.alone p q hp hq), fun he => ?_⟩⟩
      rwa [← Option.some.inj he]
    · exact ⟨none, fun q => iff_of_false (fun hq => hsome ⟨q, hq⟩) (Option.some_ne_none q).symm⟩
  · rw [ho.answer p held r hp]
    unfold Has
    rw [hp]
    cases held
    · exact Iff.rfl
    · exact Iff.rfl

/-- One process moves on in its code without touching the lock. -/
theorem Owner.move {o : Option ℕ} (h : Owner s o) {g : Stage Local}
    (hdoing : t.doing = Function.update s.doing p g) (hst : g.here.owns = (s.doing p).here.owns) :
    Owner t o := by
  intro q
  rw [← h q, hdoing]
  by_cases hq : q = p
  · subst hq
    rw [Function.update_self, hst]
  · rw [Function.update_of_ne hq]

theorem Owner.body {o : Option ℕ} (h : Owner s o) (hk : Kept routine Owned s) {l : Local}
    (hdoing : s.doing p = .body l) (ht : s.body routine p l = some t) : Owner t o ∨
      l = .acquiresleep ∧ o = none ∧ Owner t (some p) ∨ l = .releasesleep ∧ o = some p ∧ Owner t none := by
  have hhere : (s.doing p).here = l := by rw [hdoing]; rfl
  have ho := owned_of_kept hk
  have hown : l.owns = true ↔ o = some p := by rw [← h p, hhere]
  have hout : ∀ (u : Sys) (st : Stage Local), u.doing = Function.update s.doing p st →
      st.here.owns = l.owns → Owner u o := fun u st hu hst => h.move hu (by rw [hst, hhere])
  cases l with
  | acquiresleep =>
    simp only [Sys.body, routine, SleepLock.body] at ht
    by_cases hlocked : s.data.locked = true
    · simp only [hlocked, if_true] at ht
      obtain ⟨_, ht⟩ := Option.ite_none_right_eq_some.mp ht
      obtain rfl := Option.some.inj ht
      exact Or.inl (hout _ (.sleep lkChan .acquiresleep) rfl rfl)
    · simp only [hlocked] at ht
      obtain rfl := Option.some.inj ht
      have hnone : ∀ q, (s.doing q).here.owns ≠ true := fun q hq => hlocked (ho.flag.set.mpr ⟨q, hq⟩)
      right; left
      refine ⟨rfl, ?_, fun q => ?_⟩
      · cases o with
        | none => rfl
        | some q => exact absurd ((h q).mpr rfl) (hnone q)
      · show (Function.update s.doing p (.body .acquired) q).here.owns = true ↔ some p = some q
        by_cases hq : q = p
        · subst hq
          rw [Function.update_self]
          exact iff_of_true rfl rfl
        · rw [Function.update_of_ne hq]
          exact iff_of_false (hnone q) fun he => hq (Option.some.inj he).symm
  | releasesleep =>
    obtain rfl := Option.some.inj ht
    have hp : o = some p := hown.mp rfl
    right; right
    refine ⟨rfl, hp, fun q => ?_⟩
    show (Function.update s.doing p (.body .cleared) q).here.owns = true ↔ none = some q
    by_cases hq : q = p
    · subst hq
      rw [Function.update_self]
      exact iff_of_false Bool.false_ne_true (Option.some_ne_none q).symm
    · rw [Function.update_of_ne hq, h q, hp]
      exact iff_of_false (fun he => hq (Option.some.inj he).symm) (Option.some_ne_none q).symm
  | acquired =>
    obtain rfl := Option.some.inj ht
    exact Or.inl (hout _ (.outside .holding) rfl rfl)
  | cleared =>
    obtain rfl := Option.some.inj ht
    exact Or.inl (hout _ (.wakeup lkChan .released) rfl rfl)
  | released =>
    obtain rfl := Option.some.inj ht
    exact Or.inl (hout _ (.outside .idle) rfl rfl)
  | holdingsleep held =>
    obtain rfl := Option.some.inj ht
    exact Or.inl (hout _ (.body (.answer held _)) rfl (by cases held <;> rfl))
  | answer held r =>
    obtain rfl := Option.some.inj ht
    exact Or.inl (hout _ (.outside (if held then .holding else .idle)) rfl (by cases held <;> rfl))
  | idle =>
    obtain rfl := Option.some.inj ht
    exact Or.inl (hout _ (.outside .idle) rfl rfl)
  | holding =>
    obtain rfl := Option.some.inj ht
    exact Or.inl (hout _ (.outside .holding) rfl rfl)

theorem calls_owns {l l' : Local} (h : calls l l' = true) : l'.owns = l.owns := by
  cases l with
  | idle =>
    cases l' with
    | acquiresleep => rfl
    | holdingsleep held => cases held <;> first | rfl | cases h
    | _ => cases h
  | holding =>
    cases l' with
    | releasesleep => rfl
    | holdingsleep held => cases held <;> first | rfl | cases h
    | _ => cases h
  | _ => cases h

theorem atomic_of_kept (hk : Kept routine Owned s) (a : Act Local) : Atomic s a := by
  intro o t h ht
  cases a with
  | call p l' =>
    simp only [step, SleepWakeup.Sys.step] at ht
    split at ht
    · rename_i l hdoing
      obtain ⟨hcall, ht⟩ := Option.ite_none_right_eq_some.mp ht
      obtain rfl := Option.some.inj ht
      refine Or.inl (h.move (g := .acquire l') rfl ?_)
      rw [hdoing]
      rcases hcall with hcall | hcall
      · exact calls_owns hcall.2
      · cases hcall.2
    · cases ht
  | free p l' =>
    simp only [step, SleepWakeup.Sys.step] at ht
    split at ht
    · obtain ⟨_, ht⟩ := Option.ite_none_right_eq_some.mp ht
      cases ht
    · cases ht
  | go p =>
    obtain ⟨_, ht⟩ := Option.ite_none_right_eq_some.mp ht
    unfold Sys.go at ht
    split at ht
    · cases ht
    · rename_i l hdoing
      obtain ⟨_, ht⟩ := Option.ite_none_right_eq_some.mp ht
      obtain rfl := Option.some.inj ht
      exact Or.inl (h.move (g := .body l) rfl (by rw [hdoing]; rfl))
    · rename_i l hdoing
      refine (h.body hk hdoing ht).imp id (Or.imp ?_ ?_)
      · rintro ⟨rfl, ho, ht⟩
        exact ⟨p, rfl, hdoing, ho, ht⟩
      · rintro ⟨rfl, ho, ht⟩
        exact ⟨p, rfl, hdoing, ho, ht⟩
    · rename_i chan l hdoing
      obtain ⟨_, ht⟩ := Option.ite_none_right_eq_some.mp ht
      obtain rfl := Option.some.inj ht
      exact Or.inl (h.move (g := .body l) rfl (by rw [hdoing]; rfl))
    · rename_i chan l hdoing
      obtain ⟨_, ht⟩ := Option.ite_none_right_eq_some.mp ht
      obtain rfl := Option.some.inj ht
      exact Or.inl (h.move (g := .handover chan l) rfl (by rw [hdoing]; rfl))
    · rename_i chan l hdoing
      obtain rfl := Option.some.inj ht
      exact Or.inl (h.move (g := .fall chan l) rfl (by rw [hdoing]; rfl))
    · rename_i chan l hdoing
      obtain rfl := Option.some.inj ht
      exact Or.inl (h.move (g := .asleep chan l) rfl (by rw [hdoing]; rfl))
    · rename_i chan l hdoing
      obtain ⟨_, ht⟩ := Option.ite_none_right_eq_some.mp ht
      obtain rfl := Option.some.inj ht
      exact Or.inl (h.move (g := .acquire l) rfl (by rw [hdoing]; rfl))
  | elsewhere a =>
    obtain ⟨_, ht⟩ := Option.ite_none_right_eq_some.mp ht
    obtain ⟨u, _, rfl⟩ := Option.map_eq_some_iff.mp ht
    exact Or.inl h

theorem boot_kept : Kept routine Owned boot := by
  refine ⟨boot_sound rfl, boot_exclusive _ _, booted_inv.pids.distinct, fun p hp => absurd rfl hp,
    ⟨iff_of_false Bool.false_ne_true ?_, fun p q hp => ?_⟩, fun p hp => ?_, fun p held r hp => ?_⟩
  · rintro ⟨p, hp⟩
    cases hp
  · cases hp
  · cases hp
  · cases hp

/-- In every interleaving at most one process has the lock, and the lock behaves as one
variable that is taken and given back in single steps. -/
theorem always_oneOwner (as : List (Act Local)) :
    Always step Exclusive boot as ∧ Along step Atomic boot as := by
  have hkept : ∀ s a t, Kept routine Owned s → step s a = some t → Kept routine Owned t :=
    fun s a t h ht => h.step owned_keeps ht
  constructor
  · exact (always_of_invariant hkept boot_kept as).mono fun s hs => exclusive_of_kept hs
  · exact along_of_invariant (fun s a hs => atomic_of_kept hs a) hkept boot_kept as

/-- A process that sleeps in acquiresleep is blocked while the lock is taken. -/
def Blocked (lk : Sleeplock) (chan : Chan) (l : Local) : Prop :=
  chan = lkChan → lk.locked = true ∧ l = .acquiresleep

/-- releasesleep owes a wakeup until it has called it. -/
def debt (l : Local) (chan : Chan) : Prop := l = .cleared ∧ chan = lkChan

theorem owned_pays : Pays routine.monitor Owned Blocked debt where
  free d e f p d' l' h hfree := by cases hfree
  stay d e f p d' l' h hbody k l hk := by
    have hb : body d (e p) (f p) = .stay d' l' := hbody
    cases hp : f p with
    | acquiresleep =>
      rw [hp] at hb
      simp only [body] at hb
      split at hb
      · cases hb
      · obtain ⟨rfl, rfl⟩ := Move.stay.inj hb
        rcases hk with hk | hk
        · exact Or.inl fun he => ⟨rfl, (hk he).2⟩
        · rw [hp] at hk
          cases hk.1
    | releasesleep =>
      rw [hp] at hb
      obtain ⟨rfl, rfl⟩ := Move.stay.inj hb
      by_cases hchan : k = lkChan
      · exact Or.inr ⟨rfl, hchan⟩
      · exact Or.inl fun he => absurd he hchan
    | holdingsleep held =>
      rw [hp] at hb hk
      obtain ⟨rfl, rfl⟩ := Move.stay.inj hb
      exact hk.imp id fun hd => by cases hd.1
    | _ => rw [hp] at hb; cases hb
  wake d e f p k' l' h hbody k hk := by
    have hb : body d (e p) (f p) = .wake k' l' := hbody
    rw [hk.1] at hb
    obtain ⟨rfl, rfl⟩ := Move.wake.inj hb
    exact Or.inl hk.2
  sleep d e f p k' l' h hbody := by
    have hb : body d (e p) (f p) = .sleep k' l' := hbody
    cases hp : f p with
    | acquiresleep =>
      rw [hp] at hb
      simp only [body] at hb
      split at hb
      · rename_i hlocked
        obtain ⟨rfl, rfl⟩ := Move.sleep.inj hb
        exact ⟨fun _ => ⟨hlocked, rfl⟩, fun k hk => by cases hk.1⟩
      · cases hb
    | _ => rw [hp] at hb; cases hb
  leave d e f p l' h hbody k hk := by
    have hb : body d (e p) (f p) = .leave l' := hbody
    rw [hk.1] at hb
    cases hb

/-- While lk->lk is free, a process that sleeps for the lock waits in acquiresleep and the
lock is taken. -/
def NoneMissed (s : Sys) : Prop :=
  s.lk = none → ∀ p, Pipes.SleepsOn s.table lkChan p →
    s.doing p = .asleep lkChan .acquiresleep ∧ ∃ q, q ≠ p ∧ Owner s (some q)

theorem noneMissed_of (h : Kept routine Owned s) (hm : SleepWakeup.NoneMissed routine Blocked s) :
    NoneMissed s := by
  intro hlk p hs
  obtain ⟨l, hl, hblocked⟩ := hm hlk lkChan p rfl hs
  obtain ⟨hlocked, rfl⟩ := hblocked rfl
  obtain ⟨q, hq⟩ := (owned_of_kept h).flag.set.mp hlocked
  obtain ⟨o, howner⟩ := (exclusive_of_kept h).owner
  obtain rfl := (howner q).mp hq
  refine ⟨hl, q, ?_, howner⟩
  rintro rfl
  rw [hl] at hq
  cases hq

/-- No wakeup is missed: whoever sleeps for the lock while lk->lk is free has another
process to wait for. -/
theorem always_waitsForOwner (as : List (Act Local)) : Always step NoneMissed boot as := by
  have hkept := always_kept owned_keeps boot_kept as
  have hnone := SleepWakeup.always_blocked owned_keeps owned_pays boot_kept (boot_paid _ _) as
  rw [always_iff_run] at hkept hnone
  refine (always_iff_run _ _).mpr fun bs t hbs ht => ?_
  exact noneMissed_of (hkept bs t hbs ht) (hnone bs t hbs ht)

end Runs

end NorthOS.SleepLock
