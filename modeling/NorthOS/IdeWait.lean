import NorthOS.IdeQueue

/-!
The processes that sleep in iderw. ideintr wakes the processes that wait for the
buffer it takes off the queue, done or not, and never puts a buffer back; idestart
gives up when the disk stays busy, and nothing starts its buffer later. Runs in
which every poll of the disk succeeds abandon no request.
-/
namespace NorthOS.Ide

/-- The driver with the processes that sleep on the buffer they wait for. -/
structure Waits (P B D : Type*) where
  ide : State P B D
  asleep : P → Bool

/-- A killed sleeper runs again, finds its buffer not done and goes back to sleep. -/
inductive Event (P B D : Type*)
  | act (a : Action P B D)
  | kill (p : P)

variable {P B D : Type*} [DecidableEq P] [DecidableEq B]

namespace Waits

/-- A sleeper does not look at its buffer before it is woken. -/
def runnable (w : Waits P B D) : Action P B D → Bool
  | .wake p => !w.asleep p
  | _ => true

/-- The sleepers once the driver is in state `t`: wakeup(b) in ideintr, and sleep(b) in
the loop of iderw. -/
def sleepers (w : Waits P B D) (t : State P B D) : Action P B D → P → Bool
  | .iderw p _ _ => if (t.waiting p).isSome then Function.update w.asleep p true else w.asleep
  | .wake p => if (t.waiting p).isSome then Function.update w.asleep p true else w.asleep
  | .intr _ _ => fun p => w.asleep p && decide (w.ide.waiting p ≠ w.ide.idequeue.head?)
  | _ => w.asleep

def step (w : Waits P B D) : Event P B D → Option (Waits P B D)
  | .act a =>
    if w.runnable a then (Ide.step w.ide a).map fun t => ⟨t, w.sleepers t a⟩ else none
  | .kill p => some { w with asleep := Function.update w.asleep p false }

/-- Nobody sleeps on a buffer that is not queued, and the head of the queue has its
command at the disk until the interrupt for it is taken. -/
structure NoneAbandoned (w : Waits P B D) : Prop where
  queued : ∀ p, w.asleep p = true → ∃ b, w.ide.waiting p = some b ∧ b ∈ w.ide.idequeue
  issued : w.ide.idequeue ≠ [] →
    w.ide.disk.outstanding = w.ide.idequeue.head?.map w.ide.command

/-- The polls of the step succeed: idewait(0) wherever idestart makes it, idewait(1)
after a read. -/
def Responsive (w : Waits P B D) : Event P B D → Prop
  | .act (.iderw _ b ready) =>
    (w.ide.buf b).done = false → (w.ide.insert b w.ide.idequeue).head? = some b → ready = true
  | .act (.intr readOk ready) => ∀ b rest, w.ide.idequeue = b :: rest →
    ((w.ide.buf b).dirty = false → readOk = true) ∧ (rest ≠ [] → ready = true)
  | _ => True

end Waits

/-- Every waiting process has its buffer in the queue or done. -/
structure Kept (s : State P B D) : Prop extends Guarded s where
  served : ∀ p b, s.waiting p = some b → b ∈ s.idequeue ∨ (s.buf b).done = true
  issued : s.idequeue ≠ [] → s.disk.outstanding = s.idequeue.head?.map s.command

section Driver

variable {s t : State P B D}

theorem Disk.complete_outstanding (d : Disk D) : d.complete.outstanding = d.outstanding := by
  cases hc : d.controller with
  | idle => simp [Disk.complete, hc]
  | finished c => simp [Disk.complete, hc]
  | busy c => cases hw : c.write <;> simp [Disk.complete, Disk.outstanding, hc, hw]

omit [DecidableEq P] in
theorem finish_done (s : State P B D) (b : B) (readOk : Bool)
    (h : (s.buf b).dirty = false → readOk = true) :
    ((s.finish b readOk).buf b).done = true := by
  by_cases hdirty : (s.buf b).dirty = true
  · simp [State.finish, hdirty, State.setBuf, Buf.done]
  · have hclean : (s.buf b).dirty = false := by simpa using hdirty
    simp [State.finish, hclean, h hclean, State.setBuf, Buf.done]

/-- An interrupt for the head of the queue finishes its buffer and starts the next one. -/
theorem intr_spec {b : B} {rest : List B} {readOk ready : Bool} (hq : s.idequeue = b :: rest)
    (hread : (s.buf b).dirty = false → readOk = true) (hready : rest ≠ [] → ready = true)
    (ht : step s (.intr readOk ready) = some t) :
    t.idequeue = rest ∧ t.waiting = s.waiting ∧ t.holder = s.holder ∧
      (∀ c, c ≠ b → t.buf c = s.buf c) ∧ (t.buf b).done = true ∧
      (rest ≠ [] → t.disk.outstanding = rest.head?.map t.command) := by
  obtain ⟨_, ht⟩ := Option.ite_none_right_eq_some.mp ht
  simp only [State.ideintr, hq] at ht
  obtain ⟨hqueue, hwait, hhold, _, hbuf, _⟩ :=
    Inv.finish_frame ({ s with idequeue := rest } : State P B D) b readOk
  have hdone := finish_done ({ s with idequeue := rest } : State P B D) b readOk hread
  cases rest with
  | nil =>
    obtain rfl := Option.some.inj ht
    exact ⟨hqueue, hwait, hhold, hbuf, hdone, fun h => absurd rfl h⟩
  | cons next tail =>
    obtain ⟨_, rfl⟩ := idestart_cases ht
    refine ⟨hqueue, hwait, hhold, hbuf, hdone, fun _ => ?_⟩
    simp only [hready (by simp), if_true]
    rfl

end Driver

namespace Kept

variable {s t : State P B D}

theorem lock (h : Kept s) {p : P} {b : B} (ht : step s (.lock p b) = some t) : Kept t := by
  have hg := h.toGuarded.lock ht
  obtain ⟨_, ht⟩ := Option.ite_none_right_eq_some.mp ht
  obtain rfl := Option.some.inj ht
  exact ⟨hg, h.served, h.issued⟩

theorem unlock (h : Kept s) {p : P} {b : B} (ht : step s (.unlock p b) = some t) : Kept t := by
  have hg := h.toGuarded.unlock ht
  obtain ⟨_, ht⟩ := Option.ite_none_right_eq_some.mp ht
  obtain rfl := Option.some.inj ht
  exact ⟨hg, h.served, h.issued⟩

theorem modify (h : Kept s) {p : P} {b : B} {v : Buf D}
    (ht : step s (.modify p b v) = some t) : Kept t := by
  have hg := h.toGuarded.modify ht
  obtain ⟨⟨hw, hl⟩, ht⟩ := Option.ite_none_right_eq_some.mp ht
  obtain rfl := Option.some.inj ht
  refine ⟨hg, ?_, ?_⟩
  · intro q c hq
    have hcb : c ≠ b := h.not_waited hw hl hq
    have hbuf : (s.setBuf b v).buf c = s.buf c := by
      simp [State.setBuf, Function.update_of_ne hcb]
    rw [hbuf]
    exact h.served q c hq
  · intro hne
    show s.disk.outstanding = s.idequeue.head?.map (s.setBuf b v).command
    rw [h.issued hne]
    cases hs : s.idequeue with
    | nil => rfl
    | cons c rest =>
      have hc := (Guarded.setBuf_queued (h.not_queued hw hl) v c (by simp [hs])).2
      simp [hc]

theorem complete (h : Kept s) (ht : step s .complete = some t) : Kept t := by
  simp only [step] at ht
  split at ht
  · obtain rfl := Option.some.inj ht
    refine ⟨⟨h.nodup, h.queued, h.locked⟩, h.served, fun hne => ?_⟩
    show s.disk.complete.outstanding = _
    rw [Disk.complete_outstanding]
    exact h.issued hne
  · cases ht

theorem iderw (h : Kept s) {p : P} {b : B} {ready : Bool}
    (hready : (s.buf b).done = false → (s.insert b s.idequeue).head? = some b → ready = true)
    (ht : step s (.iderw p b ready) = some t) : Kept t := by
  obtain ⟨hw, hl, ⟨_, rfl⟩ | ⟨hpend, hcases⟩⟩ := iderw_cases ht
  · exact h
  have hg := h.toGuarded.enqueue hw hl hpend
  have hserved : ∀ q c, Function.update s.waiting p (some b) q = some c →
      c ∈ s.insert b s.idequeue ∨ (s.buf c).done = true := by
    intro q c hq
    rw [mem_insert]
    by_cases hqp : q = p
    · rw [hqp, Function.update_self, Option.some.injEq] at hq
      exact Or.inl (Or.inl hq.symm)
    · rw [Function.update_of_ne hqp] at hq
      rcases h.served q c hq with hc | hc
      · exact Or.inl (Or.inr hc)
      · exact Or.inr hc
  rcases hcases with ⟨hback, rfl⟩ | ⟨hfront, hstart⟩
  · -- the request goes behind the head, whose command stays issued
    refine ⟨hg, hserved, fun _ => ?_⟩
    show s.disk.outstanding = (s.insert b s.idequeue).head?.map s.command
    cases hq : s.idequeue with
    | nil => exact absurd (by simp [hq, State.insert]) hback
    | cons head rest =>
      rw [hq, head_insert] at hback
      have hnot : ¬ (s.buf b).blockno < (s.buf head).blockno := by
        intro hlt
        exact hback (if_pos hlt)
      rw [head_insert, if_neg hnot, h.issued (by simp [hq]), hq]
      rfl
  · obtain ⟨_, rfl⟩ := idestart_cases hstart
    refine ⟨⟨hg.nodup, hg.queued, hg.locked⟩, hserved, fun _ => ?_⟩
    simp only [hready hpend hfront, if_true, hfront]
    rfl

theorem wake (h : Kept s) {p : P} (ht : step s (.wake p) = some t) : Kept t := by
  have hg := h.toGuarded.wake ht
  simp only [step] at ht
  cases hp : s.waiting p with
  | none => simp [hp] at ht
  | some b =>
    simp only [hp] at ht
    split at ht
    · obtain rfl := Option.some.inj ht
      refine ⟨hg, ?_, h.issued⟩
      intro q c hq
      have hqp : q ≠ p := by
        rintro rfl
        simp at hq
      simp only [Function.update_of_ne hqp] at hq
      exact h.served q c hq
    · obtain rfl := Option.some.inj ht
      exact h

theorem intr (h : Kept s) {readOk ready : Bool}
    (hC : ∀ b rest, s.idequeue = b :: rest →
      ((s.buf b).dirty = false → readOk = true) ∧ (rest ≠ [] → ready = true))
    (ht : step s (.intr readOk ready) = some t) : Kept t := by
  cases hq : s.idequeue with
  | nil =>
    obtain ⟨_, ht⟩ := Option.ite_none_right_eq_some.mp ht
    have hidle : t = { s with disk := s.disk.acknowledge } := by
      unfold State.ideintr at ht
      split at ht
      · exact (Option.some.inj ht).symm
      · rename_i hcons
        rw [hq] at hcons
        cases hcons
    rw [hidle]
    exact ⟨⟨h.nodup, h.queued, h.locked⟩, h.served, fun hne => absurd hq hne⟩
  | cons b rest =>
    obtain ⟨hread, hready⟩ := hC b rest hq
    obtain ⟨hqueue, hwait, hhold, hbuf, hdone, hissued⟩ := intr_spec hq hread hready ht
    have hnd := List.nodup_cons.mp (hq ▸ h.nodup)
    refine ⟨⟨?_, ?_, ?_⟩, ?_, ?_⟩
    · rw [hqueue]
      exact hnd.2
    · intro c hc
      rw [hqueue] at hc
      have hcb : c ≠ b := fun e => hnd.1 (e ▸ hc)
      rw [hbuf c hcb, hwait]
      exact h.queued c (by simp [hq, hc])
    · rw [hwait, hhold]
      exact h.locked
    · intro q c hw
      rw [hwait] at hw
      by_cases hcb : c = b
      · rw [hcb]
        exact Or.inr hdone
      · rw [hbuf c hcb, hqueue]
        rcases h.served q c hw with hc | hc
        · rw [hq] at hc
          exact Or.inl ((List.mem_cons.mp hc).resolve_left hcb)
        · exact Or.inr hc
    · rw [hqueue]
      exact hissued

end Kept

namespace Waits

/-- The driver keeps its requests, and whoever sleeps waits for a queued buffer. -/
structure Inv (w : Waits P B D) : Prop where
  kept : Kept w.ide
  sleeping : ∀ p, w.asleep p = true → ∃ b, w.ide.waiting p = some b ∧ b ∈ w.ide.idequeue

variable {w u : Waits P B D}

omit [DecidableEq P] [DecidableEq B] in
theorem Inv.noneAbandoned (h : Inv w) : NoneAbandoned w := ⟨h.sleeping, h.kept.issued⟩

/-- The driver's part of a step in which every poll succeeds. -/
theorem Inv.keep (h : Inv w) {a : Action P B D} (hC : Responsive w (.act a))
    {t : State P B D} (ht : Ide.step w.ide a = some t) : Kept t := by
  cases a with
  | lock p b => exact h.kept.lock ht
  | modify p b v => exact h.kept.modify ht
  | unlock p b => exact h.kept.unlock ht
  | iderw p b ready => exact h.kept.iderw hC ht
  | wake p => exact h.kept.wake ht
  | complete => exact h.kept.complete ht
  | intr readOk ready => exact h.kept.intr hC ht

/-- A step that leaves a process waiting leaves its buffer in the queue, unless the
process was woken by it. -/
theorem Inv.still (h : Inv w) {a : Action P B D} (hC : Responsive w (.act a))
    {t : State P B D} (ht : Ide.step w.ide a = some t) (hrun : w.runnable a = true) {p : P}
    (hp : w.sleepers t a p = true) : ∃ b, t.waiting p = some b ∧ b ∈ t.idequeue := by
  have hkept := h.keep hC ht
  cases a with
  | lock q b =>
    obtain ⟨_, ht⟩ := Option.ite_none_right_eq_some.mp ht
    obtain rfl := Option.some.inj ht
    exact h.sleeping p hp
  | modify q b v =>
    obtain ⟨_, ht⟩ := Option.ite_none_right_eq_some.mp ht
    obtain rfl := Option.some.inj ht
    exact h.sleeping p hp
  | unlock q b =>
    obtain ⟨_, ht⟩ := Option.ite_none_right_eq_some.mp ht
    obtain rfl := Option.some.inj ht
    exact h.sleeping p hp
  | complete =>
    simp only [Ide.step] at ht
    split at ht
    · obtain rfl := Option.some.inj ht
      exact h.sleeping p hp
    · cases ht
  | iderw q b ready =>
    obtain ⟨hw, _, ⟨_, rfl⟩ | ⟨_, hcases⟩⟩ := iderw_cases ht
    · have hnone : (w.ide.waiting q).isSome = false := by rw [hw]; rfl
      simp only [sleepers, hnone, Bool.false_eq_true, if_false] at hp
      exact h.sleeping p hp
    · have hframe : t.waiting = Function.update w.ide.waiting q (some b) ∧
          t.idequeue = w.ide.insert b w.ide.idequeue := by
        rcases hcases with ⟨_, rfl⟩ | ⟨_, hstart⟩
        · exact ⟨rfl, rfl⟩
        · obtain ⟨_, rfl⟩ := idestart_cases hstart
          exact ⟨rfl, rfl⟩
      obtain ⟨hwait, hqueue⟩ := hframe
      rw [hwait, hqueue]
      by_cases hpq : p = q
      · exact ⟨b, by rw [hpq, Function.update_self], (mem_insert ..).mpr (Or.inl rfl)⟩
      · have hold : w.asleep p = true := by
          simpa [sleepers, hwait, Function.update_of_ne hpq] using hp
        obtain ⟨c, hc, hmem⟩ := h.sleeping p hold
        exact ⟨c, by rw [Function.update_of_ne hpq, hc], (mem_insert ..).mpr (Or.inr hmem)⟩
  | wake q =>
    have hawake : w.asleep q = false := by simpa [runnable] using hrun
    simp only [Ide.step] at ht
    cases hq : w.ide.waiting q with
    | none => simp [hq] at ht
    | some b =>
      simp only [hq] at ht
      split at ht
      · obtain rfl := Option.some.inj ht
        have hold : w.asleep p = true := by simpa [sleepers] using hp
        have hpq : p ≠ q := by
          rintro rfl
          rw [hold] at hawake
          cases hawake
        obtain ⟨c, hc, hmem⟩ := h.sleeping p hold
        exact ⟨c, by simpa only [Function.update_of_ne hpq] using hc, hmem⟩
      · rename_i hpend
        obtain rfl := Option.some.inj ht
        by_cases hpq : p = q
        · rw [hpq]
          exact ⟨b, hq, (h.kept.served q b hq).resolve_right hpend⟩
        · have hold : w.asleep p = true := by
            simpa [sleepers, hq, Function.update_of_ne hpq] using hp
          exact h.sleeping p hold
  | intr readOk ready =>
    simp only [sleepers, Bool.and_eq_true, decide_eq_true_eq] at hp
    obtain ⟨c, hc, hmem⟩ := h.sleeping p hp.1
    cases hq : w.ide.idequeue with
    | nil => simp [hq] at hmem
    | cons b rest =>
      obtain ⟨hread, hready⟩ := hC b rest hq
      obtain ⟨hqueue, hwait, _⟩ := intr_spec hq hread hready ht
      have hcb : c ≠ b := by
        rintro rfl
        exact hp.2 (by rw [hc, hq]; rfl)
      rw [hq] at hmem
      rw [hwait, hqueue]
      exact ⟨c, hc, (List.mem_cons.mp hmem).resolve_left hcb⟩

theorem Inv.step (h : Inv w) {e : Event P B D} (hC : Responsive w e)
    (hs : w.step e = some u) : Inv u := by
  cases e with
  | act a =>
    obtain ⟨hrun, hs⟩ := Option.ite_none_right_eq_some.mp hs
    obtain ⟨t, ht, rfl⟩ := Option.map_eq_some_iff.mp hs
    exact ⟨h.keep hC ht, fun p hp => h.still hC ht hrun hp⟩
  | kill q =>
    obtain rfl := Option.some.inj hs
    refine ⟨h.kept, fun p hp => ?_⟩
    have hpq : p ≠ q := by
      rintro rfl
      simp at hp
    simp only [Function.update_of_ne hpq] at hp
    exact h.sleeping p hp

/-- After ideinit nobody sleeps. -/
def init (buf : B → Buf D) (medium : ℕ → ℕ → D) (port : D) (havedisk1 : Bool) : Waits P B D :=
  ⟨Ide.init buf medium port havedisk1, fun _ => false⟩

omit [DecidableEq P] [DecidableEq B] in
theorem init_inv (buf : B → Buf D) (medium : ℕ → ℕ → D) (port : D) (havedisk1 : Bool) :
    Inv (init buf medium port havedisk1 : Waits P B D) where
  kept :=
    { nodup := List.nodup_nil
      queued := nofun
      locked := nofun
      served := nofun
      issued := fun hne => absurd rfl hne }
  sleeping := nofun

/-- Along every run from an idle disk in which the polls of the disk succeed no request
is abandoned. -/
theorem always_noneAbandoned (buf : B → Buf D) (medium : ℕ → ℕ → D) (port : D)
    (havedisk1 : Bool) (es : List (Event P B D))
    (h : Runs.Meets step Responsive (init buf medium port havedisk1) es) :
    Runs.Always step NoneAbandoned (init buf medium port havedisk1) es :=
  (Runs.always_of_meets (fun _ _ _ hw hC hs => hw.step hC hs)
    (init_inv buf medium port havedisk1) h).mono fun _ => Inv.noneAbandoned

/-- A process reads block 10; idewait(1) finds an error. -/
def readError (readOk : Bool) : List (Event Bool Bool ℕ) :=
  [.act (.lock false false), .act (.modify false false ⟨false, false, 1, 10, 0⟩),
    .act (.iderw false false true), .act .complete, .act (.intr readOk true),
    .act (.wake false)]

theorem always_noneAbandoned_read :
    Runs.Meets step Responsive
        (init (fun _ => ⟨false, false, 0, 0, 0⟩) (fun _ n => n) 0 true : Waits Bool Bool ℕ)
        (readError true) ∧
      Runs.Always step NoneAbandoned
        (init (fun _ => ⟨false, false, 0, 0, 0⟩) (fun _ n => n) 0 true : Waits Bool Bool ℕ)
        (readError true) := by
  have hmeets : Runs.Meets step Responsive
      (init (fun _ => ⟨false, false, 0, 0, 0⟩) (fun _ n => n) 0 true : Waits Bool Bool ℕ)
      (readError true) := by
    rintro _ ⟨⟩
    refine ⟨trivial, ?_⟩
    rintro _ ⟨⟩
    refine ⟨trivial, ?_⟩
    rintro _ ⟨⟩
    refine ⟨fun _ _ => rfl, ?_⟩
    rintro _ ⟨⟩
    refine ⟨trivial, ?_⟩
    rintro _ ⟨⟩
    refine ⟨fun _ _ _ => ⟨fun _ => rfl, fun _ => rfl⟩, ?_⟩
    rintro _ ⟨⟩
    exact ⟨trivial, trivial⟩
  exact ⟨hmeets, always_noneAbandoned _ _ _ _ _ hmeets⟩

/-- After the error the process sleeps on a buffer that is in no queue. -/
theorem not_always_noneAbandoned :
    ¬ ∀ es, Runs.Always step NoneAbandoned
      (init (fun _ => ⟨false, false, 0, 0, 0⟩) (fun _ n => n) 0 true : Waits Bool Bool ℕ) es := by
  intro h
  have hrun := (Runs.always_iff_run _ (readError false)).mp (h (readError false))
    (readError false) _ (List.prefix_refl _) rfl
  obtain ⟨b, _, hb⟩ := hrun.queued false rfl
  cases hb

end Waits

end NorthOS.Ide
