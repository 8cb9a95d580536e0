import NorthOS.Ide

/-!
The request queue against the controller. iderw starts the disk whenever its
buffer lands at the head of the queue, also when the insertion put it in front
of a buffer whose command is in flight. Runs in which no request overtakes the
head keep the head and the outstanding command together, and only those do.
-/
namespace NorthOS.Ide

variable {P B D : Type*} [DecidableEq P] [DecidableEq B]

/-- What a correct driver keeps in every state: commands never overlap, the head of
the queue is the buffer whose command is outstanding, an interrupt fills or marks
that buffer and no other, and a buffer handed back after a read holds what its own
block held. -/
structure Sound (s : State P B D) : Prop where
  noOverlap : s.overlap = false
  headOutstanding : s.disk.outstanding = s.idequeue.head?.map s.command
  fills : ∀ readOk ready t, step s (.intr readOk ready) = some t →
    ∃ b, s.idequeue.head? = some b ∧ s.disk.controller = .finished (s.command b) ∧
      ∀ c, c ≠ b → t.buf c = s.buf c
  returned : ∀ p b, s.waiting p = some b → (s.buf b).done = true →
    ∀ d, s.own b = some d → (s.buf b).data = d

/-- A request that has to wait goes behind the head of the queue, and a poll for an
idle disk succeeds. -/
def InOrder (s : State P B D) : Action P B D → Prop
  | .iderw _ b ready => (s.buf b).done = false →
      (s.idequeue = [] ∧ ready = true) ∨
        ∃ h, s.idequeue.head? = some h ∧ (s.buf h).blockno ≤ (s.buf b).blockno
  | .intr _ ready => s.idequeue.tail ≠ [] → ready = true
  | _ => True

/-- The invariant behind `Sound`: every queued buffer has a process waiting for it
under its lock, so nobody else touches it. -/
structure Inv (s : State P B D) : Prop where
  noOverlap : s.overlap = false
  headOutstanding : s.disk.outstanding = s.idequeue.head?.map s.command
  irq : s.disk.irq = if s.disk.controller matches .finished _ then 1 else 0
  port : ∀ c, s.disk.controller = .finished c → c.write = none →
    s.disk.port = s.disk.medium c.unit c.block
  nodup : s.idequeue.Nodup
  queued : ∀ b ∈ s.idequeue, (s.buf b).done = false ∧ ∃ p, s.waiting p = some b
  locked : ∀ p b, s.waiting p = some b → s.holder b = some p
  inRange : ∀ b, s.idequeue.head? = some b → (s.buf b).blockno < FSSIZE
  returned : ∀ p b, s.waiting p = some b → (s.buf b).done = true →
    ∀ d, s.own b = some d → (s.buf b).data = d

omit [DecidableEq P] in
theorem mem_insert (s : State P B D) (b : B) (q : List B) (c : B) :
    c ∈ s.insert b q ↔ c = b ∨ c ∈ q := by
  induction q with
  | nil => simp [State.insert]
  | cons h rest ih =>
    simp only [State.insert]
    split
    · simp
    · simp only [List.mem_cons, ih]
      tauto

omit [DecidableEq P] in
theorem nodup_insert (s : State P B D) (b : B) (q : List B) (hb : b ∉ q)
    (hq : q.Nodup) : (s.insert b q).Nodup := by
  induction q with
  | nil => simp [State.insert]
  | cons h rest ih =>
    simp only [State.insert]
    simp only [List.mem_cons, not_or] at hb
    obtain ⟨hh, hrest⟩ := List.nodup_cons.mp hq
    split
    · simp only [List.nodup_cons, List.mem_cons, not_or]
      exact ⟨⟨hb.1, hb.2⟩, hh, hrest⟩
    · simp only [List.nodup_cons, mem_insert, not_or]
      exact ⟨⟨fun e => hb.1 e.symm, hh⟩, ih hb.2 hrest⟩

omit [DecidableEq P] [DecidableEq B] in
/-- The insertion changes the head exactly when the new block number is smaller. -/
theorem head_insert (s : State P B D) (b h : B) (rest : List B) :
    (s.insert b (h :: rest)).head? =
      if (s.buf b).blockno < (s.buf h).blockno then some b else some h := by
  simp only [State.insert]
  split <;> rfl

omit [DecidableEq P] [DecidableEq B] in
/-- Starting the disk records an overlap and issues the command if the disk is ready. -/
theorem idestart_cases {s t : State P B D} {b : B} {ready : Bool}
    (ht : s.idestart b ready = some t) :
    (s.buf b).blockno < FSSIZE ∧
      t = { s with
        overlap := s.overlap || s.disk.outstanding.isSome
        disk := if ready then s.disk.issue (s.command b) else s.disk } := by
  simp only [State.idestart] at ht
  split at ht
  · cases ht
  · refine ⟨by omega, ?_⟩
    cases ready with
    | true => exact (Option.some.inj ht).symm
    | false => exact (Option.some.inj ht).symm

/-- iderw returns at once or puts the buffer into the queue, and starts the disk if the
buffer is at its head. -/
theorem iderw_cases {s t : State P B D} {p : P} {b : B} {ready : Bool}
    (ht : step s (.iderw p b ready) = some t) :
    s.waiting p = none ∧ s.holder b = some p ∧
      ((s.buf b).done = true ∧ t = s ∨
        (s.buf b).done = false ∧
          ((s.insert b s.idequeue).head? ≠ some b ∧
              t = { s with
                idequeue := s.insert b s.idequeue
                waiting := Function.update s.waiting p (some b)
                own := Function.update s.own b none } ∨
            (s.insert b s.idequeue).head? = some b ∧
              State.idestart { s with
                idequeue := s.insert b s.idequeue
                waiting := Function.update s.waiting p (some b)
                own := Function.update s.own b none } b ready = some t)) := by
  simp only [step, State.iderw] at ht
  split at ht
  · rename_i hw
    split at ht
    · cases ht
    rename_i hl
    refine ⟨hw, not_not.mp hl, ?_⟩
    split at ht
    · rename_i hdone
      exact Or.inl ⟨hdone, (Option.some.inj ht).symm⟩
    rename_i hpend
    refine Or.inr ⟨by simpa using hpend, ?_⟩
    split at ht
    · cases ht
    split at ht
    · rename_i hfront
      exact Or.inr ⟨hfront, ht⟩
    · rename_i hfront
      exact Or.inl ⟨hfront, (Option.some.inj ht).symm⟩
  · cases ht

/-- Every queued buffer has a process that waits for it under its lock, so nobody else
touches it. -/
structure Guarded (s : State P B D) : Prop where
  nodup : s.idequeue.Nodup
  queued : ∀ b ∈ s.idequeue, (s.buf b).done = false ∧ ∃ p, s.waiting p = some b
  locked : ∀ p b, s.waiting p = some b → s.holder b = some p

namespace Guarded

variable {s t : State P B D}

omit [DecidableEq P] [DecidableEq B] in
/-- The holder of a lock that is not inside iderw holds no queued buffer. -/
theorem not_queued (h : Guarded s) {p : P} {b : B} (hw : s.waiting p = none)
    (hl : s.holder b = some p) : b ∉ s.idequeue := by
  intro hb
  obtain ⟨_, q, hq⟩ := h.queued b hb
  have hlq := h.locked q b hq
  rw [hl, Option.some.injEq] at hlq
  subst hlq
  rw [hw] at hq
  cases hq

omit [DecidableEq P] [DecidableEq B] in
theorem not_waited (h : Guarded s) {p q : P} {b c : B} (hw : s.waiting p = none)
    (hl : s.holder b = some p) (hq : s.waiting q = some c) : c ≠ b := by
  rintro rfl
  have hlq := h.locked q c hq
  rw [hl, Option.some.injEq] at hlq
  subst hlq
  rw [hw] at hq
  cases hq

theorem lock (h : Guarded s) {p : P} {b : B} (ht : step s (.lock p b) = some t) :
    Guarded t := by
  simp only [step] at ht
  split at ht
  · rename_i hg
    cases ht
    refine { h with locked := ?_ }
    intro q c hq
    have hold := h.locked q c hq
    have hcb : c ≠ b := by
      rintro rfl
      rw [hg.2] at hold
      cases hold
    simpa [Function.update_of_ne hcb] using hold
  · cases ht

theorem unlock (h : Guarded s) {p : P} {b : B} (ht : step s (.unlock p b) = some t) :
    Guarded t := by
  simp only [step] at ht
  split at ht
  · rename_i hg
    cases ht
    refine { h with locked := ?_ }
    intro q c hq
    have hcb : c ≠ b := h.not_waited hg.1 hg.2 hq
    simpa [Function.update_of_ne hcb] using h.locked q c hq
  · cases ht

omit [DecidableEq P] in
/-- A change of a buffer that is not queued leaves the queued ones alone. -/
theorem setBuf_queued {b : B} (hnq : b ∉ s.idequeue) (v : Buf D) :
    ∀ c ∈ s.idequeue, (s.setBuf b v).buf c = s.buf c ∧
      (s.setBuf b v).command c = s.command c := by
  intro c hc
  have hcb : c ≠ b := fun e => hnq (e ▸ hc)
  have hbuf : (s.setBuf b v).buf c = s.buf c := by
    simp [State.setBuf, Function.update_of_ne hcb]
  exact ⟨hbuf, by simp only [State.command, hbuf]⟩

theorem modify (h : Guarded s) {p : P} {b : B} {v : Buf D}
    (ht : step s (.modify p b v) = some t) : Guarded t := by
  simp only [step] at ht
  split at ht
  · rename_i hg
    cases ht
    refine { h with queued := ?_ }
    intro c hc
    rw [(setBuf_queued (h.not_queued hg.1 hg.2) v c hc).1]
    exact h.queued c hc
  · cases ht

theorem wake (h : Guarded s) {p : P} (ht : step s (.wake p) = some t) : Guarded t := by
  simp only [step] at ht
  cases hp : s.waiting p with
  | none => simp [hp] at ht
  | some b =>
    simp only [hp] at ht
    split at ht
    · rename_i hdone
      cases ht
      refine { h with queued := ?_, locked := ?_ }
      · intro c hc
        obtain ⟨hpend, q, hq⟩ := h.queued c hc
        refine ⟨hpend, q, ?_⟩
        have hqp : q ≠ p := by
          rintro rfl
          rw [hp, Option.some.injEq] at hq
          subst hq
          rw [hdone] at hpend
          cases hpend
        simpa [Function.update_of_ne hqp] using hq
      · intro q c hq
        have hqp : q ≠ p := by
          rintro rfl
          simp at hq
        simp only [Function.update_of_ne hqp] at hq
        exact h.locked q c hq
    · cases ht
      exact h

/-- A buffer joins the queue while its caller holds the lock. -/
theorem enqueue (h : Guarded s) {p : P} {b : B} (hw : s.waiting p = none)
    (hl : s.holder b = some p) (hpend : (s.buf b).done = false) :
    Guarded { s with
      idequeue := s.insert b s.idequeue
      waiting := Function.update s.waiting p (some b)
      own := Function.update s.own b none } where
  nodup := nodup_insert s b s.idequeue (h.not_queued hw hl) h.nodup
  queued := by
    intro c hc
    rcases (mem_insert s b s.idequeue c).mp hc with rfl | hc
    · exact ⟨hpend, p, by simp⟩
    · obtain ⟨hd, r, hr⟩ := h.queued c hc
      refine ⟨hd, r, ?_⟩
      have hrp : r ≠ p := by
        rintro rfl
        rw [hw] at hr
        cases hr
      simpa [Function.update_of_ne hrp] using hr
  locked := by
    intro r c hr
    by_cases hrp : r = p
    · subst hrp
      simp only [Function.update_self, Option.some.injEq] at hr
      rw [← hr]
      exact hl
    · simp only [Function.update_of_ne hrp] at hr
      exact h.locked r c hr

end Guarded

namespace Inv

variable {s t : State P B D}

omit [DecidableEq P] [DecidableEq B] in
theorem finished_of_irq (h : Inv s) (hirq : 0 < s.disk.irq) :
    ∃ c, s.disk.controller = .finished c := by
  have hi := h.irq
  cases hc : s.disk.controller with
  | idle => simp [hc] at hi; omega
  | busy c => simp [hc] at hi; omega
  | finished c => exact ⟨c, rfl⟩

omit [DecidableEq P] [DecidableEq B] in
/-- A pending interrupt belongs to the head of the queue. -/
theorem head_of_irq (h : Inv s) (hirq : 0 < s.disk.irq) :
    ∃ b rest, s.idequeue = b :: rest ∧ s.disk.controller = .finished (s.command b) := by
  obtain ⟨c, hc⟩ := h.finished_of_irq hirq
  have hout := h.headOutstanding
  simp only [Disk.outstanding, hc] at hout
  cases hq : s.idequeue with
  | nil => simp [hq] at hout
  | cons b rest =>
    simp only [hq, List.head?_cons, Option.map_some, Option.some.injEq] at hout
    exact ⟨b, rest, rfl, by rw [← hout]; exact hc⟩

omit [DecidableEq P] [DecidableEq B] in
theorem guarded (h : Inv s) : Guarded s := ⟨h.nodup, h.queued, h.locked⟩

theorem lock (h : Inv s) {p : P} {b : B} (ht : step s (.lock p b) = some t) : Inv t := by
  have hg := h.guarded.lock ht
  simp only [step] at ht
  split at ht
  · cases ht
    exact { h with locked := hg.locked }
  · cases ht

theorem unlock (h : Inv s) {p : P} {b : B} (ht : step s (.unlock p b) = some t) : Inv t := by
  have hg := h.guarded.unlock ht
  simp only [step] at ht
  split at ht
  · cases ht
    exact { h with locked := hg.locked }
  · cases ht

theorem modify (h : Inv s) {p : P} {b : B} {v : Buf D}
    (ht : step s (.modify p b v) = some t) : Inv t := by
  have hq := (h.guarded.modify ht).queued
  simp only [step] at ht
  split at ht
  · rename_i hg
    cases ht
    have hframe := Guarded.setBuf_queued (h.guarded.not_queued hg.1 hg.2) v
    refine { h with headOutstanding := ?_, queued := hq, inRange := ?_, returned := ?_ }
    · show s.disk.outstanding = s.idequeue.head?.map (s.setBuf b v).command
      rw [h.headOutstanding]
      cases hs : s.idequeue with
      | nil => rfl
      | cons c rest => simp [(hframe c (by simp [hs])).2]
    · intro c hc
      rw [(hframe c (List.mem_of_mem_head? hc)).1]
      exact h.inRange c hc
    · intro q c hc
      have hcb : c ≠ b := h.guarded.not_waited hg.1 hg.2 hc
      simpa [State.setBuf, Function.update_of_ne hcb] using h.returned q c hc
  · cases ht

theorem wake (h : Inv s) {p : P} (ht : step s (.wake p) = some t) : Inv t := by
  have hg := h.guarded.wake ht
  simp only [step] at ht
  cases hp : s.waiting p with
  | none => simp [hp] at ht
  | some b =>
    simp only [hp] at ht
    split at ht
    · cases ht
      refine { h with queued := hg.queued, locked := hg.locked, returned := ?_ }
      intro q c hq
      have hqp : q ≠ p := by
        rintro rfl
        simp at hq
      simp only [Function.update_of_ne hqp] at hq
      exact h.returned q c hq
    · cases ht
      exact h

theorem complete (h : Inv s) (ht : step s .complete = some t) : Inv t := by
  simp only [step] at ht
  cases hc : s.disk.controller with
  | idle => simp [hc] at ht
  | finished c => simp [hc] at ht
  | busy c =>
    simp only [hc, Option.some.injEq] at ht
    subst ht
    have hirq : s.disk.irq = 0 := by simpa [hc] using h.irq
    have hout : s.disk.outstanding = some c := by simp [Disk.outstanding, hc]
    cases hw : c.write with
    | none =>
      refine { h with headOutstanding := ?_, irq := ?_, port := ?_ }
      · show s.disk.complete.outstanding = s.idequeue.head?.map s.command
        rw [← h.headOutstanding, hout]
        simp [Disk.complete, hc, hw, Disk.outstanding]
      · simp [Disk.complete, hc, hw, hirq]
      · intro d hd _
        simp only [Disk.complete, hc, hw, Controller.finished.injEq] at hd ⊢
        rw [hd]
    | some data =>
      refine { h with headOutstanding := ?_, irq := ?_, port := ?_ }
      · show s.disk.complete.outstanding = s.idequeue.head?.map s.command
        rw [← h.headOutstanding, hout]
        simp [Disk.complete, hc, hw, Disk.outstanding]
      · simp [Disk.complete, hc, hw, hirq]
      · intro d hd hdw
        simp only [Disk.complete, hc, hw, Controller.finished.injEq] at hd
        rw [← hd, hw] at hdw
        cases hdw

omit [DecidableEq P] [DecidableEq B] in
theorem outstanding_none (h : Inv s) (hq : s.idequeue = []) :
    s.disk.controller = .idle := by
  have hout := h.headOutstanding
  cases hc : s.disk.controller <;> simp [Disk.outstanding, hc, hq] at hout ⊢

omit [DecidableEq P] [DecidableEq B] in
/-- Starting the disk on an idle controller makes the new head the outstanding one. -/
theorem idestart_idle {b : B} {ready : Bool} (hidle : s.disk.controller = .idle)
    (hover : s.overlap = false) (hready : ready = true)
    (ht : s.idestart b ready = some t) :
    (s.buf b).blockno < FSSIZE ∧
      t = { s with disk := { s.disk with controller := .busy (s.command b) } } := by
  obtain ⟨hrange, rfl⟩ := idestart_cases ht
  refine ⟨hrange, ?_⟩
  simp [hready, Disk.outstanding, hidle, hover, Disk.issue, Disk.complete]

theorem iderw (h : Inv s) {p : P} {b : B} {ready : Bool}
    (hC : InOrder s (.iderw p b ready))
    (ht : step s (.iderw p b ready) = some t) : Inv t := by
  obtain ⟨hw, hl, ⟨_, rfl⟩ | ⟨hpend, hcases⟩⟩ := iderw_cases ht
  · exact h
  have hg := h.guarded.enqueue hw hl hpend
  have hnq : b ∉ s.idequeue := h.guarded.not_queued hw hl
  have hreturned : ∀ r c, Function.update s.waiting p (some b) r = some c →
      (s.buf c).done = true → ∀ d, Function.update s.own b none c = some d →
      (s.buf c).data = d := by
    intro r c hr hdone d hd
    have hcb : c ≠ b := by
      rintro rfl
      rw [hpend] at hdone
      cases hdone
    have hrp : r ≠ p := by
      rintro rfl
      simp only [Function.update_self, Option.some.injEq] at hr
      exact hcb hr.symm
    rw [Function.update_of_ne hrp] at hr
    rw [Function.update_of_ne hcb] at hd
    exact h.returned r c hr hdone d hd
  rcases hC hpend with ⟨hempty, hready⟩ | ⟨head, hhead, hle⟩
  · -- the queue was empty: the request is started at once
    have hq : s.insert b s.idequeue = [b] := by simp [hempty, State.insert]
    have hidle : s.disk.controller = .idle := h.outstanding_none hempty
    have hirq : s.disk.irq = 0 := by simpa [hidle] using h.irq
    rw [hq] at hcases hg
    rcases hcases with ⟨hne, _⟩ | ⟨_, hstart⟩
    · exact absurd rfl hne
    · obtain ⟨hrange, rfl⟩ :=
        idestart_idle (by exact hidle) (by exact h.noOverlap) hready hstart
      exact {
        noOverlap := h.noOverlap
        headOutstanding := rfl
        irq := by simpa using hirq
        port := by simp
        nodup := by simp
        queued := hg.queued
        locked := hg.locked
        inRange := by
          intro c hc
          simp only [List.head?_cons, Option.some.injEq] at hc
          rw [← hc]
          exact hrange
        returned := hreturned }
  · -- the request went behind the head, which stays in flight
    obtain ⟨rest, hq⟩ : ∃ rest, s.idequeue = head :: rest := by
      cases hs : s.idequeue with
      | nil => simp [hs] at hhead
      | cons x rest =>
        simp only [hs, List.head?_cons, Option.some.injEq] at hhead
        exact ⟨rest, by rw [hhead]⟩
    have hhead' : (s.insert b s.idequeue).head? = some head := by
      rw [hq, head_insert, if_neg (by omega)]
    have hne : head ≠ b := by
      rintro rfl
      exact hnq (by simp [hq])
    rcases hcases with ⟨_, rfl⟩ | ⟨hfront, _⟩
    · exact {
        noOverlap := h.noOverlap
        headOutstanding := by
          show s.disk.outstanding = (s.insert b s.idequeue).head?.map s.command
          rw [hhead', ← hhead]
          exact h.headOutstanding
        irq := h.irq
        port := h.port
        nodup := hg.nodup
        queued := hg.queued
        locked := hg.locked
        inRange := by
          intro c hc
          have hc' : (s.insert b s.idequeue).head? = some c := hc
          rw [hhead', ← hhead] at hc'
          exact h.inRange c hc'
        returned := hreturned }
    · rw [hhead'] at hfront
      exact absurd (Option.some.inj hfront) hne

omit [DecidableEq P] in
/-- Finishing a request touches its own buffer and the history, nothing else; only a
read waits for the disk. -/
theorem finish_frame (s : State P B D) (b : B) (readOk : Bool) :
    (s.finish b readOk).idequeue = s.idequeue ∧
      (s.finish b readOk).waiting = s.waiting ∧ (s.finish b readOk).holder = s.holder ∧
      (s.finish b readOk).overlap = s.overlap ∧
      (∀ x, x ≠ b → (s.finish b readOk).buf x = s.buf x) ∧
      (∀ x, x ≠ b → (s.finish b readOk).own x = s.own x) := by
  by_cases hdirty : (s.buf b).dirty = true
  · simp +contextual [State.finish, hdirty, State.setBuf, Function.update_of_ne]
  · by_cases hr : readOk = true
    · simp +contextual [State.finish, hdirty, hr, State.setBuf, Function.update_of_ne]
    · simp +contextual [State.finish, hdirty, hr, State.setBuf, Function.update_of_ne]

omit [DecidableEq P] in
theorem finish_disk (s : State P B D) (b : B) (readOk : Bool) {c : Command D}
    (hc : s.disk.controller = .finished c) : (s.finish b readOk).disk = s.disk := by
  have hd : s.disk.complete = s.disk := by simp [Disk.complete, hc]
  by_cases hdirty : (s.buf b).dirty = true
  · simp [State.finish, hdirty, State.setBuf]
  · by_cases hr : readOk = true
    · simp [State.finish, hdirty, hr, hd]
    · simp [State.finish, hdirty, hr, State.setBuf]

omit [DecidableEq P] in
/-- The data ideintr reads for a finished read is what the buffer's own block holds. -/
theorem finish_own {b : B} (readOk : Bool) (hrange : (s.buf b).blockno < FSSIZE)
    (hc : s.disk.controller = .finished (s.command b))
    (hread : (s.command b).write = none →
      s.disk.port = s.disk.medium (s.command b).unit (s.command b).block)
    (hdone : ((s.finish b readOk).buf b).done = true) (d : D)
    (hd : (s.finish b readOk).own b = some d) :
    ((s.finish b readOk).buf b).data = d := by
  have hcomp : s.disk.complete = s.disk := by simp [Disk.complete, hc]
  by_cases hdirty : (s.buf b).dirty = true
  · simp [State.finish, hdirty] at hd
  · by_cases hr : readOk = true
    · simp only [State.finish, hdirty, hr, Bool.false_eq_true, if_false, if_true,
        State.setBuf, Function.update_self, Option.some.injEq, hcomp] at hd ⊢
      have hport := hread (by simp [State.command, hdirty])
      rw [hport, ← hd]
      have hblock : (s.command b).block = (s.buf b).blockno := by
        simp only [Command.block, State.command, sectors, BSIZE, SECTOR_SIZE]
        unfold FSSIZE at hrange
        omega
      rw [hblock]
      rfl
    · simp [State.finish, hdirty, hr, State.setBuf, Buf.done] at hdone

theorem intr (h : Inv s) {readOk ready : Bool} (hC : InOrder s (.intr readOk ready))
    (ht : step s (.intr readOk ready) = some t) : Inv t := by
  simp only [step] at ht
  split at ht
  · rename_i hirq
    obtain ⟨b, rest, hq, hctl⟩ := h.head_of_irq hirq
    have hirq1 : s.disk.irq = 1 := by simpa [hctl] using h.irq
    simp only [State.ideintr, hq] at ht
    have hs₁ : ({ s with idequeue := rest } : State P B D).disk.controller =
        .finished (s.command b) := hctl
    have hdisk := finish_disk _ b readOk hs₁
    obtain ⟨hqueue, hwait, hhold, hover, hbuf, hown⟩ :=
      finish_frame ({ s with idequeue := rest } : State P B D) b readOk
    have hfin := finish_own (s := { s with idequeue := rest }) readOk
      (h.inRange b (by simp [hq])) hs₁ (h.port _ hctl)
    obtain ⟨hbrest, hrest⟩ := List.nodup_cons.mp (hq ▸ h.nodup)
    set u : State P B D := ({ s with idequeue := rest } : State P B D).finish b readOk with hu
    have hfin' : (u.buf b).done = true → ∀ d, u.own b = some d → (u.buf b).data = d := hfin
    have hidle : u.disk.acknowledge.controller = .idle := by
      simp [hdisk, Disk.acknowledge, hctl]
    have hzero : u.disk.acknowledge.irq = 0 := by
      simp [hdisk, Disk.acknowledge, hctl, hirq1]
    have hqueued : ∀ c ∈ rest, (u.buf c).done = false ∧ ∃ p, u.waiting p = some c := by
      intro c hc
      have hcb : c ≠ b := fun e => hbrest (e ▸ hc)
      rw [hbuf c hcb, hwait]
      exact h.queued c (by simp [hq, hc])
    have hlocked : ∀ p c, u.waiting p = some c → u.holder c = some p := by
      rw [hwait, hhold]
      exact h.locked
    have hreturned : ∀ p c, u.waiting p = some c → (u.buf c).done = true →
        ∀ d, u.own c = some d → (u.buf c).data = d := by
      intro p c hp hdone
      by_cases hcb : c = b
      · rw [hcb] at hdone ⊢
        exact hfin' hdone
      · rw [hbuf c hcb] at hdone ⊢
        rw [hown c hcb]
        rw [hwait] at hp
        exact h.returned p c hp hdone
    cases hr : rest with
    | nil =>
      simp only [hr, Option.some.injEq] at ht
      subst ht
      exact {
        noOverlap := hover.trans h.noOverlap
        headOutstanding := by simp [Disk.outstanding, hidle, hqueue, hr]
        irq := by simp [hidle, hzero]
        port := by simp [hidle]
        nodup := by simp [hqueue, hr]
        queued := by simp [hqueue, hr]
        locked := hlocked
        inRange := by simp [hqueue, hr]
        returned := hreturned }
    | cons next tail =>
      simp only [hr] at ht
      have hready : ready = true := hC (by simp [hq, hr])
      obtain ⟨hrange, rfl⟩ := idestart_idle
        (s := { u with disk := u.disk.acknowledge }) hidle (hover.trans h.noOverlap) hready ht
      rw [hr] at hrest hqueued
      have hqueue' : u.idequeue = next :: tail := by rw [hqueue, hr]
      exact {
        noOverlap := hover.trans h.noOverlap
        headOutstanding := by simp [Disk.outstanding, hqueue', State.command]
        irq := by simpa using hzero
        port := by simp
        nodup := by simpa [hqueue'] using hrest
        queued := by simpa [hqueue'] using hqueued
        locked := hlocked
        inRange := by simpa [hqueue'] using hrange
        returned := hreturned }
  · cases ht

/-- Every step in order keeps the invariant. -/
theorem step (h : Inv s) {a : Action P B D} (hC : InOrder s a)
    (ht : step s a = some t) : Inv t := by
  cases a with
  | lock p b => exact h.lock ht
  | modify p b v => exact h.modify ht
  | unlock p b => exact h.unlock ht
  | iderw p b ready => exact h.iderw hC ht
  | wake p => exact h.wake ht
  | complete => exact h.complete ht
  | intr readOk ready => exact h.intr hC ht

omit [DecidableEq P] [DecidableEq B] in
theorem init (buf : B → Buf D) (medium : ℕ → ℕ → D) (port : D) (havedisk1 : Bool) :
    Inv (init buf medium port havedisk1 : State P B D) where
  noOverlap := rfl
  headOutstanding := rfl
  irq := rfl
  port := by intro c hc; cases hc
  nodup := List.nodup_nil
  queued := by intro b hb; cases hb
  locked := by intro p b hp; cases hp
  inRange := by intro b hb; cases hb
  returned := by intro p b hp; cases hp

end Inv

omit [DecidableEq P] [DecidableEq B] in
/-- Starting the disk records an overlap and may issue a command; it moves no buffer. -/
theorem idestart_frame {s t : State P B D} {b : B} {ready : Bool}
    (ht : s.idestart b ready = some t) :
    t.buf = s.buf ∧ t.idequeue = s.idequeue ∧
      t.overlap = (s.overlap || s.disk.outstanding.isSome) ∧
      (ready = false → t.disk = s.disk) := by
  obtain ⟨_, rfl⟩ := idestart_cases ht
  exact ⟨rfl, rfl, rfl, fun h => by simp [h]⟩

/-- An interrupt is taken for the head of the queue and changes no other buffer. -/
theorem Inv.fills {s : State P B D} (h : Inv s) {readOk ready : Bool} {t : State P B D}
    (ht : Ide.step s (.intr readOk ready) = some t) :
    ∃ b, s.idequeue.head? = some b ∧ s.disk.controller = .finished (s.command b) ∧
      ∀ c, c ≠ b → t.buf c = s.buf c := by
  simp only [Ide.step] at ht
  split at ht
  · rename_i hirq
    obtain ⟨b, rest, hq, hctl⟩ := h.head_of_irq hirq
    refine ⟨b, by simp [hq], hctl, ?_⟩
    intro c hcb
    simp only [State.ideintr, hq] at ht
    obtain ⟨_, _, _, _, hbuf, _⟩ :=
      finish_frame ({ s with idequeue := rest } : State P B D) b readOk
    cases rest with
    | nil =>
      cases ht
      exact hbuf c hcb
    | cons next tail =>
      have hframe := (idestart_frame ht).1
      rw [hframe]
      exact hbuf c hcb
  · cases ht

theorem Inv.sound {s : State P B D} (h : Inv s) : Sound s where
  noOverlap := h.noOverlap
  headOutstanding := h.headOutstanding
  fills := fun _ _ _ ht => h.fills ht
  returned := h.returned

/-- A request that overtakes the head in flight starts the disk a second time, and a
start that found the disk not ready leaves the new head without a command. -/
theorem Inv.inOrder_of_sound {s t : State P B D} (h : Inv s) {a : Action P B D}
    (ht : Ide.step s a = some t) (hs : Sound t) : InOrder s a := by
  cases a with
  | iderw p b ready =>
    intro hpend
    simp only [Ide.step] at ht
    split at ht
    · simp only [State.iderw, hpend, Bool.false_eq_true, if_false] at ht
      split at ht
      · cases ht
      split at ht
      · cases ht
      cases hq : s.idequeue with
      | nil =>
        simp only [hq, State.insert, List.head?_cons, if_true] at ht
        obtain ⟨_, hqueue, _, hdisk⟩ := idestart_frame ht
        refine Or.inl ⟨rfl, ?_⟩
        by_contra hready
        have hready : ready = false := by simpa using hready
        have hout := hs.headOutstanding
        rw [hdisk hready, hqueue] at hout
        have hidle := h.outstanding_none hq
        simp [Disk.outstanding, hidle] at hout
      | cons head rest =>
        refine Or.inr ⟨head, rfl, ?_⟩
        by_contra hlt
        have hfront : (s.insert b (head :: rest)).head? = some b := by
          rw [head_insert, if_pos (by omega)]
        simp only [hq, hfront, if_true] at ht
        have hover := (idestart_frame ht).2.2.1
        have hsome : s.disk.outstanding = some (s.command head) := by
          simp [h.headOutstanding, hq]
        rw [hs.noOverlap] at hover
        simp [hsome] at hover
    · cases ht
  | intr readOk ready =>
    intro htail
    simp only [Ide.step] at ht
    split at ht
    · rename_i hirq
      obtain ⟨b, rest, hq, hctl⟩ := h.head_of_irq hirq
      have hdisk := finish_disk ({ s with idequeue := rest } : State P B D) b readOk hctl
      obtain ⟨hqueue, _⟩ := finish_frame ({ s with idequeue := rest } : State P B D) b readOk
      simp only [State.ideintr, hq] at ht
      cases rest with
      | nil => simp [hq] at htail
      | cons next tail =>
        obtain ⟨_, hqueue', _, hdisk'⟩ := idestart_frame ht
        by_contra hready
        have hready : ready = false := by simpa using hready
        have hout := hs.headOutstanding
        rw [hdisk' hready, hqueue'] at hout
        simp [hdisk, hqueue, Disk.acknowledge, hctl, Disk.outstanding] at hout
    · cases ht
  | _ => trivial

/-- Along every run from an idle disk the driver is sound exactly when no request
overtakes the head of the queue and no start finds the disk not ready. -/
theorem always_sound_iff (buf : B → Buf D) (medium : ℕ → ℕ → D) (port : D)
    (havedisk1 : Bool) (acts : List (Action P B D)) :
    Runs.Always step Sound (init buf medium port havedisk1) acts ↔
      Runs.Meets step InOrder (init buf medium port havedisk1) acts :=
  Runs.always_iff_meets (fun _ h => h.sound) (fun _ _ _ h hC ht => h.step hC ht)
    (fun _ _ _ h ht hP => h.inOrder_of_sound ht hP) (Inv.init buf medium port havedisk1) acts

/-- Two processes read blocks 10 and 5 of a disk whose blocks hold their own number;
the start of the second read finds the disk busy with the first. -/
def overtake : List (Action Bool Bool ℕ) :=
  [.lock false false, .modify false false ⟨false, false, 1, 10, 0⟩, .iderw false false true,
    .lock true true, .modify true true ⟨false, false, 1, 5, 0⟩, .iderw true true false,
    .complete, .intr true true]

/-- The first interrupt hands the contents of block 10 to the reader of block 5. -/
theorem not_always_sound :
    ¬ ∀ acts, Runs.Always step Sound
      (init (fun _ => ⟨false, false, 0, 0, 0⟩) (fun _ n => n) 0 true : State Bool Bool ℕ)
      acts := by
  intro h
  have hrun := (Runs.always_iff_run _ overtake).mp (h overtake) overtake _
    (List.prefix_refl _) rfl
  have hdata := hrun.returned true true rfl rfl 5 rfl
  exact absurd hdata (by decide)

end NorthOS.Ide
