import Mathlib.Data.List.Range
import NorthOS.Runs
import NorthOS.WindowManager

/-!
The message queues of the window manager between processes. getMessage tests cnt
before it acquires wmlock, so the test and the removal are two steps and other
processes come in between: the popup has no owner, and any call that creates or
closes a window resets its queue. The counters are ints. A queue stays a bounded
first-in-first-out queue exactly as long as no removal finds it empty.
-/
namespace NorthOS.MessageQueues

open WindowManager (Message MSG_BUF_SIZE MAX_WINDOW_CNT)

structure MsgBuf where
  data : ℤ → Message
  front : ℤ
  rear : ℤ
  cnt : ℤ

def initMessageQueue (buf : MsgBuf) : MsgBuf := { buf with front := 0, rear := 0, cnt := 0 }

/-- The result is 1 for a message that is dropped. -/
def dispatchMessage (buf : MsgBuf) (msg : Message) : MsgBuf × ℤ :=
  if buf.cnt ≥ MSG_BUF_SIZE then (buf, 1)
  else
    ({ buf with
      cnt := buf.cnt + 1
      data := Function.update buf.data buf.rear msg
      rear := if buf.rear + 1 ≥ MSG_BUF_SIZE then 0 else buf.rear + 1 }, 0)

/-- The part of getMessage under wmlock, whatever cnt has become since the test. -/
def takeMessage (buf : MsgBuf) : Message × MsgBuf :=
  (buf.data buf.front,
    { buf with front := (buf.front + 1).tmod MSG_BUF_SIZE, cnt := buf.cnt - 1 })

/-- A queue and its history: the messages it accepted and those it returned since it
was last reset. -/
structure Queue where
  buf : MsgBuf
  accepted : List Message
  returned : List Message

namespace Queue

def reset (q : Queue) : Queue := ⟨initMessageQueue q.buf, [], []⟩

def dispatch (q : Queue) (msg : Message) : Queue where
  buf := (dispatchMessage q.buf msg).1
  accepted := if (dispatchMessage q.buf msg).2 = 0 then q.accepted ++ [msg] else q.accepted
  returned := q.returned

def take (q : Queue) : Queue where
  buf := (takeMessage q.buf).2
  accepted := q.accepted
  returned := q.returned ++ [(takeMessage q.buf).1]

end Queue

/-- `windowlist[h].wnd.msg_buf` or `popupwindow.wnd.msg_buf` -/
inductive Target
  | window (h : ℕ)
  | popup
  deriving DecidableEq

/-- `pending p` is the queue that p found not empty and has not taken a message from. -/
structure State where
  proc : ℕ → ℕ
  caller : ℤ
  queue : Target → Queue
  pending : ℕ → Option Target

/-- Everything between acquire and release of wmlock is one step, and so are the tests
of getMessage and of its two callers. -/
inductive Action
  | dispatch (k : Target) (msg : Message)
  | test (p : ℕ) (k : Target)
  | remove (p : ℕ)
  | createWindow (p h : ℕ)
  | closeWindow (p h : ℕ)
  | createPopupWindow (p : ℕ) (caller : ℤ)
  | closePopupWindow (p : ℕ)

namespace State

def setQueue (s : State) (k : Target) (q : Queue) : State :=
  { s with queue := Function.update s.queue k q }

/-- The checks of sys_GUI_getMessage and sys_GUI_getPopupMessage. -/
def admits (s : State) (p : ℕ) : Target → Bool
  | .window h => decide (s.proc h = p)
  | .popup => decide (s.caller ≠ -1)

def inTable : Target → Bool
  | .window h => decide (h < MAX_WINDOW_CNT)
  | .popup => true

end State

open State in
/-- A process inside getMessage makes no other call. -/
def step (s : State) : Action → Option State
  | .dispatch k msg =>
    if inTable k then some (s.setQueue k ((s.queue k).dispatch msg)) else none
  | .test p k =>
    if s.pending p = none ∧ inTable k then
      if s.admits p k ∧ (s.queue k).buf.cnt ≠ 0 then
        some { s with pending := Function.update s.pending p (some k) }
      else some s
    else none
  | .remove p =>
    match s.pending p with
    | none => none
    | some k =>
      some { s.setQueue k (s.queue k).take with pending := Function.update s.pending p none }
  | .createWindow p h =>
    if s.pending p = none ∧ inTable (.window h) then
      some { s.setQueue (.window h) (s.queue (.window h)).reset with
        proc := Function.update s.proc h p }
    else none
  | .closeWindow p h =>
    if s.pending p = none ∧ inTable (.window h) then
      some (s.setQueue (.window h) (s.queue (.window h)).reset)
    else none
  | .createPopupWindow p caller =>
    if s.pending p = none then
      if s.caller ≠ -1 then some s
      else some { s.setQueue .popup (s.queue .popup).reset with caller := caller }
    else none
  | .closePopupWindow p =>
    if s.pending p = none then
      some { s.setQueue .popup (s.queue .popup).reset with caller := -1 }
    else none

/-- The tables are zero at boot, and wmInit closes the popup. -/
def init (data : ℤ → Message) : State where
  proc := fun _ => 0
  caller := -1
  queue := fun _ => ⟨⟨data, 0, 0, 0⟩, [], []⟩
  pending := fun _ => none

/-- The messages in the queue, the next one to be returned first. -/
def MsgBuf.contents (buf : MsgBuf) : List Message :=
  (List.range buf.cnt.toNat).map fun i : ℕ => buf.data ((buf.front + i) % MSG_BUF_SIZE)

namespace MsgBuf

variable {buf : MsgBuf}

/-- A new message is stored behind the last one and over none of them. -/
theorem contents_push (hcnt : 0 ≤ buf.cnt) (hfull : ¬ buf.cnt ≥ MSG_BUF_SIZE)
    (hends : buf.rear = (buf.front + buf.cnt) % MSG_BUF_SIZE) (msg : Message) (r : ℤ) :
    contents ⟨Function.update buf.data buf.rear msg, buf.front, r, buf.cnt + 1⟩ =
      buf.contents ++ [msg] := by
  have hsize : (MSG_BUF_SIZE : ℤ) = 50 := rfl
  have hlen : (buf.cnt + 1).toNat = buf.cnt.toNat + 1 := by omega
  unfold contents
  rw [hlen, List.range_succ, List.map_append, List.map_singleton]
  congr 1
  · apply List.map_congr_left
    intro i hi
    have hi := List.mem_range.mp hi
    have hne : (buf.front + (i : ℤ)) % (MSG_BUF_SIZE : ℤ) ≠ buf.rear := by
      rw [hends, hsize]
      omega
    exact Function.update_of_ne hne _ _
  · have hpos : (buf.front + (buf.cnt.toNat : ℤ)) % (MSG_BUF_SIZE : ℤ) = buf.rear := by
      rw [hends]
      congr 2
      omega
    show [Function.update buf.data buf.rear msg _] = [msg]
    rw [hpos, Function.update_self]

/-- The message at the front, and behind it what a removal leaves. -/
theorem contents_pop (hcnt : 0 < buf.cnt) (hfront : 0 ≤ buf.front ∧ buf.front < MSG_BUF_SIZE) :
    buf.contents = buf.data buf.front :: (takeMessage buf).2.contents := by
  have hsize : (MSG_BUF_SIZE : ℤ) = 50 := rfl
  have hmod : (buf.front + 1).tmod (MSG_BUF_SIZE : ℤ) = (buf.front + 1) % MSG_BUF_SIZE :=
    Int.tmod_eq_emod_of_nonneg (by omega)
  have hlen : buf.cnt.toNat = (buf.cnt - 1).toNat + 1 := by omega
  unfold contents
  rw [hlen, List.range_succ_eq_map, List.map_cons, List.map_map]
  congr 1
  · congr 1
    show (buf.front + 0) % (MSG_BUF_SIZE : ℤ) = buf.front
    rw [Int.add_zero]
    exact Int.emod_eq_of_lt hfront.1 hfront.2
  · apply List.map_congr_left
    intro i _
    show buf.data ((buf.front + ((i + 1 : ℕ) : ℤ)) % (MSG_BUF_SIZE : ℤ)) =
      buf.data (((buf.front + 1).tmod (MSG_BUF_SIZE : ℤ) + (i : ℤ)) % (MSG_BUF_SIZE : ℤ))
    congr 1
    rw [hmod, hsize]
    push_cast
    omega

end MsgBuf

/-- A bounded first-in-first-out queue. -/
structure Fifo (q : Queue) : Prop where
  nonneg : 0 ≤ q.buf.cnt
  bounded : q.buf.cnt ≤ MSG_BUF_SIZE
  front : 0 ≤ q.buf.front ∧ q.buf.front < MSG_BUF_SIZE
  rear : 0 ≤ q.buf.rear ∧ q.buf.rear < MSG_BUF_SIZE
  ends : q.buf.rear = (q.buf.front + q.buf.cnt) % MSG_BUF_SIZE
  order : q.accepted = q.returned ++ q.buf.contents

def Bounded (s : State) : Prop := ∀ k, Fifo (s.queue k)

/-- A removal finds a message. -/
def NotEmptied (s : State) : Action → Prop
  | .remove p => ∀ k, s.pending p = some k → (s.queue k).buf.cnt ≠ 0
  | _ => True

namespace Fifo

variable {q : Queue}

theorem reset (q : Queue) : Fifo q.reset where
  nonneg := Int.le_refl 0
  bounded := Int.natCast_nonneg MSG_BUF_SIZE
  front := ⟨Int.le_refl 0, Int.natCast_pos.mpr (by decide)⟩
  rear := ⟨Int.le_refl 0, Int.natCast_pos.mpr (by decide)⟩
  ends := rfl
  order := rfl

theorem dispatch (h : Fifo q) (msg : Message) : Fifo (q.dispatch msg) := by
  unfold Queue.dispatch dispatchMessage
  split
  · exact { h with order := h.order }
  · rename_i hfull
    obtain ⟨hnonneg, _, hfront, hrear, hends, horder⟩ := h
    have hsize : (MSG_BUF_SIZE : ℤ) = 50 := rfl
    have hpush := MsgBuf.contents_push hnonneg hfull hends msg
      (if q.buf.rear + 1 ≥ (MSG_BUF_SIZE : ℤ) then 0 else q.buf.rear + 1)
    rw [hsize] at hfront hrear hends hfull
    refine ⟨?_, ?_, ?_, ?_, ?_, ?_⟩
    · show 0 ≤ q.buf.cnt + 1
      omega
    · show q.buf.cnt + 1 ≤ _
      omega
    · exact hfront
    · show 0 ≤ (if q.buf.rear + 1 ≥ (MSG_BUF_SIZE : ℤ) then 0 else q.buf.rear + 1) ∧
        (if q.buf.rear + 1 ≥ (MSG_BUF_SIZE : ℤ) then 0 else q.buf.rear + 1) < (MSG_BUF_SIZE : ℤ)
      rw [hsize]
      split <;> omega
    · show (if q.buf.rear + 1 ≥ (MSG_BUF_SIZE : ℤ) then 0 else q.buf.rear + 1) =
        (q.buf.front + (q.buf.cnt + 1)) % (MSG_BUF_SIZE : ℤ)
      rw [hsize]
      split <;> omega
    · show q.accepted ++ [msg] = q.returned ++ MsgBuf.contents _
      rw [horder, List.append_assoc]
      congr 1
      exact hpush.symm

theorem take (h : Fifo q) (hne : q.buf.cnt ≠ 0) : Fifo q.take := by
  obtain ⟨hnonneg, hbounded, hfront, hrear, hends, horder⟩ := h
  have hsize : (MSG_BUF_SIZE : ℤ) = 50 := rfl
  have hpop := MsgBuf.contents_pop (by omega) hfront
  rw [hsize] at hfront hrear hends hbounded
  have hmod : (q.buf.front + 1).tmod (MSG_BUF_SIZE : ℤ) = (q.buf.front + 1) % 50 := by
    rw [hsize]
    exact Int.tmod_eq_emod_of_nonneg (by omega)
  refine ⟨?_, ?_, ?_, hrear, ?_, ?_⟩
  · show 0 ≤ q.buf.cnt - 1
    omega
  · show q.buf.cnt - 1 ≤ _
    omega
  · show 0 ≤ (q.buf.front + 1).tmod (MSG_BUF_SIZE : ℤ) ∧
      (q.buf.front + 1).tmod (MSG_BUF_SIZE : ℤ) < (MSG_BUF_SIZE : ℤ)
    rw [hmod, hsize]
    omega
  · show q.buf.rear =
      ((q.buf.front + 1).tmod (MSG_BUF_SIZE : ℤ) + (q.buf.cnt - 1)) % (MSG_BUF_SIZE : ℤ)
    rw [hmod, hsize]
    omega
  · show q.accepted = q.returned ++ [q.buf.data q.buf.front] ++ MsgBuf.contents _
    rw [horder, List.append_assoc, hpop]
    rfl

end Fifo

section Runs

variable {s t : State}

theorem Bounded.setQueue (h : Bounded s) (k : Target) {q : Queue} (hq : Fifo q) :
    Bounded (s.setQueue k q) := by
  intro j
  by_cases hj : j = k
  · rw [hj]
    simpa [State.setQueue] using hq
  · simpa [State.setQueue, Function.update_of_ne hj] using h j

/-- Only a removal from a queue that has become empty breaks a queue. -/
theorem Bounded.step (h : Bounded s) {a : Action} (hC : NotEmptied s a)
    (ht : step s a = some t) : Bounded t := by
  cases a with
  | dispatch k msg =>
    obtain ⟨_, ht⟩ := Option.ite_none_right_eq_some.mp ht
    rw [← Option.some.inj ht]
    exact h.setQueue k ((h k).dispatch msg)
  | test p k =>
    obtain ⟨_, ht⟩ := Option.ite_none_right_eq_some.mp ht
    split at ht
    · rw [← Option.some.inj ht]
      exact h
    · rw [← Option.some.inj ht]
      exact h
  | remove p =>
    simp only [MessageQueues.step] at ht
    split at ht
    · cases ht
    · rename_i k hk
      rw [← Option.some.inj ht]
      exact h.setQueue k ((h k).take (hC k hk))
  | createWindow p i =>
    obtain ⟨_, ht⟩ := Option.ite_none_right_eq_some.mp ht
    rw [← Option.some.inj ht]
    exact h.setQueue (.window i) (Fifo.reset _)
  | closeWindow p i =>
    obtain ⟨_, ht⟩ := Option.ite_none_right_eq_some.mp ht
    rw [← Option.some.inj ht]
    exact h.setQueue (.window i) (Fifo.reset _)
  | createPopupWindow p caller =>
    obtain ⟨_, ht⟩ := Option.ite_none_right_eq_some.mp ht
    split at ht
    · rw [← Option.some.inj ht]
      exact h
    · rw [← Option.some.inj ht]
      exact h.setQueue .popup (Fifo.reset _)
  | closePopupWindow p =>
    obtain ⟨_, ht⟩ := Option.ite_none_right_eq_some.mp ht
    rw [← Option.some.inj ht]
    exact h.setQueue .popup (Fifo.reset _)

/-- A removal from an empty queue leaves it with a count of -1. -/
theorem notEmptied_of_bounded {a : Action} (ht : step s a = some t) (h : Bounded t) :
    NotEmptied s a := by
  cases a with
  | remove p =>
    intro k hk hzero
    simp only [step, hk] at ht
    have hnonneg := (h k).nonneg
    rw [← Option.some.inj ht] at hnonneg
    simp only [State.setQueue, Function.update_self] at hnonneg
    have hcnt : (s.queue k).take.buf.cnt = (s.queue k).buf.cnt - 1 := rfl
    omega
  | _ => trivial

theorem init_bounded (data : ℤ → Message) : Bounded (init data) := fun _ => Fifo.reset
  ⟨⟨data, 0, 0, 0⟩, [], []⟩

/-- The runs in which every queue is a bounded first-in-first-out queue in every state
are exactly the runs in which every removal finds a message. -/
theorem always_bounded_iff (data : ℤ → Message) (as : List Action) :
    Runs.Always step Bounded (init data) as ↔ Runs.Meets step NotEmptied (init data) as :=
  Runs.always_iff_meets (fun _ h => h) (fun _ _ _ h hC ht => h.step hC ht)
    (fun _ _ _ _ ht hP => notEmptied_of_bounded ht hP) (init_bounded data) as

/-- Two processes read the popup's only message. -/
def bothTake : List Action :=
  [.createPopupWindow 1 0, .dispatch .popup (.plain .M_MOUSE_UP), .test 2 .popup,
    .test 3 .popup, .remove 2, .remove 3]

theorem not_always_bounded :
    ¬ ∀ as, Runs.Always step Bounded (init fun _ => .plain .M_KEY_UP) as := by
  intro h
  have hrun := (Runs.always_iff_run _ bothTake).mp (h bothTake) bothTake _
    (List.prefix_refl _) rfl
  exact absurd (hrun .popup).nonneg (by decide)

end Runs

section Uninterrupted

/-- The queue is one that the window manager has between its calls. -/
structure Same (buf : MsgBuf) (b : WindowManager.MsgBuf) : Prop where
  data : ∀ i : ℕ, buf.data i = b.data i
  front : buf.front = b.front
  rear : buf.rear = b.rear
  cnt : buf.cnt = b.cnt

theorem Same.dispatch {buf : MsgBuf} {b : WindowManager.MsgBuf} (h : Same buf b)
    (msg : Message) :
    Same (dispatchMessage buf msg).1 (WindowManager.dispatchMessage b msg) := by
  have hcnt := h.cnt
  have hrear := h.rear
  unfold dispatchMessage WindowManager.dispatchMessage
  by_cases hfull : MSG_BUF_SIZE ≤ b.cnt
  · rw [if_pos (by omega), if_pos hfull]
    exact h
  · rw [if_neg (by omega), if_neg hfull]
    refine ⟨?_, h.front, ?_, by push_cast; rw [hcnt]⟩
    · intro i
      by_cases hi : i = b.rear
      · simp [hi, hrear]
      · have hi' : (i : ℤ) ≠ buf.rear := by omega
        simp [Function.update_of_ne hi, Function.update_of_ne hi', h.data]
    · show (if buf.rear + 1 ≥ (MSG_BUF_SIZE : ℤ) then 0 else buf.rear + 1) =
        ((if MSG_BUF_SIZE ≤ b.rear + 1 then 0 else b.rear + 1 : ℕ) : ℤ)
      split <;> split <;> omega

/-- A test directly followed by its removal is getMessage. -/
theorem Same.take {buf : MsgBuf} {b : WindowManager.MsgBuf} (h : Same buf b)
    (hne : buf.cnt ≠ 0) :
    ∃ b', WindowManager.getMessage b = some ((takeMessage buf).1, b') ∧
      Same (takeMessage buf).2 b' := by
  have hcnt := h.cnt
  have hne' : b.cnt ≠ 0 := by omega
  refine ⟨{ b with front := (b.front + 1) % MSG_BUF_SIZE, cnt := b.cnt - 1 }, ?_, ?_⟩
  · unfold WindowManager.getMessage
    rw [if_neg hne']
    have hdata : (takeMessage buf).1 = b.data b.front := by
      show buf.data buf.front = _
      rw [h.front, h.data]
    rw [hdata]
  · refine ⟨h.data, ?_, h.rear, ?_⟩
    · show (buf.front + 1).tmod (MSG_BUF_SIZE : ℤ) = (((b.front + 1) % MSG_BUF_SIZE : ℕ) : ℤ)
      rw [h.front]
      exact (Int.ofNat_tmod (b.front + 1) MSG_BUF_SIZE).symm
    · show buf.cnt - 1 = ((b.cnt - 1 : ℕ) : ℤ)
      omega

end Uninterrupted

end NorthOS.MessageQueues
