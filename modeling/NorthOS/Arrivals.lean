import NorthOS.PointerCapture

/-!
What comes into the queues while the window manager handles a message. The messages a
queue has taken in stand behind the end it had before; those that find it full are lost.
A press sends at most a request from the title bar and the press itself.
-/
namespace NorthOS.WindowManager

namespace MsgBuf

/-- The rear of the queue after so many more messages. -/
def rearAfter (b : MsgBuf) : ℕ → ℕ
  | 0 => b.rear
  | n + 1 => if MSG_BUF_SIZE ≤ b.rearAfter n + 1 then 0 else b.rearAfter n + 1

/-- The messages that are in the queue `b'` and were not in the queue `b` before it. -/
def arrivals (b b' : MsgBuf) : List Message :=
  (List.range (b'.cnt - b.cnt)).map fun n => b'.data (b.rearAfter n)

theorem rearAfter_succ (b : MsgBuf) (n : ℕ) : b.rearAfter (n + 1) =
    if b.rear < MSG_BUF_SIZE then (b.rear + n + 1) % MSG_BUF_SIZE else n % MSG_BUF_SIZE := by
  have hsize : MSG_BUF_SIZE = 50 := rfl
  induction n with
  | zero =>
    simp only [rearAfter, hsize]
    split_ifs <;> omega
  | succ n ih =>
    rw [rearAfter, ih, hsize]
    split_ifs <;> omega

/-- A queue has room for its messages without storing over one of them. -/
theorem rearAfter_ne (b : MsgBuf) {m n : ℕ} (hmn : m < n) (hn : n < MSG_BUF_SIZE) :
    b.rearAfter m ≠ b.rearAfter n := by
  have hsize : MSG_BUF_SIZE = 50 := rfl
  obtain ⟨n, rfl⟩ := Nat.exists_eq_succ_of_ne_zero (Nat.ne_zero_of_lt hmn)
  rw [Nat.succ_eq_add_one, rearAfter_succ, hsize]
  cases m with
  | zero =>
    rw [rearAfter]
    split <;> omega
  | succ m =>
    rw [rearAfter_succ, hsize]
    split <;> omega

/-- The messages are stored one behind the other, as long as there is room. -/
structure Stored (b b' : MsgBuf) (ms : List Message) : Prop where
  cnt : b'.cnt = b.cnt + ms.length
  rear : b'.rear = b.rearAfter ms.length
  data : (List.range ms.length).map (fun n => b'.data (b.rearAfter n)) = ms

theorem Stored.arrivals {b b' : MsgBuf} {ms : List Message} (h : Stored b b' ms) :
    arrivals b b' = ms := by
  unfold MsgBuf.arrivals
  rw [h.cnt, Nat.add_sub_cancel_left]
  exact h.data

theorem Stored.dispatch {b b' : MsgBuf} {ms : List Message} (h : Stored b b' ms)
    (hroom : b'.cnt < MSG_BUF_SIZE) (m : Message) :
    Stored b (dispatchMessage b' m) (ms ++ [m]) := by
  have hcnt := h.cnt
  unfold dispatchMessage
  rw [if_neg (by omega)]
  refine ⟨?_, ?_, ?_⟩
  · show b'.cnt + 1 = _
    rw [List.length_append, List.length_singleton]
    omega
  · rw [List.length_append, List.length_singleton, rearAfter, ← h.rear]
  · rw [List.length_append, List.length_singleton, List.range_succ, List.map_append]
    congr 1
    · refine Eq.trans (List.map_congr_left fun n hn => ?_) h.data
      have hlt : n < ms.length := List.mem_range.mp hn
      rw [h.rear]
      exact Function.update_of_ne (b.rearAfter_ne hlt (by omega)) _ _
    · show [Function.update b'.data b'.rear m (b.rearAfter ms.length)] = [m]
      rw [h.rear, Function.update_self]

theorem stored_foldl (b : MsgBuf) (ms : List Message) :
    Stored b (ms.foldl dispatchMessage b) (ms.take (MSG_BUF_SIZE - b.cnt)) := by
  induction ms using List.reverseRecOn with
  | nil => exact ⟨by simp, by simp [rearAfter], by simp⟩
  | append_singleton ms m ih =>
    rw [List.foldl_append, List.foldl_cons, List.foldl_nil]
    have hcnt := ih.cnt
    rw [List.length_take] at hcnt
    by_cases hroom : (ms.foldl dispatchMessage b).cnt < MSG_BUF_SIZE
    · have hall : ms.length < MSG_BUF_SIZE - b.cnt := by omega
      rw [List.take_of_length_le (by rw [List.length_append, List.length_singleton]; omega)]
      rw [List.take_of_length_le hall.le] at ih
      exact ih.dispatch hroom m
    · have hfull : dispatchMessage (ms.foldl dispatchMessage b) m = ms.foldl dispatchMessage b :=
        if_pos (by omega)
      rw [hfull, List.take_append_of_le_length (by omega)]
      exact ih

/-- Of the messages sent to a queue those arrive that there is room for. -/
theorem arrivals_foldl (b : MsgBuf) (ms : List Message) :
    arrivals b (ms.foldl dispatchMessage b) = ms.take (MSG_BUF_SIZE - b.cnt) :=
  (stored_foldl b ms).arrivals

end MsgBuf

/-- The messages that have come into the window's queue from `s` to `t`. -/
def State.arrivals (s t : State) (i : ℤ) : List Message :=
  (s.windowlist i).wnd.msg_buf.arrivals (t.windowlist i).wnd.msg_buf

/-- How many messages the window's queue can still take. -/
def State.room (s : State) (i : ℤ) : ℕ := MSG_BUF_SIZE - (s.windowlist i).wnd.msg_buf.cnt

/-- The messages are sent to the window one after the other, and no others. -/
def Sends (ms : List Message) (i : ℤ) (s t : State) : Prop :=
  (t.windowlist i).wnd.msg_buf = ms.foldl dispatchMessage (s.windowlist i).wnd.msg_buf

namespace Sends

variable {ms ns : List Message} {i : ℤ} {s t u : State}

theorem arrivals (h : Sends ms i s t) : s.arrivals t i = ms.take (s.room i) := by
  unfold State.arrivals
  rw [show (t.windowlist i).wnd.msg_buf = _ from h]
  exact MsgBuf.arrivals_foldl _ _

theorem nil (h : (t.windowlist i).wnd = (s.windowlist i).wnd) : Sends [] i s t := by
  unfold Sends
  rw [h]
  rfl

theorem arrivals_nil (h : Sends [] i s t) : s.arrivals t i = [] := by
  rw [h.arrivals, List.take_nil]

theorem of_receives {m : Message} (h : Receives i m s t) : Sends [m] i s t := by
  unfold Sends
  rw [show (t.windowlist i).wnd = _ from h]
  rfl

theorem trans (h : Sends ms i s t) (h' : Sends ns i t u) : Sends (ms ++ ns) i s u := by
  unfold Sends at h h' ⊢
  rw [h', h, List.foldl_append]

end Sends

namespace State

/-- What a press in the strip of a window's title sends it. -/
def titleMessages (s : State) (i : ℤ) : List Message :=
  if s.inStrip i then
    if s.wm_mouse_pos.1 + 30 > (s.windowlist i).wnd.position.xmax then [.plain .WM_WINDOW_CLOSE]
    else if s.leftOfButtons i then []
    else [.plain .WM_WINDOW_MINIMIZE]
  else []

/-- What a press in a window's content sends it. -/
def contentMessages (s : State) (i : ℤ) (m : MsgType) : List Message :=
  if s.inContent i then [s.popupMessage m] else []

end State

section Pressing

variable {A : ℤ} {s t : State} {msg : Message}

/-- The messages of a press that ask for something, and where. -/
theorem mem_titleMessages_iff {m : Message} {i : ℤ} : m ∈ s.titleMessages i ↔
    s.inStrip i = true ∧ s.leftOfButtons i = false ∧
      m = .plain (if s.wm_mouse_pos.1 + 30 > (s.windowlist i).wnd.position.xmax then
        .WM_WINDOW_CLOSE else .WM_WINDOW_MINIMIZE) := by
  unfold State.titleMessages
  split
  · rename_i hstrip
    split
    · rename_i hclose
      have hleft : s.leftOfButtons i = false := by
        simp only [State.leftOfButtons, decide_eq_false_iff_not]
        omega
      rw [hleft, List.mem_singleton]
      exact ⟨fun h => ⟨hstrip, rfl, h⟩, fun h => h.2.2⟩
    · split
      · rename_i hleft
        rw [hleft]
        exact ⟨fun h => absurd h List.not_mem_nil, fun h => absurd h.2.1.symm Bool.false_ne_true⟩
      · rename_i hleft
        rw [List.mem_singleton]
        exact ⟨fun h => ⟨hstrip, (Bool.not_eq_true _).mp hleft, h⟩, fun h => h.2.2⟩
  · rename_i hstrip
    exact ⟨fun h => absurd h List.not_mem_nil, fun h => absurd h.1 hstrip⟩

theorem length_titleMessages (i : ℤ) : (s.titleMessages i).length ≤ 1 := by
  unfold State.titleMessages
  split
  · split
    · exact Nat.le_refl 1
    · split
      · exact Nat.zero_le 1
      · exact Nat.le_refl 1
  · exact Nat.zero_le 1

theorem pressTitle_sends (h : s.pressTitle = some t) :
    OnlyTo s.windowlisttail s t ∧
      Sends (s.titleMessages s.windowlisttail) s.windowlisttail s t := by
  obtain ⟨w, hw, h₁⟩ := Option.bind_eq_some_iff.mp h
  obtain ⟨_, rfl⟩ := State.slot_eq_some.mp hw
  unfold State.titleMessages State.leftOfButtons
  simp only at h₁
  split at h₁
  · rename_i hstrip
    rw [show s.inStrip s.windowlisttail = true from hstrip, if_pos rfl]
    split at h₁
    · rename_i hclose
      obtain ⟨honly, hwnd, _⟩ := setWnd_onlyTo h₁
      rw [if_pos hclose]
      exact ⟨honly, .of_receives hwnd⟩
    · rename_i hclose
      rw [if_neg hclose]
      split at h₁
      · rename_i hmin
        obtain ⟨honly, hwnd, _⟩ := setWnd_onlyTo h₁
        rw [if_neg (by rw [decide_eq_true_eq]; omega)]
        exact ⟨honly, .of_receives hwnd⟩
      · rename_i hmin
        rw [← Option.some.inj h₁, if_pos (by rw [decide_eq_true_eq]; omega)]
        exact ⟨⟨fun _ _ => rfl, rfl⟩, .nil rfl⟩
  · rename_i hstrip
    rw [← Option.some.inj h₁, show s.inStrip s.windowlisttail = false from
      (Bool.not_eq_true _).mp hstrip]
    exact ⟨⟨fun _ _ => rfl, rfl⟩, .nil rfl⟩

theorem pressContent_sends (h : s.pressContent msg = some t) :
    OnlyTo s.windowlisttail s t ∧
      Sends (s.contentMessages s.windowlisttail msg.msg_type) s.windowlisttail s t := by
  obtain ⟨w, hw, h₁⟩ := Option.bind_eq_some_iff.mp h
  obtain ⟨_, rfl⟩ := State.slot_eq_some.mp hw
  unfold State.contentMessages
  simp only at h₁
  split at h₁
  · rename_i hcontent
    obtain ⟨honly, hwnd, _⟩ := setWnd_onlyTo h₁
    rw [show s.inContent s.windowlisttail = true from hcontent, if_pos rfl]
    exact ⟨⟨honly.wnd, honly.popup⟩, .of_receives hwnd⟩
  · rename_i hcontent
    rw [← Option.some.inj h₁, show s.inContent s.windowlisttail = false from
      (Bool.not_eq_true _).mp hcontent]
    exact ⟨⟨fun _ _ => rfl, rfl⟩, .nil rfl⟩

/-- A press off the popup sends its target a request or the press or both, and the other
windows nothing. -/
theorem mouseDown_sends (h : s.mouseDown msg = some t) (hpop : ¬ s.onPopup)
    (hA : s.target = some A) :
    Sends (s.titleMessages A ++ s.contentMessages A msg.msg_type) A s t ∧
      (∀ i, i ≠ A → Sends [] i s t) ∧
      t.clickedOnTitle = (s.clickedOnTitle || s.inStrip A && s.leftOfButtons A) ∧
      t.windowlisttail = A ∧ SamePlaces s t ∧
      t.popupwindow = (s.dispatchPopup (.plain .WM_WINDOW_CLOSE)).popupwindow := by
  obtain ⟨u, v, hlinks, htarget, hv, h₃⟩ := mouseDown_target h hpop
  obtain rfl : u.windowlisttail = A := Option.some.inj (htarget.symm.trans hA)
  have hsu : SamePlaces s u := ⟨.of_linksOnly (s := s.dispatchPopup _) hlinks, hlinks.pos,
    hlinks.onPopup⟩
  have hwnd : ∀ i, (u.windowlist i).wnd = (s.windowlist i).wnd := hlinks.wnd
  have hpopup : u.popupwindow.wnd.position = s.popupwindow.wnd.position := by
    rw [hlinks.popup]
    rfl
  obtain ⟨_, huv, _, htitle⟩ := pressTitle_spec hv
  obtain ⟨hvt, htitle', _⟩ := pressContent_spec h₃
  obtain ⟨honly, hsend⟩ := pressTitle_sends hv
  obtain ⟨honly', hsend'⟩ := pressContent_sends h₃
  have htail := (State.pressTitle_sameLinks hv).tail
  rw [htail] at honly' hsend'
  have hsame : u.titleMessages u.windowlisttail = s.titleMessages u.windowlisttail := by
    unfold State.titleMessages
    rw [hsu.inStrip, hsu.leftOfButtons, hsu.pos, hwnd]
  have hsame' : v.contentMessages u.windowlisttail msg.msg_type =
      s.contentMessages u.windowlisttail msg.msg_type := by
    unfold State.contentMessages State.popupMessage
    rw [(hsu.trans huv).inContent, (hsu.trans huv).pos, honly.popup, hpopup]
  rw [hsame] at hsend
  rw [hsame'] at hsend'
  have hstart : ∀ i, Sends [] i s u := fun i => .nil (hwnd i)
  refine ⟨(hstart _).trans (hsend.trans hsend'), fun i hi => ?_, ?_, ?_, (hsu.trans huv).trans hvt,
    honly'.popup.trans (honly.popup.trans hlinks.popup)⟩
  · exact ((hstart i).trans (.nil (honly.wnd i hi))).trans (.nil (honly'.wnd i hi))
  · rw [htitle', htitle, hsu.inStrip, hsu.leftOfButtons,
      show u.clickedOnTitle = s.clickedOnTitle from hlinks.onTitle]
  · exact (State.pressContent_sameLinks h₃).tail.trans htail

end Pressing

end NorthOS.WindowManager
