import NorthOS.Arrivals
import NorthOS.HitTest

/-!
Pressing the title bar. M_MOUSE_DOWN takes the title bar of the focused window from its
rectangle alone, with or without a bar, down to and with the first row of the content, and
finds the buttons by 30 and 60 columns where drawWindowBar paints them by TITLE_HEIGHT.
-/
namespace NorthOS.WindowManager

open Gui

def drawMinimizeBox (W H : ℤ) (win : KernelWindow) : List Stroke :=
  drawRectByCoord W H (win.position.xmax + 1 - 2 * TITLE_HEIGHT) (win.position.ymin - TITLE_HEIGHT)
    (win.position.xmax + 1 - TITLE_HEIGHT) win.position.ymin minimizeColor

def drawCloseBox (W H : ℤ) (win : KernelWindow) : List Stroke :=
  drawRectByCoord W H (win.position.xmax + 1 - TITLE_HEIGHT) (win.position.ymin - TITLE_HEIGHT)
    (win.position.xmax + 1) win.position.ymin closeColor

theorem drawWindowBar_boxes (W H : ℤ) (win : KernelWindow) (barcolor : RGBA) :
    drawWindowBar W H win barcolor =
      drawRectByCoord W H win.position.xmin (win.position.ymin - TITLE_HEIGHT)
        (win.position.xmax + 1 - 2 * TITLE_HEIGHT) win.position.ymin barcolor ++
      drawMinimizeBox W H win ++ drawCloseBox W H win := rfl

namespace State

/-- The pointer is on a pixel of the screen. -/
def onScreen (s : State) : Prop :=
  (0 ≤ s.wm_mouse_pos.1 ∧ s.wm_mouse_pos.1 < s.SCREEN_WIDTH) ∧
    0 ≤ s.wm_mouse_pos.2 ∧ s.wm_mouse_pos.2 < s.SCREEN_HEIGHT

/-- The drawing has a pixel under the pointer. -/
def painted (s : State) (drawing : List Stroke) : Prop :=
  covers s.SCREEN_WIDTH drawing s.wm_mouse_pos.1 s.wm_mouse_pos.2 = true

/-- The pointer is in the rows of the window's title bar, and in its columns or in those
of its buttons. -/
def inBar (s : State) (i : ℤ) : Prop :=
  let r := (s.windowlist i).wnd.position
  (r.ymin - TITLE_HEIGHT ≤ s.wm_mouse_pos.2 ∧ s.wm_mouse_pos.2 < r.ymin) ∧
    s.wm_mouse_pos.1 ≤ r.xmax ∧
    (r.xmin ≤ s.wm_mouse_pos.1 ∨ r.xmax - 2 * TITLE_HEIGHT < s.wm_mouse_pos.1)

/-- The window has a title bar, and the pointer is on it. -/
def onTitleBar (s : State) (i : ℤ) : Prop :=
  (s.windowlist i).wnd.hasTitleBar = true ∧ s.inBar i

theorem painted_bar_iff {s : State} (h : s.onScreen) (i : ℤ) (barcolor : RGBA) :
    s.painted (drawWindowBar s.SCREEN_WIDTH s.SCREEN_HEIGHT (s.windowlist i).wnd barcolor) ↔
      s.inBar i :=
  covers_drawWindowBar _ _ h.1 h.2

/-- The press in the strip of the title changes something: the queue has room for the
request, or no drag is on yet. -/
def takesEffect (s : State) (i : ℤ) : Prop :=
  if s.leftOfButtons i then s.clickedOnTitle = false else s.room i ≠ 0

/-- A press sends the window a request or starts a drag. -/
def titlePressed (s : State) (i : ℤ) : Prop := s.inStrip i = true ∧ s.takesEffect i

end State

/-- The window is sent a message of this type. -/
def State.getsAsked (s t : State) (i : ℤ) (m : MsgType) : Prop :=
  ∃ msg ∈ s.arrivals t i, msg.msg_type = m

def State.startsDrag (s t : State) (i : ℤ) : Prop :=
  t.clickedOnTitle = true ∧ s.clickedOnTitle = false ∧ t.windowlisttail = i

/-- The press closes the window in the painted close box, minimizes it in the painted
minimize box, and starts a drag elsewhere. -/
structure BoxesAgree (s t : State) (i : ℤ) : Prop where
  close : s.getsAsked t i .WM_WINDOW_CLOSE ↔
    s.painted (drawCloseBox s.SCREEN_WIDTH s.SCREEN_HEIGHT (s.windowlist i).wnd)
  minimize : s.getsAsked t i .WM_WINDOW_MINIMIZE ↔
    s.painted (drawMinimizeBox s.SCREEN_WIDTH s.SCREEN_HEIGHT (s.windowlist i).wnd)
  drag : s.startsDrag t i ↔
    ¬ s.painted (drawCloseBox s.SCREEN_WIDTH s.SCREEN_HEIGHT (s.windowlist i).wnd) ∧
      ¬ s.painted (drawMinimizeBox s.SCREEN_WIDTH s.SCREEN_HEIGHT (s.windowlist i).wnd)

/-- The press reaches the window inside its columns and takes effect, and it is in none of
the six columns where the hit test is ahead of the painted boxes: two of the minimize box
and four left of it. -/
structure PressFits (s : State) (i : ℤ) : Prop where
  reaches : ¬ s.onPopup ∧ s.target = some i
  inside : (s.windowlist i).wnd.position.xmin ≤ s.wm_mouse_pos.1
  close : ¬ ((s.windowlist i).wnd.position.xmax - 30 < s.wm_mouse_pos.1 ∧
    s.wm_mouse_pos.1 ≤ (s.windowlist i).wnd.position.xmax - TITLE_HEIGHT)
  minimize : ¬ ((s.windowlist i).wnd.position.xmax - 60 < s.wm_mouse_pos.1 ∧
    s.wm_mouse_pos.1 ≤ (s.windowlist i).wnd.position.xmax - 2 * TITLE_HEIGHT)
  effect : s.takesEffect i

def Asks (m : Message) : Prop := m.msg_type = .WM_WINDOW_CLOSE ∨ m.msg_type = .WM_WINDOW_MINIMIZE

/-- Only a window on whose title bar the pointer is was asked to close or minimize or is
dragged, and the desktop was not asked to close. -/
structure TitleRespected (s t : State) : Prop where
  asked : ∀ i, ∀ m ∈ s.arrivals t i, Asks m → s.onTitleBar i
  dragged : t.clickedOnTitle = true → s.clickedOnTitle = false → s.onTitleBar t.windowlisttail
  desktop : ∀ m ∈ s.arrivals t s.desktopId, m.msg_type ≠ .WM_WINDOW_CLOSE

def RespectsTitle (d : Desk) : Event → Prop
  | .call _ _ _ => True
  | .message msg => msg.msg_type = .M_MOUSE_DOWN →
      ∀ e, turn d (.message msg) = some e → TitleRespected d.wm e.wm

/-- A press that goes to the strip above a window goes to its title bar, and not to the
desktop's last 30 columns. -/
def PressesTitleBar (d : Desk) : Event → Prop
  | .call _ _ _ => True
  | .message msg => msg.msg_type = .M_MOUSE_DOWN → ¬ d.wm.onPopup →
      ∀ A, d.wm.target = some A → d.wm.titlePressed A →
        d.wm.onTitleBar A ∧ (A = d.wm.desktopId →
          d.wm.wm_mouse_pos.1 + 30 ≤ (d.wm.windowlist A).wnd.position.xmax)

section Pressing

variable {A : ℤ} {s t : State} {msg : Message}

/-- The requests that a press brings to its target: one, if there is room for it. -/
theorem asked_iff (h : Sends (s.titleMessages A ++ s.contentMessages A .M_MOUSE_DOWN) A s t)
    {m : Message} (hm : Asks m) :
    m ∈ s.arrivals t A ↔ m ∈ s.titleMessages A ∧ s.room A ≠ 0 := by
  rw [h.arrivals, List.take_append, List.mem_append]
  have hcontent : m ∉ (s.contentMessages A .M_MOUSE_DOWN).take
      (s.room A - (s.titleMessages A).length) := by
    intro hmem
    have hmem' := List.mem_of_mem_take hmem
    unfold State.contentMessages at hmem'
    split at hmem'
    · rw [List.mem_singleton.mp hmem'] at hm
      rcases hm with hm | hm
      · cases hm
      · cases hm
    · cases hmem'
  rw [or_iff_left hcontent]
  have hlen := length_titleMessages (s := s) A
  by_cases hroom : s.room A = 0
  · rw [hroom, List.take_zero]
    exact ⟨fun h => (nomatch h), fun h => absurd rfl h.2⟩
  · rw [List.take_of_length_le (by omega)]
    exact ⟨fun h => ⟨h, hroom⟩, fun h => h.1⟩

theorem titlePressed_iff (i : ℤ) : s.titlePressed i ↔
    (∃ m, m ∈ s.titleMessages i ∧ s.room i ≠ 0) ∨
      (s.inStrip i = true ∧ s.leftOfButtons i = true ∧ s.clickedOnTitle = false) := by
  simp only [State.titlePressed, State.takesEffect, mem_titleMessages_iff]
  cases s.leftOfButtons i with
  | true => simp
  | false => simp

theorem titleRespected_iff (h : s.mouseDown msg = some t) (hmsg : msg.msg_type = .M_MOUSE_DOWN) :
    TitleRespected s t ↔ (¬ s.onPopup → ∀ A, s.target = some A → s.titlePressed A →
      s.onTitleBar A ∧ (A = s.desktopId →
        s.wm_mouse_pos.1 + 30 ≤ (s.windowlist A).wnd.position.xmax)) := by
  by_cases hpop : s.onPopup
  · -- a press on the popup changes no queue and starts no drag
    rw [mouseDown_onPopup hpop] at h
    rw [← Option.some.inj h]
    have hnone : ∀ i, s.arrivals { s with clickedOnPopup := true } i = [] :=
      fun i => (Sends.nil rfl).arrivals_nil
    refine iff_of_true ⟨fun i m hm => ?_, fun hon hoff => ?_, fun m hm => ?_⟩
      fun hnot => absurd hpop hnot
    · rw [hnone] at hm
      cases hm
    · exact absurd (hoff.symm.trans hon) Bool.false_ne_true
    · rw [hnone] at hm
      cases hm
  obtain ⟨u, v, hlinks, htarget, -, -⟩ := mouseDown_target h hpop
  generalize hA : u.windowlisttail = A at htarget
  obtain ⟨hsend, hother, htitle, htail, _⟩ := mouseDown_sends h hpop htarget
  rw [hmsg] at hsend
  have hasked := fun {m : Message} (hm : Asks m) => asked_iff hsend hm
  have hnone : ∀ i, i ≠ A → s.arrivals t i = [] := fun i hi => (hother i hi).arrivals_nil
  have htype : ∀ m ∈ s.titleMessages A, Asks m := by
    intro m hm
    rw [(mem_titleMessages_iff.mp hm).2.2]
    unfold Asks
    split
    · exact Or.inl rfl
    · exact Or.inr rfl
  constructor
  · intro hres _ B hB hpress
    obtain rfl : A = B := Option.some.inj (htarget.symm.trans hB)
    rw [titlePressed_iff] at hpress
    rcases hpress with ⟨m, hm, hroom⟩ | ⟨hstrip, hleft, hoff⟩
    · refine ⟨hres.asked A m ((hasked (htype m hm)).mpr ⟨hm, hroom⟩) (htype m hm), ?_⟩
      rintro rfl
      by_contra hclose
      have hkind := hres.desktop m ((hasked (htype m hm)).mpr ⟨hm, hroom⟩)
      rw [(mem_titleMessages_iff.mp hm).2.2, if_pos (by omega)] at hkind
      exact hkind rfl
    · refine ⟨?_, fun _ => ?_⟩
      · rw [← htail]
        refine hres.dragged ?_ hoff
        rw [htitle, hstrip, hleft]
        simp
      · simp only [State.leftOfButtons, decide_eq_true_eq] at hleft
        omega
  · intro hcond
    have hbar := hcond hpop A htarget
    refine ⟨fun i m hm hask => ?_, fun hon hoff => ?_, fun m hm hclose => ?_⟩
    · by_cases hi : i = A
      · subst hi
        exact (hbar ((titlePressed_iff i).mpr (Or.inl ⟨m, (hasked hask).mp hm⟩))).1
      · rw [hnone i hi] at hm
        cases hm
    · rw [htail]
      rw [htitle, hoff, Bool.false_or, Bool.and_eq_true] at hon
      exact (hbar ((titlePressed_iff A).mpr (Or.inr ⟨hon.1, hon.2, hoff⟩))).1
    · by_cases hi : s.desktopId = A
      · rw [hi] at hm
        obtain ⟨hm', hroom⟩ := (hasked (Or.inl hclose)).mp hm
        have hfar := (hbar ((titlePressed_iff A).mpr (Or.inl ⟨m, hm', hroom⟩))).2 hi.symm
        rw [(mem_titleMessages_iff.mp hm').2.2, if_neg (by omega)] at hclose
        cases hclose
      · rw [hnone _ hi] at hm
        cases hm

theorem eq_ite_close {c : Prop} [Decidable c] :
    (MsgType.WM_WINDOW_CLOSE = if c then .WM_WINDOW_CLOSE else .WM_WINDOW_MINIMIZE) ↔ c := by
  split
  · rename_i hc
    exact iff_of_true rfl hc
  · rename_i hc
    exact iff_of_false (fun h => nomatch h) hc

theorem eq_ite_minimize {c : Prop} [Decidable c] :
    (MsgType.WM_WINDOW_MINIMIZE = if c then .WM_WINDOW_CLOSE else .WM_WINDOW_MINIMIZE) ↔ ¬ c := by
  split
  · rename_i hc
    exact iff_of_false (fun h => nomatch h) (fun hnot => hnot hc)
  · rename_i hc
    exact iff_of_true rfl hc

/-- What a press sends its target, by the columns. -/
theorem getsAsked_iff (h : Sends (s.titleMessages A ++ s.contentMessages A .M_MOUSE_DOWN) A s t)
    {m : MsgType} (hm : m = .WM_WINDOW_CLOSE ∨ m = .WM_WINDOW_MINIMIZE) :
    s.getsAsked t A m ↔ (s.inStrip A = true ∧ s.leftOfButtons A = false ∧
      m = (if s.wm_mouse_pos.1 + 30 > (s.windowlist A).wnd.position.xmax then .WM_WINDOW_CLOSE
        else .WM_WINDOW_MINIMIZE)) ∧ s.room A ≠ 0 := by
  constructor
  · rintro ⟨msg, hmem, rfl⟩
    obtain ⟨hsent, hroom⟩ := (asked_iff h hm).mp hmem
    obtain ⟨hstrip, hleft, heq⟩ := mem_titleMessages_iff.mp hsent
    exact ⟨⟨hstrip, hleft, congrArg Message.msg_type heq⟩, hroom⟩
  · rintro ⟨⟨hstrip, hleft, rfl⟩, hroom⟩
    refine ⟨.plain _, (asked_iff h (m := .plain _) hm).mpr ⟨?_, hroom⟩, rfl⟩
    exact mem_titleMessages_iff.mpr ⟨hstrip, hleft, rfl⟩

theorem not_boxesAgree {i : ℤ} (hnone : s.arrivals t i = []) (hdrag : ¬ s.startsDrag t i) :
    ¬ BoxesAgree s t i := by
  intro h
  have hquiet : ∀ m, ¬ s.getsAsked t i m := by
    rintro m ⟨msg, hmem, _⟩
    rw [hnone] at hmem
    cases hmem
  exact hdrag (h.drag.mpr ⟨fun hc => hquiet _ (h.close.mpr hc),
    fun hm => hquiet _ (h.minimize.mpr hm)⟩)

/-- The columns in which the hit test and the painted boxes agree. -/
theorem columns_agree_iff {x xmin xmax : ℤ} {room free : Prop} (hright : x ≤ xmax) :
    (((xmin ≤ x ∧ ¬ x + 60 ≤ xmax ∧ x + 30 > xmax) ∧ room ↔ xmax + 1 - TITLE_HEIGHT ≤ x) ∧
      ((xmin ≤ x ∧ ¬ x + 60 ≤ xmax ∧ ¬ x + 30 > xmax) ∧ room ↔
        xmax + 1 - 2 * TITLE_HEIGHT ≤ x ∧ x < xmax + 1 - TITLE_HEIGHT) ∧
      ((xmin ≤ x ∧ x + 60 ≤ xmax) ∧ free ↔ ¬ xmax + 1 - TITLE_HEIGHT ≤ x ∧
        ¬ (xmax + 1 - 2 * TITLE_HEIGHT ≤ x ∧ x < xmax + 1 - TITLE_HEIGHT))) ↔
      xmin ≤ x ∧ ¬ (xmax - 30 < x ∧ x ≤ xmax - TITLE_HEIGHT) ∧
        ¬ (xmax - 60 < x ∧ x ≤ xmax - 2 * TITLE_HEIGHT) ∧
        if x + 60 ≤ xmax then free else room := by
  simp only [TITLE_HEIGHT]
  split
  · rename_i hfit
    simp only [hfit, not_true_eq_false, false_and, and_false, and_true, false_iff]
    by_cases hfree : free
    · simp only [hfree, and_true]
      constructor
      · rintro ⟨hc, hm, hd⟩
        omega
      · intro hout
        refine ⟨?_, ?_, ?_⟩ <;> omega
    · simp only [hfree, and_false, false_iff, iff_false]
      omega
  · rename_i hfit
    simp only [hfit, not_false_eq_true, false_and, and_false, true_and, false_iff]
    by_cases hroom : room
    · simp only [hroom, and_true]
      constructor
      · rintro ⟨hc, hm, hd⟩
        omega
      · intro hout
        refine ⟨?_, ?_, ?_⟩ <;> omega
    · simp only [hroom, and_false, false_iff, iff_false]
      omega

/-- A press on a painted title bar does what is painted there exactly if it fits. -/
theorem boxesAgree_iff (hscreen : s.onScreen) (hmsg : msg.msg_type = .M_MOUSE_DOWN)
    (hbar : s.painted (drawWindowBar s.SCREEN_WIDTH s.SCREEN_HEIGHT (s.windowlist A).wnd
      titleBarColor))
    (h : s.wmHandleMessage msg = some t) : BoxesAgree s t A ↔ PressFits s A := by
  rw [State.wmHandleMessage, hmsg] at h
  have hdown : s.mouseDown msg = some t := h
  by_cases hpop : s.onPopup
  · rw [mouseDown_onPopup hpop] at hdown
    rw [← Option.some.inj hdown]
    refine iff_of_false (not_boxesAgree (Sends.nil rfl).arrivals_nil fun hd => ?_)
      fun hfit => hfit.reaches.1 hpop
    exact absurd (hd.2.1.symm.trans hd.1) Bool.false_ne_true
  obtain ⟨u, v, _, htarget, -, -⟩ := mouseDown_target hdown hpop
  generalize u.windowlisttail = B at htarget
  obtain ⟨hsend, hother, htitle, htail, _⟩ := mouseDown_sends hdown hpop htarget
  by_cases hAB : A = B
  swap
  · refine iff_of_false (not_boxesAgree (hother A hAB).arrivals_nil fun hd => ?_) fun hfit => ?_
    · exact hAB (hd.2.2.symm.trans htail)
    · exact hAB (Option.some.inj (hfit.reaches.2.symm.trans htarget))
  subst hAB
  rw [hmsg] at hsend
  rw [State.painted_bar_iff hscreen] at hbar
  obtain ⟨hrows, hright, _⟩ := hbar
  have hcloseBox : s.painted (drawCloseBox s.SCREEN_WIDTH s.SCREEN_HEIGHT (s.windowlist A).wnd) ↔
      (s.windowlist A).wnd.position.xmax + 1 - TITLE_HEIGHT ≤ s.wm_mouse_pos.1 :=
    (covers_drawRectByCoord closeColor hscreen.1 hscreen.2).trans (by omega)
  have hminBox : s.painted (drawMinimizeBox s.SCREEN_WIDTH s.SCREEN_HEIGHT (s.windowlist A).wnd) ↔
      (s.windowlist A).wnd.position.xmax + 1 - 2 * TITLE_HEIGHT ≤ s.wm_mouse_pos.1 ∧
        s.wm_mouse_pos.1 < (s.windowlist A).wnd.position.xmax + 1 - TITLE_HEIGHT :=
    (covers_drawRectByCoord minimizeColor hscreen.1 hscreen.2).trans (by omega)
  have hstrip : s.inStrip A = true ↔ (s.windowlist A).wnd.position.xmin ≤ s.wm_mouse_pos.1 := by
    unfold State.inStrip
    rw [isInRect_iff]
    omega
  have hleft : s.leftOfButtons A = decide (s.wm_mouse_pos.1 + 60 ≤
    (s.windowlist A).wnd.position.xmax) := rfl
  have hclose := getsAsked_iff hsend (Or.inl rfl)
  have hmin := getsAsked_iff hsend (Or.inr rfl)
  have hdrag : s.startsDrag t A ↔
      (s.inStrip A = true ∧ s.leftOfButtons A = true) ∧ s.clickedOnTitle = false := by
    unfold State.startsDrag
    rw [htitle, htail]
    cases s.clickedOnTitle <;> simp
  have hagree : BoxesAgree s t A ↔ (_ ↔ _) ∧ (_ ↔ _) ∧ (_ ↔ _) :=
    ⟨fun h => ⟨h.close, h.minimize, h.drag⟩, fun h => ⟨h.1, h.2.1, h.2.2⟩⟩
  have hfits : PressFits s A ↔ _ ∧ _ ∧ _ ∧ _ :=
    ⟨fun h => ⟨h.inside, h.close, h.minimize, h.effect⟩,
      fun h => ⟨⟨hpop, htarget⟩, h.1, h.2.1, h.2.2.1, h.2.2.2⟩⟩
  rw [hagree, hfits, hclose, hmin, hdrag, hcloseBox, hminBox, hstrip, State.takesEffect, hleft]
  simp only [eq_ite_close, eq_ite_minimize, decide_eq_true_eq, decide_eq_false_iff_not]
  exact columns_agree_iff hright

/-- A press in the close box of a small window. -/
theorem boxesAgree_smallWindow : ∃ d t,
    Runs.run turn boot (smallWindow ⟨399, 402, 310, 313⟩ true) = some d ∧
      d.wm.wmHandleMessage (.plain .M_MOUSE_DOWN) = some t ∧ BoxesAgree d.wm t 1 := by
  obtain ⟨d, t, hrun, ht, hscreen, hbar, hfits⟩ : ∃ d t,
      Runs.run turn boot (smallWindow ⟨399, 402, 310, 313⟩ true) = some d ∧
        d.wm.wmHandleMessage (.plain .M_MOUSE_DOWN) = some t ∧ d.wm.onScreen ∧ d.wm.inBar 1 ∧
        PressFits d.wm 1 := by
    refine ⟨_, _, rfl, rfl, ⟨by decide +kernel, by decide +kernel⟩, ?_,
      ⟨by decide +kernel, by decide +kernel, by decide +kernel, by decide +kernel, ?_⟩⟩
    · unfold State.inBar
      decide +kernel
    · unfold State.takesEffect
      decide +kernel
  have hpainted := (State.painted_bar_iff hscreen 1 titleBarColor).mpr hbar
  exact ⟨d, t, hrun, ht, (boxesAgree_iff hscreen rfl hpainted ht).mpr hfits⟩

/-- The desktop with a window whose minimize box is under the pointer. -/
def minimizeBoxUnderPointer : List Event :=
  let locals : Locals := ⟨none, none, 0, false⟩
  [.call 1 (.createWindow (some ⟨⟨0, 800, 0, 600⟩, false, 0, 800, 600, 0⟩) (some [])) locals,
    .call 2 (.createWindow (some ⟨⟨328, 428, 310, 410⟩, true, 1, 100, 100, 0⟩) (some [])) locals]

/-- A press in the painted minimize box closes the window. -/
theorem not_boxesAgree_always : ¬ ∀ (es : List Event) (d : Desk) (t : State) (A : ℤ),
    Runs.run turn boot es = some d → d.wm.onScreen → ¬ d.wm.onPopup → d.wm.target = some A →
      (d.wm.windowlist A).wnd.hasTitleBar = true →
      d.wm.painted (drawWindowBar d.wm.SCREEN_WIDTH d.wm.SCREEN_HEIGHT (d.wm.windowlist A).wnd
        titleBarColor) →
      d.wm.wmHandleMessage (.plain .M_MOUSE_DOWN) = some t → BoxesAgree d.wm t A := by
  intro h
  obtain ⟨d, t, hrun, ht, hscreen, hpopup, htarget, htitled, hbar, hasked, hleft⟩ : ∃ d t,
      Runs.run turn boot minimizeBoxUnderPointer = some d ∧
        d.wm.wmHandleMessage (.plain .M_MOUSE_DOWN) = some t ∧ d.wm.onScreen ∧ ¬ d.wm.onPopup ∧
        d.wm.target = some 1 ∧ (d.wm.windowlist 1).wnd.hasTitleBar = true ∧ d.wm.inBar 1 ∧
        d.wm.getsAsked t 1 .WM_WINDOW_CLOSE ∧
        d.wm.wm_mouse_pos.1 < (d.wm.windowlist 1).wnd.position.xmax + 1 - TITLE_HEIGHT := by
    refine ⟨_, _, rfl, rfl, ⟨by decide +kernel, by decide +kernel⟩, by decide +kernel,
      by decide +kernel, by decide +kernel, ?_, ⟨.plain .WM_WINDOW_CLOSE, ?_, rfl⟩,
      by decide +kernel⟩
    · unfold State.inBar
      decide +kernel
    · exact List.mem_cons_self
  have hagree := h _ d t 1 hrun hscreen hpopup htarget htitled
    ((State.painted_bar_iff hscreen 1 _).mpr hbar) ht
  have hbox := (covers_drawRectByCoord closeColor hscreen.1 hscreen.2).mp (hagree.close.mp hasked)
  omega

theorem respectsTitle_iff {d e : Desk} {ev : Event} (he : turn d ev = some e) :
    RespectsTitle d ev ↔ PressesTitleBar d ev := by
  cases ev with
  | call p c locals => exact Iff.rfl
  | message msg =>
    obtain ⟨t, ht, rfl⟩ := Option.map_eq_some_iff.mp he
    refine imp_congr_right fun hmsg => ?_
    rw [State.wmHandleMessage, hmsg] at ht
    rw [← titleRespected_iff ht hmsg]
    constructor
    · intro h
      exact h _ he
    · intro h e' he'
      rw [← Option.some.inj (he.symm.trans he')]
      exact h

end Pressing

/-- In a run every press respects the title bars exactly if each that has an effect above
a window is on the title bar of the window, and none is at the end of the desktop's. -/
theorem meets_respectsTitle_iff (table : ℤ → WindowSlot) (popup : PopupWindow)
    (width height : ℤ) (es : List Event) :
    Runs.Meets turn RespectsTitle (init table popup width height) es ↔
      Runs.Meets turn PressesTitleBar (init table popup width height) es :=
  Runs.meets_iff_meets (I := fun _ => True) (fun _ _ _ _ _ _ => trivial)
    (fun _ _ _ _ he => respectsTitle_iff he) trivial

/-- The pointer moves into the upper right corner of the desktop, which is pressed there. -/
def pressCorner : List Event :=
  [.call 1 (.createWindow (some ⟨⟨0, 800, 0, 600⟩, false, 0, 800, 600, 0⟩) (some []))
      ⟨none, none, 0, false⟩,
    .message (.at .M_MOUSE_MOVE 200 150), .message (.at .M_MOUSE_MOVE 190 150),
    .message (.plain .M_MOUSE_DOWN)]

/-- The desktop has no title bar and is asked to close. -/
theorem not_meets_respectsTitle :
    ¬ ∀ (table : ℤ → WindowSlot) (popup : PopupWindow) (width height : ℤ) (es : List Event),
      Runs.Meets turn RespectsTitle (init table popup width height) es := by
  intro h
  have hrun := h (fun _ => ⟨0, blankWindow, 0, 0⟩) ⟨0, blankWindow, 0⟩ 800 600 pressCorner
  obtain ⟨_, h₁⟩ := hrun _ rfl
  obtain ⟨_, h₂⟩ := h₁ _ rfl
  obtain ⟨_, h₃⟩ := h₂ _ rfl
  obtain ⟨h₄, _⟩ := h₃ _ rfl
  have hres := h₄ rfl _ rfl
  exact hres.desktop (.plain .WM_WINDOW_CLOSE) List.mem_cons_self rfl

end NorthOS.WindowManager
