import NorthOS.Arrivals
import NorthOS.ButtonRelease

/-!
The coordinates of forwarded mouse messages. A window expects the pointer relative to its
own origin. M_MOUSE_DOWN gives it relative to the popup's, wherever the popup was last, and
a click on the start icon of the dock gives it to the desktop as it is on the screen.
-/
namespace NorthOS.WindowManager

def MsgType.mouse (m : MsgType) : Bool :=
  m.release || decide (m = .M_MOUSE_MOVE) || decide (m = .M_MOUSE_DOWN)

/-- A mouse message has the pointer at `p` relative to the rectangle's origin. -/
def Message.RelativeTo (m : Message) (p : ℤ × ℤ) (r : WinRect) : Prop :=
  m.msg_type.mouse = true → m.params 0 = p.1 - r.xmin ∧ m.params 1 = p.2 - r.ymin

/-- Every mouse message that came into a queue is relative to its window. -/
structure OwnOrigins (s t : State) : Prop where
  window : ∀ i, ∀ m ∈ s.arrivals t i, m.RelativeTo t.wm_mouse_pos (t.windowlist i).wnd.position
  popup : ∀ m ∈ s.popupwindow.wnd.msg_buf.arrivals t.popupwindow.wnd.msg_buf,
    m.RelativeTo t.wm_mouse_pos t.popupwindow.wnd.position

def ForwardsRelative (d : Desk) : Event → Prop
  | .call _ _ _ => True
  | .message msg => msg.msg_type.mouse = true →
      ∀ e, turn d (.message msg) = some e → OwnOrigins d.wm e.wm

namespace State

/-- The press goes to the content of the window, whose queue has room for it. -/
def pressArrives (s : State) (i : ℤ) : Prop :=
  s.inContent i = true ∧ (s.titleMessages i).length < s.room i

/-- The popup has its origin where the window has it. -/
def popupAt (s : State) (i : ℤ) : Prop :=
  s.popupwindow.wnd.position.xmin = (s.windowlist i).wnd.position.xmin ∧
    s.popupwindow.wnd.position.ymin = (s.windowlist i).wnd.position.ymin

/-- A left click now is one on the start icon, and the desktop's queue has room for it. -/
def startArrives (s : State) : Prop :=
  s.clickedOnPopup = false ∧ s.clickedOnContent = true ∧
    (s.windowlisttail = s.desktopId ∧ s.wm_mouse_pos.2 ≥ s.SCREEN_HEIGHT - DOCK_HEIGHT ∧
      s.wm_mouse_pos.2 ≤ s.SCREEN_HEIGHT) ∧
    s.wm_mouse_pos.1 ≤ START_ICON_WIDTH ∧ s.popupwindow.caller ≠ s.desktopId ∧
    s.room s.desktopId ≠ 0

/-- The desktop has its origin in the corner of the screen. -/
def desktopInCorner (s : State) : Prop :=
  (s.windowlist s.desktopId).wnd.position.xmin = 0 ∧
    (s.windowlist s.desktopId).wnd.position.ymin = 0

end State

/-- A press arrives only at a window with the popup's origin, and a click on the start icon
only while the desktop is in the corner. -/
def OriginsMeet (d : Desk) : Event → Prop
  | .call _ _ _ => True
  | .message msg =>
    (msg.msg_type = .M_MOUSE_DOWN → ¬ d.wm.onPopup →
      ∀ A, d.wm.target = some A → d.wm.pressArrives A → d.wm.popupAt A) ∧
    (msg.msg_type = .M_MOUSE_LEFT_CLICK → d.wm.startArrives → d.wm.desktopInCorner)

/-- The windows and the pointer are where they were, and the window is sent messages
relative to its origin. -/
def SendsRelative (s t : State) : Prop :=
  SameShapes s t ∧ t.wm_mouse_pos = s.wm_mouse_pos ∧
    ∀ i, ∃ ms, Sends ms i s t ∧
      ∀ m ∈ ms, m.RelativeTo t.wm_mouse_pos (t.windowlist i).wnd.position

section Sending

variable {s t u : State} {msg : Message}

theorem relativeTo_of_not_mouse {m : Message} (h : m.msg_type.mouse = false) (p : ℤ × ℤ)
    (r : WinRect) : m.RelativeTo p r := fun hm => absurd (h.symm.trans hm) Bool.false_ne_true

namespace SendsRelative

theorem trans (h : SendsRelative s t) (h' : SendsRelative t u) : SendsRelative s u := by
  obtain ⟨hshape, hpos, hsend⟩ := h
  obtain ⟨hshape', hpos', hsend'⟩ := h'
  refine ⟨hshape.trans hshape', hpos'.trans hpos, fun i => ?_⟩
  obtain ⟨ms, hms, hrel⟩ := hsend i
  obtain ⟨ns, hns, hrel'⟩ := hsend' i
  refine ⟨ms ++ ns, hms.trans hns, fun m hm => ?_⟩
  rcases List.mem_append.mp hm with hm | hm
  · rw [hpos', (hshape' i).1]
    exact hrel m hm
  · exact hrel' m hm

/-- Nothing is sent. -/
theorem of_quiet (hlist : t.windowlist = s.windowlist) (hpos : t.wm_mouse_pos = s.wm_mouse_pos) :
    SendsRelative s t := by
  refine ⟨fun i => by rw [hlist]; exact ⟨rfl, rfl⟩, hpos, fun i => ⟨[], .nil (by rw [hlist]), ?_⟩⟩
  intro m hm
  cases hm

theorem of_linksOnly (h : LinksOnly s t) : SendsRelative s t := by
  refine ⟨.of_linksOnly h, h.pos, fun i => ⟨[], .nil (h.wnd i), ?_⟩⟩
  intro m hm
  cases hm

theorem of_dispatchTo {i : ℤ} (h : s.dispatchTo i msg = some t)
    (hrel : msg.RelativeTo s.wm_mouse_pos (s.windowlist i).wnd.position) : SendsRelative s t := by
  have hplaces := dispatchTo_samePlaces h
  obtain ⟨honly, hrec, _⟩ := setWnd_onlyTo h
  refine ⟨hplaces.shapes, hplaces.pos, fun j => ?_⟩
  by_cases hj : j = i
  · subst hj
    refine ⟨[msg], .of_receives hrec, fun m hm => ?_⟩
    rw [List.mem_singleton.mp hm, hplaces.pos, (hplaces.shapes j).1]
    exact hrel
  · exact ⟨[], .nil (honly.wnd j hj), fun m hm => nomatch hm⟩

theorem of_forward {i : ℤ} {m : MsgType} (h : s.forward i m = some t) : SendsRelative s t := by
  obtain ⟨w, hw, hd⟩ := Option.bind_eq_some_iff.mp h
  obtain ⟨_, rfl⟩ := State.slot_eq_some.mp hw
  exact of_dispatchTo hd fun _ => ⟨rfl, rfl⟩

theorem window (h : SendsRelative s t) (i : ℤ) :
    ∀ m ∈ s.arrivals t i, m.RelativeTo t.wm_mouse_pos (t.windowlist i).wnd.position := by
  obtain ⟨ms, hms, hrel⟩ := h.2.2 i
  intro m hm
  rw [hms.arrivals] at hm
  exact hrel m (List.mem_of_mem_take hm)

end SendsRelative

theorem arrivals_self (b : MsgBuf) : b.arrivals b = [] := by
  unfold MsgBuf.arrivals
  rw [Nat.sub_self]
  rfl

theorem SendsRelative.ownOrigins (h : SendsRelative s t) (hpopup : t.popupwindow = s.popupwindow) :
    OwnOrigins s t := by
  refine ⟨h.window, fun m hm => ?_⟩
  rw [hpopup, arrivals_self] at hm
  cases hm

/-- The button comes up: its message is relative to the window at the tail. -/
theorem mouseUp_relative (h : s.mouseUp msg = some t) :
    SendsRelative s t ∧ t.popupwindow = s.popupwindow := by
  obtain ⟨u, hu, h₁⟩ := Option.bind_eq_some_iff.mp h
  have hsu : SendsRelative s u ∧ u.popupwindow = s.popupwindow := by
    split at hu
    · obtain ⟨honly, _⟩ := forward_receives hu
      have hsend := SendsRelative.of_forward hu
      exact ⟨SendsRelative.trans (.of_quiet rfl rfl) hsend, honly.popup⟩
    · rw [← Option.some.inj hu]
      exact ⟨.of_quiet rfl rfl, rfl⟩
  rw [← Option.some.inj h₁]
  exact ⟨hsu.1.trans (.of_quiet rfl rfl), hsu.2⟩

theorem ownOrigins_of_silent (h : ∀ i, Sends [] i s t) (hpopup : t.popupwindow = s.popupwindow) :
    OwnOrigins s t := by
  refine ⟨fun i m hm => ?_, fun m hm => ?_⟩
  · rw [(h i).arrivals_nil] at hm
    cases hm
  · rw [hpopup, arrivals_self] at hm
    cases hm

theorem moveFocusWindow_silent {dx dy : ℤ} (h : s.moveFocusWindow dx dy = some t) :
    (∀ i, Sends [] i s t) ∧ t.popupwindow = s.popupwindow := by
  obtain ⟨w, _, h₁⟩ := Option.bind_eq_some_iff.mp h
  split at h₁
  · obtain ⟨honly, hwnd, _⟩ := setWnd_onlyTo h₁
    refine ⟨fun i => ?_, honly.popup⟩
    by_cases hi : i = s.windowlisttail
    · subst hi
      show (t.windowlist s.windowlisttail).wnd.msg_buf = _
      rw [hwnd]
      rfl
    · exact .nil (honly.wnd i hi)
  · obtain rfl := Option.some.inj h₁
    exact ⟨fun i => .nil rfl, rfl⟩

theorem mouseMove_ownOrigins (h : s.mouseMove msg = some t) : OwnOrigins s t := by
  obtain ⟨hlist, hpopup, _⟩ := movePointer_same s msg
  have hstart : ∀ i, Sends [] i s (s.movePointer msg) := fun i => .nil (by rw [hlist])
  unfold State.mouseMove at h
  simp only at h
  generalize s.movePointer msg = u at h hlist hpopup hstart
  split at h
  · obtain ⟨hsilent, hsame⟩ := moveFocusWindow_silent h
    exact ownOrigins_of_silent (fun i => (hstart i).trans (hsilent i)) (hsame.trans hpopup)
  · split at h
    · -- the pointer has moved when the message is made
      obtain ⟨honly, _⟩ := forward_receives h
      have hown := (SendsRelative.of_forward h).ownOrigins honly.popup
      refine ⟨fun i m hm => hown.window i m ?_, fun m hm => hown.popup m ?_⟩
      · rw [State.arrivals, hlist]
        exact hm
      · rw [hpopup]
        exact hm
    · obtain rfl := Option.some.inj h
      exact ownOrigins_of_silent hstart hpopup

/-- The dock cell under the pointer is not the desktop's. -/
theorem dockWindow_ne_desktop {mouse_x barWidth q : ℤ} {fuel : ℕ} {xStart p : ℤ}
    (h : s.dockWindow mouse_x barWidth fuel xStart p = some q) : q = -1 ∨ q ≠ s.desktopId := by
  induction fuel generalizing xStart p with
  | zero => cases h
  | succ fuel ih =>
    rw [State.dockWindow] at h
    split at h
    · exact Or.inl (Option.some.inj h).symm
    · split at h
      · rename_i hp
        split at h
        · rw [← Option.some.inj h]
          exact Or.inr hp
        · exact ih h
      · exact ih h

theorem minimizeAll_relative {visited : List ℤ} (h : s.minimizeAll visited = some t) :
    SendsRelative s t ∧ (t.windowlist s.desktopId).wnd = (s.windowlist s.desktopId).wnd := by
  induction visited generalizing s with
  | nil =>
    obtain rfl := Option.some.inj h
    exact ⟨.of_quiet rfl rfl, rfl⟩
  | cons p rest ih =>
    obtain ⟨w, _, h₁⟩ := Option.bind_eq_some_iff.mp h
    obtain ⟨u, hu, h₂⟩ := Option.bind_eq_some_iff.mp h₁
    obtain ⟨hut, hdesk⟩ := ih h₂
    split at hu
    · rename_i hp
      have hsu := SendsRelative.of_dispatchTo hu (relativeTo_of_not_mouse rfl _ _)
      obtain ⟨honly, _⟩ := setWnd_onlyTo hu
      rw [(State.dispatchTo_sameLinks hu).desktop] at hdesk
      exact ⟨hsu.trans hut, hdesk.trans (honly.wnd _ (Ne.symm hp.1))⟩
    · obtain rfl := Option.some.inj hu
      exact ⟨hut, hdesk⟩

/-- A click in the dock is about one cell and the right edge, which send no mouse message,
and the start icon, which sends the desktop the pointer as it is. -/
theorem handleDesktopDockClick_relative {mouse_x : ℤ}
    (h : s.handleDesktopDockClick mouse_x msg = some t) :
    t.popupwindow = s.popupwindow ∧ t.clickedOnContent = s.clickedOnContent ∧
      ∃ u, SendsRelative s u ∧ Sends [] s.desktopId s u ∧
        if mouse_x ≤ START_ICON_WIDTH ∧ msg.msg_type = .M_MOUSE_LEFT_CLICK ∧
            s.popupwindow.caller ≠ s.desktopId then
          u.dispatchTo s.desktopId (.at msg.msg_type s.wm_mouse_pos.1 s.wm_mouse_pos.2) = some t
        else u = t := by
  obtain ⟨hpopup, hinput, _⟩ := handleDesktopDockClick_notified h
  refine ⟨hpopup, hinput.onContent, ?_⟩
  obtain ⟨windowCount, _, h₁⟩ := Option.bind_eq_some_iff.mp h
  obtain ⟨u, hu, h₂⟩ := Option.bind_eq_some_iff.mp h₁
  obtain ⟨v, hv, h₃⟩ := Option.bind_eq_some_iff.mp h₂
  have hsu : SendsRelative s u ∧ Sends [] s.desktopId s u ∧ u.desktopId = s.desktopId ∧
      u.popupwindow = s.popupwindow := by
    split at hu
    · obtain ⟨p, hp, hu₁⟩ := Option.bind_eq_some_iff.mp hu
      split at hu₁
      · obtain rfl := Option.some.inj hu₁
        exact ⟨.of_quiet rfl rfl, .nil rfl, rfl, rfl⟩
      · rename_i hsome
        obtain ⟨w, _, hu₂⟩ := Option.bind_eq_some_iff.mp hu₁
        split at hu₂
        · obtain ⟨honly, _⟩ := setWnd_onlyTo hu₂
          have hne := (dockWindow_ne_desktop hp).resolve_left hsome
          exact ⟨.of_dispatchTo hu₂ (relativeTo_of_not_mouse rfl _ _),
            .nil (honly.wnd _ (Ne.symm hne)), (State.dispatchTo_sameLinks hu₂).desktop, honly.popup⟩
        · have hlinks := (State.focusWindow_linksOnly hu₂).1
          exact ⟨.of_linksOnly hlinks, .nil (hlinks.wnd _), hlinks.desktop, hlinks.popup⟩
    · obtain rfl := Option.some.inj hu
      exact ⟨.of_quiet rfl rfl, .nil rfl, rfl, rfl⟩
  obtain ⟨hrel, hquiet, hdesk, hpop⟩ := hsu
  have huv : SendsRelative u v ∧ Sends [] s.desktopId u v ∧ v.desktopId = s.desktopId ∧
      v.popupwindow = s.popupwindow := by
    split at hv
    · obtain ⟨visited, _, hvis⟩ := Option.bind_eq_some_iff.mp hv
      obtain ⟨hmin, hsame⟩ := minimizeAll_relative hvis
      rw [hdesk] at hsame
      exact ⟨hmin, .nil hsame, (State.minimizeAll_sameLinks hvis).desktop.trans hdesk,
        (minimizeAll_notified hvis).1.trans hpop⟩
    · obtain rfl := Option.some.inj hv
      exact ⟨.of_quiet rfl rfl, .nil rfl, hdesk, hpop⟩
  obtain ⟨hrel', hquiet', hdesk', hpop'⟩ := huv
  have hsv := hrel.trans hrel'
  refine ⟨v, hsv, hquiet.trans hquiet', ?_⟩
  rw [hdesk', hpop', hsv.2.1] at h₃
  split at h₃
  · rename_i hstart
    rw [if_pos hstart]
    exact h₃
  · rename_i hstart
    rw [if_neg hstart]
    exact Option.some.inj h₃

/-- The click on the start icon that the desktop is sent as it is. -/
theorem dock_ownOrigins_iff (hdock : s.clickedOnPopup = false ∧ s.clickedOnContent = true ∧
      s.windowlisttail = s.desktopId ∧ s.wm_mouse_pos.2 ≥ s.SCREEN_HEIGHT - DOCK_HEIGHT ∧
        s.wm_mouse_pos.2 ≤ s.SCREEN_HEIGHT)
    (hstart : ∃ v, SendsRelative { s with clickedOnContent := false } v ∧
      Sends [] s.desktopId { s with clickedOnContent := false } v ∧
        if s.wm_mouse_pos.1 ≤ START_ICON_WIDTH ∧ msg.msg_type = .M_MOUSE_LEFT_CLICK ∧
            s.popupwindow.caller ≠ s.desktopId then
          v.dispatchTo s.desktopId (.at msg.msg_type s.wm_mouse_pos.1 s.wm_mouse_pos.2) = some u
        else v = u)
    (hlist : t.windowlist = u.windowlist) (hpos : t.wm_mouse_pos = u.wm_mouse_pos)
    (hpopup : t.popupwindow = s.popupwindow) : OwnOrigins s t ↔
      (msg.msg_type = .M_MOUSE_LEFT_CLICK → s.startArrives → s.desktopInCorner) := by
  obtain ⟨v, hsv, hquiet, hcase⟩ := hstart
  have hsv : SendsRelative s v := SendsRelative.trans (.of_quiet rfl rfl) hsv
  split at hcase
  · rename_i hicon
    obtain ⟨honly, hrec, _⟩ := setWnd_onlyTo hcase
    have hplaces := dispatchTo_samePlaces hcase
    have hclick : Sends [.at msg.msg_type s.wm_mouse_pos.1 s.wm_mouse_pos.2] s.desktopId s t := by
      have hsend := (show Sends [] s.desktopId s v from hquiet).trans (Sends.of_receives hrec)
      exact hsend.trans (.nil (by rw [hlist]))
    have hspot : t.wm_mouse_pos = s.wm_mouse_pos ∧ (t.windowlist s.desktopId).wnd.position =
        (s.windowlist s.desktopId).wnd.position := by
      refine ⟨hpos.trans (hplaces.pos.trans hsv.2.1), ?_⟩
      rw [hlist, (hplaces.shapes _).1, (hsv.1 _).1]
    constructor
    · intro hown _ harrives
      have hmem : Message.at msg.msg_type s.wm_mouse_pos.1 s.wm_mouse_pos.2 ∈
          s.arrivals t s.desktopId := by
        have hroom := harrives.2.2.2.2.2
        rw [hclick.arrivals, List.take_of_length_le (by rw [List.length_singleton]; omega)]
        exact List.mem_singleton_self _
      obtain ⟨hx, hy⟩ := hown.window s.desktopId _ hmem (by rw [Message.at, hicon.2.1]; rfl)
      rw [hspot.1, hspot.2] at hx hy
      have hx' : s.wm_mouse_pos.1 = s.wm_mouse_pos.1 - _ := hx
      have hy' : s.wm_mouse_pos.2 = s.wm_mouse_pos.2 - _ := hy
      exact ⟨by omega, by omega⟩
    · intro hcorner
      refine ⟨fun i m hm => ?_, fun m hm => ?_⟩
      · by_cases hi : i = s.desktopId
        · subst hi
          rw [hclick.arrivals] at hm
          by_cases hroom : s.room s.desktopId = 0
          · rw [hroom, List.take_zero] at hm
            cases hm
          · obtain ⟨hx, hy⟩ := hcorner hicon.2.1
              ⟨hdock.1, hdock.2.1, hdock.2.2, hicon.1, hicon.2.2, hroom⟩
            rw [List.mem_singleton.mp (List.mem_of_mem_take hm), hspot.1, hspot.2]
            intro _
            show s.wm_mouse_pos.1 = _ ∧ s.wm_mouse_pos.2 = _
            omega
        · obtain ⟨ms, hms, hrel⟩ := hsv.2.2 i
          have hsame : (t.windowlist i).wnd = (v.windowlist i).wnd := by
            rw [hlist]
            exact honly.wnd i hi
          have hall : Sends ms i s t := by
            have hsend := hms.trans (Sends.nil hsame)
            rwa [List.append_nil] at hsend
          rw [hall.arrivals] at hm
          have hto := hrel m (List.mem_of_mem_take hm)
          rw [hsv.2.1] at hto
          rw [hspot.1, hsame]
          exact hto
      · rw [hpopup, arrivals_self] at hm
        cases hm
  · rename_i hicon
    subst hcase
    have hrel : SendsRelative s t := hsv.trans (.of_quiet hlist hpos)
    refine iff_of_true (hrel.ownOrigins hpopup) fun hleft harrives => absurd ?_ hicon
    exact ⟨harrives.2.2.2.1, hleft, harrives.2.2.2.2.1⟩

/-- A click is relative to the window or the popup, except on the start icon. -/
theorem mouseClick_ownOrigins_iff (h : s.mouseClick msg = some t) :
    OwnOrigins s t ↔
      (msg.msg_type = .M_MOUSE_LEFT_CLICK → s.startArrives → s.desktopInCorner) := by
  unfold State.mouseClick at h
  simp only at h
  split at h
  · rename_i hon
    refine iff_of_true ?_ fun _ hstart => absurd (hstart.1.symm.trans hon) Bool.false_ne_true
    obtain ⟨hrel, hpopup⟩ := mouseUp_relative h
    refine ⟨fun i m hm => hrel.window i m hm, fun m hm => ?_⟩
    have harrive := MsgBuf.arrivals_foldl s.popupwindow.wnd.msg_buf [s.popupMessage msg.msg_type]
    rw [hpopup] at hm ⊢
    have hmem : m ∈ [s.popupMessage msg.msg_type].take _ := harrive ▸ hm
    rw [List.mem_singleton.mp (List.mem_of_mem_take hmem), hrel.2.1]
    exact fun _ => ⟨rfl, rfl⟩
  rename_i hoff
  have hoff : s.clickedOnPopup = false := (Bool.not_eq_true _).mp hoff
  split at h
  · rename_i hcontent
    split at h
    · rename_i hdock
      obtain ⟨u, hu, hup⟩ := Option.bind_eq_some_iff.mp h
      obtain ⟨hpopup, hoffContent, hstart⟩ := handleDesktopDockClick_relative hu
      obtain ⟨hlist, hpopup'⟩ := mouseUp_released hoffContent hup
      have hut := (mouseUp_relative hup).1
      exact dock_ownOrigins_iff ⟨hoff, hcontent, hdock⟩ hstart hlist hut.2.1 (hpopup'.trans hpopup)
    · rename_i hdock
      obtain ⟨honly, _⟩ := forward_receives h
      have hsend := SendsRelative.of_forward h
      have hrel : SendsRelative s t := SendsRelative.trans (.of_quiet rfl rfl) hsend
      exact iff_of_true (hrel.ownOrigins honly.popup) fun _ hstart => absurd hstart.2.2.1 hdock
  · rename_i hcontent
    obtain ⟨hrel, hpopup⟩ := mouseUp_relative h
    exact iff_of_true (hrel.ownOrigins hpopup) fun _ hstart => absurd hstart.2.1 hcontent

/-- A press is given relative to the popup's origin. -/
theorem mouseDown_ownOrigins_iff (h : s.mouseDown msg = some t)
    (hmsg : msg.msg_type = .M_MOUSE_DOWN) : OwnOrigins s t ↔
      (¬ s.onPopup → ∀ A, s.target = some A → s.pressArrives A → s.popupAt A) := by
  by_cases hpop : s.onPopup
  · rw [mouseDown_onPopup hpop] at h
    rw [← Option.some.inj h]
    exact iff_of_true (ownOrigins_of_silent (fun _ => .nil rfl) rfl) fun hnot => absurd hpop hnot
  obtain ⟨u, v, _, htarget, -, -⟩ := mouseDown_target h hpop
  generalize u.windowlisttail = A at htarget
  obtain ⟨hsend, hother, _, _, hplaces, hpopup⟩ := mouseDown_sends h hpop htarget
  have harrive : s.arrivals t A = (s.titleMessages A).take (s.room A) ++
      (s.contentMessages A msg.msg_type).take (s.room A - (s.titleMessages A).length) := by
    rw [hsend.arrivals, List.take_append]
  constructor
  · intro hown _ B hB hpress
    obtain rfl : A = B := Option.some.inj (htarget.symm.trans hB)
    have hmem : s.popupMessage msg.msg_type ∈ s.arrivals t A := by
      rw [harrive, State.contentMessages, if_pos hpress.1]
      refine List.mem_append_right _ ?_
      rw [List.take_of_length_le (by rw [List.length_singleton]; have := hpress.2; omega)]
      exact List.mem_singleton_self _
    obtain ⟨hx, hy⟩ := hown.window A _ hmem (by rw [State.popupMessage, Message.at, hmsg]; rfl)
    rw [hplaces.pos, (hplaces.shapes A).1] at hx hy
    have hx' : s.wm_mouse_pos.1 - s.popupwindow.wnd.position.xmin = s.wm_mouse_pos.1 - _ := hx
    have hy' : s.wm_mouse_pos.2 - s.popupwindow.wnd.position.ymin = s.wm_mouse_pos.2 - _ := hy
    exact ⟨by omega, by omega⟩
  · intro hmeet
    refine ⟨fun i m hm => ?_, fun m hm => ?_⟩
    · by_cases hi : i = A
      · subst hi
        rw [harrive] at hm
        rcases List.mem_append.mp hm with hm | hm
        · rw [(mem_titleMessages_iff.mp (List.mem_of_mem_take hm)).2.2]
          refine relativeTo_of_not_mouse ?_ _ _
          split <;> rfl
        · have hroom : (s.titleMessages i).length < s.room i := by
            by_contra hfull
            rw [Nat.sub_eq_zero_of_le (by omega), List.take_zero] at hm
            cases hm
          have hmem := List.mem_of_mem_take hm
          unfold State.contentMessages at hmem
          split at hmem
          · rename_i hcontent
            obtain ⟨hx, hy⟩ := hmeet hpop i htarget ⟨hcontent, hroom⟩
            rw [List.mem_singleton.mp hmem, hplaces.pos, (hplaces.shapes i).1]
            unfold Message.RelativeTo
            rw [← hx, ← hy]
            exact fun _ => ⟨rfl, rfl⟩
          · cases hmem
      · rw [(hother i hi).arrivals_nil] at hm
        cases hm
    · have hclose := MsgBuf.arrivals_foldl s.popupwindow.wnd.msg_buf [.plain .WM_WINDOW_CLOSE]
      rw [hpopup] at hm
      have hmem : m ∈ [Message.plain .WM_WINDOW_CLOSE].take _ := hclose ▸ hm
      rw [List.mem_singleton.mp (List.mem_of_mem_take hmem)]
      exact relativeTo_of_not_mouse rfl _ _

theorem forwardsRelative_iff {d e : Desk} {ev : Event} (he : turn d ev = some e) :
    ForwardsRelative d ev ↔ OriginsMeet d ev := by
  cases ev with
  | call p c locals => exact Iff.rfl
  | message msg =>
    obtain ⟨t, ht, rfl⟩ := Option.map_eq_some_iff.mp he
    have hnext : ForwardsRelative d (.message msg) ↔
        (msg.msg_type.mouse = true → OwnOrigins d.wm t) := by
      constructor
      · intro h hmouse
        exact h hmouse _ he
      · intro h hmouse e' he'
        rw [← Option.some.inj (he.symm.trans he')]
        exact h hmouse
    have hdown : msg.msg_type = .M_MOUSE_DOWN →
        (OwnOrigins d.wm t ↔ OriginsMeet d (.message msg)) := by
      intro hmsg
      rw [State.wmHandleMessage, hmsg] at ht
      have hleft : msg.msg_type ≠ .M_MOUSE_LEFT_CLICK := by
        rw [hmsg]
        decide
      rw [mouseDown_ownOrigins_iff ht hmsg]
      exact ⟨fun h => ⟨fun _ => h, fun h' => absurd h' hleft⟩, fun h => h.1 hmsg⟩
    have hclick : msg.msg_type.click = true → d.wm.mouseClick msg = some t →
        (OwnOrigins d.wm t ↔ OriginsMeet d (.message msg)) := by
      intro hkind hc
      rw [mouseClick_ownOrigins_iff hc]
      refine ⟨fun h => ⟨fun h' => ?_, h⟩, fun h => h.2⟩
      rw [h'] at hkind
      cases hkind
    have hother : msg.msg_type ≠ .M_MOUSE_DOWN → msg.msg_type ≠ .M_MOUSE_LEFT_CLICK →
        (msg.msg_type.mouse = true → OwnOrigins d.wm t) →
        ((msg.msg_type.mouse = true → OwnOrigins d.wm t) ↔ OriginsMeet d (.message msg)) :=
      fun h₁ h₂ hown => iff_of_true hown ⟨fun h => absurd h h₁, fun h => absurd h h₂⟩
    rw [hnext]
    cases hmsg : msg.msg_type with
    | M_MOUSE_DOWN => exact (forall_prop_of_true rfl).trans (hdown hmsg)
    | M_MOUSE_LEFT_CLICK =>
      rw [State.wmHandleMessage, hmsg] at ht
      exact (forall_prop_of_true rfl).trans (hclick (by rw [hmsg]; rfl) ht)
    | M_MOUSE_RIGHT_CLICK =>
      rw [State.wmHandleMessage, hmsg] at ht
      exact (forall_prop_of_true rfl).trans (hclick (by rw [hmsg]; rfl) ht)
    | M_MOUSE_DBCLICK =>
      rw [State.wmHandleMessage, hmsg] at ht
      exact (forall_prop_of_true rfl).trans (hclick (by rw [hmsg]; rfl) ht)
    | M_MOUSE_MOVE =>
      rw [State.wmHandleMessage, hmsg] at ht
      exact hmsg ▸ hother (by simp [hmsg]) (by simp [hmsg]) fun _ => mouseMove_ownOrigins ht
    | M_MOUSE_UP =>
      rw [State.wmHandleMessage, hmsg] at ht
      obtain ⟨hrel, hpopup⟩ := mouseUp_relative ht
      exact hmsg ▸ hother (by simp [hmsg]) (by simp [hmsg]) fun _ => hrel.ownOrigins hpopup
    | _ =>
      exact hmsg ▸ hother (by simp [hmsg]) (by simp [hmsg]) fun hmouse => by
        rw [hmsg] at hmouse
        cases hmouse

end Sending

/-- In a run every forwarded mouse message is relative to its receiver exactly if every
press that arrives finds the popup's origin at the pressed window's, and every click on the
start icon that arrives finds the desktop in the corner. -/
theorem meets_forwardsRelative_iff (table : ℤ → WindowSlot) (popup : PopupWindow)
    (width height : ℤ) (es : List Event) :
    Runs.Meets turn ForwardsRelative (init table popup width height) es ↔
      Runs.Meets turn OriginsMeet (init table popup width height) es :=
  Runs.meets_iff_meets (I := fun _ => True) (fun _ _ _ _ _ _ => trivial)
    (fun _ _ _ _ he => forwardsRelative_iff he) trivial

/-- A window in the middle of the screen is pressed before any popup was opened. -/
def pressMiddle : List Event :=
  let locals : Locals := ⟨none, none, 0, false⟩
  [.call 1 (.createWindow (some ⟨⟨0, 800, 0, 600⟩, false, 0, 800, 600, 0⟩) (some [])) locals,
    .call 2 (.createWindow (some ⟨⟨350, 450, 250, 350⟩, true, 1, 100, 100, 0⟩) (some [])) locals,
    .message (.plain .M_MOUSE_DOWN)]

theorem not_meets_forwardsRelative :
    ¬ ∀ (table : ℤ → WindowSlot) (popup : PopupWindow) (width height : ℤ) (es : List Event),
      Runs.Meets turn ForwardsRelative (init table popup width height) es := by
  intro h
  have hrun := h (fun _ => ⟨0, blankWindow, 0, 0⟩) ⟨0, blankWindow, 0⟩ 800 600 pressMiddle
  obtain ⟨_, h₁⟩ := hrun _ rfl
  obtain ⟨_, h₂⟩ := h₁ _ rfl
  obtain ⟨h₃, _⟩ := h₂ _ rfl
  have hown := h₃ rfl _ rfl
  exact absurd (hown.window 1 (.at .M_MOUSE_DOWN 400 300) List.mem_cons_self rfl).1 (by decide)

end NorthOS.WindowManager
