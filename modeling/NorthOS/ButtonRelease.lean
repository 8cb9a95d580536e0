import NorthOS.PointerCapture

/-!
What is left of a press once the button is up. M_MOUSE_UP clears all that a press has
set, and a click falls through to it, except where it is forwarded to the focused window:
that case leaves the switch early and with it a drag of the title.
-/
namespace NorthOS.WindowManager

def MsgType.click : MsgType → Bool
  | .M_MOUSE_LEFT_CLICK => true
  | .M_MOUSE_RIGHT_CLICK => true
  | .M_MOUSE_DBCLICK => true
  | _ => false

/-- The messages a button sends when it comes up. -/
def MsgType.release (m : MsgType) : Bool := m.click || decide (m = .M_MOUSE_UP)

/-- No press is remembered, and the pointer has its usual shape. -/
structure Idle (s : State) : Prop where
  title : s.clickedOnTitle = false
  content : s.clickedOnContent = false
  popup : s.clickedOnPopup = false
  shape : s.mouseShape = 0

section Steps

variable {s t : State} {msg : Message}

/-- One press sets both flags only in the row that the title shares with the content. -/
theorem mouseDown_both (h : s.mouseDown msg = some t)
    (hoff : s.clickedOnTitle = false ∧ s.clickedOnContent = false)
    (hboth : t.clickedOnTitle = true ∧ t.clickedOnContent = true) :
    ∃ A, s.target = some A ∧ s.wm_mouse_pos.2 = (s.windowlist A).wnd.position.ymin := by
  by_cases hpop : s.onPopup
  · rw [mouseDown_onPopup hpop] at h
    rw [← Option.some.inj h] at hboth
    exact absurd (hoff.1.symm.trans hboth.1) Bool.false_ne_true
  obtain ⟨u, v, hlinks, htarget, hv, h₃⟩ := mouseDown_target h hpop
  have hsu : SamePlaces s u := ⟨.of_linksOnly (s := s.dispatchPopup _) hlinks, hlinks.pos,
    hlinks.onPopup⟩
  obtain ⟨_, huv, hcontent, htitle⟩ := pressTitle_spec hv
  obtain ⟨_, htitle', hcontent'⟩ := pressContent_spec h₃
  have hutitle : u.clickedOnTitle = false := hlinks.onTitle.trans hoff.1
  have hucontent : u.clickedOnContent = false := hlinks.onContent.trans hoff.2
  rw [htitle', htitle, hutitle, hcontent', hcontent, hucontent,
    (State.pressTitle_sameLinks hv).tail, (hsu.trans huv).inContent, hsu.inStrip] at hboth
  simp only [Bool.false_or, Bool.and_eq_true, State.inStrip, State.inContent, isInRect,
    decide_eq_true_eq] at hboth
  exact ⟨_, htarget, by omega⟩

end Steps

end NorthOS.WindowManager
