import NorthOS.WindowCalls

/-!
Which calls and messages stay inside windowlist. The entry points check neither
their arguments nor their handlers, and wmHandleMessage indexes windowlist with the
tail also while the list is empty. Runs of careful calls, with no key and no press
before the first window, never leave the table and never panic.
-/
namespace NorthOS.WindowManager

/-- The call fails before it looks at an argument that may have been rejected. -/
def Refused (d : Desk) (myproc : ℕ) : Call → Prop
  | .createPopupWindow _ _ => d.wm.popupwindow.caller ≠ -1
  | .createWindow _ _ => d.wm.findNextAvailableWindowId = -1
  | .getMessage (some h) _ => State.inTable h ∧
      ((d.wm.windowlist h).proc ≠ myproc ∨ (d.wm.windowlist h).wnd.msg_buf.cnt = 0)
  | .getPopupMessage _ =>
    d.wm.popupwindow.caller = -1 ∨ d.wm.popupwindow.wnd.msg_buf.cnt = 0
  | _ => False

/-- A careful or refused call, or a message with a window to receive it. -/
def Admissible (d : Desk) : Event → Prop
  | .call myproc c _ => Careful d myproc c ∨ Refused d myproc c
  | .message msg =>
    (msg.msg_type = .M_KEY_DOWN ∨ msg.msg_type = .M_KEY_UP → d.live ≠ []) ∧
      (msg.msg_type = .M_MOUSE_DOWN → ¬ d.wm.onPopup → d.live ≠ [])

/-- The event stays inside the table and does not panic, and a call with a rejected
argument is an error without effect. -/
def Safe (d : Desk) : Event → Prop
  | .call myproc c locals => ∃ t r, d.wm.call myproc locals c = some (t, r) ∧
      (c.rejected = true → r.result ≠ 0 ∧ t = d.wm)
  | .message msg => ∃ t, d.wm.wmHandleMessage msg = some t

variable {d e : Desk}

theorem Careful.accepted {p : ℕ} {c : Call} (h : Careful d p c) : c.rejected = false := by
  cases c with
  | closeWindow wnd =>
    cases wnd with
    | none => exact h
    | some w => rfl
  | minimizeWindow wnd =>
    cases wnd with
    | none => exact h
    | some w => rfl
  | maximizeWindow wnd =>
    cases wnd with
    | none => exact h
    | some w => rfl
  | getMessage i res =>
    cases i with
    | none => exact h
    | some i => simp [Call.rejected, h.2]
  | updateScreen => rfl
  | _ => exact h

/-- A refused call answers 1 and changes nothing. -/
theorem Refused.call {p : ℕ} {c : Call} (h : Refused d p c) (locals : Locals) :
    ∃ r, d.wm.call p locals c = some (d.wm, r) ∧ r.result = 1 ∧ r.window = none := by
  cases c with
  | createPopupWindow wnd caller =>
    have hopen : d.wm.popupwindow.caller ≠ -1 := h
    refine ⟨⟨1, none, none⟩, ?_, rfl, rfl⟩
    simp only [State.call]
    rw [if_pos hopen]
  | createWindow wnd title =>
    have hfull : d.wm.findNextAvailableWindowId = -1 := h
    refine ⟨⟨1, none, none⟩, ?_, rfl, rfl⟩
    simp only [State.call]
    rw [if_pos hfull]
  | getMessage i res =>
    cases i with
    | none => exact absurd h id
    | some i =>
      obtain ⟨hrange, hcase⟩ := h
      refine ⟨⟨1, none, none⟩, ?_, rfl, rfl⟩
      simp only [State.call, Option.getD_some, State.slot_returns d.wm hrange,
        Option.bind_eq_bind, Option.bind_some]
      by_cases hp : p = (d.wm.windowlist i).proc
      · have hcnt := hcase.resolve_left (not_not.mpr hp.symm)
        rw [if_neg (not_not.mpr hp), getMessage, if_pos hcnt]
      · rw [if_pos hp]
  | getPopupMessage res =>
    refine ⟨⟨1, none, none⟩, ?_, rfl, rfl⟩
    simp only [State.call]
    by_cases hc : d.wm.popupwindow.caller = -1
    · rw [if_pos hc]
    · rw [if_neg hc, getMessage, if_pos (h.resolve_left hc)]
  | _ => exact absurd h id

/-- A careful call returns. -/
theorem Careful.call {p : ℕ} {c : Call} (h : Careful d p c) (hd : Good d) (locals : Locals) :
    ∃ r, d.wm.call p locals c = some r := by
  obtain ⟨l, hl⟩ := hd.inv
  have haccepted := h.accepted
  cases c with
  | createPopupWindow wnd caller =>
    simp only [Call.rejected, Bool.or_eq_false_iff, Option.isNone_eq_false_iff,
      Option.isSome_iff_exists] at haccepted
    obtain ⟨⟨w, rfl⟩, _⟩ := haccepted
    simp only [State.call]
    split
    · exact ⟨_, rfl⟩
    · exact ⟨_, rfl⟩
  | closePopupWindow wnd =>
    simp only [Call.rejected, Option.isNone_eq_false_iff, Option.isSome_iff_exists] at haccepted
    obtain ⟨w, rfl⟩ := haccepted
    exact ⟨_, rfl⟩
  | createWindow wnd title =>
    simp only [Call.rejected, Bool.or_eq_false_iff, Option.isNone_eq_false_iff,
      Option.isSome_iff_exists] at haccepted
    obtain ⟨⟨w, rfl⟩, ⟨name, rfl⟩⟩ := haccepted
    simp only [State.call]
    split
    · exact ⟨_, rfl⟩
    · obtain ⟨r, hr⟩ := State.createWindow_returns hl.linked p w name
      refine ⟨(r.1, ⟨r.2.2, some r.2.1, none⟩), ?_⟩
      refine Option.bind_eq_some_iff.mpr ⟨w, rfl, Option.bind_eq_some_iff.mpr ⟨name, rfl, ?_⟩⟩
      exact Option.bind_eq_some_iff.mpr ⟨r, hr, rfl⟩
  | closeWindow wnd =>
    cases wnd with
    | none => cases h
    | some w =>
      obtain ⟨r, hr⟩ := State.closeWindow_returns hl.linked (hl.live.mem_iff.mpr h.1)
      exact ⟨_, Option.bind_eq_some_iff.mpr ⟨r, hr, rfl⟩⟩
  | minimizeWindow wnd =>
    cases wnd with
    | none => cases h
    | some w =>
      obtain ⟨r, hr⟩ := State.minimizeWindow_returns hl.linked (hl.live.mem_iff.mpr h)
      exact ⟨_, Option.bind_eq_some_iff.mpr ⟨r, hr, rfl⟩⟩
  | maximizeWindow wnd =>
    cases wnd with
    | none => cases h
    | some w =>
      obtain ⟨r, hr⟩ := State.maximizeWindow_returns hl.linked (hl.live.mem_iff.mpr h)
      exact ⟨_, Option.bind_eq_some_iff.mpr ⟨r, hr, rfl⟩⟩
  | getMessage i res =>
    cases i with
    | none => cases h
    | some i =>
      obtain ⟨hrange, rfl⟩ := h
      simp only [State.call, Option.getD_some, State.slot_returns d.wm hrange,
        Option.bind_eq_bind, Option.bind_some, Bool.true_or, if_true]
      split
      · exact ⟨_, rfl⟩
      · split
        · exact ⟨_, rfl⟩
        · rename_i msg buf _
          obtain ⟨t, ht⟩ : ∃ t, d.wm.setWnd i (fun k => { k with msg_buf := buf }) = some t :=
            State.setSlot_returns d.wm hrange _
          exact ⟨_, by rw [ht]; rfl⟩
  | getPopupMessage res =>
    simp only [Call.rejected, Bool.not_eq_false'] at haccepted
    subst haccepted
    simp only [State.call, Bool.true_or, if_true]
    split
    · exact ⟨_, rfl⟩
    · split
      · exact ⟨_, rfl⟩
      · exact ⟨_, rfl⟩
  | updateScreen =>
    obtain ⟨hne, hp⟩ := h
    have hscreen := hl.wellFormed.screen_ends (hd.named hne)
    rw [← hp] at hscreen
    obtain ⟨r, hr⟩ := Option.isSome_iff_exists.mp hscreen
    exact ⟨_, Option.bind_eq_some_iff.mpr ⟨r, hr, rfl⟩⟩
  | turnoffScreen =>
    obtain ⟨r, hr⟩ := Option.isSome_iff_exists.mp hl.wellFormed.turnoff_ends
    exact ⟨_, Option.bind_eq_some_iff.mpr ⟨r, hr, rfl⟩⟩

theorem Good.safe (h : Good d) {ev : Event} (hC : Admissible d ev) : Safe d ev := by
  cases ev with
  | call p c locals =>
    rcases hC with hC | hC
    · obtain ⟨⟨t, r⟩, hr⟩ := hC.call h locals
      refine ⟨t, r, hr, fun hrejected => ?_⟩
      rw [hC.accepted] at hrejected
      cases hrejected
    · obtain ⟨r, hr, hone, _⟩ := hC.call locals
      exact ⟨d.wm, r, hr, fun _ => ⟨by rw [hone]; decide, rfl⟩⟩
  | message msg =>
    obtain ⟨l, hl⟩ := h.inv
    have hne : d.live ≠ [] → l ≠ [] := by
      rintro hlive rfl
      exact hlive (List.nil_perm.mp hl.live)
    exact State.wmHandleMessage_returns hl.linked hl.desktop (fun hf => hne (h.flags hf)) msg
      (fun hk => hne (hC.1 hk)) fun hk hp => hne (hC.2 hk hp)

theorem Good.turn (h : Good d) {ev : Event} (hC : Admissible d ev)
    (ht : WindowManager.turn d ev = some e) : Good e := by
  cases ev with
  | call p c locals =>
    rcases hC with hC | hC
    · exact h.call (hC.named locals) ht
    · obtain ⟨r, hr, hone, hwnd⟩ := hC.call locals
      have hlive : liveAfter d.live locals r c = d.live := by
        cases c with
        | createWindow wnd title => simp [liveAfter, hwnd]
        | closeWindow wnd => exact absurd hC id
        | _ => rfl
      simp only [WindowManager.turn, hr, Option.map_some, hlive, Option.some.injEq] at ht
      rw [← ht]
      exact h
  | message msg => exact h.message ht

/-- Runs of admissible events never leave the table and never panic. -/
theorem along_safe (table : ℤ → WindowSlot) (popup : PopupWindow) (width height : ℤ)
    (es : List Event) (h : Runs.Along turn Admissible (init table popup width height) es) :
    Runs.Along turn Safe (init table popup width height) es :=
  Runs.along_of_along (fun _ _ hd hC => hd.safe hC) (fun _ _ _ hd hC ht => hd.turn hC ht)
    (Good.init table popup width height) h

/-- A window is created and the screen turned off. -/
theorem along_safe_create :
    let es : List Event := [.call 1 (.createWindow (some ⟨⟨0, 800, 0, 600⟩, false, 0, 800, 600, 0⟩)
      (some [])) ⟨none, none, 0, false⟩, .call 1 .turnoffScreen ⟨none, none, 0, false⟩]
    Runs.Along turn Admissible boot es ∧ Runs.Along turn Safe boot es := by
  intro es
  have hC : Runs.Along turn Admissible boot es :=
    ⟨Or.inl rfl, fun _ _ => ⟨Or.inl rfl, fun _ _ => trivial⟩⟩
  exact ⟨hC, along_safe _ _ 800 600 es hC⟩

/-- A key pressed before any window exists is dispatched to windowlist[-1]. -/
theorem not_along_safe :
    ¬ ∀ (table : ℤ → WindowSlot) (popup : PopupWindow) (width height : ℤ) (es : List Event),
      Runs.Along turn Safe (init table popup width height) es := by
  intro h
  obtain ⟨⟨t, ht⟩, _⟩ := h (fun _ => ⟨0, blankWindow, 0, 0⟩) ⟨0, blankWindow, 0⟩ 800 600
    [.message (.plain .M_KEY_DOWN)]
  cases ht

end NorthOS.WindowManager
