import NorthOS.WindowList

/-!
The desktop over whole runs: windows are created, closed, minimized, maximized
and refocused in any order, beside the popup. Every call that does not close the
head of the list or the desktop only reorders the list, adds a window to it or
takes one out, so the list stays well formed; the two other closes break it.
-/
namespace NorthOS.WindowManager

open IndexList

/-- The list of `t` is a reordering of the list of `s`, whichever that is. -/
def Reorders (s t : State) : Prop :=
  ∀ l, Linked s l → s.desktopId = -1 ∨ s.desktopId ∈ l →
    ∃ l', Linked t l' ∧ l'.Perm l ∧ t.desktopId = s.desktopId

variable {s t u : State}

theorem SameLinks.reorders (h : SameLinks s t) : Reorders s t :=
  fun l hl _ => ⟨l, hl.congr h, List.Perm.refl l, h.desktop⟩

theorem Reorders.trans (h : Reorders s t) (h' : Reorders t u) : Reorders s u := by
  intro l hl hd
  obtain ⟨l₁, hl₁, hp₁, hd₁⟩ := h l hl hd
  have hd' : t.desktopId = -1 ∨ t.desktopId ∈ l₁ := by
    rw [hd₁, hp₁.mem_iff]
    exact hd
  obtain ⟨l₂, hl₂, hp₂, hd₂⟩ := h' l₁ hl₁ hd'
  exact ⟨l₂, hl₂, hp₂.trans hp₁, hd₂.trans hd₁⟩

namespace State

theorem focusWindow_reorders {x : ℤ}
    (hx : ∀ l, Linked s l → s.desktopId = -1 ∨ s.desktopId ∈ l → x = -1 ∨ x ∈ l)
    (h : s.focusWindow x = some t) : Reorders s t :=
  fun l hl hd => focusWindow_spec hl (hx l hl hd) h

theorem dispatchPopup_sameLinks (s : State) (msg : Message) : SameLinks s (s.dispatchPopup msg) :=
  ⟨rfl, rfl, rfl, rfl, rfl⟩

theorem movePointer_sameLinks (s : State) (msg : Message) : SameLinks s (s.movePointer msg) := by
  unfold movePointer
  split <;> exact ⟨rfl, rfl, rfl, rfl, rfl⟩

theorem minimizeAll_sameLinks {visited : List ℤ} (h : s.minimizeAll visited = some t) :
    SameLinks s t := by
  induction visited generalizing s with
  | nil =>
    cases h
    exact .refl _
  | cons p rest ih =>
    obtain ⟨w, _, h₁⟩ := Option.bind_eq_some_iff.mp h
    obtain ⟨v, hv, h₂⟩ := Option.bind_eq_some_iff.mp h₁
    have hsv : SameLinks s v := by
      split at hv
      · exact dispatchTo_sameLinks hv
      · cases hv
        exact .refl s
    exact hsv.trans (ih h₂)

/-- The dock offers listed windows only. -/
theorem dockWindow_mem {mouse_x barWidth p : ℤ} {l : List ℤ} {q : ℤ} {fuel : ℕ} {xStart : ℤ}
    (hseg : Seg s.next s.prev p l (-1))
    (h : s.dockWindow mouse_x barWidth fuel xStart (l.headD (-1)) = some q) :
    q = -1 ∨ q ∈ l := by
  induction l generalizing p fuel xStart with
  | nil =>
    cases fuel with
    | zero => cases h
    | succ fuel =>
      rw [dockWindow, if_pos (show ([] : List ℤ).headD (-1) = -1 from rfl)] at h
      exact Or.inl (Option.some.inj h).symm
  | cons x l ih =>
    obtain ⟨_, hnext, hrest⟩ := hseg
    cases fuel with
    | zero => cases h
    | succ fuel =>
      simp only [dockWindow, List.headD_cons, hnext] at h
      have later : ∀ start : ℤ,
          s.dockWindow mouse_x barWidth fuel start (l.headD (-1)) = some q →
          q = -1 ∨ q ∈ x :: l := by
        intro start hq
        rcases ih hrest hq with hq' | hq'
        · exact Or.inl hq'
        · exact Or.inr (List.mem_cons_of_mem x hq')
      split at h
      · exact Or.inl (Option.some.inj h).symm
      · split at h
        · split at h
          · rw [← Option.some.inj h]
            exact Or.inr List.mem_cons_self
          · exact later _ h
        · exact later _ h

theorem handleDesktopDockClick_reorders {mouse_x : ℤ} {msg : Message}
    (h : s.handleDesktopDockClick mouse_x msg = some t) : Reorders s t := by
  obtain ⟨windowCount, _, h₁⟩ := Option.bind_eq_some_iff.mp h
  obtain ⟨u, hu, h₂⟩ := Option.bind_eq_some_iff.mp h₁
  obtain ⟨v, hv, h₃⟩ := Option.bind_eq_some_iff.mp h₂
  -- a dock cell restores its window or focuses it
  have hsu : Reorders s u := by
    split at hu
    · obtain ⟨p, hp, hu₁⟩ := Option.bind_eq_some_iff.mp hu
      split at hu₁
      · cases hu₁
        exact (SameLinks.refl s).reorders
      · obtain ⟨w, _, hu₂⟩ := Option.bind_eq_some_iff.mp hu₁
        split at hu₂
        · exact (dispatchTo_sameLinks hu₂).reorders
        · apply focusWindow_reorders _ hu₂
          intro l hl _
          rw [hl.head] at hp
          exact dockWindow_mem hl.seg hp
    · cases hu
      exact (SameLinks.refl s).reorders
  -- the right edge minimizes every window
  have huv : SameLinks u v := by
    split at hv
    · obtain ⟨visited, _, hv₁⟩ := Option.bind_eq_some_iff.mp hv
      exact minimizeAll_sameLinks hv₁
    · rw [← Option.some.inj hv]
      exact .refl u
  have hvt : SameLinks v t := by
    split at h₃
    · exact dispatchTo_sameLinks h₃
    · rw [← Option.some.inj h₃]
      exact .refl v
  exact hsu.trans (huv.trans hvt).reorders

theorem mouseMove_reorders {msg : Message} (h : s.mouseMove msg = some t) : Reorders s t := by
  have hptr := movePointer_sameLinks s msg
  unfold mouseMove at h
  simp only at h
  split at h
  · have hmove := moveFocusWindow_sameLinks h
    refine (hptr.trans (SameLinks.trans ?_ hmove)).reorders
    exact ⟨rfl, rfl, rfl, rfl, rfl⟩
  · split at h
    · exact (hptr.trans (forward_sameLinks h)).reorders
    · rw [← Option.some.inj h]
      exact hptr.reorders

theorem pressTitle_sameLinks (h : s.pressTitle = some t) : SameLinks s t := by
  obtain ⟨w, _, h₁⟩ := Option.bind_eq_some_iff.mp h
  simp only at h₁
  split at h₁
  · split at h₁
    · exact dispatchTo_sameLinks h₁
    · split at h₁
      · exact dispatchTo_sameLinks h₁
      · obtain rfl := Option.some.inj h₁
        exact ⟨rfl, rfl, rfl, rfl, rfl⟩
  · obtain rfl := Option.some.inj h₁
    exact .refl s

theorem pressContent_sameLinks {msg : Message} (h : s.pressContent msg = some t) :
    SameLinks s t := by
  obtain ⟨w, _, h₁⟩ := Option.bind_eq_some_iff.mp h
  simp only at h₁
  split at h₁
  · have hsame := dispatchTo_sameLinks h₁
    refine SameLinks.trans ?_ hsame
    exact ⟨rfl, rfl, rfl, rfl, rfl⟩
  · obtain rfl := Option.some.inj h₁
    exact .refl s

theorem mouseDown_reorders {msg : Message} (h : s.mouseDown msg = some t) : Reorders s t := by
  unfold mouseDown at h
  simp only at h
  split at h
  · obtain rfl := Option.some.inj h
    exact SameLinks.reorders ⟨rfl, rfl, rfl, rfl, rfl⟩
  · obtain ⟨p, hp, h₁⟩ := Option.bind_eq_some_iff.mp h
    obtain ⟨u, hu, h₂⟩ := Option.bind_eq_some_iff.mp h₁
    obtain ⟨v, hv, h₃⟩ := Option.bind_eq_some_iff.mp h₂
    have hpop := dispatchPopup_sameLinks s (.plain .WM_WINDOW_CLOSE)
    have hfocus : Reorders (s.dispatchPopup (.plain .WM_WINDOW_CLOSE)) u := by
      split at hu
      · apply focusWindow_reorders _ hu
        intro l _ hd
        exact hd
      · apply focusWindow_reorders _ hu
        intro l hl _
        have hlast : (s.dispatchPopup (.plain .WM_WINDOW_CLOSE)).windowlisttail =
            l.reverse.headD (-1) := by
          rw [hl.tail]
          simp
        rw [hlast, hl.seg.reverse.search (fun x hx => hl.ne_null x (by simpa using hx)) _
          (by simpa using hl.length_lt_fuel), Option.some.injEq] at hp
        rw [← hp]
        cases hf : l.reverse.find? (s.dispatchPopup (.plain .WM_WINDOW_CLOSE)).hit with
        | none => exact Or.inl rfl
        | some q => exact Or.inr (by simpa using List.mem_of_find?_eq_some hf)
    have huv := pressTitle_sameLinks hv
    have hvt := pressContent_sameLinks h₃
    exact hpop.reorders.trans (hfocus.trans (huv.trans hvt).reorders)

theorem mouseUp_sameLinks {msg : Message} (h : s.mouseUp msg = some t) : SameLinks s t := by
  obtain ⟨u, hu, h₁⟩ := Option.bind_eq_some_iff.mp h
  have hsu : SameLinks s u := by
    split at hu
    · have hsame := forward_sameLinks hu
      refine SameLinks.trans ?_ hsame
      exact ⟨rfl, rfl, rfl, rfl, rfl⟩
    · obtain rfl := Option.some.inj hu
      exact ⟨rfl, rfl, rfl, rfl, rfl⟩
  obtain rfl := Option.some.inj h₁
  exact hsu.trans ⟨rfl, rfl, rfl, rfl, rfl⟩

theorem mouseClick_reorders {msg : Message} (h : s.mouseClick msg = some t) :
    Reorders s t := by
  unfold mouseClick at h
  simp only at h
  split at h
  · have hup := mouseUp_sameLinks h
    refine (SameLinks.trans ?_ hup).reorders
    exact ⟨rfl, rfl, rfl, rfl, rfl⟩
  · split at h
    · split at h
      · obtain ⟨u, hu, h₁⟩ := Option.bind_eq_some_iff.mp h
        have hdock := handleDesktopDockClick_reorders hu
        have hup := mouseUp_sameLinks h₁
        refine Reorders.trans (SameLinks.reorders ?_) (hdock.trans hup.reorders)
        exact ⟨rfl, rfl, rfl, rfl, rfl⟩
      · have hf := forward_sameLinks h
        refine (SameLinks.trans ?_ hf).reorders
        exact ⟨rfl, rfl, rfl, rfl, rfl⟩
    · exact (mouseUp_sameLinks h).reorders

/-- No message adds a window to the list or takes one out. -/
theorem wmHandleMessage_reorders {msg : Message} (h : s.wmHandleMessage msg = some t) :
    Reorders s t := by
  unfold wmHandleMessage at h
  split at h
  · exact mouseMove_reorders h
  · exact mouseDown_reorders h
  · exact mouseClick_reorders h
  · exact mouseClick_reorders h
  · exact mouseClick_reorders h
  · exact (mouseUp_sameLinks h).reorders
  · exact (dispatchTo_sameLinks h).reorders
  · exact (dispatchTo_sameLinks h).reorders
  · obtain rfl := Option.some.inj h
    exact (SameLinks.refl s).reorders

end State

/-- The window manager together with the ids its clients hold. -/
structure Desk where
  wm : State
  live : List ℤ

inductive Action
  | create (myproc : ℕ) (window : Window) (title : List UInt8)
  | close (window : Window)
  | minimize (window : Window)
  | maximize (window : Window)
  | message (msg : Message)
  | createPopup (myproc : ℕ) (window : Window) (caller : ℤ)
  | closePopup (window : Window)

/-- Close, minimize and maximize are called with the handler of a live window. -/
def step (d : Desk) : Action → Option Desk
  | .create myproc window title =>
    (d.wm.createWindow myproc window title).map fun r =>
      ⟨r.1, if r.2.2 = 0 then r.2.1.handler :: d.live else d.live⟩
  | .close window =>
    if window.handler ∈ d.live then
      (d.wm.closeWindow window).map fun r => ⟨r.1, d.live.erase window.handler⟩
    else none
  | .minimize window =>
    if window.handler ∈ d.live then
      (d.wm.minimizeWindow window).map fun s => { d with wm := s }
    else none
  | .maximize window =>
    if window.handler ∈ d.live then
      (d.wm.maximizeWindow window).map fun s => { d with wm := s }
    else none
  | .message msg => (d.wm.wmHandleMessage msg).map fun s => { d with wm := s }
  | .createPopup myproc window caller =>
    some { d with wm := (d.wm.createPopupWindow myproc window caller).1 }
  | .closePopup window => some { d with wm := (d.wm.closePopupWindow window).1 }

def init (table : ℤ → WindowSlot) (popup : PopupWindow) (width height : ℤ) : Desk :=
  ⟨wmInit table popup width height, []⟩

/-- The list holds every live window once, in both directions, and the loops over it
end. -/
structure WellFormed (d : Desk) : Prop where
  once : d.live.Nodup
  visits : ∃ l, l.Perm d.live ∧ walk d.wm.next loopFuel d.wm.windowlisthead = some l ∧
    d.wm.windowlisttail = l.getLastD (-1)
  last : d.live ≠ [] → d.wm.next d.wm.windowlisttail = -1
  inverse : ∀ x ∈ d.live, ∀ y ∈ d.live, d.wm.next x = y ↔ d.wm.prev y = x
  first : d.live ≠ [] → d.wm.prev d.wm.windowlisthead = -1
  free : ∀ i, 0 ≤ i → i < (MAX_WINDOW_CNT : ℤ) → i ∉ d.live →
    d.wm.next i = i ∧ d.wm.prev i = i
  empty : d.live = [] → d.wm.windowlisthead = -1 ∧ d.wm.windowlisttail = -1
  desktop : d.wm.desktopId = -1 ∨ d.wm.desktopId ∈ d.live
  count_ends : d.wm.getWindowCount.isSome
  screen_ends : d.wm.desktopId ≠ -1 →
    (d.wm.updateScreen (d.wm.windowlist d.wm.desktopId).proc).isSome
  dock_ends : ∀ mouse_x barWidth xStart,
    (d.wm.dockWindow mouse_x barWidth loopFuel xStart d.wm.windowlisthead).isSome
  turnoff_ends : d.wm.turnoffScreen.isSome

/-- The call does not close the head of the list or the desktop. -/
def Clean (d : Desk) : Action → Prop
  | .close window =>
    window.handler ≠ d.wm.windowlisthead ∧ window.handler ≠ d.wm.desktopId
  | _ => True

structure Inv (d : Desk) (l : List ℤ) : Prop where
  linked : Linked d.wm l
  live : l.Perm d.live
  desktop : d.wm.desktopId = -1 ∨ d.wm.desktopId ∈ l

theorem Linked.next_iff_prev {l : List ℤ} (h : Linked s l) :
    ∀ x ∈ l, ∀ y ∈ l, s.next x = y ↔ s.prev y = x := by
  intro x hx y hy
  have hnull := h.ne_null
  constructor
  · rintro rfl
    obtain ⟨l₁, l₂, rfl⟩ := List.append_of_mem hx
    obtain ⟨_, _, hn, hseg⟩ := seg_append.mp h.seg
    cases l₂ with
    | nil => exact absurd hn (hnull _ hy)
    | cons z l₂ =>
      rw [show s.next x = z from hn]
      exact hseg.1
  · rintro rfl
    obtain ⟨l₁, l₂, rfl⟩ := List.append_of_mem hy
    obtain ⟨_, hp, _, _⟩ := seg_append.mp h.seg
    rcases List.eq_nil_or_concat l₁ with rfl | ⟨l₁, z, rfl⟩
    · exact absurd hp (hnull _ hx)
    · have hz : s.prev y = z := by
        rw [hp, List.concat_eq_append, getLastD_append]
        rfl
      have hseg := h.seg
      rw [List.concat_eq_append, List.append_assoc, seg_append] at hseg
      rw [hz]
      exact hseg.2.2.1

theorem State.dockWindow_isSome {l : List ℤ} {p : ℤ} (hseg : Seg s.next s.prev p l (-1))
    (hnull : ∀ x ∈ l, x ≠ -1) (mouse_x barWidth : ℤ) {fuel : ℕ} (hfuel : l.length < fuel)
    (xStart : ℤ) : (s.dockWindow mouse_x barWidth fuel xStart (l.headD (-1))).isSome := by
  induction l generalizing p fuel xStart with
  | nil =>
    cases fuel with
    | zero => simp at hfuel
    | succ fuel => simp [dockWindow]
  | cons x l ih =>
    obtain ⟨_, hnext, hrest⟩ := hseg
    cases fuel with
    | zero => simp at hfuel
    | succ fuel =>
      have hx : x ≠ -1 := hnull x List.mem_cons_self
      have later := ih hrest (fun y hy => hnull y (List.mem_cons_of_mem x hy))
        (Nat.lt_of_succ_lt_succ hfuel)
      simp only [dockWindow, List.headD_cons, hnext, if_neg hx]
      split
      · split
        · rfl
        · exact later _
      · exact later _

theorem State.closeAll_isSome {visited : List ℤ}
    (h : ∀ x ∈ visited, 0 ≤ x ∧ x < (MAX_WINDOW_CNT : ℤ)) (s : State) :
    (s.closeAll visited).isSome := by
  induction visited generalizing s with
  | nil => rfl
  | cons p rest ih =>
    have hp := h p List.mem_cons_self
    have hs : (s.dispatchTo p (.plain .WM_WINDOW_CLOSE)).isSome := by
      unfold dispatchTo setWnd setSlot
      rw [if_pos hp]
      rfl
    obtain ⟨u, hu⟩ := Option.isSome_iff_exists.mp hs
    simp only [closeAll, hu, Option.bind_eq_bind, Option.bind_some]
    exact ih (fun x hx => h x (List.mem_cons_of_mem p hx)) u

theorem Inv.wellFormed {d : Desk} {l : List ℤ} (h : Inv d l) : WellFormed d where
  once := h.live.nodup_iff.mp h.linked.nodup
  visits := ⟨l, h.live, h.linked.walk_next, h.linked.tail⟩
  last := by
    intro hne
    have hl : l ≠ [] := fun e => hne (List.nil_perm.mp (e ▸ h.live))
    have hmem := h.linked.tail_mem hl
    rcases List.eq_nil_or_concat l with rfl | ⟨l₁, z, rfl⟩
    · exact absurd rfl hl
    · have hseg := h.linked.seg
      rw [List.concat_eq_append, seg_append] at hseg
      have htail : d.wm.windowlisttail = z := by
        rw [h.linked.tail, List.concat_eq_append, getLastD_append]
        rfl
      rw [htail]
      exact hseg.2.2.1
  inverse := by
    intro x hx y hy
    exact h.linked.next_iff_prev x (h.live.mem_iff.mpr hx) y (h.live.mem_iff.mpr hy)
  first := by
    intro hne
    have hseg := h.linked.seg
    have hhead := h.linked.head
    cases l with
    | nil => exact absurd (List.nil_perm.mp h.live) hne
    | cons z l =>
      rw [show d.wm.windowlisthead = z from hhead]
      exact hseg.1
  free := by
    intro i h₀ h₁ hi
    exact h.linked.free i h₀ h₁ (fun e => hi (h.live.mem_iff.mp e))
  empty := by
    intro he
    have hl : l = [] := List.perm_nil.mp (he ▸ h.live)
    rw [h.linked.head, h.linked.tail, hl]
    exact ⟨rfl, rfl⟩
  desktop := by
    rcases h.desktop with hd | hd
    · exact Or.inl hd
    · exact Or.inr (h.live.mem_iff.mp hd)
  count_ends := by
    unfold State.getWindowCount
    rw [h.linked.walk_next]
    rfl
  screen_ends := by
    intro hne
    have hrange := h.linked.range _ (h.desktop.resolve_left hne)
    have hslot : d.wm.slot d.wm.desktopId = some (d.wm.windowlist d.wm.desktopId) :=
      State.slot_eq_some.mpr ⟨hrange, rfl⟩
    simp [State.updateScreen, hslot, h.linked.walk_next]
  dock_ends := by
    intro mouse_x barWidth xStart
    rw [h.linked.head]
    exact State.dockWindow_isSome h.linked.seg h.linked.ne_null _ _ h.linked.length_lt_fuel _
  turnoff_ends := by
    unfold State.turnoffScreen
    rw [h.linked.walk_next]
    exact State.closeAll_isSome h.linked.range d.wm

theorem Inv.reorder {d : Desk} {l : List ℤ} (h : Inv d l) {t : State}
    (ht : ∃ l', Linked t l' ∧ l'.Perm l ∧ t.desktopId = d.wm.desktopId) :
    ∃ l', Inv { d with wm := t } l' := by
  obtain ⟨l', hl', hp, hd⟩ := ht
  refine ⟨l', hl', hp.trans h.live, ?_⟩
  rw [show ({ d with wm := t } : Desk).wm.desktopId = d.wm.desktopId from hd, hp.mem_iff]
  exact h.desktop

/-- Every call other than the two closes keeps the invariant. -/
theorem step_inv {d e : Desk} {a : Action} (h : ∃ l, Inv d l) (hC : Clean d a)
    (hs : step d a = some e) : ∃ l, Inv e l := by
  obtain ⟨l, hl⟩ := h
  cases a with
  | create myproc window title =>
    obtain ⟨⟨t, w', r⟩, hr, rfl⟩ := Option.map_eq_some_iff.mp hs
    rcases State.createWindow_spec hl.linked hr with ⟨rfl, rfl⟩ | ⟨rfl, hnew, hl', hd⟩
    · exact ⟨l, hl.linked, hl.live, hl.desktop⟩
    · refine ⟨l ++ [w'.handler], hl', ?_, ?_⟩
      · exact (List.perm_append_singleton _ _).trans (hl.live.cons _)
      · show t.desktopId = -1 ∨ t.desktopId ∈ l ++ [w'.handler]
        rw [hd]
        split
        · simp
        · rename_i hne
          simp [hl.desktop.resolve_left hne]
  | close window =>
    obtain ⟨hlive, hs⟩ := Option.ite_none_right_eq_some.mp hs
    obtain ⟨⟨t, w', r⟩, hr, rfl⟩ := Option.map_eq_some_iff.mp hs
    obtain ⟨l₁, l₂, rfl⟩ := List.append_of_mem (hl.live.mem_iff.mpr hlive)
    have hl₁ : l₁ ≠ [] := by
      rintro rfl
      exact hC.1 hl.linked.head.symm
    obtain ⟨hl', hd⟩ := State.closeWindow_linked hl.linked hl₁ hr
    refine ⟨l₁ ++ l₂, hl', ?_, ?_⟩
    · have := (List.perm_middle.symm.trans hl.live).erase window.handler
      simpa using this
    · show t.desktopId = -1 ∨ t.desktopId ∈ l₁ ++ l₂
      rw [hd]
      rcases hl.desktop with hdesk | hdesk
      · exact Or.inl hdesk
      · refine Or.inr ?_
        simp only [List.mem_append, List.mem_cons] at hdesk ⊢
        rcases hdesk with hdesk | hdesk | hdesk
        · exact Or.inl hdesk
        · exact absurd hdesk.symm hC.2
        · exact Or.inr hdesk
  | minimize window =>
    obtain ⟨hlive, hs⟩ := Option.ite_none_right_eq_some.mp hs
    obtain ⟨t, ht, rfl⟩ := Option.map_eq_some_iff.mp hs
    exact hl.reorder (State.minimizeWindow_spec hl.linked (hl.live.mem_iff.mpr hlive) ht)
  | maximize window =>
    obtain ⟨hlive, hs⟩ := Option.ite_none_right_eq_some.mp hs
    obtain ⟨t, ht, rfl⟩ := Option.map_eq_some_iff.mp hs
    exact hl.reorder (State.maximizeWindow_spec hl.linked (hl.live.mem_iff.mpr hlive) ht)
  | message msg =>
    obtain ⟨t, ht, rfl⟩ := Option.map_eq_some_iff.mp hs
    exact hl.reorder (State.wmHandleMessage_reorders ht l hl.linked hl.desktop)
  | createPopup myproc window caller =>
    obtain rfl := Option.some.inj hs
    apply hl.reorder
    refine SameLinks.reorders ?_ l hl.linked hl.desktop
    unfold State.createPopupWindow
    split <;> exact ⟨rfl, rfl, rfl, rfl, rfl⟩
  | closePopup window =>
    obtain rfl := Option.some.inj hs
    apply hl.reorder
    refine SameLinks.reorders ?_ l hl.linked hl.desktop
    exact ⟨rfl, rfl, rfl, rfl, rfl⟩

/-- A close of the head leaves a head that is linked to itself; a close of the desktop
leaves an id that is not live. -/
theorem clean_of_wellFormed {d e : Desk} {a : Action} (h : ∃ l, Inv d l)
    (hs : step d a = some e) (he : WellFormed e) : Clean d a := by
  obtain ⟨l, hl⟩ := h
  cases a with
  | close window =>
    obtain ⟨hlive, hs⟩ := Option.ite_none_right_eq_some.mp hs
    obtain ⟨⟨t, w', r⟩, hr, rfl⟩ := Option.map_eq_some_iff.mp hs
    obtain ⟨l₁, l₂, rfl⟩ := List.append_of_mem (hl.live.mem_iff.mpr hlive)
    obtain ⟨_, _, hhead, hdesk, _⟩ := State.closeWindow_spec hl.linked rfl hr
    obtain ⟨h₀, h₁⟩ := hl.linked.range window.handler (by simp)
    have hgone : window.handler ∉ d.live.erase window.handler := by
      have hnd := hl.live.nodup_iff.mp hl.linked.nodup
      exact fun e => (hnd.mem_erase_iff.mp e).1 rfl
    constructor
    · intro hx
      obtain ⟨hself, _⟩ := he.free window.handler h₀ h₁ hgone
      obtain ⟨l', _, hwalk, _⟩ := he.visits
      have hstuck := walk_self (by omega) hself loopFuel
      rw [show t.windowlisthead = window.handler from hhead.trans hx.symm, hstuck] at hwalk
      cases hwalk
    · intro hx
      have hdw : t.desktopId = window.handler := hdesk.trans hx.symm
      rcases he.desktop with hd | hd
      · have : t.desktopId = -1 := hd
        omega
      · exact hgone (hdw ▸ hd)
  | _ => trivial

theorem init_inv (table : ℤ → WindowSlot) (popup : PopupWindow) (width height : ℤ) :
    ∃ l, Inv (init table popup width height) l := by
  refine ⟨[], ⟨trivial, List.nodup_nil, ?_, rfl, rfl, ?_⟩, List.Perm.refl _, Or.inl rfl⟩
  · intro x hx
    cases hx
  · intro i _ _ _
    exact ⟨rfl, rfl⟩

/-- The runs from wmInit in which the list is well formed in every state are exactly
the runs that close neither the head of the list nor the desktop. -/
theorem always_wellFormed_iff (table : ℤ → WindowSlot) (popup : PopupWindow)
    (width height : ℤ) (as : List Action) :
    Runs.Always step WellFormed (init table popup width height) as ↔
      Runs.Meets step Clean (init table popup width height) as := by
  apply Runs.always_iff_meets (I := fun d => ∃ l, Inv d l)
  · rintro d ⟨l, hl⟩
    exact hl.wellFormed
  · intro d a e hd hC hs
    exact step_inv hd hC hs
  · intro d a e hd hs he
    exact clean_of_wellFormed hd hs he
  · exact init_inv table popup width height

/-- The desktop is clicked, which moves it behind the other window, and the other
window is closed: the head of the list is a free slot. -/
def closeBehindDesktop : List Action :=
  let desktop : Window := ⟨⟨0, 800, 0, 600⟩, false, 0, 800, 600, 0⟩
  let shell : Window := ⟨⟨100, 200, 100, 200⟩, true, 1, 100, 100, 0⟩
  [.create 1 desktop [], .create 2 shell [], .message (.plain .M_MOUSE_DOWN),
    .close { shell with handler := 1 }]

theorem not_always_wellFormed :
    ¬ ∀ (table : ℤ → WindowSlot) (popup : PopupWindow) (width height : ℤ) (as : List Action),
      Runs.Always step WellFormed (init table popup width height) as := by
  intro h
  let buf : MsgBuf := ⟨fun _ => .plain .M_KEY_UP, 0, 0, 0⟩
  let blank : KernelWindow := ⟨⟨0, 0, 0, 0⟩, 0, buf, [], false, false⟩
  have hrun := (Runs.always_iff_run _ _).mp
    (h (fun _ => ⟨0, blank, 0, 0⟩) ⟨0, blank, 0⟩ 800 600 closeBehindDesktop)
    closeBehindDesktop
  have hstuck : (Runs.run step (init (fun _ => ⟨0, blank, 0, 0⟩) ⟨0, blank, 0⟩ 800 600)
      closeBehindDesktop).map (fun d => walk d.wm.next loopFuel d.wm.windowlisthead) =
      some none := by
    decide +kernel
  obtain ⟨d, hd, hwalk⟩ := Option.map_eq_some_iff.mp hstuck
  obtain ⟨l, _, hl, _⟩ := (hrun d (List.prefix_refl _) hd).visits
  rw [hwalk] at hl
  cases hl

end NorthOS.WindowManager
