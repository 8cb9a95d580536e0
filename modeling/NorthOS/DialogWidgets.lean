import NorthOS.ExplorerItems

/-!
The widgets of a dialog of the explorer. showDialog marks the dialog as active and then asks for
six widgets, whatever the table answers; clearDialog takes away those that it got. So a dialog is
complete when there are six free slots, and otherwise it is active without its buttons.
-/
namespace NorthOS.Explorer

open Widgets IndexList

/-- In the order in which they are added. -/
def dialogParts : List DialogPart := [.bg, .panel, .title, .input, .btn1, .btn2]

/-- The widgets that some parts of the dialog have got. -/
def partWidgets (s : State) (parts : List DialogPart) : List ℤ :=
  (parts.map s.dialog).filter (· ≠ -1)

/-- The list threads the same slots of the table in the same way. -/
structure SameLinks (u v : Window) : Prop where
  next : ∀ i, InTable i → v.next i = u.next i
  prev : ∀ i, InTable i → v.prev i = u.prev i
  head : v.widgetlisthead = u.widgetlisthead
  tail : v.widgetlisttail = u.widgetlisttail
  live : v.live = u.live

/-- The dialog is active and all of its widgets are in the list, Cancel with its handler; or it is
not active and has no widget. -/
def AllOrNothing (s t : State) : Prop :=
  (t.dialog_active = true ∧
    (∃ visited, walk t.desktop.next loopFuel t.desktop.widgetlisthead = some visited ∧
      ∀ part, InTable (t.dialog part) ∧ t.dialog part ∈ visited) ∧
    t.handler (t.dialog .btn2) = .cancelDialog) ∨
  (t.dialog_active = false ∧ (∀ part, t.dialog part = -1) ∧ t.desktop.live = s.desktop.live)

variable {s t u : State} {win v : Window} {parts : List DialogPart} {part : DialogPart} {L : List ℤ}
  {title defaultText : List ℤ} {onConfirm : Handler}

section Links

theorem seg_unique {next next' prev prev' : ℤ → ℤ} {p q : ℤ} {l : List ℤ}
    (h : Seg next prev p l q) (h' : Seg next' prev' p l q) :
    ∀ x ∈ l, next' x = next x ∧ prev' x = prev x := by
  induction l generalizing p with
  | nil => exact fun x hx => absurd hx List.not_mem_nil
  | cons y l ih =>
    obtain ⟨hp, hn, hrest⟩ := h
    obtain ⟨hp', hn', hrest'⟩ := h'
    intro x hx
    rcases List.mem_cons.mp hx with rfl | hx
    · exact ⟨hn'.trans hn.symm, hp'.trans hp.symm⟩
    · exact ih hrest hrest' x hx

/-- The widgets in their order determine the links. -/
theorem sameLinks_of_linked (hu : Linked win) (hv : Linked v) (hlive : v.live = win.live) :
    SameLinks win v := by
  have hlinks : ∀ i, InTable i → v.next i = win.next i ∧ v.prev i = win.prev i := by
    intro i hi
    by_cases hmem : i ∈ win.live
    · exact seg_unique hu.seg (hlive ▸ hv.seg) i hmem
    · obtain ⟨hnext, hprev⟩ := hu.free i hi hmem
      obtain ⟨hnext', hprev'⟩ := hv.free i hi (hlive ▸ hmem)
      exact ⟨hnext'.trans hnext.symm, hprev'.trans hprev.symm⟩
  exact ⟨fun i hi => (hlinks i hi).1, fun i hi => (hlinks i hi).2,
    by rw [hv.head, hu.head, hlive], by rw [hv.tail, hu.tail, hlive], hlive⟩

end Links

section Showing

/-- The state t has asked for some parts of the dialog since s. -/
structure Shown (s t : State) (parts : List DialogPart) : Prop where
  linked : Linked t.desktop
  live : t.desktop.live = s.desktop.live ++ partWidgets t parts
  absent : ∀ part, part ∉ parts → t.dialog part = -1
  count : t.desktop.live.length = min MAX_WIDGET_SIZE (s.desktop.live.length + parts.length)

theorem map_update {f : DialogPart → ℤ} {i : ℤ} (hpart : part ∉ parts) :
    parts.map (Function.update f part i) = parts.map f := by
  apply List.map_congr_left
  intro other hother
  apply Function.update_of_ne
  rintro rfl
  exact hpart hother

/-- Another part is added, or the table is full. -/
theorem Shown.showPart (h : Shown s t parts) (hpart : part ∉ parts) {type : WidgetType}
    {r : Window × ℤ} (text : List ℤ) (handler : Handler)
    (hr : (t.desktop.live.length = MAX_WIDGET_SIZE ∧ r.2 = -1) ∨ Grown [] t.desktop type false r) :
    Shown s (showPart t part r text handler) (parts ++ [part]) := by
  have hcount := h.count
  have habsent : ∀ i, ∀ other, other ∉ parts ++ [part] →
      Function.update t.dialog part i other = -1 := by
    intro i other hother
    rw [List.mem_append, List.mem_singleton, not_or] at hother
    rw [Function.update_of_ne hother.2]
    exact h.absent other hother.1
  unfold Explorer.showPart State.added
  rcases hr with ⟨hfull, hnone⟩ | hgrown
  · simp only [hnone, ↓reduceIte]
    refine ⟨h.linked, ?_, habsent (-1), ?_⟩
    · rw [h.live]
      simp [partWidgets, map_update hpart]
    · change t.desktop.live.length = _
      rw [List.length_append, List.length_singleton]
      omega
  · have hne : r.2 ≠ -1 := ne_null hgrown.valid
    have hlen := live_length_le hgrown.kept.linked.toChained
    simp only [hne, ↓reduceIte]
    refine ⟨hgrown.kept.linked, ?_, habsent r.2, ?_⟩
    · rw [hgrown.live, h.live]
      simp [partWidgets, map_update hpart, hne]
    · rw [hgrown.live, List.length_append, List.length_singleton] at hlen ⊢
      rw [List.length_append, List.length_singleton]
      omega

theorem Shown.kept (h : Shown s t parts) : Kept [] t.desktop :=
  ⟨h.linked, List.nil_prefix, fun _ hi => absurd hi List.not_mem_nil⟩

theorem Shown.typed (h : Shown s t parts) (part : DialogPart) (hpart : part ∉ parts)
    (type : WidgetType) (x y w k : ℤ) (text : List ℤ) (handler : Handler) :
    Shown s (Explorer.showPart t part (t.desktop.addTyped type x y w k false) text handler)
      (parts ++ [part]) :=
  h.showPart hpart text handler (addTyped_grown h.kept type x y w k false)

theorem Shown.input (h : Shown s t parts) (part : DialogPart) (hpart : part ∉ parts)
    (x y w k : ℤ) (text : List ℤ) (handler : Handler) :
    Shown s (Explorer.showPart t part (t.desktop.addInputFieldWidget x y w k false) text handler)
      (parts ++ [part]) :=
  h.showPart hpart text handler (addInputField_grown h.kept x y w k false)

theorem Shown.refocus (h : Shown s t parts) (focus : ℤ) :
    Shown s { t with desktop := { t.desktop with keyfocus := focus } } parts :=
  ⟨h.linked.same ⟨rfl, rfl, rfl, rfl, rfl⟩, h.live, h.absent, h.count⟩

theorem clearDialog_of_none (h : ∀ part, s.dialog part = -1) :
    clearDialog s = { s with dialog_active := false } := by
  simp [clearDialog, clearPart, h]

theorem showDialog_shown (h : Linked s.desktop) (hnone : ∀ part, s.dialog part = -1) :
    Shown s (showDialog s title defaultText onConfirm) dialogParts := by
  have hstart : Shown s { clearDialog s with dialog_active := true } [] := by
    rw [clearDialog_of_none hnone]
    refine ⟨h, (List.append_nil _).symm, fun part _ => hnone part, ?_⟩
    have hlen := live_length_le h.toChained
    simp only [List.length_nil]
    omega
  have hbg := hstart.typed .bg (by decide) .COLORFILL 0 0 width height [] .emptyHandler
  have hpanel := hbg.typed .panel (by decide) .COLORFILL 170 170 340 140 [] .emptyHandler
  have htitle := hpanel.typed .title (by decide) .TEXT 190 190 300 20 title .emptyHandler
  have hinput := htitle.input .input (by decide) 190 225 300 28 defaultText .dialogInputHandler
  have hbtn1 := hinput.typed .btn1 (by decide) .BUTTON 350 270 70 28 (chars "OK") onConfirm
  have hall := hbtn1.typed .btn2 (by decide) .BUTTON 430 270 70 28 (chars "Cancel") .cancelDialog
  unfold showDialog
  exact hall.refocus _

/-- All parts have got a widget if and only if there were six free slots. -/
theorem Shown.all_iff (h : Shown s t dialogParts) :
    (∀ part, t.dialog part ≠ -1) ↔ s.desktop.live.length + 6 ≤ MAX_WIDGET_SIZE := by
  have hmem : ∀ part, part ∈ dialogParts := fun part => by cases part <;> decide
  have hparts : (∀ part, t.dialog part ≠ -1) ↔ (partWidgets t dialogParts).length = 6 := by
    change _ ↔ (partWidgets t dialogParts).length = (dialogParts.map t.dialog).length
    rw [partWidgets, List.length_filter_eq_length_iff]
    constructor
    · intro hall i hi
      obtain ⟨part, -, rfl⟩ := List.mem_map.mp hi
      exact decide_eq_true (hall part)
    · exact fun hall part => of_decide_eq_true (hall _ (List.mem_map_of_mem (hmem part)))
  have hlen : t.desktop.live.length =
      s.desktop.live.length + (partWidgets t dialogParts).length := by
    rw [h.live, List.length_append]
  have hcount := h.count
  have hsix : dialogParts.length = 6 := rfl
  rw [hparts]
  omega

theorem Shown.part_mem (h : Shown s t dialogParts) (hne : t.dialog part ≠ -1) :
    t.dialog part ∈ t.desktop.live := by
  rw [h.live]
  refine List.mem_append_right _ (List.mem_filter.mpr ⟨List.mem_map_of_mem ?_, decide_eq_true hne⟩)
  cases part <;> decide

theorem showPart_active {r : Window × ℤ} {text : List ℤ} {handler : Handler} :
    (showPart s part r text handler).dialog_active = s.dialog_active := by
  unfold Explorer.showPart State.added
  split <;> rfl

theorem showPart_handler {r : Window × ℤ} {text : List ℤ} {handler : Handler}
    (h : (showPart s part r text handler).dialog part ≠ -1) :
    (showPart s part r text handler).handler ((showPart s part r text handler).dialog part) =
      handler := by
  unfold Explorer.showPart State.added at h ⊢
  by_cases hr : r.2 = -1
  · rw [if_pos hr] at h
    exact absurd (Function.update_self ..) h
  · simp only [hr, ↓reduceIte, Function.update_self]

theorem showDialog_active : (showDialog s title defaultText onConfirm).dialog_active = true := by
  simp only [showDialog, showPart_active]

/-- The last part that is asked for is Cancel. -/
theorem exists_showPart_btn2 (s : State) (title defaultText : List ℤ) (onConfirm : Handler) :
    ∃ u r text, (showDialog s title defaultText onConfirm).dialog =
        (showPart u .btn2 r text .cancelDialog).dialog ∧
      (showDialog s title defaultText onConfirm).handler =
        (showPart u .btn2 r text .cancelDialog).handler :=
  ⟨_, _, _, rfl, rfl⟩

theorem showDialog_handler (h : (showDialog s title defaultText onConfirm).dialog .btn2 ≠ -1) :
    (showDialog s title defaultText onConfirm).handler
      ((showDialog s title defaultText onConfirm).dialog .btn2) = .cancelDialog := by
  obtain ⟨u, r, text, hdialog, hhandler⟩ := exists_showPart_btn2 s title defaultText onConfirm
  rw [hdialog] at h
  rw [hdialog, hhandler]
  exact showPart_handler h

end Showing

section Clearing

/-- The parts in ps are still to be taken away from what stood behind L. The head is right, or the
list was empty and the head was taken away. -/
structure Clearing (L : List ℤ) (u : State) (ps : List DialogPart) : Prop where
  chained : Chained u.desktop
  live : u.desktop.live = L ++ partWidgets u ps
  head : u.desktop.widgetlisthead = u.desktop.live.headD (-1) ∨
    L = [] ∧ u.desktop.widgetlisthead = -1

/-- A head that is removed becomes null, whatever widgets are left. -/
theorem removeWidget_head {i : ℤ} (h : Chained win) (hi : i ∈ win.live) :
    (win.removeWidget i).widgetlisthead =
      if win.widgetlisthead = i then -1 else win.widgetlisthead := by
  have hlast := h.next_tail (List.ne_nil_of_mem hi)
  rcases h.removeWidget_cases (h.range i hi) with ⟨hnot, -⟩ | ⟨-, heq⟩
  · exact absurd hi hnot
  · have hsame : SameList win (win.freeWidget i) := freeWidget_same
    rw [heq]
    change (if (win.freeWidget i).widgetlisthead = i
      then (win.freeWidget i).next (win.freeWidget i).widgetlisttail
      else (win.freeWidget i).widgetlisthead) = _
    rw [hsame.head, hsame.tail, hsame.next, hlast]

theorem Clearing.clearPart (h : Clearing L u (part :: parts)) (hpart : part ∉ parts) :
    Clearing L (clearPart u part) parts := by
  have hlive := h.live
  unfold Explorer.clearPart
  split
  next hnone =>
    refine ⟨h.chained, ?_, h.head⟩
    rw [hlive]
    simp [partWidgets, hnone]
  next hne =>
    have hcons : partWidgets u (part :: parts) = u.dialog part :: partWidgets u parts := by
      simp [partWidgets, hne]
    rw [hcons] at hlive
    have hmem : u.dialog part ∈ u.desktop.live := by
      rw [hlive]
      exact List.mem_append_right _ List.mem_cons_self
    have hnew : u.dialog part ∉ L := by
      have hnd := h.chained.nodup
      rw [hlive, List.nodup_append] at hnd
      exact fun hL => hnd.2.2 _ hL _ List.mem_cons_self rfl
    have hrange := h.chained.range _ hmem
    have herase : u.desktop.live.erase (u.dialog part) = L ++ partWidgets u parts := by
      rw [hlive, List.erase_append_right _ hnew, List.erase_cons_head]
    have hremoved := (removeWidget_live h.chained hrange).trans herase
    refine ⟨h.chained.removeWidget hrange, ?_, ?_⟩
    · rw [hremoved]
      simp [partWidgets, map_update hpart]
    · dsimp only
      rw [hremoved, removeWidget_head h.chained hmem]
      rcases h.head with hfirst | ⟨hempty, hnull⟩
      · rw [hfirst, hlive]
        cases L with
        | nil => exact .inr ⟨rfl, if_pos rfl⟩
        | cons x L =>
          refine .inl (if_neg ?_)
          rintro rfl
          exact hnew List.mem_cons_self
      · exact .inr ⟨hempty, by rw [hnull, ite_self]⟩

theorem Clearing.foldl (h : Clearing L u parts) (hnd : parts.Nodup) :
    Clearing L (parts.foldl Explorer.clearPart u) [] := by
  induction parts generalizing u with
  | nil => exact h
  | cons part parts ih =>
    obtain ⟨hpart, hnd⟩ := List.nodup_cons.mp hnd
    exact ih (h.clearPart hpart) hnd

/-- When all parts have been taken away, the list is what stood behind them. -/
theorem Clearing.linked (h : Clearing L u []) : Linked u.desktop ∧ u.desktop.live = L := by
  have hlive : u.desktop.live = L := h.live.trans (List.append_nil L)
  refine ⟨⟨h.chained, ?_⟩, hlive⟩
  rcases h.head with hfirst | ⟨hempty, hnull⟩
  · exact hfirst
  · rw [hlive, hempty, hnull]
    rfl

/-- clearDialog always gives the list back. -/
theorem Shown.restored (h : Shown s t dialogParts) (hs : Linked s.desktop) :
    SameLinks s.desktop (clearDialog t).desktop := by
  have hstart : Clearing s.desktop.live t dialogParts :=
    ⟨h.linked.toChained, h.live, .inl h.linked.head⟩
  obtain ⟨hlinked, hlive⟩ := (hstart.foldl (by decide)).linked
  exact sameLinks_of_linked hs (hlinked.same ⟨rfl, rfl, rfl, rfl, rfl⟩) hlive

end Clearing

/-- From a list with no dialog in it, showDialog makes a whole dialog or none, and clearDialog gives
the list back, if and only if there are six free slots. -/
theorem showDialog_allOrNothing_iff (h : Linked s.desktop) (hnone : ∀ part, s.dialog part = -1)
    (title defaultText : List ℤ) (onConfirm : Handler) :
    AllOrNothing s (showDialog s title defaultText onConfirm) ∧
        SameLinks s.desktop (clearDialog (showDialog s title defaultText onConfirm)).desktop ↔
      s.desktop.live.length + 6 ≤ MAX_WIDGET_SIZE := by
  have hshown : Shown s (showDialog s title defaultText onConfirm) dialogParts :=
    showDialog_shown h hnone
  rw [← hshown.all_iff]
  constructor
  · rintro ⟨⟨-, ⟨visited, -, hall⟩, -⟩ | ⟨hactive, -⟩, -⟩
    · exact fun part => ne_null (hall part).1
    · rw [showDialog_active] at hactive
      exact absurd hactive (by decide)
  · intro hall
    refine ⟨.inl ⟨showDialog_active, ⟨_, hshown.linked.shaped.visits, fun part => ?_⟩, ?_⟩, ?_⟩
    · have hmem := hshown.part_mem (hall part)
      exact ⟨hshown.linked.range _ hmem, hmem⟩
    · exact showDialog_handler (hall .btn2)
    · exact hshown.restored h

/-- The dialog on an empty list. -/
theorem showDialog_allOrNothing_main :
    AllOrNothing (main blank) (showDialog (main blank) [] [] .emptyHandler) ∧
      SameLinks (main blank).desktop
        (clearDialog (showDialog (main blank) [] [] .emptyHandler)).desktop :=
  (showDialog_allOrNothing_iff (setUp_linked false blank) (fun _ => rfl) [] [] .emptyHandler).2
    (by decide)

/-- A list may have any number of widgets that the table has room for. -/
theorem exists_linked (n : ℕ) (hn : n ≤ MAX_WIDGET_SIZE) :
    ∃ win, Linked win ∧ win.live.length = n := by
  induction n with
  | zero => exact ⟨setUp false blank, setUp_linked false blank, rfl⟩
  | succ n ih =>
    obtain ⟨win, hlinked, hlen⟩ := ih (by omega)
    have hkept : Kept [] win :=
      ⟨hlinked, List.nil_prefix, fun _ hi => absurd hi List.not_mem_nil⟩
    rcases addTyped_grown hkept .TEXT 0 0 0 0 true with ⟨hfull, -⟩ | hgrown
    · omega
    · refine ⟨_, hgrown.kept.linked, ?_⟩
      rw [hgrown.live, List.length_append, List.length_singleton, hlen]

/-- With forty-five widgets in the list the dialog has no Cancel button. -/
theorem not_showDialog_allOrNothing :
    ¬ ∀ (s : State) (title defaultText : List ℤ) (onConfirm : Handler), Linked s.desktop →
      (∀ part, s.dialog part = -1) →
      AllOrNothing s (showDialog s title defaultText onConfirm) ∧
        SameLinks s.desktop (clearDialog (showDialog s title defaultText onConfirm)).desktop := by
  intro h
  obtain ⟨win, hlinked, hlen⟩ := exists_linked 45 (by decide)
  let s : State := { main blank with desktop := win }
  have hshown : Shown s (showDialog s [] [] .emptyHandler) dialogParts :=
    showDialog_shown hlinked fun _ => rfl
  have hboth := (h s [] [] .emptyHandler hlinked fun _ => rfl).1
  rcases hboth with ⟨-, ⟨visited, -, hall⟩, -⟩ | ⟨hactive, -⟩
  · have hroom : win.live.length + 6 ≤ MAX_WIDGET_SIZE :=
      hshown.all_iff.1 fun part => ne_null (hall part).1
    rw [hlen] at hroom
    exact absurd hroom (by decide)
  · rw [showDialog_active] at hactive
    exact absurd hactive (by decide)

end NorthOS.Explorer
