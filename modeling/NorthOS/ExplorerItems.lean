import NorthOS.ExplorerWidgets

/-!
The items of the explorer and the widgets that show them. The handlers keep the two together;
loadFiles does as long as it opens the directory and every entry that it shows finds a slot, and
otherwise the next state shows the difference.
-/
namespace NorthOS.Explorer

open Widgets Runs
open TextCopies (MAX_SHORT_STRLEN MAX_LONG_STRLEN)
open Navigation (slash)

/-- The items are the scrollable text widgets of the list, each with its text; the selected name
is that of the selected item; the items are those of the current directory; and what Delete and
Rename have acted on was the item at the selected index. -/
structure Consistent (s : State) : Prop where
  visits : IndexList.walk s.desktop.next loopFuel s.desktop.widgetlisthead = some s.desktop.live
  widgets : itemWidgets s.desktop = s.items.map FileItem.widget_id
  once : (itemWidgets s.desktop).Nodup
  texts : ∀ item ∈ s.items, s.text item.widget_id = displayText item.name item.is_dir
  selected : s.selected_index = -1 ∨ ∃ item, s.item s.selected_index = some item ∧
    s.selected_name = item.name ∧ s.is_selected_dir = item.is_dir
  directory : s.need_refresh = false → s.items ≠ [] → s.current_path = s.listed
  acts : ∀ a ∈ s.acts, a.path = entryPath a.dir a.name

/-- What initUI set up, and what the dialog may remove. -/
structure Frame (ui : List ℤ) (s : State) : Prop where
  kept : Kept ui s.desktop
  display : s.path_display_widget ∈ ui
  dialogs : ∀ part, s.dialog part = -1 ∨ InTable (s.dialog part) ∧ s.dialog part ∉ ui ∧
    (s.desktop.widgets (s.dialog part)).scrollable = false
  short : ∀ item ∈ s.items, item.name.length ≤ MAX_SHORT_STRLEN - 1

/-- The widgets of the dialog are in the list. -/
def Attached (s : State) : Prop := ∀ part, s.dialog part = -1 ∨ s.dialog part ∈ s.desktop.live

structure Inv (ui : List ℤ) (s : State) : Prop where
  frame : Frame ui s
  attached : Attached s
  consistent : Consistent s

variable {ui : List ℤ} {s t : State} {p : ℤ} {input : Input} {fs : FileSystem}

theorem Frame.ui_ne_nil (h : Frame ui s) : ui ≠ [] := List.ne_nil_of_mem h.display

theorem Frame.visits (h : Frame ui s) :
    IndexList.walk s.desktop.next loopFuel s.desktop.widgetlisthead = some s.desktop.live :=
  h.kept.linked.shaped.visits

theorem itemWidgets_subset (win : Window) : itemWidgets win ⊆ win.live :=
  List.filter_subset_self _

theorem Consistent.widget_live {item : FileItem} (h : Consistent s) (hitem : item ∈ s.items) :
    item.widget_id ∈ s.desktop.live := by
  refine itemWidgets_subset s.desktop ?_
  rw [h.widgets]
  exact List.mem_map_of_mem hitem

section Dialogs

theorem clearPart_inv (hf : Frame ui s) (hc : Consistent s) (part : DialogPart) :
    Frame ui (clearPart s part) ∧ Consistent (clearPart s part) := by
  unfold clearPart
  split
  next => exact ⟨hf, hc⟩
  next hne =>
    obtain ⟨hvalid, hnot, hfixed⟩ := (hf.dialogs part).resolve_left hne
    have hkept := hf.kept.removeWidget hf.ui_ne_nil hvalid hnot
    have hitems := itemWidgets_removeWidget hf.kept.linked.toChained hvalid hfixed
    constructor
    · refine ⟨hkept, hf.display, fun other => ?_, hf.short⟩
      dsimp only
      by_cases hother : other = part
      · subst hother
        exact .inl (Function.update_self ..)
      · rw [Function.update_of_ne hother, removeWidget_widgets]
        exact hf.dialogs other
    · exact ⟨hkept.linked.shaped.visits, hitems.trans hc.widgets, hitems ▸ hc.once, hc.texts,
        hc.selected, hc.directory, hc.acts⟩

theorem foldl_clearPart (parts : List DialogPart) (hf : Frame ui s) (hc : Consistent s) :
    Frame ui (parts.foldl clearPart s) ∧ Consistent (parts.foldl clearPart s) ∧
      ∀ part, part ∈ parts ∨ s.dialog part = -1 → (parts.foldl clearPart s).dialog part = -1 := by
  induction parts generalizing s with
  | nil => exact ⟨hf, hc, fun part hpart => hpart.resolve_left List.not_mem_nil⟩
  | cons head parts ih =>
    obtain ⟨hf', hc'⟩ := clearPart_inv hf hc head
    obtain ⟨hframe, hconsistent, hcleared⟩ := ih hf' hc'
    refine ⟨hframe, hconsistent, fun part hpart => hcleared part ?_⟩
    have hstep : part = head ∨ s.dialog part = -1 → (clearPart s head).dialog part = -1 := by
      intro hcase
      unfold clearPart
      split
      next hnone => exact hcase.elim (fun heq => heq ▸ hnone) id
      next hsome =>
        dsimp only
        by_cases heq : part = head
        · subst heq
          exact Function.update_self ..
        · rw [Function.update_of_ne heq]
          exact hcase.resolve_left heq
    rcases hpart with hpart | hpart
    · rcases List.mem_cons.mp hpart with hhead | hpart
      · exact .inr (hstep (.inl hhead))
      · exact .inl hpart
    · exact .inr (hstep (.inr hpart))

theorem clearDialog_inv (hf : Frame ui s) (hc : Consistent s) :
    Inv ui (clearDialog s) ∧ ∀ part, (clearDialog s).dialog part = -1 := by
  obtain ⟨hframe, hconsistent, hcleared⟩ :=
    foldl_clearPart [DialogPart.bg, .panel, .title, .input, .btn1, .btn2] hf hc
  have hall : ∀ part, (clearDialog s).dialog part = -1 :=
    fun part => hcleared part (.inl (by cases part <;> decide))
  refine ⟨⟨⟨hframe.kept, hframe.display, fun part => .inl (hall part), hframe.short⟩,
    fun part => .inl (hall part), ?_⟩, hall⟩
  exact ⟨hconsistent.visits, hconsistent.widgets, hconsistent.once, hconsistent.texts,
    hconsistent.selected, hconsistent.directory, hconsistent.acts⟩

/-- A widget that does not scroll is added to the dialog, or there is no room for it. -/
theorem showPart_inv (h : Inv ui s) {type : WidgetType} {r : Window × ℤ} (part : DialogPart)
    (text : List ℤ) (handler : Handler)
    (hr : (s.desktop.live.length = MAX_WIDGET_SIZE ∧ r.2 = -1) ∨ Grown ui s.desktop type false r) :
    Inv ui (showPart s part r text handler) := by
  obtain ⟨hf, ha, hc⟩ := h
  unfold showPart State.added
  rcases hr with ⟨-, hnone⟩ | hgrown
  · dsimp only
    rw [if_pos hnone]
    refine ⟨⟨hf.kept, hf.display, fun other => ?_, hf.short⟩, fun other => ?_, ?_⟩
    · by_cases hother : other = part
      · subst hother
        exact .inl (Function.update_self ..)
      · dsimp only
        rw [Function.update_of_ne hother]
        exact hf.dialogs other
    · by_cases hother : other = part
      · subst hother
        exact .inl (Function.update_self ..)
      · dsimp only
        rw [Function.update_of_ne hother]
        exact ha other
    · exact ⟨hc.visits, hc.widgets, hc.once, hc.texts, hc.selected, hc.directory, hc.acts⟩
  · have hne : r.2 ≠ -1 := ne_null hgrown.valid
    have hitems : itemWidgets r.1 = itemWidgets s.desktop := by
      rw [hgrown.itemWidgets, if_neg fun hand => Bool.false_ne_true hand.1, List.append_nil]
    have hnew : r.2 ∉ ui := fun hmem => hgrown.fresh (hf.kept.front.subset hmem)
    dsimp only
    rw [if_neg hne]
    refine ⟨⟨hgrown.kept, hf.display, fun other => ?_, hf.short⟩, fun other => ?_, ?_⟩
    · by_cases hother : other = part
      · subst hother
        dsimp only
        rw [Function.update_self]
        exact .inr ⟨hgrown.valid, hnew, hgrown.scrollable_eq⟩
      · dsimp only
        rw [Function.update_of_ne hother]
        rcases ha other with hnone | hlive
        · exact .inl hnone
        · rw [hgrown.same _ fun heq => hgrown.fresh (heq ▸ hlive)]
          exact hf.dialogs other
    · by_cases hother : other = part
      · subst hother
        dsimp only
        rw [Function.update_self, hgrown.live]
        exact .inr (List.mem_append_right _ (List.mem_singleton_self _))
      · dsimp only
        rw [Function.update_of_ne hother, hgrown.live]
        exact (ha other).imp_right (List.mem_append_left _)
    · refine ⟨hgrown.kept.linked.shaped.visits, hitems.trans hc.widgets, ?_, ?_, hc.selected,
        hc.directory, hc.acts⟩
      · exact hitems.symm ▸ hc.once
      · intro item hitem
        dsimp only
        have hold : item.widget_id ≠ r.2 := by
          intro heq
          exact hgrown.fresh (heq ▸ hc.widget_live hitem)
        rw [Function.update_of_ne hold]
        exact hc.texts item hitem

theorem showPart_typed (h : Inv ui s) {part : DialogPart} {type : WidgetType} {x y w k : ℤ}
    {text : List ℤ} {handler : Handler} :
    Inv ui (showPart s part (s.desktop.addTyped type x y w k false) text handler) :=
  showPart_inv h part text handler (addTyped_grown h.frame.kept type x y w k false)

theorem showPart_input (h : Inv ui s) {part : DialogPart} {x y w k : ℤ} {text : List ℤ}
    {handler : Handler} :
    Inv ui (showPart s part (s.desktop.addInputFieldWidget x y w k false) text handler) :=
  showPart_inv h part text handler (addInputField_grown h.frame.kept x y w k false)

theorem Inv.refocus (h : Inv ui s) (focus : ℤ) :
    Inv ui { s with desktop := { s.desktop with keyfocus := focus } } := by
  obtain ⟨hf, ha, hc⟩ := h
  have hkept : Kept ui { s.desktop with keyfocus := focus } :=
    hf.kept.congr ⟨rfl, rfl, rfl, rfl, rfl⟩ rfl
  exact ⟨⟨hkept, hf.display, hf.dialogs, hf.short⟩, ha,
    ⟨hc.visits, hc.widgets, hc.once, hc.texts, hc.selected, hc.directory, hc.acts⟩⟩

theorem showDialog_inv (h : Inv ui s) (title defaultText : List ℤ) (onConfirm : Handler) :
    Inv ui (showDialog s title defaultText onConfirm) := by
  obtain ⟨⟨hf, ha, hc⟩, -⟩ := clearDialog_inv h.frame h.consistent
  have hopen : Inv ui { clearDialog s with dialog_active := true } :=
    ⟨⟨hf.kept, hf.display, hf.dialogs, hf.short⟩, ha,
      ⟨hc.visits, hc.widgets, hc.once, hc.texts, hc.selected, hc.directory, hc.acts⟩⟩
  unfold showDialog
  refine Inv.refocus (showPart_typed (showPart_typed (showPart_input (showPart_typed
    (showPart_typed (showPart_typed hopen)))))) _

end Dialogs

section Handlers

theorem item_mem {i : ℤ} {item : FileItem} (h : s.item i = some item) : item ∈ s.items := by
  unfold State.item at h
  split at h
  · exact nomatch h
  · exact List.mem_of_getElem? h

theorem exists_item {i : ℤ} (h0 : 0 ≤ i) (hi : i < s.total_items) :
    ∃ item, s.item i = some item := by
  unfold State.total_items at hi
  have hlt : i.toNat < s.items.length := by omega
  exact ⟨s.items[i.toNat], (if_neg (not_lt.mpr h0)).trans (List.getElem?_eq_getElem hlt)⟩

theorem select_inv (h : Inv ui s) {i : ℤ} (h0 : 0 ≤ i) (hi : i < s.total_items) :
    Inv ui (select s i) := by
  obtain ⟨hf, ha, hc⟩ := h
  obtain ⟨item, hitem⟩ := exists_item h0 hi
  unfold select
  rw [hitem]
  exact ⟨⟨hf.kept, hf.display, hf.dialogs, hf.short⟩, ha,
    ⟨hc.visits, hc.widgets, hc.once, hc.texts, .inr ⟨item, hitem, rfl, rfl⟩, hc.directory, hc.acts⟩⟩

/-- Before the next message the items are listed again. -/
theorem Inv.moved (h : Inv ui s) (path buf : List ℤ) :
    Inv ui { s with current_path := path, parentBuf := buf, need_refresh := true } := by
  obtain ⟨hf, ha, hc⟩ := h
  exact ⟨⟨hf.kept, hf.display, hf.dialogs, hf.short⟩, ha,
    ⟨hc.visits, hc.widgets, hc.once, hc.texts, hc.selected, fun hno => Bool.noConfusion hno,
      hc.acts⟩⟩

theorem enter_inv (h : Inv ui s) (name : List ℤ) : Inv ui (enter s name) := by
  unfold enter
  split
  · exact h
  · exact h.moved _ s.parentBuf

/-- With an item selected, its path in the directory that is shown is acted on. -/
theorem acted_correct (hc : Consistent s) (hrefresh : s.need_refresh = false)
    (hselected : ¬(s.selected_index = -1 ∨ s.selected_index ≥ s.total_items)) :
    ∀ a ∈ s.acts ++ [s.acted], a.path = entryPath a.dir a.name := by
  intro a hacted
  rcases List.mem_append.mp hacted with hold | hnew
  · exact hc.acts a hold
  · obtain rfl := List.mem_singleton.mp hnew
    obtain ⟨item, hitem, hname, -⟩ := hc.selected.resolve_left fun hnone => hselected (.inl hnone)
    have hitems : s.items ≠ [] := List.ne_nil_of_mem (item_mem hitem)
    unfold State.acted
    dsimp only
    rw [hitem, hname, hc.directory hrefresh hitems]
    rfl

theorem handleDelete_inv (h : Inv ui s) (hrefresh : s.need_refresh = false) :
    Inv ui (handleDelete s) := by
  obtain ⟨hf, ha, hc⟩ := h
  unfold handleDelete
  split
  next => exact ⟨hf, ha, hc⟩
  next hselected =>
    split
    next => exact ⟨hf, ha, hc⟩
    next =>
      split
      next => exact ⟨hf, ha, hc⟩
      next =>
        exact ⟨⟨hf.kept, hf.display, hf.dialogs, hf.short⟩, ha,
          ⟨hc.visits, hc.widgets, hc.once, hc.texts, hc.selected, fun hno => Bool.noConfusion hno,
            acted_correct hc hrefresh hselected⟩⟩

theorem handleRename_inv (h : Inv ui s) : Inv ui (handleRename s) := by
  unfold handleRename
  split
  next => exact h
  next =>
    split
    next => exact h
    next => exact showDialog_inv h _ _ _

theorem clearDialog_refresh (h : Inv ui s) :
    Inv ui { clearDialog s with need_refresh := true } :=
  (clearDialog_inv h.frame h.consistent).1.moved _ _

theorem confirmNewFolder_inv (h : Inv ui s) (newDir : List ℤ) :
    Inv ui (confirmNewFolder s newDir) := by
  unfold confirmNewFolder
  split
  · exact (clearDialog_inv h.frame h.consistent).1
  · exact clearDialog_refresh h

theorem confirmNewFile_inv (h : Inv ui s) (newFile : List ℤ) :
    Inv ui (confirmNewFile s newFile) := by
  unfold confirmNewFile
  split
  · exact (clearDialog_inv h.frame h.consistent).1
  · exact clearDialog_refresh h

theorem confirmRename_inv (h : Inv ui s) (hrefresh : s.need_refresh = false) {entered : List ℤ}
    (ht : confirmRename s entered = some t) : Inv ui t := by
  have hcleared := (clearDialog_inv h.frame h.consistent).1
  obtain ⟨hf, ha, hc⟩ := h
  unfold confirmRename at ht
  split at ht
  next =>
    obtain rfl := Option.some.inj ht
    exact ⟨hf, ha, hc⟩
  next hselected =>
    split at ht
    next => exact nomatch ht
    next =>
      split at ht
      next =>
        obtain rfl := Option.some.inj ht
        exact hcleared
      next =>
        split at ht
        next =>
          obtain rfl := Option.some.inj ht
          exact hcleared
        next =>
          obtain rfl := Option.some.inj ht
          have hframe : Frame ui { s with acts := s.acts ++ [s.acted] } :=
            ⟨hf.kept, hf.display, hf.dialogs, hf.short⟩
          have hacted : Consistent { s with acts := s.acts ++ [s.acted] } :=
            ⟨hc.visits, hc.widgets, hc.once, hc.texts, hc.selected, hc.directory,
              acted_correct hc hrefresh hselected⟩
          obtain ⟨⟨hf', ha', hc'⟩, -⟩ := clearDialog_inv hframe hacted
          exact ⟨⟨hf'.kept, hf'.display, hf'.dialogs, hf'.short⟩, ha',
            ⟨hc'.visits, hc'.widgets, hc'.once, hc'.texts, .inl rfl,
            fun hno => Bool.noConfusion hno,
              hc'.acts⟩⟩

theorem handleFileClick_inv (h : Inv ui s) (wid : ℤ) (type : WindowManager.MsgType) :
    Inv ui (handleFileClick s wid type) := by
  unfold handleFileClick
  split
  next => exact h
  next idx hidx =>
    split
    next => exact h
    next item hitem =>
      split
      next =>
        split
        next => exact enter_inv h item.name
        next => exact h
      next =>
        split
        next =>
          obtain ⟨hf, ha, hc⟩ := h
          have hshort : item.name.take (MAX_SHORT_STRLEN - 1) = item.name :=
            List.take_of_length_le (hf.short item (item_mem hitem))
          refine ⟨⟨hf.kept, hf.display, hf.dialogs, hf.short⟩, ha,
            ⟨hc.visits, hc.widgets, hc.once, hc.texts, .inr ⟨item, hitem, hshort, rfl⟩,
              hc.directory, hc.acts⟩⟩
        next => exact h

theorem handleKeyboard_inv (h : Inv ui s) (key : ℤ) : Inv ui (handleKeyboard s key) := by
  have hselected : s.selected_index = -1 ∨ 0 ≤ s.selected_index := by
    refine h.consistent.selected.imp_right fun ⟨item, hitem, _⟩ => ?_
    by_contra hneg
    rw [State.item, if_pos (not_le.mp hneg)] at hitem
    exact nomatch hitem
  have hbelow : s.selected_index < s.total_items ∨ s.selected_index = -1 := by
    refine h.consistent.selected.symm.imp_left fun ⟨item, hitem, _⟩ => ?_
    unfold State.item at hitem
    split at hitem
    · exact nomatch hitem
    · obtain ⟨hlt, -⟩ := List.getElem?_eq_some_iff.mp hitem
      unfold State.total_items
      omega
  unfold handleKeyboard
  split
  next =>
    split
    next hdown => exact select_inv h (by omega) (by omega)
    next =>
      split
      next hfirst => exact select_inv h le_rfl hfirst.2
      next => exact h
  next =>
    split
    next =>
      split
      next hup => exact select_inv h (by omega) (by omega)
      next =>
        split
        next hfirst => exact select_inv h le_rfl hfirst.2
        next => exact h
    next =>
      split
      next =>
        split
        next => exact enter_inv h _
        next => exact h
      next => exact h

/-- A field that is written although it has been removed leaves the texts of the items. -/
def Harmless (s : State) (input : Input) : Prop :=
  Keyed s input.msg → Stale s s.desktop.keyfocus input →
    ∀ item ∈ s.items, input.overwritten item.widget_id = displayText item.name item.is_dir

theorem handle_inv (h : Inv ui s) (hrefresh : s.need_refresh = false)
    (hstale : Stale s p input →
      ∀ item ∈ s.items, input.overwritten item.widget_id = displayText item.name item.is_dir)
    (ht : handle s p input = some t) : Inv ui t := by
  unfold handle at ht
  dsimp only at ht
  split at ht
  case h_1 => exact Option.some.inj ht ▸ h
  case h_13 =>
    split at ht
    · exact confirmRename_inv h hrefresh ht
    · exact Option.some.inj ht ▸ h
  all_goals
    obtain rfl := Option.some.inj ht
    split
  case h_2.isTrue => exact h.moved _ _
  case h_3.isTrue => exact h.moved _ _
  case h_4.isTrue => exact showDialog_inv h _ _ _
  case h_5.isTrue => exact showDialog_inv h _ _ _
  case h_6.isTrue => exact handleRename_inv h
  case h_7.isTrue => exact handleDelete_inv h hrefresh
  case h_8.isFalse => exact handleFileClick_inv h _ _
  case h_9.isTrue => exact handleKeyboard_inv h _
  case h_10.isTrue hcase =>
    obtain ⟨hf, ha, hc⟩ := h
    exact ⟨⟨hf.kept, hf.display, hf.dialogs, hf.short⟩, ha,
      ⟨hc.visits, hc.widgets, hc.once, hstale hcase, hc.selected, hc.directory, hc.acts⟩⟩
  case h_11.isTrue => exact confirmNewFolder_inv h _
  case h_12.isTrue => exact confirmNewFile_inv h _
  case h_14.isTrue => exact (clearDialog_inv h.frame h.consistent).1
  all_goals exact h

end Handlers

end NorthOS.Explorer
