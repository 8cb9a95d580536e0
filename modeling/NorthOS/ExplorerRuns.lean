import NorthOS.ExplorerItems

/-!
loadFiles, and the runs of the explorer. The loop adds a widget and an item for each entry that
is shown; the two lists stay the same as long as there is a slot for every widget.
-/
namespace NorthOS.Explorer

open Widgets Runs
open TextCopies (MAX_SHORT_STRLEN MAX_LONG_STRLEN)
open Navigation (slash)

variable {ui stay : List ℤ} {s t : State} {fs : FileSystem} {dir name : List ℤ} {isDir : Bool}
  {des : List Dirent} {input : Input} {act : Act}

/-- Inside of the loop of loadFiles; `stay` are the widgets that do not scroll. -/
structure Loading (ui stay : List ℤ) (s : State) : Prop where
  frame : Frame ui s
  attached : Attached s
  stays : staying s.desktop = stay
  text_only : ∀ p ∈ s.desktop.live, scrolls s.desktop p → isItem s.desktop p
  directory : s.current_path = s.listed
  acts : ∀ a ∈ s.acts, a.path = entryPath a.dir a.name

/-- Every item so far has its widget. -/
structure Filled (s : State) : Prop where
  widgets : itemWidgets s.desktop = s.items.map FileItem.widget_id
  texts : ∀ item ∈ s.items, s.text item.widget_id = displayText item.name item.is_dir

/-- The entries that the loop comes to: it ends at the fortieth. -/
def shownCount (fs : FileSystem) (s : State) : ℕ :=
  min ((fs.entries (openPath s)).filterMap (shown fs s.current_path)).length (MAX_WIDGET_SIZE - 10)

/-- The directory opens and every entry that is shown finds a slot, or nothing was shown before
and nothing is now. -/
def Loads (fs : FileSystem) (s : State) : Prop :=
  if opens fs s then (staying s.desktop).length + shownCount fs s ≤ MAX_WIDGET_SIZE
  else s.items = []

section Loop

theorem Loading.items_eq (h : Loading ui stay s) :
    itemWidgets s.desktop = s.desktop.live.filter (scrolls s.desktop) := by
  refine List.filter_congr fun p hp => ?_
  cases hscrolls : scrolls s.desktop p with
  | true => exact h.text_only p hp hscrolls
  | false => rw [isItem, hscrolls, Bool.false_and]

theorem Loading.length_eq (h : Loading ui stay s) :
    stay.length + (itemWidgets s.desktop).length = s.desktop.live.length := by
  rw [← h.stays, h.items_eq, Nat.add_comm]
  exact (List.length_eq_length_filter_add _).symm

theorem shown_short {de : Dirent} (h : shown fs dir de = some (name, isDir)) :
    name.length ≤ MAX_SHORT_STRLEN - 1 := by
  unfold shown at h
  split at h
  next => exact nomatch h
  next =>
    dsimp only at h
    split at h
    next => exact nomatch h
    next =>
      split at h
      next =>
        obtain ⟨rfl, -⟩ := Prod.mk.inj (Option.some.inj h)
        exact List.length_take_le _ _
      next => exact nomatch h
    next =>
      split at h
      next =>
        obtain ⟨rfl, -⟩ := Prod.mk.inj (Option.some.inj h)
        exact List.length_take_le _ _
      next => exact nomatch h
    next => exact nomatch h

/-- An item is added in any case, its widget where there is a slot. -/
theorem addItem_loading (isDir : Bool) (h : Loading ui stay s)
    (hshort : name.length ≤ MAX_SHORT_STRLEN - 1)
    (hroom : s.items.length < MAX_WIDGET_SIZE) :
    Loading ui stay (addItem s name isDir) ∧
      (addItem s name isDir).items.length = s.items.length + 1 ∧
      (addItem s name isDir).current_path = s.current_path ∧
      (s.desktop.live.length < MAX_WIDGET_SIZE → Filled s → Filled (addItem s name isDir)) := by
  obtain ⟨hf, ha, hstays, htext, hdirectory, hacts⟩ := h
  have hitems : ∀ (wid y : ℤ), ∀ item ∈ s.items ++ [⟨name, isDir, wid, y⟩],
      item.name.length ≤ MAX_SHORT_STRLEN - 1 := by
    intro wid y item hitem
    rcases List.mem_append.mp hitem with hold | hnew
    · exact hf.short item hold
    · obtain rfl := List.mem_singleton.mp hnew
      exact hshort
  unfold addItem State.added Window.addTextWidget
  dsimp only
  rcases addTyped_grown hf.kept .TEXT CONTENT_PADDING
    (TOPBAR_HEIGHT + CONTENT_PADDING + s.total_items * (ITEM_HEIGHT + ITEM_PADDING))
    (width - CONTENT_PADDING * 2) ITEM_HEIGHT true with ⟨hfull, hnone⟩ | hgrown
  · rw [if_pos hnone, if_pos hroom]
    refine ⟨⟨⟨hf.kept, hf.display, hf.dialogs, hitems _ _⟩, ha, hstays, htext, hdirectory, hacts⟩,
      List.length_append, rfl, fun hlt => absurd hfull hlt.ne⟩
  · rw [if_neg (ne_null hgrown.valid), if_pos hroom]
    have hsame : ∀ p ∈ s.desktop.live, _ = s.desktop.widgets p :=
      fun p hp => hgrown.same p fun heq => hgrown.fresh (heq ▸ hp)
    refine ⟨⟨⟨hgrown.kept, hf.display, fun part => ?_, hitems _ _⟩, fun part => ?_, ?_, ?_,
      hdirectory, hacts⟩, List.length_append, rfl, fun _ hfilled => ⟨?_, ?_⟩⟩
    · rcases ha part with hnone | hlive
      · exact .inl hnone
      · dsimp only
        rw [hsame _ hlive]
        exact hf.dialogs part
    · dsimp only
      rw [hgrown.live]
      exact (ha part).imp_right (List.mem_append_left _)
    · refine hgrown.staying.trans ?_
      rw [if_pos rfl, List.append_nil]
      exact hstays
    · intro p hp hscrolls
      dsimp only at hp hscrolls ⊢
      rw [hgrown.live] at hp
      rcases List.mem_append.mp hp with hold | hnew
      · have hscrolls : scrolls s.desktop p := by
          unfold scrolls at hscrolls ⊢
          rwa [hsame p hold] at hscrolls
        have hitem := htext p hold hscrolls
        unfold isItem scrolls at hitem ⊢
        rwa [hsame p hold]
      · obtain rfl := List.mem_singleton.mp hnew
        rw [isItem, hscrolls, hgrown.type_eq]
        rfl
    · refine hgrown.itemWidgets.trans ?_
      rw [if_pos ⟨rfl, rfl⟩, hfilled.widgets, List.map_append]
      rfl
    · intro item hitem
      dsimp only
      rcases List.mem_append.mp hitem with hold | hnew
      · have hlive : item.widget_id ∈ s.desktop.live := by
          refine itemWidgets_subset s.desktop ?_
          rw [hfilled.widgets]
          exact List.mem_map_of_mem hold
        refine (Function.update_of_ne (fun heq => ?_) _ _).trans (hfilled.texts item hold)
        rw [heq] at hlive
        exact hgrown.fresh hlive
      · obtain rfl := List.mem_singleton.mp hnew
        exact Function.update_self ..

/-- The whole loop: as many items as entries, up to forty. -/
theorem loadEntries_loading (fs : FileSystem) (dir : List ℤ) (des : List Dirent)
    (h : Loading ui stay s) (hcount : s.items.length < MAX_WIDGET_SIZE - 10) :
    Loading ui stay (loadEntries fs dir des s) ∧
      (loadEntries fs dir des s).items.length =
        min (s.items.length + (des.filterMap (shown fs dir)).length) (MAX_WIDGET_SIZE - 10) ∧
      (Filled s → stay.length +
          min (s.items.length + (des.filterMap (shown fs dir)).length) (MAX_WIDGET_SIZE - 10) ≤
            MAX_WIDGET_SIZE → Filled (loadEntries fs dir des s)) := by
  induction des generalizing s with
  | nil =>
    refine ⟨h, ?_, fun hfilled _ => hfilled⟩
    exact (min_eq_left hcount.le).symm
  | cons de des ih =>
    unfold loadEntries
    cases hshown : shown fs dir de with
    | none =>
      rw [List.filterMap_cons_none hshown]
      exact ih h hcount
    | some entry =>
      obtain ⟨name, isDir⟩ := entry
      have hroom : s.items.length < MAX_WIDGET_SIZE := lt_of_lt_of_le hcount (by decide)
      obtain ⟨hload, hlength, hpath, hfill⟩ :=
        addItem_loading isDir h (shown_short hshown) hroom
      rw [List.filterMap_cons_some hshown, List.length_cons]
      have hfilled : Filled s → stay.length +
          min (s.items.length + ((des.filterMap (shown fs dir)).length + 1))
          (MAX_WIDGET_SIZE - 10) ≤
            MAX_WIDGET_SIZE → Filled (addItem s name isDir) := by
        intro hfilled hfits
        refine hfill ?_ hfilled
        have hlive := h.length_eq
        rw [hfilled.widgets, List.length_map] at hlive
        omega
      dsimp only
      split
      next hended =>
        rw [hlength] at hended
        refine ⟨hload, ?_, hfilled⟩
        rw [hlength]
        omega
      next hgoes =>
        rw [not_le] at hgoes
        obtain ⟨hload', hlength', hfill'⟩ := ih hload hgoes
        rw [hlength] at hlength' hfill'
        refine ⟨hload', ?_, fun hfull hfits => hfill' (hfilled hfull hfits) ?_⟩
        · rw [hlength']
          omega
        · rw [Nat.add_assoc, Nat.add_comm 1]
          exact hfits

end Loop

section Loads

/-- Nothing that scrolls is left, and all the rest is. -/
theorem removeAll_loading (hf : Frame ui s) (ha : Attached s) :
    ∃ u, removeAllScrollableWidgets s = some u ∧
    u = { s with desktop := u.desktop } ∧ Frame ui u ∧ Attached u ∧
    staying u.desktop = staying s.desktop ∧ u.desktop.live = staying s.desktop ∧
    (∀ p ∈ u.desktop.live, ¬scrolls u.desktop p) := by
  have hrange := hf.kept.linked.range
  have hremove : (s.desktop.live.filter fun p =>
      decide (InTable p) && (s.desktop.widgets p).scrollable).take MAX_WIDGET_SIZE =
      s.desktop.live.filter (scrolls s.desktop) := by
    have hfilter : (s.desktop.live.filter fun p =>
        decide (InTable p) && (s.desktop.widgets p).scrollable) =
        s.desktop.live.filter (scrolls s.desktop) := by
      refine List.filter_congr fun p hp => ?_
      rw [decide_eq_true (hrange p hp), Bool.true_and]
      rfl
    rw [hfilter]
    refine List.take_of_length_le ((List.length_filter_le _ _).trans ?_)
    exact live_length_le hf.kept.linked.toChained
  have hgone : ∀ p ∈ s.desktop.live.filter (scrolls s.desktop), InTable p ∧ p ∉ ui := by
    intro p hp
    obtain ⟨hlive, hscrolls⟩ := List.mem_filter.mp hp
    refine ⟨hrange p hlive, fun hmem => ?_⟩
    rw [scrolls, hf.kept.fixed p hmem] at hscrolls
    exact Bool.false_ne_true hscrolls
  obtain ⟨hkept, hwidgets, hlive⟩ := hf.kept.removeAll hf.ui_ne_nil hgone
  rw [foldl_erase_filter hf.kept.linked.nodup] at hlive
  have hscrolls : scrolls ((s.desktop.live.filter (scrolls s.desktop)).foldl Window.removeWidget
      s.desktop) = scrolls s.desktop := by
    funext p
    exact congrArg (fun widgets => (widgets p).scrollable) hwidgets
  refine ⟨{ s with
    desktop := (s.desktop.live.filter (scrolls s.desktop)).foldl Window.removeWidget s.desktop },
    ?_, rfl, ⟨hkept, hf.display, fun part => ?_, hf.short⟩, fun part => ?_, ?_, hlive, ?_⟩
  · unfold removeAllScrollableWidgets
    rw [hf.visits, Option.map_some, hremove]
  · dsimp only
    rw [hwidgets]
    exact hf.dialogs part
  · dsimp only
    rw [hlive]
    rcases ha part with hnone | hmem
    · exact .inl hnone
    · refine (hf.dialogs part).imp_right fun hdialog => List.mem_filter.mpr ⟨hmem, ?_⟩
      rw [scrolls, hdialog.2.2]
      rfl
  · dsimp only
    unfold staying
    rw [hscrolls, hlive, List.filter_filter]
    refine List.filter_congr fun p _ => ?_
    exact Bool.and_self _
  · intro p hp
    dsimp only at hp ⊢
    rw [hlive] at hp
    rw [hscrolls]
    have hstays := (List.mem_filter.mp hp).2
    rw [Bool.not_eq_true'] at hstays
    exact Bool.eq_false_iff.mp hstays

/-- The path is shown by a widget that no item has. -/
theorem Filled.display (hload : Loading ui stay s) (hfilled : Filled s) (text : List ℤ) :
    Filled { s with
      text := if InTable s.path_display_widget then
          Function.update s.text s.path_display_widget text
        else s.text } := by
  refine ⟨hfilled.widgets, fun item hitem => ?_⟩
  have hne : item.widget_id ≠ s.path_display_widget := by
    intro heq
    have hmem : item.widget_id ∈ itemWidgets s.desktop := by
      rw [hfilled.widgets]
      exact List.mem_map_of_mem hitem
    have hscrolls := (Bool.and_eq_true_iff.mp (List.mem_filter.mp hmem).2).1
    rw [heq, scrolls, hload.frame.kept.fixed _ hload.frame.display] at hscrolls
    exact Bool.false_ne_true hscrolls
  dsimp only
  split
  · exact (Function.update_of_ne hne _ _).trans (hfilled.texts item hitem)
  · exact hfilled.texts item hitem

/-- The state after loadFiles shows whether the items found their widgets. -/
theorem loadFiles_iff (hf : Frame ui s) (ha : Attached s)
    (hselected : s.selected_index = -1 ∨ ∃ item, s.item s.selected_index = some item ∧
      s.selected_name = item.name ∧ s.is_selected_dir = item.is_dir)
    (hacts : ∀ a ∈ s.acts, a.path = entryPath a.dir a.name) (ht : loadFiles fs s = some t) :
    (Loads fs s → Inv ui t) ∧ (Consistent t → Loads fs s) := by
  obtain ⟨u, hremove, hu, hframe, hattached, hstaying, hlive, hnone⟩ := removeAll_loading hf ha
  have hpath : u.current_path = s.current_path := by rw [hu]
  have hopens : opens fs u = opens fs s := by
    unfold opens openPath
    rw [hpath]
  have hempty : itemWidgets u.desktop = [] := by
    refine List.filter_eq_nil_iff.mpr fun p hp hitem => ?_
    unfold isItem at hitem
    exact hnone p hp (Bool.and_eq_true_iff.mp hitem).1
  unfold loadFiles at ht
  rw [hremove, Option.map_some] at ht
  dsimp only at ht
  rw [hopens] at ht
  unfold Loads
  by_cases hopen : opens fs s = true
  · rw [if_pos hopen]
    rw [hopen] at ht
    have hstart : Loading ui (staying s.desktop)
        { u with items := [], listed := u.current_path } := by
      refine ⟨⟨hframe.kept, hframe.display, hframe.dialogs, ?_⟩, hattached, hstaying, ?_, rfl, ?_⟩
      · exact fun item hitem => absurd hitem List.not_mem_nil
      · exact fun p hp hscrolls => absurd hscrolls (hnone p hp)
      · rw [hu]
        exact hacts
    have hblank : Filled { u with items := [], listed := u.current_path } :=
      ⟨hempty, fun item hitem => absurd hitem List.not_mem_nil⟩
    obtain ⟨hload, hlength, hfill⟩ := loadEntries_loading fs u.current_path
      (fs.entries (openPath u)) hstart (by decide : 0 < MAX_WIDGET_SIZE - 10)
    have hcount : min (0 + ((fs.entries (openPath u)).filterMap (shown fs u.current_path)).length)
        (MAX_WIDGET_SIZE - 10) = shownCount fs s := by
      unfold shownCount openPath
      rw [hpath, Nat.zero_add]
    rw [List.length_nil, hcount] at hlength hfill
    have ht := Option.some.inj ht
    generalize loadEntries fs u.current_path (fs.entries (openPath u))
      { u with items := [], listed := u.current_path } = v at ht hload hlength hfill
    subst ht
    constructor
    · intro hfits
      have hfilled := (hfill hblank hfits).display hload
        (if v.current_path = [] then [slash] else v.current_path)
      obtain ⟨hf, ha, -, -, hdirectory, hacts⟩ := hload
      exact ⟨⟨hf.kept, hf.display, hf.dialogs, hf.short⟩, ha,
        ⟨hf.visits, hfilled.widgets, hf.kept.linked.nodup.filter _, hfilled.texts, .inl rfl,
          fun _ _ => hdirectory, hacts⟩⟩
    · intro hconsistent
      have hmap := congrArg List.length hconsistent.widgets
      rw [List.length_map] at hmap
      have hlive := live_length_le hload.frame.kept.linked.toChained
      rw [← hload.length_eq] at hlive
      have hsame : (itemWidgets v.desktop).length = v.items.length := hmap
      omega
  · rw [if_neg hopen]
    rw [Bool.not_eq_true] at hopen
    rw [hopen] at ht
    obtain rfl : u = t := Option.some.inj ht
    have hitems : u.items = s.items := by rw [hu]
    constructor
    · intro hno
      refine ⟨hframe, hattached, ⟨hframe.visits, ?_, ?_, ?_, ?_, ?_, ?_⟩⟩
      · rw [hempty, hitems, hno]
        rfl
      · rw [hempty]
        exact List.nodup_nil
      · intro item hitem
        rw [hitems, hno] at hitem
        exact absurd hitem List.not_mem_nil
      · rw [hu]
        exact hselected
      · intro _ hsome
        rw [hitems] at hsome
        exact absurd hno hsome
      · rw [hu]
        exact hacts
    · intro hconsistent
      have hmap := hconsistent.widgets
      rw [hempty, hitems] at hmap
      exact List.map_eq_nil_iff.mp hmap.symm

end Loads

section Turns

/-- The condition of a step: loadFiles finds room for what it shows, and a key that goes to a
field which has been removed changes no item's text. -/
def Safe (s : State) : Act → Prop
  | .load fs => Loads fs s
  | .message input => Harmless s input

theorem load_iff (h : Inv ui s) (ht : step s (.load fs) = some t) :
    (Loads fs s → Inv ui t) ∧ (Consistent t → Loads fs s) := by
  obtain ⟨hf, ha, hc⟩ := h
  have hframe : Frame ui { s with need_refresh := false } :=
    ⟨hf.kept, hf.display, hf.dialogs, hf.short⟩
  have ht : loadFiles fs { s with need_refresh := false } = some t := ht
  have hiff := loadFiles_iff hframe ha hc.selected hc.acts ht
  exact hiff

theorem exists_load (fs : FileSystem) (h : Inv ui s) : ∃ t, step s (.load fs) = some t := by
  have hframe : Frame ui { s with need_refresh := false } :=
    ⟨h.frame.kept, h.frame.display, h.frame.dialogs, h.frame.short⟩
  obtain ⟨u, hremove, -⟩ := removeAll_loading hframe h.attached
  have hstep : step s (.load fs) = loadFiles fs { s with need_refresh := false } := rfl
  rw [hstep, loadFiles, hremove, Option.map_some]
  exact ⟨_, rfl⟩

theorem mouseTarget_live (h : Frame ui s) {msg : WindowManager.Message} {p : ℤ}
    (hp : mouseTarget s msg = some p) : p = -1 ∨ p ∈ s.desktop.live := by
  have hchained := h.kept.linked.toChained
  unfold mouseTarget at hp
  rw [hchained.search_prev] at hp
  obtain rfl := Option.some.inj hp
  cases hfind : s.desktop.live.reverse.find? (s.desktop.hit (msg.params 0) (msg.params 1)) with
  | none => exact .inl rfl
  | some q => exact .inr (List.mem_reverse.mp (List.mem_of_find?_eq_some hfind))

theorem afterMouse_inv (h : Inv ui s) (p : ℤ) : Inv ui (afterMouse p s) := by
  unfold afterMouse
  split
  · exact h.refocus p
  · exact h

/-- A message leaves the items with their widgets. -/
theorem message_inv (h : Inv ui s) (hsafe : Harmless s input)
    (ht : step s (.message input) = some t) : Inv ui t := by
  have ht : (if s.need_refresh then none else updateWindow s input) = some t := ht
  split at ht
  next => exact nomatch ht
  next hrefresh =>
    rw [Bool.not_eq_true] at hrefresh
    unfold updateWindow at ht
    split at ht
    next => exact nomatch ht
    next => exact Option.some.inj ht ▸ h
    next => exact Option.some.inj ht ▸ h
    next =>
      split at ht
      next hkeyed => exact handle_inv h hrefresh (hsafe hkeyed) ht
      next =>
        obtain ⟨p, hp, ht⟩ := Option.bind_eq_some_iff.mp ht
        split at ht
        next => exact Option.some.inj ht ▸ h
        next hne =>
          obtain ⟨u, hu, rfl⟩ := Option.map_eq_some_iff.mp ht
          have hlive := (mouseTarget_live h.frame hp).resolve_left hne
          exact afterMouse_inv (handle_inv h hrefresh (fun hstale => absurd hlive hstale.2.2) hu) p

/-- A text that a key has changed is seen at once. -/
theorem message_seen (ht : step s (.message input) = some t) (hc : Consistent t) :
    Harmless s input := by
  intro hkeyed hstale
  have hdown := hstale.2.1
  have ht : (if s.need_refresh then none else updateWindow s input) = some t := ht
  split at ht
  next => exact nomatch ht
  next =>
    unfold updateWindow at ht
    rw [hdown] at ht
    dsimp only at ht
    rw [if_pos hkeyed] at ht
    unfold handle at ht
    rw [hstale.1] at ht
    dsimp only at ht
    rw [if_pos hstale] at ht
    obtain rfl := Option.some.inj ht
    exact hc.texts

end Turns

section Start

/-- So many widgets have been set up, none of which scrolls, and nothing else is shown. -/
structure Built (n : ℕ) (s : State) : Prop where
  kept : Kept [] s.desktop
  fixed : ∀ p ∈ s.desktop.live, (s.desktop.widgets p).scrollable = false
  count : s.desktop.live.length = n
  items : s.items = []
  dialog : ∀ part, s.dialog part = -1
  selected : s.selected_index = -1
  listed : s.current_path = [] ∧ s.listed = []
  acts : s.acts = []

theorem built_main (win : Window) : Built 0 (main win) where
  kept := ⟨setUp_linked false win, List.nil_prefix, fun _ hi => absurd hi List.not_mem_nil⟩
  fixed _ hp := absurd hp List.not_mem_nil
  count := rfl
  items := rfl
  dialog _ := rfl
  selected := rfl
  listed := ⟨rfl, rfl⟩
  acts := rfl

theorem Built.grow {n : ℕ} (h : Built n s) (hn : n < MAX_WIDGET_SIZE) (type : WidgetType)
    (x y w k : ℤ) (text : List ℤ) (handler : Handler) :
    Built (n + 1) (place s (s.desktop.addTyped type x y w k false) text handler) ∧
      (s.added (s.desktop.addTyped type x y w k false) text handler).2 ∈
        (place s (s.desktop.addTyped type x y w k false) text handler).desktop.live ∧
      s.desktop.live ⊆
        (place s (s.desktop.addTyped type x y w k false) text handler).desktop.live := by
  obtain ⟨hkept, hfixed, hcount, hitems, hdialog, hselected, hlisted, hacts⟩ := h
  unfold Explorer.place State.added
  rcases addTyped_grown hkept type x y w k false with ⟨hfull, -⟩ | hgrown
  · omega
  · rw [if_neg (ne_null hgrown.valid)]
    dsimp only
    refine ⟨⟨hgrown.kept, ?_, ?_, hitems, hdialog, hselected, hlisted, hacts⟩, ?_, ?_⟩
    · intro p hp
      dsimp only at hp ⊢
      rw [hgrown.live] at hp
      rcases List.mem_append.mp hp with hold | hnew
      · rw [hgrown.same p fun heq => hgrown.fresh (heq ▸ hold)]
        exact hfixed p hold
      · obtain rfl := List.mem_singleton.mp hnew
        exact hgrown.scrollable_eq
    · dsimp only
      rw [hgrown.live, List.length_append, hcount]
      rfl
    · rw [hgrown.live]
      exact List.mem_append_right _ (List.mem_singleton_self _)
    · rw [hgrown.live]
      exact List.subset_append_left _ _

theorem Built.placeColor {n : ℕ} (h : Built n s) {x y w k : ℤ} {handler : Handler}
    (hn : n < MAX_WIDGET_SIZE) : Built (n + 1) (placeColor x y w k handler s) :=
  (h.grow hn .COLORFILL x y w k [] handler).1

theorem Built.placeButton {n : ℕ} (h : Built n s) {text : String} {x w : ℤ} {handler : Handler}
    (hn : n < MAX_WIDGET_SIZE) : Built (n + 1) (placeButton text x w handler s) :=
  (h.grow hn .BUTTON x 8 w 24 (chars text) handler).1

/-- The widget of the path is in the list, too. -/
structure BuiltPath (n : ℕ) (s : State) : Prop where
  built : Built n s
  display : s.path_display_widget ∈ s.desktop.live

theorem Built.placePath {n : ℕ} (h : Built n s) (hn : n < MAX_WIDGET_SIZE) :
    BuiltPath (n + 1) (placePath s) := by
  obtain ⟨⟨hkept, hfixed, hcount, hitems, hdialog, hselected, hlisted, hacts⟩, hmem, -⟩ :=
    h.grow hn .TEXT 354 12 (width - 364) 18 [slash] .emptyHandler
  exact ⟨⟨hkept, hfixed, hcount, hitems, hdialog, hselected, hlisted, hacts⟩, hmem⟩

theorem BuiltPath.placeColor {n : ℕ} (h : BuiltPath n s) {x y w k : ℤ} {handler : Handler}
    (hn : n < MAX_WIDGET_SIZE) : BuiltPath (n + 1) (placeColor x y w k handler s) := by
  obtain ⟨hbuilt, -, hsub⟩ := h.built.grow hn .COLORFILL x y w k [] handler
  refine ⟨hbuilt, ?_⟩
  have hsame : (Explorer.placeColor x y w k handler s).path_display_widget =
      s.path_display_widget := by
    unfold Explorer.placeColor place State.added
    split <;> rfl
  rw [hsame]
  exact hsub h.display

theorem BuiltPath.focusTail {n : ℕ} (h : BuiltPath n s) : BuiltPath n (focusTail s) := by
  obtain ⟨⟨hkept, hfixed, hcount, hitems, hdialog, hselected, hlisted, hacts⟩, hdisplay⟩ := h
  exact ⟨⟨hkept.congr ⟨rfl, rfl, rfl, rfl, rfl⟩ rfl, hfixed, hcount, hitems, hdialog, hselected,
    hlisted, hacts⟩, hdisplay⟩

theorem Built.placeBar (h : Built 1 s) : Built 8 (placeBar s) := by
  unfold Explorer.placeBar
  refine Built.placeButton (Built.placeButton (Built.placeButton (Built.placeButton
    (Built.placeButton (Built.placeButton ?_ ?_) ?_) ?_) ?_) ?_) ?_
  · exact h.placeColor (by decide)
  all_goals decide

theorem start_built (win : Window) : BuiltPath 11 (start win) := by
  unfold start initUI
  refine BuiltPath.focusTail (BuiltPath.placeColor (BuiltPath.placeColor (Built.placePath
    (Built.placeBar ?_) ?_) ?_) ?_)
  · exact (built_main win).placeColor (by decide)
  all_goals decide

theorem start_inv (win : Window) : Inv (start win).desktop.live (start win) := by
  obtain ⟨⟨hkept, hfixed, -, hitems, hdialog, hselected, ⟨hpath, hlisted⟩, hacts⟩, hdisplay⟩ :=
    start_built win
  have hnone : itemWidgets (start win).desktop = [] := by
    refine List.filter_eq_nil_iff.mpr fun p hp hitem => ?_
    rw [isItem, scrolls, hfixed p hp] at hitem
    exact Bool.false_ne_true hitem
  have hframe : Frame (start win).desktop.live (start win) := by
    refine ⟨⟨hkept.linked, List.prefix_refl _, hfixed⟩, hdisplay, fun part => .inl (hdialog part),
      ?_⟩
    rw [hitems]
    exact fun item hitem => absurd hitem List.not_mem_nil
  refine ⟨hframe, fun part => .inl (hdialog part),
    ⟨hframe.visits, ?_, ?_, ?_, .inl hselected, ?_, ?_⟩⟩
  · rw [hnone, hitems]
    rfl
  · rw [hnone]
    exact List.nodup_nil
  · rw [hitems]
    exact fun item hitem => absurd hitem List.not_mem_nil
  · exact fun _ hsome => absurd hitems hsome
  · rw [hacts]
    exact fun a ha => absurd ha List.not_mem_nil

/-- In every run the items are the widgets that are shown, exactly as long as every listing
finds its directory and its slots, and no key falls into a field that is gone. -/
theorem always_consistent_iff (win : Window) (acts : List Act) :
    Always step Consistent (start win) acts ↔ Meets step Safe (start win) acts := by
  refine always_iff_meets (I := Inv (start win).desktop.live) (fun _ h => h.consistent)
    (fun s act t h hsafe ht => ?_) (fun s act t h ht hc => ?_) (start_inv win) acts
  · cases act with
    | load fs => exact (load_iff h ht).1 hsafe
    | message input => exact message_inv h hsafe ht
  · cases act with
    | load fs => exact (load_iff h ht).2 hc
    | message input => exact message_seen ht hc

/-- A root directory with forty directories. -/
def forty : FileSystem where
  opened _ := some .T_DIR
  entries _ := (List.range 40).map fun k => ⟨k + 2, [48 + (k : ℤ)]⟩
  stat _ := some .T_DIR

theorem shownCount_forty (h : s.current_path = []) : shownCount forty s = 40 := by
  unfold shownCount openPath
  rw [h]
  decide +kernel

theorem opens_forty (h : s.current_path = []) : opens forty s = true := by
  unfold opens
  rw [h]
  rfl

/-- Besides the widgets of initUI there are 39 slots. -/
theorem forty_inconsistent (h : Inv ui s) (hpath : s.current_path = []) (hbuilt : Built 11 s) :
    ∃ t, step s (.load forty) = some t ∧ ¬Consistent t := by
  obtain ⟨t, ht⟩ := exists_load forty h
  refine ⟨t, ht, fun hc => ?_⟩
  have hloads : Loads forty s := (load_iff h ht).2 hc
  have hstaying : staying s.desktop = s.desktop.live := by
    refine List.filter_eq_self.mpr fun p hp => ?_
    rw [scrolls, hbuilt.fixed p hp]
    rfl
  unfold Loads at hloads
  rw [if_pos (opens_forty hpath), shownCount_forty hpath, hstaying, hbuilt.count] at hloads
  exact absurd hloads (by decide)

theorem not_always_consistent :
    ¬∀ (win : Window) (acts : List Act), Always step Consistent (start win) acts := by
  intro h
  have hbuilt := (start_built blank).built
  obtain ⟨t, ht, hno⟩ := forty_inconsistent (start_inv blank) hbuilt.listed.1 hbuilt
  have halways := h blank [.load forty]
  exact hno ((always_iff_run _ _).mp halways _ t (List.prefix_refl _) (by rw [run, ht]; rfl))

end Start

end NorthOS.Explorer
