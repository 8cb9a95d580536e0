import NorthOS.ExplorerWindow
import NorthOS.WidgetList

/-!
The explorer's use of its widget list. What initUI adds stays in front of the list and is never
removed, so the head stays right; widgets that scroll come and go behind it.
-/
namespace NorthOS.Explorer

open Widgets

variable {win : Window} {ui : List ℤ} {p : ℤ}

/-- The widgets of initUI are in front, and they do not scroll. -/
structure Kept (ui : List ℤ) (win : Window) : Prop where
  linked : Linked win
  front : ui <+: win.live
  fixed : ∀ i ∈ ui, (win.widgets i).scrollable = false

def scrolls (win : Window) (p : ℤ) : Bool := (win.widgets p).scrollable

def isItem (win : Window) (p : ℤ) : Bool := scrolls win p && decide ((win.widgets p).type = .TEXT)

/-- The scrollable text widgets of the list. -/
def itemWidgets (win : Window) : List ℤ := win.live.filter (isItem win)

/-- The widgets that loadFiles does not remove. -/
def staying (win : Window) : List ℤ := win.live.filter fun p => !scrolls win p

section Removing

@[simp] theorem removeWidget_widgets (win : Window) (p : ℤ) :
    (win.removeWidget p).widgets = win.widgets := by
  unfold Window.removeWidget
  split
  · rfl
  · unfold Window.freeWidget
    split <;> rfl

theorem scrolls_removeWidget (win : Window) (p : ℤ) :
    scrolls (win.removeWidget p) = scrolls win := by
  unfold scrolls
  rw [removeWidget_widgets]

theorem isItem_removeWidget (win : Window) (p : ℤ) :
    isItem (win.removeWidget p) = isItem win := by
  unfold isItem
  rw [scrolls_removeWidget, removeWidget_widgets]

theorem removeWidget_live (h : Chained win) (hp : InTable p) :
    (win.removeWidget p).live = win.live.erase p := by
  rcases h.removeWidget_cases hp with ⟨hnot, heq⟩ | ⟨-, heq⟩
  · rw [heq, List.erase_of_not_mem hnot]
  · rw [heq]
    unfold Window.freeWidget
    split <;> rfl

theorem Kept.head_ne (h : Kept ui win) (hui : ui ≠ []) (hp : p ∉ ui) :
    p ≠ win.widgetlisthead := by
  obtain ⟨rest, hrest⟩ := h.front
  cases ui with
  | nil => exact absurd rfl hui
  | cons x ui =>
    rw [h.linked.head, ← hrest]
    rintro rfl
    exact hp List.mem_cons_self

theorem Kept.removeWidget (h : Kept ui win) (hui : ui ≠ []) (hp : InTable p) (hnot : p ∉ ui) :
    Kept ui (win.removeWidget p) := by
  have hexec : win.exec (.remove p) = some (win.removeWidget p) := if_pos hp
  refine ⟨⟨h.linked.toChained.exec hexec, ?_⟩, ?_, ?_⟩
  · exact (h.linked.exec_iff hexec).mpr fun heq => absurd heq (h.head_ne hui hnot)
  · obtain ⟨rest, hrest⟩ := h.front
    rw [removeWidget_live h.linked.toChained hp, ← hrest, List.erase_append_right _ hnot]
    exact List.prefix_append ui _
  · rw [removeWidget_widgets]
    exact h.fixed

theorem filter_erase {q : ℤ → Bool} {l : List ℤ} (hp : q p = false) :
    (l.erase p).filter q = l.filter q := by
  rw [← List.erase_filter]
  refine List.erase_of_not_mem fun hmem => ?_
  rw [(List.mem_filter.mp hmem).2] at hp
  exact absurd hp.symm Bool.false_ne_true

/-- Removing what does not scroll leaves the items. -/
theorem itemWidgets_removeWidget (h : Chained win) (hp : InTable p)
    (hfixed : (win.widgets p).scrollable = false) :
    itemWidgets (win.removeWidget p) = itemWidgets win := by
  unfold itemWidgets
  rw [isItem_removeWidget, removeWidget_live h hp]
  exact filter_erase (by rw [isItem, scrolls, hfixed, Bool.false_and])

/-- One by one the widgets that scroll are removed. -/
theorem Kept.removeAll (h : Kept ui win) (hui : ui ≠ []) {l : List ℤ}
    (hl : ∀ p ∈ l, InTable p ∧ p ∉ ui) :
    Kept ui (l.foldl Window.removeWidget win) ∧
      (l.foldl Window.removeWidget win).widgets = win.widgets ∧
      (l.foldl Window.removeWidget win).live = l.foldl List.erase win.live := by
  induction l generalizing win with
  | nil => exact ⟨h, rfl, rfl⟩
  | cons p l ih =>
    obtain ⟨⟨hp, hnot⟩, hrest⟩ := List.forall_mem_cons.mp hl
    obtain ⟨hkept, hwidgets, hlive⟩ := ih (h.removeWidget hui hp hnot) hrest
    refine ⟨hkept, ?_, ?_⟩
    · exact hwidgets.trans (removeWidget_widgets win p)
    · rw [removeWidget_live h.linked.toChained hp] at hlive
      exact hlive

theorem foldl_erase_filter {q : ℤ → Bool} {l : List ℤ} (hl : l.Nodup) :
    (l.filter q).foldl List.erase l = l.filter fun p => !q p := by
  have herase : ∀ ds : List ℤ, ds.foldl List.erase l = l.diff ds := by
    intro ds
    exact (List.diff_eq_foldl l ds).symm
  rw [herase, hl.sdiff_eq_filter]
  refine List.filter_congr fun p hp => ?_
  by_cases hq : q p = true
  · simp [hq, hp]
  · simp [hq]

end Removing

section Adding

/-- A free slot is found as long as not all are in the list. -/
theorem exists_free (h : Chained win) (hlen : win.live.length < MAX_WIDGET_SIZE) :
    win.findNextAvailable ≠ -1 := by
  intro hnone
  have hall : ∀ k < MAX_WIDGET_SIZE, (k : ℤ) ∈ win.live := by
    intro k hk
    by_contra hnot
    have htable : InTable k := ⟨Int.natCast_nonneg k, Int.ofNat_lt.mpr hk⟩
    obtain ⟨hnext, hprev⟩ := h.free k htable hnot
    have hmem : (k : ℤ) ∈ (List.range MAX_WIDGET_SIZE).map fun i : ℕ => (i : ℤ) :=
      List.mem_map.mpr ⟨k, List.mem_range.mpr hk, rfl⟩
    unfold Window.findNextAvailable at hnone
    cases hfind : ((List.range MAX_WIDGET_SIZE).map fun i : ℕ => (i : ℤ)).find? fun i =>
        win.prev i = i ∧ win.next i = i with
    | none => exact List.find?_eq_none.mp hfind _ hmem (decide_eq_true ⟨hprev, hnext⟩)
    | some i =>
      rw [hfind, Option.getD_some] at hnone
      obtain ⟨j, -, rfl⟩ := List.mem_map.mp (List.mem_of_find?_eq_some hfind)
      omega
  have hnodup : ((List.range MAX_WIDGET_SIZE).map fun i : ℕ => (i : ℤ)).Nodup :=
    List.nodup_range.map Int.ofNat_injective
  have hsub : (List.range MAX_WIDGET_SIZE).map (fun i : ℕ => (i : ℤ)) ⊆ win.live := by
    intro i hi
    obtain ⟨k, hk, rfl⟩ := List.mem_map.mp hi
    exact hall k (List.mem_range.mp hk)
  have hle := (List.subperm_of_subset hnodup hsub).length_le
  rw [List.length_map, List.length_range] at hle
  omega

theorem live_length_le (h : Chained win) : win.live.length ≤ MAX_WIDGET_SIZE :=
  Nat.le_of_lt_succ (length_lt_fuel h.nodup h.range)

/-- The window has one more widget, in a slot that was free. -/
structure Grown (ui : List ℤ) (win : Window) (type : WidgetType) (scrollable : Bool)
    (r : Window × ℤ) : Prop where
  kept : Kept ui r.1
  valid : InTable r.2
  fresh : r.2 ∉ win.live
  live : r.1.live = win.live ++ [r.2]
  same : ∀ p, p ≠ r.2 → r.1.widgets p = win.widgets p
  type_eq : (r.1.widgets r.2).type = type
  scrollable_eq : (r.1.widgets r.2).scrollable = scrollable

theorem addTyped_grown (h : Kept ui win) (type : WidgetType) (x y w k : ℤ) (scrollable : Bool) :
    (win.live.length = MAX_WIDGET_SIZE ∧ (win.addTyped type x y w k scrollable).2 = -1) ∨
      Grown ui win type scrollable (win.addTyped type x y w k scrollable) := by
  have hchained := h.linked.toChained
  have hlinked := h.linked.addWidget
  rcases addWidget_cases win with ⟨hfull, hadd⟩ | ⟨hfree, hadd⟩
  · refine .inl ⟨?_, ?_⟩
    · by_contra hne
      exact exists_free hchained (lt_of_le_of_ne (live_length_le hchained) hne) hfull
    · unfold Window.addTyped
      rw [hadd]
      exact congrArg Prod.snd (if_pos rfl)
  · obtain ⟨hvalid, hfresh⟩ := hchained.available hfree
    have hresult : win.addTyped type x y w k scrollable =
        ({ win.addWidget.1 with
          mallocs := win.addWidget.1.mallocs + 1
          widgets := Function.update win.addWidget.1.widgets win.findNextAvailable
            ⟨win.addWidget.1.mallocs, type, ⟨x, x + w, y, y + k⟩, scrollable⟩ },
          win.findNextAvailable) := by
      have hid : win.addWidget.2 = win.findNextAvailable := congrArg Prod.snd hadd
      unfold Window.addTyped
      rw [← hid]
      exact if_neg (hid.symm ▸ hfree)
    have hlive : win.addWidget.1.live = win.live ++ [win.findNextAvailable] := by
      rw [hadd]
      rfl
    have hwidgets : win.addWidget.1.widgets = win.widgets := by
      rw [hadd]
      rfl
    have hfront : ∀ i ∈ ui, i ≠ win.findNextAvailable := by
      rintro i hi rfl
      exact hfresh (h.front.subset hi)
    rw [hresult]
    refine .inr ⟨⟨?_, ?_, ?_⟩, hvalid, hfresh, hlive, ?_, ?_, ?_⟩
    · exact hlinked.same ⟨rfl, rfl, rfl, rfl, rfl⟩
    · exact hlive ▸ h.front.trans (List.prefix_append _ _)
    · intro i hi
      dsimp only
      rw [Function.update_of_ne (hfront i hi), hwidgets]
      exact h.fixed i hi
    · intro i hi
      dsimp only
      rw [Function.update_of_ne hi, hwidgets]
    · dsimp only
      rw [Function.update_self]
    · dsimp only
      rw [Function.update_self]

theorem Kept.congr {v : Window} (h : Kept ui win) (hsame : SameList win v)
    (hwidgets : v.widgets = win.widgets) : Kept ui v where
  linked := h.linked.same hsame
  front := hsame.live ▸ h.front
  fixed := hwidgets ▸ h.fixed

theorem addInputField_grown (h : Kept ui win) (x y w k : ℤ) (scrollable : Bool) :
    (win.live.length = MAX_WIDGET_SIZE ∧ (win.addInputFieldWidget x y w k scrollable).2 = -1) ∨
      Grown ui win .INPUTFIELD scrollable (win.addInputFieldWidget x y w k scrollable) := by
  unfold Window.addInputFieldWidget
  rcases addTyped_grown h .INPUTFIELD x y w k scrollable with ⟨hfull, hnone⟩ | hgrown
  · refine .inl ⟨hfull, ?_⟩
    dsimp only
    rw [if_pos hnone]
    exact hnone
  · refine .inr ?_
    dsimp only
    rw [if_neg (ne_null hgrown.valid)]
    exact ⟨hgrown.kept.congr ⟨rfl, rfl, rfl, rfl, rfl⟩ rfl, hgrown.valid, hgrown.fresh, hgrown.live,
      hgrown.same, hgrown.type_eq, hgrown.scrollable_eq⟩

variable {type : WidgetType} {scrollable : Bool} {r : Window × ℤ}

theorem Grown.filter_live (h : Grown ui win type scrollable r) (q : Widget → Bool) :
    r.1.live.filter (fun p => q (r.1.widgets p)) =
      win.live.filter (fun p => q (win.widgets p)) ++
        if q (r.1.widgets r.2) then [r.2] else [] := by
  rw [h.live, List.filter_append]
  congr 1
  · refine List.filter_congr fun p hp => ?_
    rw [h.same p fun heq => h.fresh (heq ▸ hp)]
  · rw [List.filter_singleton]
    cases q (r.1.widgets r.2) <;> rfl

theorem Grown.itemWidgets (h : Grown ui win type scrollable r) :
    itemWidgets r.1 = itemWidgets win ++
      if scrollable = true ∧ type = .TEXT then [r.2] else [] := by
  refine (h.filter_live fun w => w.scrollable && decide (w.type = .TEXT)).trans ?_
  rw [h.scrollable_eq, h.type_eq]
  congr 1
  cases scrollable with
  | true => simp
  | false => simp

theorem Grown.staying (h : Grown ui win type scrollable r) :
    staying r.1 = staying win ++ if scrollable then [] else [r.2] := by
  refine (h.filter_live fun w => !w.scrollable).trans ?_
  rw [h.scrollable_eq]
  cases scrollable <;> rfl

end Adding

end NorthOS.Explorer
