import Mathlib.Data.List.Perm.Subperm
import NorthOS.Runs
import NorthOS.Widgets

/-!
The list of a window's widgets. The links, the tail and the free slots always describe
the widgets that were added and not removed. The head does too, until it is removed while
others are in the list: the new head is then read from the wrong widget.
-/
namespace NorthOS.Widgets

open IndexList Runs

/-- The links, the tail and the free slots describe the list of live widgets. -/
structure Chained (win : Window) : Prop where
  seg : Seg win.next win.prev (-1) win.live (-1)
  nodup : win.live.Nodup
  range : ∀ x ∈ win.live, InTable x
  tail : win.widgetlisttail = win.live.getLastD (-1)
  free : ∀ i, InTable i → i ∉ win.live → win.next i = i ∧ win.prev i = i

/-- The head describes it too. -/
structure Linked (win : Window) : Prop extends Chained win where
  head : win.widgetlisthead = win.live.headD (-1)

/-- What a user of the list relies on. -/
structure Shaped (win : Window) : Prop where
  visits : walk win.next loopFuel win.widgetlisthead = some win.live
  once : win.live.Nodup
  last : win.widgetlisttail = win.live.getLastD (-1)
  inverse : walk win.prev loopFuel win.widgetlisttail = some win.live.reverse
  empty : win.live = [] → win.widgetlisthead = -1 ∧ win.widgetlisttail = -1
  available : ∀ i, win.findNextAvailable = i → i ≠ -1 → InTable i ∧ i ∉ win.live

/-- The head is removed only when it is the last widget. -/
def SparesHead (win : Window) : Window.Op → Prop
  | .remove index => index = win.widgetlisthead → index = win.widgetlisttail
  | _ => True

variable {win : Window} {i : ℤ} {l₁ l₂ : List ℤ}

section Reading

theorem ne_null (h : InTable i) : i ≠ -1 := by
  have hpos := h.1
  omega

theorem length_lt_fuel {l : List ℤ} (hnd : l.Nodup) (hrange : ∀ x ∈ l, InTable x) :
    l.length < loopFuel := by
  have hsub : l ⊆ (List.range MAX_WIDGET_SIZE).map (fun i : ℕ => (i : ℤ)) := by
    intro x hx
    obtain ⟨h₀, h₁⟩ := hrange x hx
    exact List.mem_map.mpr ⟨x.toNat, List.mem_range.mpr (by omega), by omega⟩
  have hlen := (List.subperm_of_subset hnd hsub).length_le
  rw [List.length_map, List.length_range] at hlen
  exact Nat.lt_succ_of_le hlen

theorem Chained.null (h : Chained win) : ∀ x ∈ win.live, x ≠ -1 :=
  fun x hx => ne_null (h.range x hx)

theorem Chained.walk_prev (h : Chained win) :
    walk win.prev loopFuel win.widgetlisttail = some win.live.reverse := by
  have hlast : win.widgetlisttail = win.live.reverse.headD (-1) := by
    rw [h.tail, List.getLastD_eq_getLast?, List.getLast?_eq_head?_reverse, List.headD_eq_head?_getD]
  rw [hlast]
  refine h.seg.reverse.walk (fun x hx => h.null x (List.mem_reverse.mp hx)) ?_
  rw [List.length_reverse]
  exact length_lt_fuel h.nodup h.range

/-- The search from the tail finds a widget of the list. -/
theorem Chained.search_prev (h : Chained win) (hit : ℤ → Bool) :
    search win.prev hit loopFuel win.widgetlisttail =
      some ((win.live.reverse.find? hit).getD (-1)) := by
  have hlast : win.widgetlisttail = win.live.reverse.headD (-1) := by
    rw [h.tail, List.getLastD_eq_getLast?, List.getLast?_eq_head?_reverse, List.headD_eq_head?_getD]
  rw [hlast]
  refine h.seg.reverse.search (fun x hx => h.null x (List.mem_reverse.mp hx)) hit ?_
  rw [List.length_reverse]
  exact length_lt_fuel h.nodup h.range

/-- A widget in the list does not look like a free slot. -/
theorem Chained.next_ne (h : Chained win) (hi : i ∈ win.live) : win.next i ≠ i := by
  obtain ⟨l₁, l₂, hl⟩ := List.append_of_mem hi
  have hseg := h.seg
  have hnd := h.nodup
  rw [hl] at hseg hnd
  obtain ⟨_, _, hnext, _⟩ := seg_append.mp hseg
  rw [hnext]
  cases l₂ with
  | nil => exact (h.null i hi).symm
  | cons y l₂ =>
    have hx := (List.nodup_cons.mp (List.nodup_append.mp hnd).2.1).1
    intro e
    exact hx (by rw [← e]; exact List.mem_cons_self)

theorem Chained.available (h : Chained win) (hne : win.findNextAvailable ≠ -1) :
    InTable win.findNextAvailable ∧ win.findNextAvailable ∉ win.live := by
  unfold Window.findNextAvailable at hne ⊢
  cases hfind : ((List.range MAX_WIDGET_SIZE).map fun i : ℕ => (i : ℤ)).find? fun i =>
      win.prev i = i ∧ win.next i = i with
  | none =>
    rw [hfind] at hne
    exact absurd rfl hne
  | some i =>
    obtain ⟨k, hk, rfl⟩ := List.mem_map.mp (List.mem_of_find?_eq_some hfind)
    have hfree := List.find?_some hfind
    rw [decide_eq_true_eq] at hfree
    rw [Option.getD_some]
    refine ⟨⟨Int.natCast_nonneg k, Int.ofNat_lt.mpr (List.mem_range.mp hk)⟩, fun hmem => ?_⟩
    exact h.next_ne hmem hfree.2

theorem Linked.shaped (h : Linked win) : Shaped win where
  visits := by
    rw [h.head]
    exact h.seg.walk h.null (length_lt_fuel h.nodup h.range)
  once := h.nodup
  last := h.tail
  inverse := h.walk_prev
  empty := by
    intro hl
    rw [h.head, h.tail, hl]
    exact ⟨rfl, rfl⟩
  available := by
    rintro i rfl hne
    exact h.available hne

end Reading

section Changing

/-- Nothing that the list consists of differs. -/
structure SameList (u v : Window) : Prop where
  next : v.next = u.next
  prev : v.prev = u.prev
  head : v.widgetlisthead = u.widgetlisthead
  tail : v.widgetlisttail = u.widgetlisttail
  live : v.live = u.live

theorem Chained.congr {v : Window} (h : Chained win) (hn : v.next = win.next)
    (hp : v.prev = win.prev)
    (ht : v.widgetlisttail = win.widgetlisttail) (hl : v.live = win.live) : Chained v where
  seg := by rw [hn, hp, hl]; exact h.seg
  nodup := by rw [hl]; exact h.nodup
  range := by rw [hl]; exact h.range
  tail := by rw [ht, hl]; exact h.tail
  free := by rw [hn, hp, hl]; exact h.free

theorem Chained.same {v : Window} (h : Chained win) (hv : SameList win v) : Chained v :=
  h.congr hv.next hv.prev hv.tail hv.live

theorem Linked.same {v : Window} (h : Linked win) (hv : SameList win v) : Linked v where
  toChained := h.toChained.same hv
  head := by rw [hv.head, hv.live]; exact h.head

theorem emptyList_linked : Linked win.emptyList where
  seg := trivial
  nodup := List.nodup_nil
  range := fun _ hx => absurd hx List.not_mem_nil
  tail := rfl
  free := fun _ hi _ => ⟨if_pos hi, if_pos hi⟩
  head := rfl

theorem Chained.append (h : Chained win) (hi : InTable i) (hnew : i ∉ win.live) :
    Chained (win.addToWidgetListTail i) := by
  have hne : ∀ y ∈ win.live, y ≠ i := fun y hy e => hnew (e ▸ hy)
  have htail : win.live ≠ [] → win.widgetlisttail ∈ win.live := by
    intro hl
    rw [h.tail]
    exact getLastD_mem win.live (-1) hl
  have hnull : win.live = [] → win.widgetlisttail = -1 := by
    intro hl
    rw [h.tail, hl]
    rfl
  have hnext : ∀ y, (win.addToWidgetListTail i).next y =
      if win.live ≠ [] ∧ y = win.widgetlisttail then i else if y = i then -1 else win.next y := by
    intro y
    unfold Window.addToWidgetListTail
    dsimp only
    by_cases hl : win.live = []
    · rw [if_neg fun hc => hc (hnull hl), if_neg fun hc => hc.1 hl, Function.update_apply]
    · rw [if_pos (h.null _ (htail hl)), Function.update_apply, Function.update_apply]
      by_cases hy : y = win.widgetlisttail
      · rw [if_pos hy, if_pos ⟨hl, hy⟩]
      · rw [if_neg hy, if_neg (fun hc : win.live ≠ [] ∧ y = win.widgetlisttail => hy hc.2)]
  have hprev : (win.addToWidgetListTail i).prev = Function.update win.prev i win.widgetlisttail :=
    rfl
  refine ⟨?_, ?_, ?_, ?_, ?_⟩
  · refine h.seg.append h.nodup ?_ ?_ ?_ ?_
    · rw [hnext, if_neg, if_pos rfl]
      rintro ⟨hl, rfl⟩
      exact hnew (htail hl)
    · rw [hprev, Function.update_self, h.tail]
    · intro y hy
      rw [hnext, h.tail]
      by_cases hyl : y = win.live.getLastD (-1)
      · rw [if_pos ⟨List.ne_nil_of_mem hy, hyl⟩, if_pos hyl]
      · rw [if_neg fun hc => hyl hc.2, if_neg (hne y hy), if_neg hyl]
    · intro y hy
      rw [hprev, Function.update_of_ne (hne y hy)]
  · exact List.nodup_append.mpr ⟨h.nodup, List.nodup_singleton i, fun y hy z hz =>
      (List.mem_singleton.mp hz) ▸ hne y hy⟩
  · intro x hx
    rcases List.mem_append.mp hx with hx | hx
    · exact h.range x hx
    · rw [List.mem_singleton.mp hx]
      exact hi
  · show i = (win.live ++ [i]).getLastD (-1)
    rw [getLastD_append]
    rfl
  · intro j hj hnot
    have hjl : j ∉ win.live := fun hc => hnot (List.mem_append_left _ hc)
    have hji : j ≠ i := fun hc => hnot (List.mem_append_right _ (List.mem_singleton.mpr hc))
    obtain ⟨hfn, hfp⟩ := h.free j hj hjl
    rw [hnext, hprev, Function.update_of_ne hji, if_neg, if_neg hji]
    · exact ⟨hfn, hfp⟩
    · rintro ⟨hl, rfl⟩
      exact hjl (htail hl)

/-- Adding a widget: nothing happens when there is no free slot. -/
theorem addWidget_cases (win : Window) : (win.findNextAvailable = -1 ∧ win.addWidget = (win, -1)) ∨
    (win.findNextAvailable ≠ -1 ∧ win.addWidget =
      (({ win with widgetlisthead := if win.widgetlisthead = -1 then win.findNextAvailable
          else win.widgetlisthead } : Window).addToWidgetListTail win.findNextAvailable,
        win.findNextAvailable)) := by
  unfold Window.addWidget
  by_cases hfull : win.findNextAvailable = -1
  · exact Or.inl ⟨hfull, if_pos hfull⟩
  · refine Or.inr ⟨hfull, ?_⟩
    dsimp only
    rw [if_neg hfull]
    split
    · rfl
    · rfl

theorem Chained.addWidget (h : Chained win) : Chained win.addWidget.1 := by
  rcases addWidget_cases win with ⟨_, hadd⟩ | ⟨hfree, hadd⟩
  · rw [hadd]
    exact h
  · obtain ⟨hin, hnew⟩ := h.available hfree
    rw [hadd]
    refine Chained.append ?_ hin hnew
    exact h.congr rfl rfl rfl rfl

theorem Linked.addWidget (h : Linked win) : Linked win.addWidget.1 := by
  refine ⟨h.toChained.addWidget, ?_⟩
  rcases addWidget_cases win with ⟨_, hadd⟩ | ⟨hfree, hadd⟩
  · rw [hadd]
    exact h.head
  · rw [hadd]
    show (if win.widgetlisthead = -1 then win.findNextAvailable else win.widgetlisthead) =
      (win.live ++ [win.findNextAvailable]).headD (-1)
    rw [headD_append, h.head]
    cases hl : win.live with
    | nil => exact if_pos rfl
    | cons y l =>
      have hy : y ≠ -1 := h.null y (by rw [hl]; exact List.mem_cons_self)
      exact if_neg hy

/-- Unlinking a widget of the list. -/
theorem Chained.remove (h : Chained win) (hi : i ∈ win.live) :
    Chained (win.removeFromWidgetList i) := by
  obtain ⟨l₁, l₂, hl⟩ := List.append_of_mem hi
  have hseg := h.seg
  have hnd := h.nodup
  have htail := h.tail
  have hnull := h.null
  rw [hl] at hseg hnd htail hnull
  obtain ⟨_, hprevi, hnexti, _⟩ := seg_append.mp hseg
  obtain ⟨_, hnd₂, hdis⟩ := List.nodup_append.mp hnd
  have hi₂ : i ∉ l₂ := (List.nodup_cons.mp hnd₂).1
  have hi₁ : i ∉ l₁ := fun hc => hdis i hc i List.mem_cons_self rfl
  have hlive : (win.removeFromWidgetList i).live = l₁ ++ l₂ := by
    show win.live.erase i = _
    rw [hl, List.erase_append_right _ hi₁, List.erase_cons_head]
  have hnext : ∀ y, y ≠ i → (win.removeFromWidgetList i).next y =
      if y = l₁.getLastD (-1) ∧ l₁ ≠ [] then l₂.headD (-1) else win.next y := by
    intro y hy
    unfold Window.removeFromWidgetList
    dsimp only
    rw [Function.update_of_ne hy, hprevi, hnexti]
    by_cases hl₁ : l₁ = []
    · rw [hl₁, if_neg fun hc => hc rfl, if_neg fun hc => hc.2 rfl]
    · have hmem := getLastD_mem l₁ (-1) hl₁
      rw [if_pos (hnull _ (List.mem_append_left _ hmem)), Function.update_apply]
      by_cases hyl : y = l₁.getLastD (-1)
      · rw [if_pos hyl, if_pos ⟨hyl, hl₁⟩]
      · rw [if_neg hyl, if_neg fun hc => hyl hc.1]
  -- the link of the removed widget is read after that of its predecessor has been set
  have hself : (if win.prev i ≠ -1 then Function.update win.next (win.prev i) (win.next i)
      else win.next) i = l₂.headD (-1) := by
    rw [hprevi]
    split
    · rename_i hne
      rw [Function.update_of_ne, hnexti]
      intro e
      have hl₁ : l₁ ≠ [] := by
        rintro rfl
        exact hne rfl
      exact hi₁ (e ▸ getLastD_mem l₁ (-1) hl₁)
    · exact hnexti
  have hprev : ∀ y, y ≠ i → (win.removeFromWidgetList i).prev y =
      if y = l₂.headD (-1) ∧ l₂ ≠ [] then l₁.getLastD (-1) else win.prev y := by
    intro y hy
    unfold Window.removeFromWidgetList
    dsimp only
    rw [Function.update_of_ne hy, hself, hprevi]
    by_cases hl₂ : l₂ = []
    · rw [hl₂, if_neg fun hc => hc rfl, if_neg fun hc => hc.2 rfl]
    · have hmem := headD_mem l₂ (-1) hl₂
      rw [if_pos (hnull _ (List.mem_append_right _ (List.mem_cons_of_mem i hmem))),
        Function.update_apply]
      by_cases hyl : y = l₂.headD (-1)
      · rw [if_pos hyl, if_pos ⟨hyl, hl₂⟩]
      · rw [if_neg hyl, if_neg fun hc => hyl hc.1]
  have hout : ∀ y ∈ l₁ ++ l₂, y ≠ i := by
    rintro y hy rfl
    rcases List.mem_append.mp hy with hy | hy
    · exact hi₁ hy
    · exact hi₂ hy
  refine ⟨?_, ?_, ?_, ?_, ?_⟩
  · rw [hlive]
    exact hseg.erase hnd (fun y hy => hnext y (hout y hy)) fun y hy => hprev y (hout y hy)
  · rw [hlive]
    exact hnd.sublist ((List.sublist_cons_self i l₂).append_left l₁)
  · intro x hx
    exact h.range x (List.mem_of_mem_erase hx)
  · rw [hlive]
    show (if win.widgetlisttail = i then win.prev win.widgetlisttail else win.widgetlisttail) = _
    rw [htail, getLastD_append, getLastD_append, List.getLastD_cons]
    cases l₂ with
    | nil =>
      rw [List.getLastD_nil, if_pos rfl, hprevi]
      rfl
    | cons y l₂ =>
      rw [List.getLastD_cons, List.getLastD_cons, if_neg]
      intro e
      have hmem := getLastD_mem (y :: l₂) (-1) (List.cons_ne_nil y l₂)
      rw [List.getLastD_cons, e] at hmem
      exact hi₂ hmem
  · intro j hj hnot
    by_cases hji : j = i
    · subst hji
      exact ⟨Function.update_self .., Function.update_self ..⟩
    · rw [hlive] at hnot
      have hjl : j ∉ win.live := by
        rw [hl]
        intro hc
        rcases List.mem_append.mp hc with hc | hc
        · exact hnot (List.mem_append_left _ hc)
        · exact hnot (List.mem_append_right _ ((List.mem_cons.mp hc).resolve_left hji))
      obtain ⟨hfn, hfp⟩ := h.free j hj hjl
      rw [hnext j hji, hprev j hji, if_neg, if_neg]
      · exact ⟨hfn, hfp⟩
      · rintro ⟨rfl, hl₂⟩
        exact hnot (List.mem_append_right _ (headD_mem l₂ (-1) hl₂))
      · rintro ⟨rfl, hl₁⟩
        exact hnot (List.mem_append_left _ (getLastD_mem l₁ (-1) hl₁))

theorem freeWidget_same : SameList win (win.freeWidget i) := by
  unfold Window.freeWidget
  split <;> exact ⟨rfl, rfl, rfl, rfl, rfl⟩

/-- removeWidget leaves a free slot alone. -/
theorem Chained.removeWidget_cases (h : Chained win) (hi : InTable i) :
    (i ∉ win.live ∧ win.removeWidget i = win) ∨
      (i ∈ win.live ∧ win.removeWidget i = (win.freeWidget i).removeFromWidgetList i) := by
  unfold Window.removeWidget
  by_cases hmem : i ∈ win.live
  · exact Or.inr ⟨hmem, if_neg fun hc => h.next_ne hmem hc.2⟩
  · obtain ⟨hn, hp⟩ := h.free i hi hmem
    exact Or.inl ⟨hmem, if_pos ⟨hp, hn⟩⟩

theorem Chained.removeWidget (h : Chained win) (hi : InTable i) : Chained (win.removeWidget i) := by
  rcases h.removeWidget_cases hi with ⟨_, hrem⟩ | ⟨hmem, hrem⟩
  · rw [hrem]
    exact h
  · rw [hrem]
    refine (h.same freeWidget_same).remove ?_
    rw [freeWidget_same.live]
    exact hmem

theorem Chained.next_tail (h : Chained win) (hne : win.live ≠ []) :
    win.next win.widgetlisttail = -1 := by
  have hseg := h.seg.reverse
  obtain ⟨l, x, hl⟩ := (List.eq_nil_or_concat win.live).resolve_left hne
  rw [List.concat_eq_append] at hl
  rw [hl, List.reverse_append] at hseg
  rw [h.tail, hl, getLastD_append]
  exact hseg.1

/-- The head after a widget of the list has been removed. -/
theorem Linked.head_remove (h : Linked win) (hi : i ∈ win.live) :
    (win.removeFromWidgetList i).widgetlisthead = (win.removeFromWidgetList i).live.headD (-1) ↔
      (i = win.widgetlisthead → i = win.widgetlisttail) := by
  have hremoved := h.toChained.remove hi
  have hlast := h.next_tail (List.ne_nil_of_mem hi)
  show (if win.widgetlisthead = i then win.next win.widgetlisttail else win.widgetlisthead) =
    (win.live.erase i).headD (-1) ↔ _
  have hnd := h.nodup
  have htail := h.tail
  have hnull := h.null
  rw [h.head]
  cases hl : win.live with
  | nil =>
    rw [hl] at hi
    exact absurd hi List.not_mem_nil
  | cons x l =>
    rw [hl] at hnd htail hnull
    rw [List.headD_cons]
    by_cases hx : x = i
    · subst hx
      rw [if_pos rfl, List.erase_cons_head, hlast, htail, List.getLastD_cons]
      obtain ⟨hnot, _⟩ := List.nodup_cons.mp hnd
      cases l with
      | nil => simp
      | cons y l =>
        have hy : y ≠ -1 := hnull y (List.mem_cons_of_mem x List.mem_cons_self)
        have hmem := getLastD_mem (y :: l) x (List.cons_ne_nil y l)
        have hne : x ≠ (y :: l).getLastD x := fun e => hnot (e ▸ hmem)
        rw [List.headD_cons]
        exact ⟨fun e => absurd e.symm hy, fun e => absurd (e rfl) hne⟩
    · rw [if_neg hx, List.erase_cons_tail (by simpa using hx), List.headD_cons]
      exact ⟨fun _ e => absurd e.symm hx, fun _ => rfl⟩

end Changing

section Runs

variable {v : Window} {op : Window.Op}

theorem addTyped_same {type : WidgetType} {x y w h : ℤ} {scrollable : Bool} :
    SameList win.addWidget.1 (win.addTyped type x y w h scrollable).1 := by
  unfold Window.addTyped
  rcases addWidget_cases win with ⟨_, hadd⟩ | ⟨hfree, hadd⟩
  · rw [hadd, if_pos rfl]
    exact ⟨rfl, rfl, rfl, rfl, rfl⟩
  · rw [hadd, if_neg hfree]
    exact ⟨rfl, rfl, rfl, rfl, rfl⟩

theorem addInputFieldWidget_same {x y w h : ℤ} {scrollable : Bool} :
    SameList win.addWidget.1 (win.addInputFieldWidget x y w h scrollable).1 := by
  have hsame := @addTyped_same win .INPUTFIELD x y w h scrollable
  unfold Window.addInputFieldWidget
  dsimp only
  split
  · exact hsame
  · exact ⟨hsame.next, hsame.prev, hsame.head, hsame.tail, hsame.live⟩

/-- What an operation does to the list. -/
theorem exec_cases (h : win.exec op = some v) :
    (SparesHead win op ∧ SameList win.addWidget.1 v) ∨
      ∃ i, op = .remove i ∧ InTable i ∧ v = win.removeWidget i := by
  cases op with
  | remove index =>
    change (if InTable index then some (win.removeWidget index) else none) = some v at h
    split at h
    · rename_i hi
      exact Or.inr ⟨index, rfl, hi, (Option.some.inj h).symm⟩
    · cases h
  | addInputField x y w h' scrollable =>
    obtain rfl := Option.some.inj h
    exact Or.inl ⟨trivial, addInputFieldWidget_same⟩
  | addRectangle x y w h' scrollable =>
    obtain rfl := Option.some.inj h
    exact Or.inl ⟨trivial, addTyped_same⟩
  | addColorFill x y w h' scrollable =>
    obtain rfl := Option.some.inj h
    exact Or.inl ⟨trivial, addTyped_same⟩
  | addButton x y w h' scrollable =>
    obtain rfl := Option.some.inj h
    exact Or.inl ⟨trivial, addTyped_same⟩
  | addText x y w h' scrollable =>
    obtain rfl := Option.some.inj h
    exact Or.inl ⟨trivial, addTyped_same⟩

theorem Chained.exec (h : Chained win) (hv : win.exec op = some v) : Chained v := by
  rcases exec_cases hv with ⟨_, hsame⟩ | ⟨i, _, hi, rfl⟩
  · exact h.addWidget.same hsame
  · exact h.removeWidget hi

/-- A removal shows at once whether it spared the head. -/
theorem Linked.exec_iff (h : Linked win) (hv : win.exec op = some v) :
    v.widgetlisthead = v.live.headD (-1) ↔ SparesHead win op := by
  rcases exec_cases hv with ⟨hspares, hsame⟩ | ⟨i, rfl, hi, rfl⟩
  · exact ⟨fun _ => hspares, fun _ => (h.addWidget.same hsame).head⟩
  · rcases h.removeWidget_cases hi with ⟨hnot, hrem⟩ | ⟨hmem, hrem⟩
    · rw [hrem]
      refine ⟨fun _ e => ?_, fun _ => h.head⟩
      -- a free slot is no head
      exfalso
      rw [h.head] at e
      have hne : win.live ≠ [] := by
        intro hl
        rw [hl] at e
        exact ne_null hi e
      exact hnot (e ▸ headD_mem win.live (-1) hne)
    · have hfreed : SameList win (win.freeWidget i) := freeWidget_same
      rw [hrem, (h.same hfreed).head_remove (by rw [hfreed.live]; exact hmem), hfreed.head,
        hfreed.tail]
      exact Iff.rfl

/-- The window as createWindow or createPopupWindow sets it up. -/
def setUp (popup : Bool) (win : Window) : Window :=
  if popup then win.createPopupWindow else win.createWindow

theorem setUp_linked (popup : Bool) (win : Window) : Linked (setUp popup win) := by
  cases popup with
  | true => exact emptyList_linked
  | false => exact emptyList_linked.same ⟨rfl, rfl, rfl, rfl, rfl⟩

/-- The list stays well formed exactly as long as the head is not removed while there are
other widgets. -/
theorem always_shaped_iff (popup : Bool) (win : Window) (ops : List Window.Op) :
    Always Window.exec Shaped (setUp popup win) ops ↔
      Meets Window.exec SparesHead (setUp popup win) ops := by
  refine always_iff_meets (I := Linked) (fun _ => Linked.shaped) (fun u op v h hop hv => ?_)
    (fun u op v h hv hshaped => ?_) (setUp_linked popup win) ops
  · exact ⟨h.toChained.exec hv, (h.exec_iff hv).mpr hop⟩
  · refine (h.exec_iff hv).mp ?_
    have hvisits := hshaped.visits
    have hfuel : loopFuel = 50 + 1 := rfl
    rw [hfuel] at hvisits
    unfold walk at hvisits
    split at hvisits
    · rename_i hnone
      rw [hnone, ← Option.some.inj hvisits]
      rfl
    · obtain ⟨l, _, hl⟩ := Option.map_eq_some_iff.mp hvisits
      rw [← hl]
      rfl

def blank : Window where
  scrollOffsetX := 0
  scrollOffsetY := 0
  widgets := fun _ => ⟨0, .TEXT, ⟨0, 0, 0, 0⟩, false⟩
  next := fun _ => 0
  prev := fun _ => 0
  widgetlisthead := 0
  widgetlisttail := 0
  keyfocus := 0
  live := []
  mallocs := 0
  frees := []
  calls := []

/-- Two texts are added and the first one is removed. -/
theorem not_always_shaped : ¬ Always Window.exec Shaped (setUp false blank)
    [.addText 0 0 10 10 false, .addText 0 20 10 10 false, .remove 0] := by
  rw [always_shaped_iff]
  intro h
  have hremove := (((h _ rfl).2 _ rfl).2 _ rfl).1
  exact absurd (hremove (by decide +kernel)) (by decide +kernel)

end Runs

end NorthOS.Widgets
