import NorthOS.WidgetList

/-!
The handlers that messages are given to. A handler under the mouse belongs to a widget of
the list, with its own context; the handler of keys belongs to keyfocus, which stays on a
widget of the list as long as nobody removes the widget that has it.
-/
namespace NorthOS.Widgets

open IndexList Runs

/-- The list, and contexts of the listed widgets that are all different and not freed. -/
structure Tidy (win : Window) : Prop extends Chained win where
  fresh : ∀ x ∈ win.live, (win.widgets x).context < win.mallocs
  apart : ∀ x ∈ win.live, ∀ y ∈ win.live, (win.widgets x).context = (win.widgets y).context → x = y
  kept : ∀ x ∈ win.live, (win.widgets x).context ∉ win.frees
  past : ∀ c ∈ win.frees, c < win.mallocs

/-- keyfocus is free or on a widget of the list, and the handlers that were called belonged
to listed widgets whose contexts were not freed. -/
structure Safe (s : App) : Prop where
  focus : s.win.keyfocus = -1 ∨ s.win.keyfocus ∈ s.win.live
  handlers : ∀ c ∈ s.win.calls, c.listed = true ∧ c.freed = false

/-- The focused widget is not removed, an input field under the mouse is not removed by its
own handler, and a popup gets no key while nothing has the focus. -/
def KeepsFocus (s : App) : Act → Prop
  | .op (.remove index) => index ≠ s.win.keyfocus
  | .message msg => s.popup = true → App.isKey msg = true → s.doing = .own → s.win.keyfocus ≠ -1
  | .ret => ∀ p, s.doing = .mouse p → (s.win.widgets p).type = .INPUTFIELD → p ∈ s.win.live
  | _ => True

structure Inv (s : App) : Prop where
  tidy : Tidy s.win
  safe : Safe s
  mouse : ∀ p, s.doing = .mouse p → InTable p

variable {win v : Window} {s t : App} {i p : ℤ} {op : Window.Op} {a : Act}

section Operations

theorem emptyList_tidy : Tidy win.emptyList where
  toChained := emptyList_linked.toChained
  fresh := fun _ hx => absurd hx List.not_mem_nil
  apart := fun _ hx => absurd hx List.not_mem_nil
  kept := fun _ hx => absurd hx List.not_mem_nil
  past := fun _ hc => absurd hc List.not_mem_nil

/-- Fields that neither the list nor the contexts depend on. -/
theorem Tidy.same (h : Tidy win) (hv : SameList win v) (hw : v.widgets = win.widgets)
    (hm : v.mallocs = win.mallocs) (hf : v.frees = win.frees) : Tidy v where
  toChained := h.toChained.same hv
  fresh := by rw [hv.live, hw, hm]; exact h.fresh
  apart := by rw [hv.live, hw]; exact h.apart
  kept := by rw [hv.live, hw, hf]; exact h.kept
  past := by rw [hf, hm]; exact h.past

/-- What an operation does for the focus. -/
structure Spares (win v : Window) (gone : ℤ → Prop) : Prop where
  tidy : Tidy v
  calls : v.calls = win.calls
  focus : v.keyfocus = win.keyfocus ∨ v.keyfocus ∈ v.live
  stay : ∀ x ∈ win.live, ¬ gone x → x ∈ v.live

theorem Tidy.addTyped (h : Tidy win) {type : WidgetType} {x y w d : ℤ} {scrollable : Bool} :
    Spares win (win.addTyped type x y w d scrollable).1 (fun _ => False) ∧
      (win.addTyped type x y w d scrollable).1.keyfocus = win.keyfocus ∧
      ((win.addTyped type x y w d scrollable).2 = -1 ∨
        (win.addTyped type x y w d scrollable).2 ∈
        (win.addTyped type x y w d scrollable).1.live) := by
  unfold Window.addTyped
  rcases addWidget_cases win with ⟨_, hadd⟩ | ⟨hfree, hadd⟩
  · rw [hadd, if_pos rfl]
    exact ⟨⟨h, rfl, Or.inl rfl, fun _ hx _ => hx⟩, rfl, Or.inl rfl⟩
  · obtain ⟨_, hnew⟩ := h.available hfree
    have hchained := h.toChained.addWidget
    rw [hadd] at hchained ⊢
    rw [if_neg hfree]
    generalize win.findNextAvailable = k at *
    have hlive : ∀ z ∈ win.live ++ [k], z ∈ win.live ∨ z = k := fun z hz => by
      rcases List.mem_append.mp hz with hz | hz
      · exact Or.inl hz
      · exact Or.inr (List.mem_singleton.mp hz)
    have hother : ∀ z ∈ win.live, ∀ x, Function.update win.widgets k x z = win.widgets z := by
      intro z hz x
      refine Function.update_of_ne ?_ _ _
      rintro rfl
      exact hnew hz
    have hmem : k ∈ win.live ++ [k] := List.mem_append_right _ (List.mem_singleton_self k)
    refine ⟨⟨⟨hchained.congr rfl rfl rfl rfl, ?_, ?_, ?_, ?_⟩, rfl, Or.inl rfl,
      fun z hz _ => List.mem_append_left _ hz⟩, rfl, Or.inr hmem⟩
    · intro z hz
      show (Function.update win.widgets k _ z).context < win.mallocs + 1
      rcases hlive z hz with hz | rfl
      · rw [hother z hz]
        exact Nat.lt_succ_of_lt (h.fresh z hz)
      · rw [Function.update_self]
        exact Nat.lt_succ_self _
    · intro z hz z' hz' he
      change (Function.update win.widgets k _ z).context =
        (Function.update win.widgets k _ z').context at he
      rcases hlive z hz with hz | rfl
      · rw [hother z hz] at he
        have hlt := h.fresh z hz
        rcases hlive z' hz' with hz' | rfl
        · rw [hother z' hz'] at he
          exact h.apart z hz z' hz' he
        · rw [Function.update_self] at he
          change (win.widgets z).context = win.mallocs at he
          omega
      · rw [Function.update_self] at he
        rcases hlive z' hz' with hz' | rfl
        · have hlt := h.fresh z' hz'
          rw [hother z' hz'] at he
          change win.mallocs = (win.widgets z').context at he
          omega
        · rfl
    · intro z hz
      show (Function.update win.widgets k _ z).context ∉ win.frees
      rcases hlive z hz with hz | rfl
      · rw [hother z hz]
        exact h.kept z hz
      · rw [Function.update_self]
        exact fun hc => Nat.lt_irrefl _ (h.past _ hc)
    · exact fun c hc => Nat.lt_succ_of_lt (h.past c hc)

theorem Tidy.addInputFieldWidget (h : Tidy win) {x y w d : ℤ} {scrollable : Bool} :
    Spares win (win.addInputFieldWidget x y w d scrollable).1 fun _ => False := by
  obtain ⟨hspares, _, hlisted⟩ := @Tidy.addTyped win h .INPUTFIELD x y w d scrollable
  unfold Window.addInputFieldWidget
  dsimp only
  split
  · exact hspares
  · rename_i hok
    exact ⟨hspares.tidy.same ⟨rfl, rfl, rfl, rfl, rfl⟩ rfl rfl rfl, hspares.calls,
      Or.inr (hlisted.resolve_left hok), hspares.stay⟩

theorem freeWidget_frees :
    (win.freeWidget i).calls = win.calls ∧ (win.freeWidget i).keyfocus = win.keyfocus ∧
    (win.freeWidget i).widgets = win.widgets ∧ (win.freeWidget i).mallocs = win.mallocs ∧
    ∀ c ∈ (win.freeWidget i).frees, c = (win.widgets i).context ∨ c ∈ win.frees := by
  unfold Window.freeWidget
  split <;> simp +contextual

theorem Tidy.removeWidget (h : Tidy win) (hi : InTable i) :
    Spares win (win.removeWidget i) (· = i) ∧ (win.removeWidget i).keyfocus = win.keyfocus ∧
      i ∉ (win.removeWidget i).live := by
  rcases h.toChained.removeWidget_cases hi with ⟨hnot, hrem⟩ | ⟨hmem, hrem⟩
  · rw [hrem]
    exact ⟨⟨h, rfl, Or.inl rfl, fun _ hx _ => hx⟩, rfl, hnot⟩
  · have hchained := h.toChained.removeWidget hi
    obtain ⟨hcalls, hfocus, hwidgets, hmallocs, hfrees⟩ := @freeWidget_frees win i
    rw [hrem] at hchained ⊢
    have hlive : ((win.freeWidget i).removeFromWidgetList i).live = win.live.erase i := by
      show (win.freeWidget i).live.erase i = _
      rw [freeWidget_same.live]
    have hwid : ((win.freeWidget i).removeFromWidgetList i).widgets = win.widgets := hwidgets
    have hmal : ((win.freeWidget i).removeFromWidgetList i).mallocs = win.mallocs := hmallocs
    have hback : ∀ z ∈ win.live.erase i, z ∈ win.live ∧ z ≠ i := fun z hz =>
      ⟨List.mem_of_mem_erase hz, fun e => h.nodup.not_mem_erase (e ▸ hz)⟩
    refine ⟨⟨⟨hchained, ?_, ?_, ?_, ?_⟩, hcalls, Or.inl hfocus, ?_⟩, hfocus, ?_⟩
    · rw [hlive, hwid, hmal]
      exact fun z hz => h.fresh z (hback z hz).1
    · rw [hlive, hwid]
      exact fun z hz z' hz' => h.apart z (hback z hz).1 z' (hback z' hz').1
    · rw [hlive, hwid]
      intro z hz hc
      obtain ⟨hzl, hzi⟩ := hback z hz
      rcases hfrees _ hc with he | hc
      · exact hzi (h.apart z hzl i hmem he)
      · exact h.kept z hzl hc
    · rw [hmal]
      intro c hc
      rcases hfrees c hc with rfl | hc
      · exact h.fresh i hmem
      · exact h.past c hc
    · intro z hz hzi
      rw [hlive]
      exact (List.mem_erase_of_ne hzi).mpr hz
    · rw [hlive]
      exact h.nodup.not_mem_erase

/-- An operation of the application. -/
theorem Tidy.exec (h : Tidy win) (hv : win.exec op = some v) :
    Spares win v (fun x => op = .remove x) ∧ ∀ x, op = .remove x →
      InTable x ∧ v.keyfocus = win.keyfocus ∧ x ∉ v.live := by
  cases op with
  | remove index =>
    change (if InTable index then some (win.removeWidget index) else none) = some v at hv
    split at hv
    · rename_i hi
      obtain rfl := Option.some.inj hv
      obtain ⟨hspares, hfocus, hnot⟩ := h.removeWidget hi
      refine ⟨⟨hspares.tidy, hspares.calls, hspares.focus, fun z hz hne => ?_⟩, ?_⟩
      · exact hspares.stay z hz fun e => hne (e ▸ rfl)
      · rintro x ⟨⟩
        exact ⟨hi, hfocus, hnot⟩
    · cases hv
  | addInputField x y w d scrollable =>
    obtain rfl := Option.some.inj hv
    obtain ⟨htidy, hcalls, hfocus, hstay⟩ := h.addInputFieldWidget
    exact ⟨⟨htidy, hcalls, hfocus, fun z hz _ => hstay z hz id⟩, nofun⟩
  | addRectangle x y w d scrollable =>
    obtain rfl := Option.some.inj hv
    obtain ⟨⟨htidy, hcalls, hfocus, hstay⟩, _⟩ := h.addTyped
    exact ⟨⟨htidy, hcalls, hfocus, fun z hz _ => hstay z hz id⟩, nofun⟩
  | addColorFill x y w d scrollable =>
    obtain rfl := Option.some.inj hv
    obtain ⟨⟨htidy, hcalls, hfocus, hstay⟩, _⟩ := h.addTyped
    exact ⟨⟨htidy, hcalls, hfocus, fun z hz _ => hstay z hz id⟩, nofun⟩
  | addButton x y w d scrollable =>
    obtain rfl := Option.some.inj hv
    obtain ⟨⟨htidy, hcalls, hfocus, hstay⟩, _⟩ := h.addTyped
    exact ⟨⟨htidy, hcalls, hfocus, fun z hz _ => hstay z hz id⟩, nofun⟩
  | addText x y w d scrollable =>
    obtain rfl := Option.some.inj hv
    obtain ⟨⟨htidy, hcalls, hfocus, hstay⟩, _⟩ := h.addTyped
    exact ⟨⟨htidy, hcalls, hfocus, fun z hz _ => hstay z hz id⟩, nofun⟩

end Operations

section Messages

/-- The call of a handler keeps everything safe if its widget is in the list. -/
theorem Inv.call (h : Inv s) (hp : p ∈ s.win.live) {doing : Doing}
    (hdoing : ∀ q, doing = .mouse q → InTable q) :
    Inv { s with win := s.win.call p, doing := doing } := by
  refine ⟨h.tidy.same ⟨rfl, rfl, rfl, rfl, rfl⟩ rfl rfl rfl, ⟨h.safe.focus, ?_⟩, hdoing⟩
  intro c hc
  rcases List.mem_append.mp hc with hc | hc
  · exact h.safe.handlers c hc
  · rw [List.mem_singleton.mp hc]
    exact ⟨decide_eq_true hp, decide_eq_false (h.tidy.kept p hp)⟩

theorem Inv.callHit (h : Inv s) {hit : ℤ → Bool} (ht : s.callHit hit = some t) : Inv t := by
  unfold App.callHit at ht
  rw [h.tidy.search_prev] at ht
  obtain rfl := Option.some.inj ht
  cases hfind : s.win.live.reverse.find? hit with
  | none =>
    exact h
  | some q =>
    have hq : q ∈ s.win.live := List.mem_reverse.mp (List.mem_of_find?_eq_some hfind)
    show Inv (if q = -1 then s else { s with win := s.win.call q, doing := .mouse q })
    rw [if_neg (h.tidy.null q hq)]
    refine h.call hq ?_
    rintro _ ⟨⟩
    exact h.tidy.range q hq

/-- A change of what the application does next. -/
theorem Inv.goTo (h : Inv s) {doing : Doing} (hdoing : ∀ q, doing = .mouse q → InTable q) :
    Inv { s with doing := doing } := ⟨h.tidy, ⟨h.safe.focus, h.safe.handlers⟩, hdoing⟩

theorem Inv.updateWindow (h : Inv s) {msg : WindowManager.Message}
    (ht : s.updateWindow msg = some t) : Inv t := by
  unfold App.updateWindow at ht
  split at ht
  · obtain rfl := Option.some.inj ht
    exact h.goTo nofun
  · obtain rfl := Option.some.inj ht
    exact h
  · obtain rfl := Option.some.inj ht
    exact h
  · split at ht
    · rename_i hkey
      obtain rfl := Option.some.inj ht
      exact h.call (h.safe.focus.resolve_left hkey.1) nofun
    · exact h.callHit ht

/-- A key in a popup that has no focus is seen at once. -/
theorem Inv.updatePopupWindow (h : Inv s) {msg : WindowManager.Message}
    (ht : s.updatePopupWindow msg = some t) :
    (Safe t → App.isKey msg = true → s.win.keyfocus ≠ -1) ∧
      ((App.isKey msg = true → s.win.keyfocus ≠ -1) → Inv t) := by
  unfold App.updatePopupWindow at ht
  split at ht
  · rename_i hclose
    obtain rfl := Option.some.inj ht
    refine ⟨fun _ hkey => ?_, fun _ => h.goTo nofun⟩
    rw [App.isKey, hclose] at hkey
    exact absurd hkey (by decide)
  · split at ht
    · rename_i hkey
      obtain rfl := Option.some.inj ht
      refine ⟨fun hsafe _ hnone => ?_, fun hfocus => ?_⟩
      · have hcall := (hsafe.handlers _ (List.mem_append_right _ (List.mem_singleton_self _))).1
        rw [hnone] at hcall
        exact h.tidy.null _ (of_decide_eq_true hcall) rfl
      · exact h.call (h.safe.focus.resolve_left (hfocus hkey)) nofun
    · rename_i hkey
      exact ⟨fun _ hk => absurd hk hkey, fun _ => h.callHit ht⟩

end Messages

section Runs

theorem Inv.exec_iff (h : Inv s) {o : Window.Op} (hv : s.win.exec o = some v) :
    Safe { s with win := v } ↔ KeepsFocus s (.op o) := by
  obtain ⟨hspares, hgone⟩ := h.tidy.exec hv
  constructor
  · intro hsafe
    cases o with
    | remove index =>
      rintro rfl
      obtain ⟨hin, hfocus, hnot⟩ := hgone _ rfl
      rcases hsafe.focus with hnone | hlisted
      · exact ne_null hin (hfocus.symm.trans hnone)
      · exact hnot (hfocus ▸ hlisted)
    | addRectangle => trivial
    | addColorFill => trivial
    | addButton => trivial
    | addText => trivial
    | addInputField => trivial
  · intro hkeeps
    refine ⟨?_, by rw [hspares.calls]; exact h.safe.handlers⟩
    rcases hspares.focus with hsame | hlisted
    · show v.keyfocus = -1 ∨ v.keyfocus ∈ v.live
      rw [hsame]
      refine h.safe.focus.imp_right fun hlisted => hspares.stay _ hlisted ?_
      rintro rfl
      exact hkeeps rfl
    · exact Or.inr hlisted

/-- A step outside of the condition is seen at once, and others keep the invariant. -/
theorem Inv.step (h : Inv s) (ht : s.step a = some t) :
    (Safe t → KeepsFocus s a) ∧ (KeepsFocus s a → Inv t) := by
  cases a with
  | op o =>
    change (if s.doing = .closed then none
    else (s.win.exec o).map fun w => { s with win := w }) = some t at ht
    split at ht
    · cases ht
    · obtain ⟨v, hv, rfl⟩ := Option.map_eq_some_iff.mp ht
      refine ⟨(h.exec_iff hv).mp,
        fun hkeeps => ⟨(h.tidy.exec hv).1.tidy, (h.exec_iff hv).mpr hkeeps, h.mouse⟩⟩
  | scroll x y =>
    change (if s.doing = .closed then none else some { s with win := { s.win with
      scrollOffsetX := x, scrollOffsetY := y } }) = some t at ht
    split at ht
    · cases ht
    · obtain rfl := Option.some.inj ht
      refine ⟨fun _ => trivial, fun _ => ⟨?_, ⟨h.safe.focus, h.safe.handlers⟩, h.mouse⟩⟩
      exact h.tidy.same ⟨rfl, rfl, rfl, rfl, rfl⟩ rfl rfl rfl
  | message msg =>
    change (if s.doing ≠ .own then none
      else if s.popup then s.updatePopupWindow msg else s.updateWindow msg) = some t at ht
    split at ht
    · cases ht
    · rename_i hown
      split at ht
      · rename_i hpopup
        obtain ⟨hseen, hkeep⟩ := h.updatePopupWindow ht
        refine ⟨fun hsafe _ hkey _ => hseen hsafe hkey, fun hkeeps => hkeep fun hkey => ?_⟩
        exact hkeeps hpopup hkey (not_not.mp hown)
      · rename_i hpopup
        exact ⟨fun _ hp => absurd hp hpopup, fun _ => h.updateWindow ht⟩
  | ret =>
    simp only [App.step] at ht
    split at ht
    · obtain rfl := Option.some.inj ht
      rename_i hdoing
      refine ⟨fun _ p hp => ?_, fun _ => h.goTo nofun⟩
      rw [hdoing] at hp
      cases hp
    · rename_i p hdoing
      obtain rfl := Option.some.inj ht
      unfold App.afterMouse
      by_cases htype : (s.win.widgets p).type = .INPUTFIELD
      · rw [if_pos htype]
        refine ⟨fun hsafe q hq _ => ?_, fun hkeeps => ?_⟩
        · obtain rfl : p = q := Doing.mouse.inj (hdoing.symm.trans hq)
          exact hsafe.focus.resolve_left (ne_null (h.mouse p hdoing))
        · exact ⟨h.tidy.same ⟨rfl, rfl, rfl, rfl, rfl⟩ rfl rfl rfl,
            ⟨Or.inr (hkeeps p hdoing htype), h.safe.handlers⟩, nofun⟩
      · rw [if_neg htype]
        refine ⟨fun _ q hq hfield => ?_, fun _ => h.goTo nofun⟩
        obtain rfl : p = q := Doing.mouse.inj (hdoing.symm.trans hq)
        exact absurd hfield htype
    · cases ht

/-- An application with a window that createWindow or createPopupWindow has set up. -/
def App.start (popup : Bool) (win : Window) : App := ⟨popup, setUp popup win, .own⟩

/-- Handlers run on live widgets only, and keyfocus stays on one, exactly as long as the
steps keep the focus; a popup starts with the focus that memory holds. -/
theorem always_safe_iff (popup : Bool) (win : Window) (as : List Act) :
    Always App.step Safe (App.start popup win) as ↔
      (popup = true → win.keyfocus = -1) ∧ Meets App.step KeepsFocus (App.start popup win) as := by
  have hfocus : (setUp popup win).keyfocus = -1 ↔ (popup = true → win.keyfocus = -1) := by
    cases popup with
    | true => exact ⟨fun h _ => h, fun h => h rfl⟩
    | false => exact ⟨fun _ => nofun, fun _ => rfl⟩
  have hlive : (setUp popup win).live = [] := by
    cases popup <;> rfl
  have hcalls : (setUp popup win).calls = [] := by
    cases popup <;> rfl
  have htidy : Tidy (setUp popup win) := by
    cases popup with
    | true => exact emptyList_tidy
    | false => exact emptyList_tidy.same ⟨rfl, rfl, rfl, rfl, rfl⟩ rfl rfl rfl
  have hstart : (setUp popup win).keyfocus = -1 → Inv (App.start popup win) := by
    intro hnone
    refine ⟨htidy, ⟨Or.inl hnone, fun c hc => ?_⟩, nofun⟩
    have hnil : c ∈ (setUp popup win).calls := hc
    rw [hcalls] at hnil
    exact absurd hnil List.not_mem_nil
  rw [← hfocus]
  have hiff : (setUp popup win).keyfocus = -1 → (Always App.step Safe (App.start popup win) as ↔
      Meets App.step KeepsFocus (App.start popup win) as) := by
    intro hnone
    refine always_iff_meets (I := Inv) (fun _ h => h.safe) ?_ ?_ (hstart hnone) as
    · exact fun s a t h hkeeps ht => (h.step ht).2 hkeeps
    · exact fun s a t h ht hsafe => (h.step ht).1 hsafe
  constructor
  · intro h
    have hnone : (setUp popup win).keyfocus = -1 := by
      rcases h.head.focus with hnone | hlisted
      · exact hnone
      · have hnil : (setUp popup win).keyfocus ∈ (setUp popup win).live := hlisted
        rw [hlive] at hnil
        exact absurd hnil List.not_mem_nil
    exact ⟨hnone, (hiff hnone).mp h⟩
  · rintro ⟨hnone, hmeets⟩
    exact (hiff hnone).mpr hmeets

/-- A dialog's input field is removed, and then a key is pressed: the handler of the free
slot is called with the freed context. -/
theorem not_always_safe :
    (run App.step (App.start false blank) [.op (.addInputField 0 0 10 10 false),
      .op (.remove 0), .message (.plain .M_KEY_DOWN)]).map (·.win.calls) = some [⟨0, false, true⟩] ∧
    ¬ Always App.step Safe (App.start false blank) [.op (.addInputField 0 0 10 10 false),
      .op (.remove 0), .message (.plain .M_KEY_DOWN)] := by
  refine ⟨by decide +kernel, fun h => ?_⟩
  have hkeeps := ((always_safe_iff _ _ _).mp h).2
  exact absurd rfl ((hkeeps _ rfl).2 _ rfl).1

end Runs

end NorthOS.Widgets
