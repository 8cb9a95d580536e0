import NorthOS.Gui
import NorthOS.PointerCapture

/-!
Hit testing against painting. M_MOUSE_DOWN looks for a window from the tail of the list
with a rectangle that has room for a title bar; updateScreen paints from the head, the
title bar only where there is one. The two agree at a pixel exactly if the topmost
window that is hit or painted there is both.
-/
namespace NorthOS.WindowManager

open IndexList Gui

def titleBarColor : RGBA := ⟨45, 52, 64, 255⟩
def closeColor : RGBA := ⟨239, 83, 80, 255⟩
def minimizeColor : RGBA := ⟨100, 108, 120, 255⟩
def borderColor : RGB := ⟨60, 68, 82⟩

/-- The bar with its two buttons. The title and the icons drawn over it are no part of
the area. -/
def drawWindowBar (W H : ℤ) (win : KernelWindow) (barcolor : RGBA) : List Stroke :=
  let xmin := win.position.xmin
  let xmax := win.position.xmax + 1
  let ymin := win.position.ymin - TITLE_HEIGHT
  let ymax := win.position.ymin
  drawRectByCoord W H xmin ymin (xmax - 2 * TITLE_HEIGHT) ymax barcolor ++
    drawRectByCoord W H (xmax - 2 * TITLE_HEIGHT) ymin (xmax - TITLE_HEIGHT) ymax minimizeColor ++
    drawRectByCoord W H (xmax - TITLE_HEIGHT) ymin xmax ymax closeColor

/-- `mem` is what the pixel buffers of the windows hold. -/
def drawWindow (W H : ℤ) (mem : ℕ → ℤ → RGB) (win : KernelWindow) : List Stroke :=
  let width := win.position.xmax - win.position.xmin
  let height := win.position.ymax - win.position.ymin
  draw24ImagePart W H (mem win.window_buf) win.position.xmin win.position.ymin width 0 0 width
      height ++
    drawRectBorder W H borderColor win.position.xmin win.position.ymin width height ++
    if win.hasTitleBar then drawWindowBar W H win titleBarColor else []

/-- The pixel is hit by the window's rectangle and not painted, or the other way round. -/
def Mismatch (win : KernelWindow) (x y : ℤ) : Prop :=
  let r := win.position
  let inStrip := r.ymin - TITLE_HEIGHT ≤ y ∧ y < r.ymin
  let inColumns := r.xmin ≤ x ∧ x ≤ r.xmax
  -- the strip above a window without a title bar
  (win.hasTitleBar = false ∧ inStrip ∧ inColumns ∧ y ≤ r.ymax) ∨
  -- buttons that reach over the left edge of a narrow window
  (win.hasTitleBar = true ∧ inStrip ∧ r.xmax - 2 * TITLE_HEIGHT < x ∧ x ≤ r.xmax ∧ x < r.xmin) ∨
  -- the title bar of a window that ends above its own content
  (win.hasTitleBar = true ∧ inStrip ∧ inColumns ∧ r.ymax < y) ∨
  -- the lower edge where no border is drawn
  (r.ymin ≤ y ∧ y = r.ymax ∧ inColumns ∧ (x = r.xmax ∨ x = 0 ∨ r.ymin ≤ 0)) ∨
  -- the right edge in the first row of the screen
  (r.ymin ≤ y ∧ y < r.ymax ∧ inColumns ∧ x = r.xmax ∧ y = 0)

section Area

variable {W H x y : ℤ}

theorem isInRect_iff {xmin ymin xmax ymax : ℤ} :
    isInRect xmin ymin xmax ymax x y = true ↔ x ≥ xmin ∧ x ≤ xmax ∧ y ≥ ymin ∧ y ≤ ymax := by
  unfold isInRect
  exact decide_eq_true_iff

theorem covers_drawWindowBar (win : KernelWindow) (barcolor : RGBA) (hx : 0 ≤ x ∧ x < W)
    (hy : 0 ≤ y ∧ y < H) :
    covers W (drawWindowBar W H win barcolor) x y = true ↔
      (win.position.ymin - TITLE_HEIGHT ≤ y ∧ y < win.position.ymin) ∧ x ≤ win.position.xmax ∧
        (win.position.xmin ≤ x ∨ win.position.xmax - 2 * TITLE_HEIGHT < x) := by
  simp only [drawWindowBar, covers_append, Bool.or_eq_true, covers_drawRectByCoord _ hx hy,
    TITLE_HEIGHT]
  omega

/-- On the screen the rectangle of the hit test and the painted area differ at the
mismatched pixels only. -/
theorem covers_drawWindow_eq_iff (mem : ℕ → ℤ → RGB) (win : KernelWindow) (hx : 0 ≤ x ∧ x < W)
    (hy : 0 ≤ y ∧ y < H) :
    (isInRect win.position.xmin (win.position.ymin - TITLE_HEIGHT) win.position.xmax
        win.position.ymax x y = covers W (drawWindow W H mem win) x y) ↔ ¬ Mismatch win x y := by
  rw [Bool.eq_iff_iff]
  simp only [drawWindow, covers_append, Bool.or_eq_true, covers_draw24ImagePart _ hx hy,
    covers_drawRectBorder _ hx hy, covers_ite, covers_drawWindowBar _ _ hx hy, isInRect_iff,
    Mismatch, TITLE_HEIGHT]
  obtain ⟨xmin, xmax, ymin, ymax⟩ := win.position
  simp only [add_sub_cancel]
  -- above the content only the title bar counts, and below its upper edge only the rest
  rcases lt_or_ge y ymin with habove | hbelow
  · have hcontent : ¬ ymin ≤ y := by omega
    cases win.hasTitleBar with
    | true =>
      simp only [hcontent, habove, true_and, false_and, and_false, false_or, or_false, and_true,
        Bool.true_eq_false]
      omega
    | false =>
      simp only [hcontent, habove, true_and, false_and, and_false, false_or, or_false, and_true,
        Bool.false_eq_true]
      omega
  · have hbar : ¬ y < ymin := by omega
    simp only [hbar, hbelow, ge_iff_le, true_and, false_and, and_false, false_or, or_false]
    omega

end Area

namespace State

/-- A window of the list that updateScreen paints and M_MOUSE_DOWN looks for. -/
def shows (s : State) (p : ℤ) : Bool :=
  decide (p ≠ s.desktopId) && !(s.windowlist p).wnd.minimized

/-- The window's painted area contains the pixel under the pointer. -/
def paintsAt (s : State) (mem : ℕ → ℤ → RGB) (p : ℤ) : Bool :=
  covers s.SCREEN_WIDTH (drawWindow s.SCREEN_WIDTH s.SCREEN_HEIGHT mem (s.windowlist p).wnd)
    s.wm_mouse_pos.1 s.wm_mouse_pos.2

/-- The last window updateScreen paints there, besides the desktop that is under all. -/
def paintedLast (s : State) (mem : ℕ → ℤ → RGB) (myproc : ℕ) : Option ℤ :=
  (s.updateScreen myproc).map fun order =>
    (order.filter fun p => decide (p ≠ s.desktopId) && s.paintsAt mem p).getLastD s.desktopId

/-- The first window from the tail that is hit or painted there, or -1. -/
def topmost (s : State) (mem : ℕ → ℤ → RGB) : Option ℤ :=
  IndexList.search s.prev (fun p => s.hit p || s.shows p && s.paintsAt mem p) loopFuel
    s.windowlisttail

end State

section Search

variable {s : State} {l : List ℤ}

theorem target_eq (hl : Linked s l) (hd : s.desktopId ∈ l) :
    s.target = some ((l.reverse.find? s.hit).getD s.desktopId) := by
  rw [State.target, State.search_returns hl, Option.map_some]
  refine congrArg some ?_
  cases hfind : l.reverse.find? s.hit with
  | none => simp [hl.ne_null _ hd]
  | some p =>
    have hp : p ∈ l := by simpa using List.mem_of_find?_eq_some hfind
    simp [hl.ne_null _ hp]

theorem paintedLast_eq (hl : Linked s l) (hd : s.desktopId ∈ l) (mem : ℕ → ℤ → RGB) :
    s.paintedLast mem (s.windowlist s.desktopId).proc =
      some ((l.reverse.find? fun p => s.shows p && s.paintsAt mem p).getD s.desktopId) := by
  rw [State.paintedLast, State.updateScreen, State.slot_returns s (hl.range _ hd)]
  simp only [Option.bind_eq_bind, Option.bind_some, ne_eq, not_true_eq_false, if_false,
    hl.walk_next, Option.map_some, Option.some.injEq]
  rw [← getLastD_filter, List.filter_cons_of_neg (by simp), List.filter_filter]
  congr 1
  refine List.filter_congr fun p _ => ?_
  by_cases hp : p = s.desktopId
  · simp [State.shows, hp]
  · cases hm : (s.windowlist p).wnd.minimized <;> simp [State.shows, hp, hm]

/-- A press focuses the window painted last under the pointer exactly if the topmost
window that is hit or painted there is not mismatched. -/
theorem mouseDown_paintedLast_iff (hl : Linked s l) (hd : s.desktopId ∈ l)
    (hx : 0 ≤ s.wm_mouse_pos.1 ∧ s.wm_mouse_pos.1 < s.SCREEN_WIDTH)
    (hy : 0 ≤ s.wm_mouse_pos.2 ∧ s.wm_mouse_pos.2 < s.SCREEN_HEIGHT) (hpopup : ¬ s.onPopup)
    (mem : ℕ → ℤ → RGB) {msg : Message} (hmsg : msg.msg_type = .M_MOUSE_DOWN) :
    (∃ t, s.wmHandleMessage msg = some t ∧
        s.paintedLast mem (s.windowlist s.desktopId).proc = some t.windowlisttail) ↔
      ∀ p, s.topmost mem = some p → p ≠ -1 →
        ¬ Mismatch (s.windowlist p).wnd s.wm_mouse_pos.1 s.wm_mouse_pos.2 := by
  obtain ⟨t, ht⟩ := State.mouseDown_returns hl (Or.inr hd)
    (fun _ => List.ne_nil_of_mem hd) msg
  obtain ⟨u, v, _, htarget, hv, h₃⟩ := mouseDown_target ht hpopup
  have htail : t.windowlisttail = (l.reverse.find? s.hit).getD s.desktopId := by
    rw [(State.pressContent_sameLinks h₃).tail, (State.pressTitle_sameLinks hv).tail]
    exact Option.some.inj (htarget.symm.trans (target_eq hl hd))
  have hhandle : s.wmHandleMessage msg = s.mouseDown msg := by
    rw [State.wmHandleMessage, hmsg]
  have hagree := find?_getD_eq_iff s.hit (fun p => s.shows p && s.paintsAt mem p)
    (l := l.reverse) (d := s.desktopId) (by
      intro p _ hp e
      subst e
      simp [State.hit, State.shows] at hp)
  have hleft : (∃ t, s.wmHandleMessage msg = some t ∧
      s.paintedLast mem (s.windowlist s.desktopId).proc = some t.windowlisttail) ↔
      (l.reverse.find? s.hit).getD s.desktopId =
        (l.reverse.find? fun p => s.shows p && s.paintsAt mem p).getD s.desktopId := by
    rw [hhandle, ht, paintedLast_eq hl hd]
    constructor
    · rintro ⟨t', ht', hlast⟩
      obtain rfl := Option.some.inj ht'
      rw [← htail]
      exact (Option.some.inj hlast).symm
    · intro h
      exact ⟨t, rfl, by rw [htail, h]⟩
  rw [hleft, hagree, State.topmost, State.search_returns hl]
  have hshown : ∀ p, (s.hit p || s.shows p && s.paintsAt mem p) = true → s.shows p = true := by
    intro p hp
    simp only [State.hit, State.shows] at hp ⊢
    simp only [Bool.or_eq_true, Bool.and_eq_true] at hp ⊢
    rcases hp with ⟨hp, _⟩ | ⟨hp, _⟩
    · exact hp
    · exact hp
  have hsame : ∀ p, s.shows p = true → ((s.hit p = (s.shows p && s.paintsAt mem p)) ↔
      ¬ Mismatch (s.windowlist p).wnd s.wm_mouse_pos.1 s.wm_mouse_pos.2) := by
    intro p hp
    rw [← covers_drawWindow_eq_iff mem (s.windowlist p).wnd hx hy]
    have hhit : s.hit p = (s.shows p && isInRect (s.windowlist p).wnd.position.xmin
        ((s.windowlist p).wnd.position.ymin - TITLE_HEIGHT) (s.windowlist p).wnd.position.xmax
        (s.windowlist p).wnd.position.ymax s.wm_mouse_pos.1 s.wm_mouse_pos.2) := rfl
    rw [hhit, hp, Bool.true_and, Bool.true_and]
    rfl
  constructor
  · intro h p hp hne
    cases hfind : l.reverse.find? fun p => s.hit p || s.shows p && s.paintsAt mem p with
    | none =>
      rw [hfind] at hp
      exact absurd (Option.some.inj hp).symm hne
    | some q =>
      rw [hfind] at hp
      obtain rfl : q = p := Option.some.inj hp
      have hp' := List.find?_some (p := fun p => s.hit p || s.shows p && s.paintsAt mem p) hfind
      exact (hsame q (hshown q hp')).mp (h q hfind)
  · intro h p hfind
    have hmem : p ∈ l := by simpa using List.mem_of_find?_eq_some hfind
    have hp' := List.find?_some (p := fun p => s.hit p || s.shows p && s.paintsAt mem p) hfind
    refine (hsame p (hshown p hp')).mpr (h p ?_ (hl.ne_null p hmem))
    rw [hfind]
    rfl

end Search


/-- The desktop with one small window of another process on it. -/
def smallWindow (position : WinRect) (hasTitleBar : Bool) : List Event :=
  let desktop : Window := ⟨⟨0, 800, 0, 600⟩, false, 0, 800, 600, 0⟩
  [.call 1 (.createWindow (some desktop) (some [])) ⟨none, none, 0, false⟩,
    .call 2 (.createWindow (some ⟨position, hasTitleBar, 1, 3, 3, 0⟩) (some []))
      ⟨none, none, 0, false⟩]

theorem smallWindow_linked {position : WinRect} {hasTitleBar : Bool} {d : Desk}
    (h : Runs.run turn boot (smallWindow position hasTitleBar) = some d)
    (hd : d.wm.desktopId ≠ -1) : ∃ l, Linked d.wm l ∧ d.wm.desktopId ∈ l := by
  obtain ⟨e, he, h₁⟩ := Option.bind_eq_some_iff.mp h
  obtain ⟨f, hf, h₂⟩ := Option.bind_eq_some_iff.mp h₁
  obtain rfl := Option.some.inj h₂
  have hboot : Good boot := Good.init _ _ 800 600
  obtain ⟨l, hl⟩ := ((hboot.call (by exact trivial) he).call (by exact trivial) hf).inv
  exact ⟨l, hl.linked, hl.desktop.resolve_left hd⟩

/-- A press in the content of a titled window. -/
theorem mouseDown_paintedLast_titled :
    ∃ d, Runs.run turn boot (smallWindow ⟨399, 402, 299, 302⟩ true) = some d ∧
      ∃ t, d.wm.wmHandleMessage (.plain .M_MOUSE_DOWN) = some t ∧
        d.wm.paintedLast (fun _ _ => ⟨0, 0, 0⟩) (d.wm.windowlist d.wm.desktopId).proc =
          some t.windowlisttail := by
  obtain ⟨d, hrun, hdesk, hx, hy, hpopup, htop, hmatch⟩ :
      ∃ d, Runs.run turn boot (smallWindow ⟨399, 402, 299, 302⟩ true) = some d ∧
        d.wm.desktopId ≠ -1 ∧
        (0 ≤ d.wm.wm_mouse_pos.1 ∧ d.wm.wm_mouse_pos.1 < d.wm.SCREEN_WIDTH) ∧
        (0 ≤ d.wm.wm_mouse_pos.2 ∧ d.wm.wm_mouse_pos.2 < d.wm.SCREEN_HEIGHT) ∧
        ¬ d.wm.onPopup ∧ d.wm.topmost (fun _ _ => ⟨0, 0, 0⟩) = some 1 ∧
        ¬ Mismatch (d.wm.windowlist 1).wnd d.wm.wm_mouse_pos.1 d.wm.wm_mouse_pos.2 := by
    refine ⟨_, rfl, by decide +kernel, by decide +kernel, by decide +kernel, by decide +kernel,
      by decide +kernel, ?_⟩
    unfold Mismatch
    decide +kernel
  obtain ⟨l, hl, hd⟩ := smallWindow_linked hrun hdesk
  refine ⟨d, hrun, (mouseDown_paintedLast_iff hl hd hx hy hpopup _ rfl).mpr fun p hp _ => ?_⟩
  rw [Option.some.inj (hp.symm.trans htop)]
  exact hmatch

/-- The strip above a window without a title bar is hit and shows what is below it. -/
theorem not_mouseDown_paintedLast :
    ¬ ∀ (table : ℤ → WindowSlot) (popup : PopupWindow) (width height : ℤ) (es : List Event)
      (d : Desk) (l : List ℤ) (mem : ℕ → ℤ → RGB),
      Runs.run turn (init table popup width height) es = some d →
      Linked d.wm l → d.wm.desktopId ∈ l →
      (0 ≤ d.wm.wm_mouse_pos.1 ∧ d.wm.wm_mouse_pos.1 < d.wm.SCREEN_WIDTH) →
      (0 ≤ d.wm.wm_mouse_pos.2 ∧ d.wm.wm_mouse_pos.2 < d.wm.SCREEN_HEIGHT - DOCK_HEIGHT) →
      ¬ d.wm.onPopup →
      ∃ t, d.wm.wmHandleMessage (.plain .M_MOUSE_DOWN) = some t ∧
        d.wm.paintedLast mem (d.wm.windowlist d.wm.desktopId).proc = some t.windowlisttail := by
  intro h
  obtain ⟨d, hrun, hdesk, hx, hy, hpopup, hfocus, hpaint⟩ :
      ∃ d, Runs.run turn boot (smallWindow ⟨399, 402, 310, 313⟩ false) = some d ∧
        d.wm.desktopId ≠ -1 ∧
        (0 ≤ d.wm.wm_mouse_pos.1 ∧ d.wm.wm_mouse_pos.1 < d.wm.SCREEN_WIDTH) ∧
        (0 ≤ d.wm.wm_mouse_pos.2 ∧ d.wm.wm_mouse_pos.2 < d.wm.SCREEN_HEIGHT - DOCK_HEIGHT) ∧
        ¬ d.wm.onPopup ∧
        (d.wm.wmHandleMessage (.plain .M_MOUSE_DOWN)).map (·.windowlisttail) = some 1 ∧
        d.wm.paintedLast (fun _ _ => ⟨0, 0, 0⟩) (d.wm.windowlist d.wm.desktopId).proc = some 0 := by
    refine ⟨_, rfl, by decide +kernel, by decide +kernel, by decide +kernel, by decide +kernel,
      by decide +kernel, by decide +kernel⟩
  obtain ⟨l, hl, hd⟩ := smallWindow_linked hrun hdesk
  obtain ⟨t, ht, hlast⟩ := h _ _ _ _ _ d l _ hrun hl hd hx hy hpopup
  rw [ht, Option.map_some] at hfocus
  rw [Option.some.inj hfocus, hpaint] at hlast
  cases hlast

end NorthOS.WindowManager
