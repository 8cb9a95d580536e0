import Mathlib.Tactic.Ring
import NorthOS.WindowCalls

/-!
The dock as it is painted and as it is clicked. drawDesktopDock and handleDesktopDockClick
both lay one cell beside the other for the windows of the list, but the painter keeps room
for the clock and its cells may be narrower. A click falls behind by the difference at each
cell it passes.
-/
namespace NorthOS.WindowManager

open IndexList

/-- Cells of one width side by side, each with its left end. -/
def sideBySide (width : ℤ) : List ℤ → ℤ → List (ℤ × ℤ)
  | [], _ => []
  | p :: ps, xStart => (p, xStart) :: sideBySide width ps (xStart + width)

/-- The first of such cells that contains the column, or -1. -/
def cellAt (width x : ℤ) : List ℤ → ℤ → ℤ
  | [], _ => -1
  | p :: ps, xStart =>
    if x > xStart + 1 ∧ x ≤ xStart + width - 1 then p else cellAt width x ps (xStart + width)

theorem sideBySide_get {width : ℤ} {ps : List ℤ} {xStart : ℤ} {k : ℕ} :
    (sideBySide width ps xStart)[k]? = (ps[k]?).map fun p => (p, xStart + k * width) := by
  induction ps generalizing xStart k with
  | nil => simp [sideBySide]
  | cons p ps ih =>
    cases k with
    | zero => simp [sideBySide]
    | succ k =>
      have hpos : xStart + width + k * width = xStart + ((k + 1 : ℕ) : ℤ) * width := by
        push_cast
        ring
      simp only [sideBySide, List.getElem?_cons_succ, ih, hpos]

theorem cellAt_mem (width x : ℤ) (ps : List ℤ) (xStart : ℤ) :
    cellAt width x ps xStart = -1 ∨ cellAt width x ps xStart ∈ ps := by
  induction ps generalizing xStart with
  | nil => exact Or.inl rfl
  | cons p ps ih =>
    rw [cellAt]
    split
    · exact Or.inr List.mem_cons_self
    · rcases ih (xStart + width) with h | h
      · exact Or.inl h
      · exact Or.inr (List.mem_cons_of_mem p h)

/-- The column is found in the cell it lies in. -/
theorem cellAt_eq_iff {width x p : ℤ} {ps : List ℤ} (hnull : ∀ q ∈ ps, q ≠ -1) (hnd : ps.Nodup)
    {xStart : ℤ} {k : ℕ} (hk : ps[k]? = some p) :
    cellAt width x ps xStart = p ↔
      xStart + k * width + 1 < x ∧ x ≤ xStart + (k + 1) * width - 1 := by
  induction ps generalizing xStart k with
  | nil => cases hk
  | cons q ps ih =>
    obtain ⟨hq, hnd'⟩ := List.nodup_cons.mp hnd
    rw [cellAt]
    cases k with
    | zero =>
      obtain rfl : q = p := by simpa using hk
      push_cast
      split
      · exact iff_of_true rfl (by omega)
      · rename_i hout
        refine iff_of_false (fun e => ?_) (by omega)
        rcases cellAt_mem width x ps (xStart + width) with h | h
        · exact hnull q List.mem_cons_self (e.symm.trans h)
        · exact hq (e ▸ h)
    | succ k =>
      have hk' : ps[k]? = some p := by simpa using hk
      have hp : p ∈ ps := List.mem_of_getElem? hk'
      have hstep : ((k + 1 : ℕ) : ℤ) * width = width + k * width := by
        push_cast
        ring
      have hstep' : (((k + 1 : ℕ) : ℤ) + 1) * width = width + (k + 1) * width := by
        push_cast
        ring
      rw [hstep, hstep']
      split
      · rename_i hin
        -- the column lies in an earlier cell
        have hnonneg : 0 ≤ (k : ℤ) * width := Int.mul_nonneg (by omega) (by omega)
        refine iff_of_false (fun e => hq (e ▸ hp)) (by omega)
      · rw [ih (fun r hr => hnull r (List.mem_cons_of_mem q hr)) hnd' hk']
        constructor <;> omega

namespace State

/-- The loop of drawDesktopDock: the windows it draws a cell for, each with the start of
the cell. -/
def dockCells (s : State) (barWidth : ℤ) : ℕ → ℤ → ℤ → Option (List (ℤ × ℤ))
  | 0, _, _ => none
  | fuel + 1, xStart, p =>
    if p = -1 then some []
    else if p ≠ s.desktopId then
      (s.dockCells barWidth fuel (xStart + barWidth) (s.next p)).map ((p, xStart) :: ·)
    else s.dockCells barWidth fuel xStart (s.next p)

/-- drawDesktopDock without its pixels: the width of a cell and the cells. -/
def drawDesktopDock (s : State) : Option (ℤ × List (ℤ × ℤ)) := do
  let windowCount ← s.getWindowCount
  if 0 < windowCount then do
    let barWidth := min ((s.SCREEN_WIDTH - START_ICON_WIDTH - SHOW_DESKTOP_ICON_WIDTH - 90).tdiv
      (windowCount + 1)) DOCK_PROGRAM_NORMAL_WIDTH
    let cells ← s.dockCells barWidth loopFuel (START_ICON_WIDTH + 5) s.windowlisthead
    some (barWidth, cells)
  else some (0, [])

/-- The width of a cell for handleDesktopDockClick. -/
def clickWidth (s : State) (windowCount : ℕ) : ℤ :=
  min ((s.SCREEN_WIDTH - START_ICON_WIDTH - SHOW_DESKTOP_ICON_WIDTH).tdiv (windowCount + 1))
    DOCK_PROGRAM_NORMAL_WIDTH

/-- What a click on the window's cell does. -/
def restore (s : State) (p : ℤ) : Option State :=
  if p = -1 then some s
  else do
    let w ← s.slot p
    if w.wnd.minimized then s.dispatchTo p (.plain .WM_WINDOW_MAXIMIZE) else s.focusWindow p

/-- The windows with a cell in the dock, in the order of the list. -/
def docked (s : State) (l : List ℤ) : List ℤ := l.filter (· ≠ s.desktopId)

end State

section Cells

variable {s : State} {l : List ℤ}

theorem docked_cons_of_ne {x : ℤ} (h : x ≠ s.desktopId) :
    s.docked (x :: l) = x :: s.docked l :=
  List.filter_cons_of_pos (by simpa using h)

theorem docked_cons_desktop {x : ℤ} (h : ¬ x ≠ s.desktopId) : s.docked (x :: l) = s.docked l :=
  List.filter_cons_of_neg (by simpa using h)

theorem dockCells_eq {p : ℤ} (hseg : Seg s.next s.prev p l (-1)) (hnull : ∀ x ∈ l, x ≠ -1)
    (barWidth : ℤ) {fuel : ℕ} (hfuel : l.length < fuel) (xStart : ℤ) :
    s.dockCells barWidth fuel xStart (l.headD (-1)) =
      some (sideBySide barWidth (s.docked l) xStart) := by
  induction l generalizing p fuel xStart with
  | nil =>
    cases fuel with
    | zero => simp at hfuel
    | succ fuel => simp [State.dockCells, State.docked, sideBySide]
  | cons x l ih =>
    obtain ⟨_, hnext, hrest⟩ := hseg
    cases fuel with
    | zero => simp at hfuel
    | succ fuel =>
      have later := ih hrest (fun y hy => hnull y (List.mem_cons_of_mem x hy))
        (Nat.lt_of_succ_lt_succ hfuel)
      have hx : x ≠ -1 := hnull x List.mem_cons_self
      simp only [State.dockCells, List.headD_cons, hnext, if_neg hx]
      split
      · rename_i hd
        rw [later, Option.map_some, docked_cons_of_ne hd]
        rfl
      · rename_i hd
        rw [later, docked_cons_desktop hd]

theorem dockWindow_eq {p : ℤ} (hseg : Seg s.next s.prev p l (-1)) (hnull : ∀ x ∈ l, x ≠ -1)
    (mouse_x barWidth : ℤ) {fuel : ℕ} (hfuel : l.length < fuel) (xStart : ℤ) :
    s.dockWindow mouse_x barWidth fuel xStart (l.headD (-1)) =
      some (cellAt barWidth mouse_x (s.docked l) xStart) := by
  induction l generalizing p fuel xStart with
  | nil =>
    cases fuel with
    | zero => simp at hfuel
    | succ fuel => simp [State.dockWindow, State.docked, cellAt]
  | cons x l ih =>
    obtain ⟨_, hnext, hrest⟩ := hseg
    cases fuel with
    | zero => simp at hfuel
    | succ fuel =>
      have later := ih hrest (fun y hy => hnull y (List.mem_cons_of_mem x hy))
        (Nat.lt_of_succ_lt_succ hfuel)
      have hx : x ≠ -1 := hnull x List.mem_cons_self
      simp only [State.dockWindow, List.headD_cons, hnext, if_neg hx]
      split
      · rename_i hd
        rw [docked_cons_of_ne hd, cellAt]
        split
        · rfl
        · exact later _
      · rename_i hd
        rw [later, docked_cons_desktop hd]

theorem getWindowCount_eq (hl : Linked s l) : s.getWindowCount = some (s.docked l).length := by
  rw [State.getWindowCount, hl.walk_next]
  rfl

/-- The cells that are painted. -/
theorem drawDesktopDock_get (hl : Linked s l) {barWidth xStart p : ℤ} {cells : List (ℤ × ℤ)}
    {k : ℕ} (hdraw : s.drawDesktopDock = some (barWidth, cells))
    (hk : cells[k]? = some (p, xStart)) :
    barWidth = min ((s.SCREEN_WIDTH - START_ICON_WIDTH - SHOW_DESKTOP_ICON_WIDTH - 90).tdiv
      ((s.docked l).length + 1)) DOCK_PROGRAM_NORMAL_WIDTH ∧
      (s.docked l)[k]? = some p ∧ xStart = START_ICON_WIDTH + 5 + k * barWidth := by
  have hcells := dockCells_eq hl.seg hl.ne_null barWidth hl.length_lt_fuel (START_ICON_WIDTH + 5)
  rw [← hl.head] at hcells
  rw [State.drawDesktopDock, getWindowCount_eq hl] at hdraw
  simp only [Option.bind_eq_bind, Option.bind_some] at hdraw
  split at hdraw
  · obtain ⟨cells', hcells', hpair⟩ := Option.bind_eq_some_iff.mp hdraw
    obtain ⟨hwidth, rfl⟩ := Prod.mk.inj (Option.some.inj hpair)
    rw [hwidth, hcells] at hcells'
    rw [← Option.some.inj hcells', sideBySide_get] at hk
    obtain ⟨q, hq, hpos⟩ := Option.map_eq_some_iff.mp hk
    obtain ⟨rfl, rfl⟩ := Prod.mk.inj hpos
    exact ⟨hwidth.symm, hq, rfl⟩
  · obtain ⟨_, rfl⟩ := Prod.mk.inj (Option.some.inj hdraw)
    cases hk

theorem setWnd_screen {t : State} {i : ℤ} {f : KernelWindow → KernelWindow}
    (h : s.setWnd i f = some t) : t.SCREEN_WIDTH = s.SCREEN_WIDTH := by
  obtain ⟨_, rfl⟩ := State.setSlot_eq_some.mp h
  rfl

theorem restore_screen {t : State} {p : ℤ} (h : s.restore p = some t) :
    t.SCREEN_WIDTH = s.SCREEN_WIDTH := by
  unfold State.restore at h
  split at h
  · rw [← Option.some.inj h]
  · obtain ⟨w, _, h₁⟩ := Option.bind_eq_some_iff.mp h
    split at h₁
    · exact setWnd_screen h₁
    · exact (State.focusWindow_linksOnly h₁).1.width

/-- A click between the start icon and the right edge is about one cell. -/
theorem handleDesktopDockClick_eq (hl : Linked s l) (hne : s.docked l ≠ []) {x : ℤ}
    {msg : Message} (hleft : START_ICON_WIDTH < x)
    (hright : x < s.SCREEN_WIDTH - SHOW_DESKTOP_ICON_WIDTH) :
    s.handleDesktopDockClick x msg = s.restore
      (cellAt (s.clickWidth (s.docked l).length) x (s.docked l) (START_ICON_WIDTH + 5)) := by
  have hcell := dockWindow_eq hl.seg hl.ne_null x (s.clickWidth (s.docked l).length)
    hl.length_lt_fuel (START_ICON_WIDTH + 5)
  rw [← hl.head] at hcell
  generalize hq : cellAt (s.clickWidth (s.docked l).length) x (s.docked l)
    (START_ICON_WIDTH + 5) = q at hcell
  rw [State.handleDesktopDockClick, getWindowCount_eq hl]
  simp only [Option.bind_eq_bind, Option.bind_some]
  rw [if_pos (List.length_pos_of_ne_nil hne)]
  rw [State.clickWidth] at hcell
  rw [hcell]
  simp only [Option.bind_some]
  have hrestore : (if q = -1 then some s else (s.slot q).bind fun w =>
      if w.wnd.minimized then s.dispatchTo q (.plain .WM_WINDOW_MAXIMIZE)
      else s.focusWindow q) = s.restore q := rfl
  rw [hrestore]
  cases hu : s.restore q with
  | none => rfl
  | some u =>
    have hscreen := restore_screen hu
    simp only [Option.bind_some]
    rw [if_neg (by omega), Option.bind_some, if_neg (by omega)]

/-- The painted cells end left of the right edge and are no wider than the clicked ones. -/
theorem cell_bounds {n k : ℕ} (hk : k < n) {barWidth : ℤ}
    (hwidth : barWidth = min ((s.SCREEN_WIDTH - START_ICON_WIDTH - SHOW_DESKTOP_ICON_WIDTH -
      90).tdiv (n + 1)) DOCK_PROGRAM_NORMAL_WIDTH) (hpos : 0 < barWidth) :
    (k + 1) * barWidth ≤ s.SCREEN_WIDTH - START_ICON_WIDTH - SHOW_DESKTOP_ICON_WIDTH - 90 ∧
      barWidth ≤ s.clickWidth n := by
  have hwider : barWidth ≤ s.clickWidth n := by
    rw [hwidth, State.clickWidth]
    exact min_le_min_right _ (Int.tdiv_le_tdiv (by omega) (by omega))
  refine ⟨?_, hwider⟩
  generalize s.SCREEN_WIDTH - START_ICON_WIDTH - SHOW_DESKTOP_ICON_WIDTH - 90 = W at hwidth ⊢
  have hle : barWidth ≤ W.tdiv (n + 1) := by
    rw [hwidth]
    exact min_le_left _ _
  have hW : 0 ≤ W := by
    by_contra hneg
    have hzero := Int.tdiv_le_tdiv (a := W) (b := 0) (c := (n : ℤ) + 1) (by omega) (by omega)
    rw [Int.zero_tdiv] at hzero
    omega
  rw [Int.tdiv_eq_ediv_of_nonneg hW] at hle
  calc (k + 1) * barWidth ≤ (n + 1) * barWidth :=
        Int.mul_le_mul_of_nonneg_right (by omega) (by omega)
    _ ≤ (n + 1) * (W / (n + 1)) := Int.mul_le_mul_of_nonneg_left hle (by omega)
    _ ≤ W := Int.mul_ediv_self_le (by omega)

/-- A column in a painted cell is one that a click takes for the cell of the same window
exactly if it is further in the cell than the cells before it are too narrow. -/
theorem dock_acts_iff (hl : Linked s l) {barWidth xStart p x : ℤ} {cells : List (ℤ × ℤ)} {k : ℕ}
    (hdraw : s.drawDesktopDock = some (barWidth, cells)) (hk : cells[k]? = some (p, xStart))
    (hx : xStart + 1 < x ∧ x ≤ xStart + barWidth - 1) (msg : Message) :
    ∃ n q, s.getWindowCount = some n ∧
      s.dockWindow x (s.clickWidth n) loopFuel (START_ICON_WIDTH + 5) s.windowlisthead = some q ∧
      s.handleDesktopDockClick x msg = s.restore q ∧
      (q = p ↔ k * (s.clickWidth n - barWidth) < x - (xStart + 1)) := by
  obtain ⟨hwidth, hp, hstart⟩ := drawDesktopDock_get hl hdraw hk
  have hk : k < (s.docked l).length := (List.getElem?_eq_some_iff.mp hp).1
  obtain ⟨hright, hwider⟩ := cell_bounds hk hwidth (by omega)
  have hne : s.docked l ≠ [] := List.ne_nil_of_length_pos (by omega)
  have hnonneg : 0 ≤ (k : ℤ) * barWidth := Int.mul_nonneg (by omega) (by omega)
  have hend : (k + 1) * barWidth = k * barWidth + barWidth := by ring
  rw [START_ICON_WIDTH] at hstart
  refine ⟨_, _, getWindowCount_eq hl, ?_, handleDesktopDockClick_eq hl hne ?_ ?_, ?_⟩
  · rw [hl.head]
    exact dockWindow_eq hl.seg hl.ne_null x _ hl.length_lt_fuel _
  · rw [START_ICON_WIDTH]
    omega
  · rw [SHOW_DESKTOP_ICON_WIDTH, START_ICON_WIDTH] at hright
    rw [SHOW_DESKTOP_ICON_WIDTH]
    omega
  · have hnd : (s.docked l).Nodup := hl.nodup.filter _
    have hnull : ∀ q ∈ s.docked l, q ≠ -1 := fun q hq => hl.ne_null q (List.mem_of_mem_filter hq)
    rw [cellAt_eq_iff hnull hnd hp, START_ICON_WIDTH]
    have hdrift : k * (s.clickWidth (s.docked l).length - barWidth) =
        k * s.clickWidth (s.docked l).length - k * barWidth := by ring
    have hmono : (k + 1) * barWidth ≤ (k + 1) * s.clickWidth (s.docked l).length :=
      Int.mul_le_mul_of_nonneg_left hwider (by omega)
    rw [hdrift]
    constructor
    · rintro ⟨hin, _⟩
      omega
    · intro hin
      exact ⟨by omega, by omega⟩

end Cells

/-- The desktop on a small screen and two windows. -/
def twoDocked : List Event :=
  let locals : Locals := ⟨none, none, 0, false⟩
  let window : Window := ⟨⟨50, 150, 50, 150⟩, true, 1, 100, 100, 0⟩
  [.call 1 (.createWindow (some ⟨⟨0, 300, 0, 200⟩, false, 0, 300, 200, 0⟩) (some [])) locals,
    .call 2 (.createWindow (some window) (some [])) locals,
    .call 3 (.createWindow (some window) (some [])) locals]

def smallScreen : Desk := init (fun _ => ⟨0, blankWindow, 0, 0⟩) ⟨0, blankWindow, 0⟩ 300 200

theorem twoDocked_linked {d : Desk} (h : Runs.run turn smallScreen twoDocked = some d) :
    ∃ l, Linked d.wm l := by
  obtain ⟨d₁, hd₁, h₁⟩ := Option.bind_eq_some_iff.mp h
  obtain ⟨d₂, hd₂, h₂⟩ := Option.bind_eq_some_iff.mp h₁
  obtain ⟨d₃, hd₃, h₃⟩ := Option.bind_eq_some_iff.mp h₂
  obtain rfl := Option.some.inj h₃
  have hboot : Good smallScreen := Good.init _ _ 300 200
  obtain ⟨l, hl⟩ := (((hboot.call (by exact trivial) hd₁).call (by exact trivial) hd₂).call
    (by exact trivial) hd₃).inv
  exact ⟨l, hl.linked⟩

/-- The cells are 42 columns wide for the painter and 72 for the click; a click at the end
of the second cell is still taken for it. -/
theorem dock_acts_second : ∃ d l, Runs.run turn smallScreen twoDocked = some d ∧ Linked d.wm l ∧
    d.wm.drawDesktopDock = some (42, [(1, 77), (2, 119)]) ∧
    ∃ n q, d.wm.getWindowCount = some n ∧
      d.wm.dockWindow 155 (d.wm.clickWidth n) loopFuel (START_ICON_WIDTH + 5)
        d.wm.windowlisthead = some q ∧
      d.wm.handleDesktopDockClick 155 (.plain .M_MOUSE_LEFT_CLICK) = d.wm.restore q ∧
      (q = 2 ↔ (1 : ℕ) * (d.wm.clickWidth n - 42) < 155 - (119 + 1)) := by
  obtain ⟨d, hrun, hdraw⟩ : ∃ d, Runs.run turn smallScreen twoDocked = some d ∧
      d.wm.drawDesktopDock = some (42, [(1, 77), (2, 119)]) := ⟨_, rfl, by decide +kernel⟩
  obtain ⟨l, hl⟩ := twoDocked_linked hrun
  exact ⟨d, l, hrun, hl, hdraw, dock_acts_iff hl hdraw (k := 1) rfl (by decide) _⟩

/-- A click further left in the second cell goes to the first window. -/
theorem not_dock_acts :
    ¬ ∀ (table : ℤ → WindowSlot) (popup : PopupWindow) (width height : ℤ) (es : List Event)
      (d : Desk) (l : List ℤ) (barWidth xStart p x : ℤ) (cells : List (ℤ × ℤ)) (msg : Message),
      Runs.run turn (init table popup width height) es = some d → Linked d.wm l →
      d.wm.drawDesktopDock = some (barWidth, cells) → (p, xStart) ∈ cells →
      xStart + 1 < x ∧ x ≤ xStart + barWidth - 1 →
      d.wm.handleDesktopDockClick x msg = d.wm.restore p := by
  intro h
  obtain ⟨d, hrun, hdraw, hclick, hcell⟩ : ∃ d, Runs.run turn smallScreen twoDocked = some d ∧
      d.wm.drawDesktopDock = some (42, [(1, 77), (2, 119)]) ∧
      (d.wm.handleDesktopDockClick 130 (.plain .M_MOUSE_LEFT_CLICK)).map (·.windowlisttail) =
        some 1 ∧ (d.wm.restore 2).map (·.windowlisttail) = some 2 :=
    ⟨_, rfl, by decide +kernel, by decide +kernel, by decide +kernel⟩
  obtain ⟨l, hl⟩ := twoDocked_linked hrun
  have hact := h _ _ _ _ _ d l 42 119 2 130 _ (.plain .M_MOUSE_LEFT_CLICK) hrun hl hdraw
    (by decide) (by decide)
  rw [hact, hcell] at hclick
  exact absurd hclick (by decide)

end NorthOS.WindowManager
