import NorthOS.Runs
import NorthOS.WindowManager

/-!
The icons of desktop.c: a press on an icon and the moves after it drag all selected icons, a
press beside the icons opens a selection box. Where a drag ends depends on the last position
of the pointer alone, and a box selects what it covers at its end, although the selection is
not renewed at every move. Painting is left out.
-/
namespace NorthOS.DesktopApps

open WindowManager (Message MsgType WinRect)
open Runs

def SCREEN_WIDTH : ℤ := 800
def SCREEN_HEIGHT : ℤ := 600
def MAX_APPS : ℕ := 10
def ICON_SIZE : ℤ := 48
def LABEL_HEIGHT : ℤ := 20
def APP_TOTAL_HEIGHT : ℤ := ICON_SIZE + LABEL_HEIGHT + 5
def DRAG_THRESHOLD : ℤ := 5
def SELECTION_UPDATE_THRESHOLD : ℤ := 3

def abs_int (x : ℤ) : ℤ := if x < 0 then -x else x

structure DesktopApp where
  exec : String
  x : ℤ
  y : ℤ
  isActive : Bool
  isSelected : Bool
  dragOffsetX : ℤ
  dragOffsetY : ℤ
  deriving DecidableEq, Repr

/-- The variables of desktop.c. `widgets` are the places of the widgets from the tail of their
list, all with startWindowHandler, and `started` are the programs that were started. -/
structure State where
  apps : Fin MAX_APPS → DesktopApp
  draggingApp : Option (Fin MAX_APPS)
  isDragging : Bool
  dragStartX : ℤ
  dragStartY : ℤ
  appOriginalX : ℤ
  appOriginalY : ℤ
  selectedCount : ℕ
  isSelecting : Bool
  selectionStartX : ℤ
  selectionStartY : ℤ
  selectionCurrentX : ℤ
  selectionCurrentY : ℤ
  lastSelectionUpdateX : ℤ
  lastSelectionUpdateY : ℤ
  widgets : List WinRect
  needsRepaint : Bool
  started : List String

def DesktopApp.unselected (a : DesktopApp) : DesktopApp := { a with isSelected := false }
def DesktopApp.selected (a : DesktopApp) : DesktopApp := { a with isSelected := true }

def clearAllSelections (s : State) : State :=
  { s with apps := fun i => (s.apps i).unselected, selectedCount := 0 }

def countSelectedApps (apps : Fin MAX_APPS → DesktopApp) : ℕ :=
  (List.finRange MAX_APPS).countP fun i => (apps i).isActive && (apps i).isSelected

def isAppInSelectionBox (a : DesktopApp) (boxX1 boxY1 boxX2 boxY2 : ℤ) : Bool :=
  a.isActive && !(decide (a.x + ICON_SIZE < boxX1) || decide (a.x > boxX2) ||
    decide (a.y + APP_TOTAL_HEIGHT < boxY1) || decide (a.y > boxY2))

/-- One app in updateSelection. -/
def DesktopApp.boxed (a : DesktopApp) (boxX1 boxY1 boxX2 boxY2 : ℤ) : DesktopApp :=
  if a.isActive then { a with isSelected := isAppInSelectionBox a boxX1 boxY1 boxX2 boxY2 } else a

def updateSelection (boxX1 boxY1 boxX2 boxY2 : ℤ) (s : State) : State :=
  let apps := fun i => (s.apps i).boxed boxX1 boxY1 boxX2 boxY2
  { s with apps := apps, selectedCount := countSelectedApps apps }

def DesktopApp.contains (a : DesktopApp) (mouseX mouseY : ℤ) : Bool :=
  a.isActive && decide (mouseX ≥ a.x) && decide (mouseX < a.x + ICON_SIZE) &&
    decide (mouseY ≥ a.y) && decide (mouseY < a.y + APP_TOTAL_HEIGHT)

/-- The last app of the array is found first. -/
def findAppAtPosition (s : State) (mouseX mouseY : ℤ) : Option (Fin MAX_APPS) :=
  (List.finRange MAX_APPS).reverse.find? fun i => (s.apps i).contains mouseX mouseY

/-- One app in setupMultiDragOffsets. -/
def DesktopApp.offset (a leader : DesktopApp) : DesktopApp :=
  if a.isActive && a.isSelected then
    { a with dragOffsetX := a.x - leader.x, dragOffsetY := a.y - leader.y }
  else a

def setupMultiDragOffsets (leaderIdx : Fin MAX_APPS) (s : State) : State :=
  { s with apps := fun i => (s.apps i).offset (s.apps leaderIdx) }

/-- The boundary check, which is the same for the leader and for the others. -/
def boundX (x : ℤ) : ℤ :=
  let x := if x < 0 then 0 else x
  if x + ICON_SIZE > SCREEN_WIDTH then SCREEN_WIDTH - ICON_SIZE else x

def boundY (y : ℤ) : ℤ :=
  let y := if y < 0 then 0 else y
  if y + APP_TOTAL_HEIGHT > SCREEN_HEIGHT - 40 then SCREEN_HEIGHT - 40 - APP_TOTAL_HEIGHT else y

/-- One app in updateMultiDragPositions. -/
def DesktopApp.follow (a : DesktopApp) (newLeaderX newLeaderY : ℤ) : DesktopApp :=
  if !a.isActive || !a.isSelected then a
  else { a with x := boundX (newLeaderX + a.dragOffsetX), y := boundY (newLeaderY + a.dragOffsetY) }

def updateMultiDragPositions (newLeaderX newLeaderY : ℤ) (s : State) : State :=
  { s with apps := fun i => (s.apps i).follow newLeaderX newLeaderY }

/-- The box from the start of the selection to the pointer's last position. -/
def selectBox (s : State) : State :=
  updateSelection (min s.selectionStartX s.selectionCurrentX) (min s.selectionStartY s.selectionCurrentY)
    (max s.selectionStartX s.selectionCurrentX) (max s.selectionStartY s.selectionCurrentY) s

/-- A click makes an app the only selected one. -/
def selectOnly (appIdx : Fin MAX_APPS) (s : State) : State :=
  { s with
    apps := fun i => if i = appIdx then (s.apps i).selected else (s.apps i).unselected
    selectedCount := 1 }

/-- M_MOUSE_DOWN -/
def mouseDown (mouseX mouseY : ℤ) (s : State) : State :=
  match findAppAtPosition s mouseX mouseY with
  | some appIdx =>
    let s := if (s.apps appIdx).isSelected then s else selectOnly appIdx s
    let s := { s with
      draggingApp := some appIdx
      isDragging := false
      dragStartX := mouseX
      dragStartY := mouseY }
    let s := setupMultiDragOffsets appIdx s
    { s with
      appOriginalX := (s.apps appIdx).x
      appOriginalY := (s.apps appIdx).y
      isSelecting := false }
  | none =>
    let s := { s with
      isSelecting := true
      selectionStartX := mouseX
      selectionStartY := mouseY
      selectionCurrentX := mouseX
      selectionCurrentY := mouseY
      lastSelectionUpdateX := mouseX
      lastSelectionUpdateY := mouseY }
    { clearAllSelections s with
      draggingApp := none
      isDragging := false }

/-- The part of M_MOUSE_MOVE for a drag. -/
def dragMove (mouseX mouseY : ℤ) (s : State) : State :=
  if s.draggingApp ≠ none ∧ s.isSelecting = false then
    let deltaX := mouseX - s.dragStartX
    let deltaY := mouseY - s.dragStartY
    let s :=
      if s.isDragging then s
      else if deltaX * deltaX + deltaY * deltaY > DRAG_THRESHOLD * DRAG_THRESHOLD then { s with isDragging := true }
      else s
    if s.isDragging then
      { updateMultiDragPositions (boundX (s.appOriginalX + deltaX)) (boundY (s.appOriginalY + deltaY)) s with
        needsRepaint := true }
    else s
  else s

/-- The selection is renewed when the pointer has moved enough. -/
def renewSelection (mouseX mouseY : ℤ) (s : State) : State :=
  if abs_int (mouseX - s.lastSelectionUpdateX) ≥ SELECTION_UPDATE_THRESHOLD ∨
      abs_int (mouseY - s.lastSelectionUpdateY) ≥ SELECTION_UPDATE_THRESHOLD then
    { selectBox s with
      lastSelectionUpdateX := mouseX
      lastSelectionUpdateY := mouseY }
  else s

/-- The part of M_MOUSE_MOVE for a selection. -/
def selectMove (mouseX mouseY : ℤ) (s : State) : State :=
  if s.isSelecting then
    renewSelection mouseX mouseY { s with
      selectionCurrentX := mouseX
      selectionCurrentY := mouseY
      needsRepaint := true }
  else s

/-- The part of M_MOUSE_UP for a drag. -/
def endDrag (s : State) : State :=
  if s.draggingApp ≠ none then
    { s with
      draggingApp := none
      isDragging := false
      needsRepaint := true }
  else s

/-- The part of M_MOUSE_UP for a selection. -/
def endSelection (s : State) : State :=
  if s.isSelecting then
    { selectBox s with
      isSelecting := false
      needsRepaint := true }
  else s

/-- startWindowHandler, for the click that brought the call. -/
def startWindowHandler (forks : Bool) (s : State) : State :=
  if forks then { s with started := s.started ++ ["startWindow"] } else s

/-- M_MOUSE_LEFT_CLICK -/
def leftClick (mouseX mouseY : ℤ) (forks : Bool) (s : State) : State :=
  match findAppAtPosition s mouseX mouseY with
  | none =>
    let s := clearAllSelections s
    match s.widgets.find? fun w => decide (mouseX ≥ w.xmin ∧ mouseX ≤ w.xmax ∧ mouseY ≥ w.ymin ∧ mouseY ≤ w.ymax) with
    | none => s
    | some _ => startWindowHandler forks s
  | some appIdx => { selectOnly appIdx s with needsRepaint := true }

/-- M_MOUSE_DBCLICK -/
def doubleClick (mouseX mouseY : ℤ) (forks : Bool) (s : State) : State :=
  let s :=
    match findAppAtPosition s mouseX mouseY with
    | none => s
    | some appIdx => if forks then { s with started := s.started ++ [(s.apps appIdx).exec] } else s
  { s with
    draggingApp := none
    isDragging := false
    isSelecting := false }

/-- What GUI_getMessage gives to one turn of the loop, and whether a fork succeeds in it. -/
structure Event where
  msg : Option Message
  forks : Bool

/-- `none` when the window is closed, after which the program has ended. -/
def customUpdateWindow (s : State) (e : Event) : Option State :=
  match e.msg with
  | none => some { s with needsRepaint := false }
  | some msg =>
    let mouseX := msg.params 0
    let mouseY := msg.params 1
    match msg.msg_type with
    | .WM_WINDOW_CLOSE => none
    | .M_MOUSE_DOWN => some (mouseDown mouseX mouseY s)
    | .M_MOUSE_MOVE => some (selectMove mouseX mouseY (dragMove mouseX mouseY s))
    | .M_MOUSE_UP => some (endSelection (endDrag s))
    | .M_MOUSE_LEFT_CLICK => some (leftClick mouseX mouseY e.forks s)
    | .M_MOUSE_DBCLICK => some (doubleClick mouseX mouseY e.forks s)
    | _ => some s

/-- The first slot that is not active. -/
def addDesktopApp (exec : String) (x y : ℤ) (s : State) : State :=
  match (List.finRange MAX_APPS).find? fun i => !(s.apps i).isActive with
  | none => s
  | some i => { s with apps := Function.update s.apps i ⟨exec, x, y, true, false, 0, 0⟩ }

/-- The variables before main adds its apps. -/
def empty : State where
  apps := fun _ => ⟨"", 0, 0, false, false, 0, 0⟩
  draggingApp := none
  isDragging := false
  dragStartX := 0
  dragStartY := 0
  appOriginalX := 0
  appOriginalY := 0
  selectedCount := 0
  isSelecting := false
  selectionStartX := 0
  selectionStartY := 0
  selectionCurrentX := 0
  selectionCurrentY := 0
  lastSelectionUpdateX := 0
  lastSelectionUpdateY := 0
  widgets := [⟨5, 77, SCREEN_HEIGHT - 36, SCREEN_HEIGHT⟩]
  needsRepaint := false
  started := []

/-- The state in which main enters its loop. -/
def start : State :=
  { addDesktopApp "floppybird" 20 (20 + (APP_TOTAL_HEIGHT + 10) * 3)
      (addDesktopApp "explorer" 20 (20 + (APP_TOTAL_HEIGHT + 10) * 2)
        (addDesktopApp "editor" 20 (20 + APP_TOTAL_HEIGHT + 10)
          (addDesktopApp "terminal" 20 20 empty))) with
    needsRepaint := true }

variable {s t : State} {a b leader : DesktopApp} {i j : Fin MAX_APPS} {mouseX mouseY : ℤ}
    {e : Event}

section Bounds

/-- The icon and its label are on the screen, above the dock. -/
structure Inside (a : DesktopApp) : Prop where
  left : 0 ≤ a.x
  right : a.x + ICON_SIZE ≤ SCREEN_WIDTH
  top : 0 ≤ a.y
  bottom : a.y + APP_TOTAL_HEIGHT ≤ SCREEN_HEIGHT - 40

theorem boundX_inside (x : ℤ) : 0 ≤ boundX x ∧ boundX x + ICON_SIZE ≤ SCREEN_WIDTH := by
  unfold boundX ICON_SIZE SCREEN_WIDTH
  dsimp only
  split <;> split <;> omega

theorem boundY_inside (y : ℤ) :
    0 ≤ boundY y ∧ boundY y + APP_TOTAL_HEIGHT ≤ SCREEN_HEIGHT - 40 := by
  unfold boundY APP_TOTAL_HEIGHT ICON_SIZE LABEL_HEIGHT SCREEN_HEIGHT
  dsimp only
  split <;> split <;> omega

theorem boundX_of_inside {x : ℤ} (hlo : 0 ≤ x) (hhi : x + ICON_SIZE ≤ SCREEN_WIDTH) :
    boundX x = x := by
  unfold boundX
  dsimp only
  rw [if_neg (Int.not_lt.mpr hlo), if_neg (Int.not_lt.mpr hhi)]

theorem boundY_of_inside {y : ℤ} (hlo : 0 ≤ y) (hhi : y + APP_TOTAL_HEIGHT ≤ SCREEN_HEIGHT - 40) :
    boundY y = y := by
  unfold boundY
  dsimp only
  rw [if_neg (Int.not_lt.mpr hlo), if_neg (Int.not_lt.mpr hhi)]

end Bounds

section Invariant

/-- What the handlers leave of the apps and of the drag. -/
structure Inv (s : State) : Prop where
  inside : ∀ i, (s.apps i).isActive → Inside (s.apps i)
  hidden : ∀ i, (s.apps i).isSelected → (s.apps i).isActive
  count : s.selectedCount = countSelectedApps s.apps
  leader : ∀ i, s.draggingApp = some i → (s.apps i).isActive ∧ s.isSelecting = false
  dragging : s.isDragging → s.draggingApp ≠ none

theorem findApp_active (h : findAppAtPosition s mouseX mouseY = some i) : (s.apps i).isActive := by
  have hfound := List.find?_some h
  simp only [DesktopApp.contains, Bool.and_eq_true] at hfound
  exact hfound.1.1.1.1

theorem count_congr {apps apps' : Fin MAX_APPS → DesktopApp}
    (h : ∀ i, (apps' i).isActive = (apps i).isActive ∧ (apps' i).isSelected = (apps i).isSelected) :
    countSelectedApps apps' = countSelectedApps apps := by
  unfold countSelectedApps
  congr 1
  funext i
  rw [(h i).1, (h i).2]

theorem count_none {apps : Fin MAX_APPS → DesktopApp} (h : ∀ i, (apps i).isSelected = false) :
    countSelectedApps apps = 0 := by
  unfold countSelectedApps
  rw [List.countP_eq_zero]
  intro i _
  rw [h i, Bool.and_false]
  exact Bool.false_ne_true

/-- Where one active app is selected, one is counted. -/
theorem count_one {apps : Fin MAX_APPS → DesktopApp} (hactive : (apps i).isActive)
    (h : ∀ j, (apps j).isSelected = decide (j = i)) : countSelectedApps apps = 1 := by
  have hcount : countSelectedApps apps = (List.finRange MAX_APPS).count i := by
    refine List.countP_congr fun j _ => ?_
    rw [h j]
    by_cases hj : j = i
    · simp [hj, hactive]
    · simp [hj]
  rw [hcount]
  exact List.count_eq_one_of_mem (List.nodup_finRange _) (List.mem_finRange i)

theorem boxed_place (a : DesktopApp) (x₁ y₁ x₂ y₂ : ℤ) : (a.boxed x₁ y₁ x₂ y₂).x = a.x ∧
    (a.boxed x₁ y₁ x₂ y₂).y = a.y ∧ (a.boxed x₁ y₁ x₂ y₂).isActive = a.isActive := by
  unfold DesktopApp.boxed
  split <;> exact ⟨rfl, rfl, rfl⟩

/-- No app that is not active is in a box. -/
theorem boxed_selected (ha : a.isSelected → a.isActive) (x₁ y₁ x₂ y₂ : ℤ) :
    (a.boxed x₁ y₁ x₂ y₂).isSelected = isAppInSelectionBox a x₁ y₁ x₂ y₂ := by
  unfold DesktopApp.boxed
  by_cases hactive : a.isActive
  · rw [if_pos hactive]
  · rw [if_neg hactive]
    have hnot : a.isSelected = false := Bool.eq_false_iff.mpr fun h => hactive (ha h)
    rw [hnot, isAppInSelectionBox, Bool.eq_false_iff.mpr hactive, Bool.false_and]

theorem active_of_boxed {x₁ y₁ x₂ y₂ : ℤ} (h : isAppInSelectionBox a x₁ y₁ x₂ y₂) : a.isActive :=
  (Bool.and_eq_true_iff.mp h).1

theorem offset_flags (a leader : DesktopApp) :
    (a.offset leader).isActive = a.isActive ∧ (a.offset leader).isSelected = a.isSelected := by
  unfold DesktopApp.offset
  split <;> exact ⟨rfl, rfl⟩

theorem offset_place (a leader : DesktopApp) :
    (a.offset leader).x = a.x ∧ (a.offset leader).y = a.y := by
  unfold DesktopApp.offset
  split <;> exact ⟨rfl, rfl⟩

theorem follow_flags (a : DesktopApp) (x y : ℤ) :
    (a.follow x y).isActive = a.isActive ∧ (a.follow x y).isSelected = a.isSelected := by
  unfold DesktopApp.follow
  split <;> exact ⟨rfl, rfl⟩

theorem follow_inside {x y : ℤ} (h : Inside a) : Inside (a.follow x y) := by
  unfold DesktopApp.follow
  split
  · exact h
  · obtain ⟨hleft, hright⟩ := boundX_inside (x + a.dragOffsetX)
    obtain ⟨htop, hbottom⟩ := boundY_inside (y + a.dragOffsetY)
    exact ⟨hleft, hright, htop, hbottom⟩

theorem Inside.congr (h : Inside a) (hx : b.x = a.x) (hy : b.y = a.y) : Inside b := by
  obtain ⟨hleft, hright, htop, hbottom⟩ := h
  rw [← hx] at hleft hright
  rw [← hy] at htop hbottom
  exact ⟨hleft, hright, htop, hbottom⟩

/-- The selection alone is another one. -/
theorem Inv.select (h : Inv s)
    (hplace : ∀ i, (t.apps i).x = (s.apps i).x ∧ (t.apps i).y = (s.apps i).y ∧
      (t.apps i).isActive = (s.apps i).isActive)
    (hhidden : ∀ i, (t.apps i).isSelected → (s.apps i).isActive)
    (hcount : t.selectedCount = countSelectedApps t.apps)
    (hleader : ∀ i, t.draggingApp = some i → (s.apps i).isActive ∧ t.isSelecting = false)
    (hdragging : t.isDragging → t.draggingApp ≠ none) : Inv t where
  inside i hi := (h.inside i ((hplace i).2.2 ▸ hi)).congr (hplace i).1 (hplace i).2.1
  hidden i hi := (hplace i).2.2.symm ▸ hhidden i hi
  count := hcount
  leader i hi := ⟨(hplace i).2.2.symm ▸ (hleader i hi).1, (hleader i hi).2⟩
  dragging := hdragging

theorem Inv.clearAllSelections (h : Inv s) : Inv (clearAllSelections s) :=
  h.select (fun _ => ⟨rfl, rfl, rfl⟩) (fun _ hi => absurd hi Bool.false_ne_true)
    (count_none fun _ => rfl).symm h.leader h.dragging

theorem selectOnly_selected : ((selectOnly i s).apps j).isSelected = decide (j = i) := by
  unfold selectOnly
  dsimp only
  split
  · rename_i hj
    exact (decide_eq_true hj).symm
  · rename_i hj
    exact (decide_eq_false hj).symm

theorem selectOnly_place : ((selectOnly i s).apps j).x = (s.apps j).x ∧
    ((selectOnly i s).apps j).y = (s.apps j).y ∧ ((selectOnly i s).apps j).isActive =
      (s.apps j).isActive := by
  unfold selectOnly
  dsimp only
  split <;> exact ⟨rfl, rfl, rfl⟩

theorem Inv.selectOnly (h : Inv s) (hi : (s.apps i).isActive) : Inv (selectOnly i s) := by
  refine h.select (fun j => selectOnly_place) (fun j hj => ?_) ?_ h.leader h.dragging
  · rw [selectOnly_selected, decide_eq_true_eq] at hj
    rw [hj]
    exact hi
  · exact (count_one (by rw [selectOnly_place.2.2]; exact hi) fun j => selectOnly_selected).symm

theorem Inv.updateSelection (h : Inv s) (x₁ y₁ x₂ y₂ : ℤ) :
    Inv (updateSelection x₁ y₁ x₂ y₂ s) := by
  refine h.select (fun i => boxed_place _ x₁ y₁ x₂ y₂) (fun i hi => ?_) rfl h.leader h.dragging
  have hbox := boxed_selected (h.hidden i) x₁ y₁ x₂ y₂
  exact active_of_boxed (hbox.symm.trans hi)

theorem Inv.setupMultiDragOffsets (h : Inv s) (i : Fin MAX_APPS) :
    Inv (setupMultiDragOffsets i s) := by
  have hflags := fun j => offset_flags (s.apps j) (s.apps i)
  refine h.select (fun j => ?_) (fun j hj => ?_) ?_ h.leader h.dragging
  · exact ⟨(offset_place _ _).1, (offset_place _ _).2, (hflags j).1⟩
  · exact h.hidden j ((hflags j).2.symm.trans hj)
  · exact h.count.trans (count_congr hflags).symm

theorem Inv.mouseDown (h : Inv s) (mouseX mouseY : ℤ) : Inv (mouseDown mouseX mouseY s) := by
  unfold DesktopApps.mouseDown
  cases hfind : findAppAtPosition s mouseX mouseY with
  | some i =>
    have hactive := findApp_active hfind
    have hone : Inv (if (s.apps i).isSelected then s else DesktopApps.selectOnly i s) := by
      split
      · exact h
      · exact h.selectOnly hactive
    have hplace : ((if (s.apps i).isSelected then s else DesktopApps.selectOnly i s).apps i).isActive := by
      split
      · exact hactive
      · rw [selectOnly_place.2.2]
        exact hactive
    have hall := hone.setupMultiDragOffsets i
    refine ⟨hall.inside, hall.hidden, hall.count, fun j hj => ⟨?_, rfl⟩,
      fun hd => absurd hd Bool.false_ne_true⟩
    rw [← Option.some.inj hj]
    exact (offset_flags _ _).1.trans hplace
  | none =>
    have hclear := h.clearAllSelections
    exact ⟨hclear.inside, hclear.hidden, hclear.count, fun j hj => absurd hj
      (Option.some_ne_none j).symm, fun hd => absurd hd Bool.false_ne_true⟩

theorem Inv.updateMultiDragPositions (h : Inv s) (x y : ℤ) :
    Inv (updateMultiDragPositions x y s) := by
  have hflags := fun j => follow_flags (s.apps j) x y
  refine ⟨fun i hi => ?_, fun i hi => ?_, ?_, fun i hi => ?_, h.dragging⟩
  · exact follow_inside (h.inside i ((hflags i).1.symm.trans hi))
  · exact (hflags i).1.trans (h.hidden i ((hflags i).2.symm.trans hi))
  · exact h.count.trans (count_congr hflags).symm
  · exact ⟨(hflags i).1.trans (h.leader i hi).1, (h.leader i hi).2⟩

/-- The second place is so far from the first that a press becomes a drag. -/
def Far (p q : ℤ × ℤ) : Prop :=
  (q.1 - p.1) * (q.1 - p.1) + (q.2 - p.2) * (q.2 - p.2) > DRAG_THRESHOLD * DRAG_THRESHOLD

instance Far.decidable (p q : ℤ × ℤ) : Decidable (Far p q) := inferInstanceAs (Decidable (_ > _))

/-- Where the button was pressed. -/
def State.dragStart (s : State) : ℤ × ℤ := (s.dragStartX, s.dragStartY)

/-- The apps follow the pointer once it was far away. -/
theorem dragMove_eq (hdrag : s.draggingApp ≠ none) (hnot : s.isSelecting = false)
    (mouseX mouseY : ℤ) :
    dragMove mouseX mouseY s = if s.isDragging = true ∨ Far s.dragStart (mouseX, mouseY) then
      { updateMultiDragPositions (boundX (s.appOriginalX + (mouseX - s.dragStartX)))
          (boundY (s.appOriginalY + (mouseY - s.dragStartY))) s with
        isDragging := true
        needsRepaint := true }
    else s := by
  unfold dragMove
  rw [if_pos ⟨hdrag, hnot⟩]
  dsimp only
  by_cases hd : s.isDragging = true
  · rw [if_pos hd, if_pos hd, if_pos (Or.inl hd)]
    unfold updateMultiDragPositions
    rw [hd]
  · rw [if_neg hd]
    have hiff : (mouseX - s.dragStartX) * (mouseX - s.dragStartX) +
        (mouseY - s.dragStartY) * (mouseY - s.dragStartY) > DRAG_THRESHOLD * DRAG_THRESHOLD ↔
          Far s.dragStart (mouseX, mouseY) := Iff.rfl
    by_cases hfar : Far s.dragStart (mouseX, mouseY)
    · rw [if_pos (Or.inr hfar), if_pos (hiff.mpr hfar)]
      exact if_pos rfl
    · rw [if_neg (not_or.mpr ⟨hd, hfar⟩), if_neg (mt hiff.mp hfar), if_neg hd]

theorem Inv.dragMove (h : Inv s) (mouseX mouseY : ℤ) : Inv (dragMove mouseX mouseY s) := by
  by_cases hdrag : s.draggingApp ≠ none ∧ s.isSelecting = false
  · rw [dragMove_eq hdrag.1 hdrag.2]
    split
    · have hall := h.updateMultiDragPositions (boundX (s.appOriginalX + (mouseX - s.dragStartX)))
        (boundY (s.appOriginalY + (mouseY - s.dragStartY)))
      exact ⟨hall.inside, hall.hidden, hall.count, hall.leader, fun _ => hdrag.1⟩
    · exact h
  · unfold DesktopApps.dragMove
    rw [if_neg hdrag]
    exact h

theorem Inv.selectBox (h : Inv s) : Inv (selectBox s) := h.updateSelection _ _ _ _

theorem Inv.renewSelection (h : Inv s) (mouseX mouseY : ℤ) :
    Inv (renewSelection mouseX mouseY s) := by
  unfold DesktopApps.renewSelection
  split
  · have hbox := h.selectBox
    exact ⟨hbox.inside, hbox.hidden, hbox.count, hbox.leader, hbox.dragging⟩
  · exact h

theorem Inv.selectMove (h : Inv s) (mouseX mouseY : ℤ) : Inv (selectMove mouseX mouseY s) := by
  unfold DesktopApps.selectMove
  split
  · have hnew : Inv { s with selectionCurrentX := mouseX, selectionCurrentY := mouseY, needsRepaint := true } :=
      ⟨h.inside, h.hidden, h.count, h.leader, h.dragging⟩
    exact hnew.renewSelection mouseX mouseY
  · exact h

theorem Inv.endDrag (h : Inv s) : Inv (endDrag s) := by
  unfold DesktopApps.endDrag
  split
  · exact ⟨h.inside, h.hidden, h.count, fun i hi => absurd hi (Option.some_ne_none i).symm,
      fun hd => absurd hd Bool.false_ne_true⟩
  · exact h

theorem Inv.endSelection (h : Inv s) : Inv (endSelection s) := by
  unfold DesktopApps.endSelection
  split
  · have hbox := h.selectBox
    exact ⟨hbox.inside, hbox.hidden, hbox.count, fun i hi => ⟨(hbox.leader i hi).1, rfl⟩,
      hbox.dragging⟩
  · exact h

theorem Inv.startWindowHandler (h : Inv s) (forks : Bool) : Inv (startWindowHandler forks s) := by
  unfold DesktopApps.startWindowHandler
  split
  · exact ⟨h.inside, h.hidden, h.count, h.leader, h.dragging⟩
  · exact h

theorem Inv.leftClick (h : Inv s) (mouseX mouseY : ℤ) (forks : Bool) :
    Inv (leftClick mouseX mouseY forks s) := by
  unfold DesktopApps.leftClick
  cases hfind : findAppAtPosition s mouseX mouseY with
  | none =>
    dsimp only
    split
    · exact h.clearAllSelections
    · exact h.clearAllSelections.startWindowHandler forks
  | some i =>
    have hone := h.selectOnly (findApp_active hfind)
    exact ⟨hone.inside, hone.hidden, hone.count, hone.leader, hone.dragging⟩

theorem Inv.doubleClick (h : Inv s) (mouseX mouseY : ℤ) (forks : Bool) :
    Inv (doubleClick mouseX mouseY forks s) := by
  unfold DesktopApps.doubleClick
  have hend : ∀ u : State, u.apps = s.apps → u.selectedCount = s.selectedCount →
      Inv { u with draggingApp := none, isDragging := false, isSelecting := false } := by
    intro u hu hcount
    refine ⟨?_, ?_, ?_, fun i hi => absurd hi (Option.some_ne_none i).symm,
      fun hd => absurd hd Bool.false_ne_true⟩
    · rw [hu]
      exact h.inside
    · rw [hu]
      exact h.hidden
    · show u.selectedCount = countSelectedApps u.apps
      rw [hu, hcount]
      exact h.count
  split
  · exact hend s rfl rfl
  · split
    · exact hend _ rfl rfl
    · exact hend s rfl rfl

theorem Inv.customUpdateWindow (h : Inv s) (ht : customUpdateWindow s e = some t) : Inv t := by
  unfold DesktopApps.customUpdateWindow at ht
  split at ht
  · rw [← Option.some.inj ht]
    exact ⟨h.inside, h.hidden, h.count, h.leader, h.dragging⟩
  · dsimp only at ht
    split at ht
    · cases ht
    · rw [← Option.some.inj ht]
      exact h.mouseDown _ _
    · rw [← Option.some.inj ht]
      exact (h.dragMove _ _).selectMove _ _
    · rw [← Option.some.inj ht]
      exact h.endDrag.endSelection
    · rw [← Option.some.inj ht]
      exact h.leftClick _ _ _
    · rw [← Option.some.inj ht]
      exact h.doubleClick _ _ _
    · rw [← Option.some.inj ht]
      exact h

theorem start_inv : Inv start := by
  refine ⟨?_, by decide, by decide, fun i hi => absurd hi (Option.some_ne_none i).symm,
    fun hd => absurd hd Bool.false_ne_true⟩
  have hall : ∀ i, (start.apps i).isActive → 0 ≤ (start.apps i).x ∧ (start.apps i).x + ICON_SIZE ≤
      SCREEN_WIDTH ∧
      0 ≤ (start.apps i).y ∧ (start.apps i).y + APP_TOTAL_HEIGHT ≤ SCREEN_HEIGHT - 40 := by decide
  exact fun i hi => ⟨(hall i hi).1, (hall i hi).2.1, (hall i hi).2.2.1, (hall i hi).2.2.2⟩

/-- In every state that the desktop reaches, the icons are on the screen, the count is that of
the selected apps, and no icon is dragged while a box is open. -/
theorem always_inv (es : List Event) : Always customUpdateWindow Inv start es :=
  always_of_invariant (fun _ _ _ h ht => h.customUpdateWindow ht) start_inv es

end Invariant

section Gestures

/-- Messages that neither press, release nor click, and turns of the loop without a message. -/
def Event.passive (e : Event) : Bool :=
  match e.msg with
  | none => true
  | some msg =>
    match msg.msg_type with
    | .WM_WINDOW_CLOSE | .M_MOUSE_DOWN | .M_MOUSE_UP | .M_MOUSE_LEFT_CLICK | .M_MOUSE_DBCLICK => false
    | _ => true

/-- The position that a move brings. -/
def Event.moveTo (e : Event) : Option (ℤ × ℤ) :=
  match e.msg with
  | none => none
  | some msg => if msg.msg_type = .M_MOUSE_MOVE then some (msg.params 0, msg.params 1) else none

/-- The positions of the pointer. -/
def moves (es : List Event) : List (ℤ × ℤ) := es.filterMap Event.moveTo

/-- A passive event moves the pointer or changes nothing but the order to paint. -/
theorem passive_cases (h : e.passive) (ht : customUpdateWindow s e = some t) :
    (∃ p, e.moveTo = some p ∧ t = selectMove p.1 p.2 (dragMove p.1 p.2 s)) ∨
      (e.moveTo = none ∧ ∃ paint, t = { s with needsRepaint := paint }) := by
  obtain ⟨msg, forks⟩ := e
  cases msg with
  | none => exact Or.inr ⟨rfl, false, (Option.some.inj ht).symm⟩
  | some msg =>
    obtain ⟨type, params⟩ := msg
    cases type with
    | M_MOUSE_MOVE => exact Or.inl ⟨_, rfl, (Option.some.inj ht).symm⟩
    | WM_WINDOW_CLOSE | M_MOUSE_DOWN | M_MOUSE_UP | M_MOUSE_LEFT_CLICK | M_MOUSE_DBCLICK =>
      exact absurd h Bool.false_ne_true
    | _ => exact Or.inr ⟨rfl, s.needsRepaint, (Option.some.inj ht).symm⟩

/-- The apps after the pointer came to `p`, where `d` is the state after the press. -/
def carried (d : State) (p : ℤ × ℤ) (j : Fin MAX_APPS) : DesktopApp :=
  (d.apps j).follow (boundX (d.appOriginalX + (p.1 - d.dragStartX))) (boundY (d.appOriginalY + (p.2 - d.dragStartY)))

theorem follow_follow (a : DesktopApp) (x y x' y' : ℤ) :
    (a.follow x y).follow x' y' = a.follow x' y' := by
  unfold DesktopApp.follow
  by_cases h : (!a.isActive || !a.isSelected) = true
  · rw [if_pos h, if_pos h]
  · rw [if_neg h, if_neg h, if_neg h]

theorem selectMove_of_not (h : s.isSelecting = false) : selectMove mouseX mouseY s = s := by
  unfold selectMove
  rw [if_neg (by rw [h]; exact Bool.false_ne_true)]

theorem dragMove_isSelecting : (dragMove mouseX mouseY s).isSelecting = s.isSelecting := by
  by_cases hdrag : s.draggingApp ≠ none ∧ s.isSelecting = false
  · rw [dragMove_eq hdrag.1 hdrag.2]
    split <;> rfl
  · unfold dragMove
    rw [if_neg hdrag]

/-- A drag under way: `ps` are the positions of the pointer since the press. -/
structure Dragged (d : State) (ps : List (ℤ × ℤ)) (t : State) : Prop where
  app : t.draggingApp ≠ none
  noBox : t.isSelecting = false
  start : t.dragStart = d.dragStart
  original : t.appOriginalX = d.appOriginalX ∧ t.appOriginalY = d.appOriginalY
  dragging : t.isDragging = true ↔ ∃ p ∈ ps, Far d.dragStart p
  apps : ∀ j, t.apps j = if t.isDragging then carried d (ps.getLastD d.dragStart) j else d.apps j

theorem Dragged.move {d : State} {ps : List (ℤ × ℤ)} (h : Dragged d ps s) (p : ℤ × ℤ) :
    Dragged d (ps ++ [p]) (selectMove p.1 p.2 (dragMove p.1 p.2 s)) := by
  obtain ⟨hstartX, hstartY⟩ := Prod.ext_iff.mp h.start
  have hiff : (s.isDragging = true ∨ Far s.dragStart p) ↔ ∃ q ∈ ps ++ [p], Far d.dragStart q := by
    rw [h.dragging, h.start]
    simp [List.mem_append, or_and_right, exists_or]
  have hlast : (ps ++ [p]).getLastD d.dragStart = p := by simp
  rw [selectMove_of_not (dragMove_isSelecting.trans h.noBox), dragMove_eq h.app h.noBox]
  by_cases hc : s.isDragging = true ∨ Far s.dragStart p
  · rw [if_pos hc]
    refine ⟨h.app, h.noBox, h.start, h.original, ⟨fun _ => hiff.mp hc, fun _ => rfl⟩, fun j => ?_⟩
    rw [hlast]
    show (s.apps j).follow (boundX (_ + (_ - s.dragStart.1))) (boundY (_ + (_ - s.dragStart.2))) =
      carried d p j
    rw [h.apps j, hstartX, hstartY, h.original.1, h.original.2]
    split
    · exact follow_follow _ _ _ _ _
    · rfl
  · rw [if_neg hc]
    obtain ⟨hnot, _⟩ := not_or.mp hc
    refine ⟨h.app, h.noBox, h.start, h.original,
      ⟨fun hd => absurd hd hnot, fun hd => absurd (hiff.mpr hd) hc⟩,
      fun j => ?_⟩
    rw [h.apps j, if_neg hnot, if_neg hnot]

theorem Dragged.run {d : State} {ps : List (ℤ × ℤ)} {es : List Event} (h : Dragged d ps s)
    (hes : ∀ e ∈ es, e.passive) (ht : run customUpdateWindow s es = some t) :
    Dragged d (ps ++ moves es) t := by
  induction es generalizing s ps with
  | nil =>
    rw [← Option.some.inj ht, moves, List.filterMap_nil, List.append_nil]
    exact h
  | cons e es ih =>
    obtain ⟨u, hu, hrest⟩ := Option.bind_eq_some_iff.mp ht
    have hlater := fun e' he' => hes e' (List.mem_cons_of_mem e he')
    rcases passive_cases (hes e List.mem_cons_self) hu with ⟨p, hp, rfl⟩ | ⟨hp, paint, rfl⟩
    · have hmoves : ps ++ moves (e :: es) = ps ++ [p] ++ moves es := by
        rw [moves, List.filterMap_cons_some hp, List.append_assoc]
        rfl
      rw [hmoves]
      exact ih (h.move p) hlater hrest
    · have hmoves : moves (e :: es) = moves es := List.filterMap_cons_none hp
      have hu : Dragged d ps { s with needsRepaint := paint } :=
        ⟨h.app, h.noBox, h.start, h.original, h.dragging, h.apps⟩
      rw [hmoves]
      exact ih hu hlater hrest

/-- The apps that a press on app `i` takes along. -/
def chosen (s : State) (i j : Fin MAX_APPS) : Bool :=
  if (s.apps i).isSelected then (s.apps j).isSelected else decide (j = i)

/-- Where app `j` comes when the pointer has moved by `d` since the press on app `i`: the
leader is stopped at the edges first, and each app in its place beside the leader again. -/
def dropX (s : State) (i j : Fin MAX_APPS) (d : ℤ) : ℤ :=
  boundX (boundX ((s.apps i).x + d) + ((s.apps j).x - (s.apps i).x))

def dropY (s : State) (i j : Fin MAX_APPS) (d : ℤ) : ℤ :=
  boundY (boundY ((s.apps i).y + d) + ((s.apps j).y - (s.apps i).y))

def place (s : State) (j : Fin MAX_APPS) : ℤ × ℤ := ((s.apps j).x, (s.apps j).y)

/-- What a press on app `i` leaves. -/
structure Pressed (s : State) (i : Fin MAX_APPS) (x y : ℤ) (d : State) : Prop where
  dragged : Dragged d [] d
  start : d.dragStart = (x, y)
  original : d.appOriginalX = (s.apps i).x ∧ d.appOriginalY = (s.apps i).y
  place : ∀ j, place d j = place s j
  active : ∀ j, (d.apps j).isActive = (s.apps j).isActive
  selected : ∀ j, (d.apps j).isSelected = chosen s i j
  offset : ∀ j, (d.apps j).isActive → (d.apps j).isSelected →
    (d.apps j).dragOffsetX = (s.apps j).x - (s.apps i).x ∧ (d.apps j).dragOffsetY = (s.apps j).y - (s.apps i).y

theorem mouseDown_pressed (hi : findAppAtPosition s mouseX mouseY = some i) :
    Pressed s i mouseX mouseY (mouseDown mouseX mouseY s) := by
  have hm : ∀ m : State, m = (if (s.apps i).isSelected then s else selectOnly i s) →
      ∀ j, place m j = place s j ∧ (m.apps j).isActive = (s.apps j).isActive ∧
      (m.apps j).isSelected = chosen s i j := by
    rintro m rfl j
    unfold chosen
    by_cases hsel : (s.apps i).isSelected
    · rw [if_pos hsel, if_pos hsel]
      exact ⟨rfl, rfl, rfl⟩
    · rw [if_neg hsel, if_neg hsel]
      exact ⟨Prod.ext selectOnly_place.1 selectOnly_place.2.1, selectOnly_place.2.2,
        selectOnly_selected⟩
  unfold mouseDown
  rw [hi]
  dsimp only
  generalize hd : (if (s.apps i).isSelected then s else selectOnly i s) = m
  have hall := hm m hd.symm
  have hx : ∀ j, (m.apps j).x = (s.apps j).x := fun j => (Prod.ext_iff.mp (hall j).1).1
  have hy : ∀ j, (m.apps j).y = (s.apps j).y := fun j => (Prod.ext_iff.mp (hall j).1).2
  refine ⟨⟨Option.some_ne_none i, rfl, rfl, ⟨rfl, rfl⟩, ?_,
    fun j => (if_neg Bool.false_ne_true).symm⟩, rfl,
    ⟨?_, ?_⟩, fun j => ?_, fun j => ?_, fun j => ?_, fun j hactive hsel => ?_⟩
  · exact ⟨fun h => absurd h Bool.false_ne_true, fun ⟨q, hq, _⟩ => absurd hq List.not_mem_nil⟩
  · exact (offset_place _ _).1.trans (hx i)
  · exact (offset_place _ _).2.trans (hy i)
  · exact Prod.ext ((offset_place _ _).1.trans (hx j)) ((offset_place _ _).2.trans (hy j))
  · exact (offset_flags _ _).1.trans (hall j).2.1
  · exact (offset_flags _ _).2.trans (hall j).2.2
  · have hset : ((m.apps j).isActive && (m.apps j).isSelected) = true := by
      rw [Bool.and_eq_true]
      exact ⟨(offset_flags _ _).1.symm.trans hactive, (offset_flags _ _).2.symm.trans hsel⟩
    have hoff : (m.apps j).offset (m.apps i) =
        { m.apps j with dragOffsetX := (m.apps j).x - (m.apps i).x, dragOffsetY := (m.apps j).y - (m.apps i).y } :=
      if_pos hset
    rw [← hx, ← hx, ← hy, ← hy]
    show ((m.apps j).offset (m.apps i)).dragOffsetX = _ ∧
      ((m.apps j).offset (m.apps i)).dragOffsetY = _
    rw [hoff]
    exact ⟨rfl, rfl⟩

theorem chosen_active (hs : Inv s) (hi : findAppAtPosition s mouseX mouseY = some i)
    (hj : chosen s i j) : (s.apps j).isActive := by
  unfold chosen at hj
  split at hj
  · exact hs.hidden j hj
  · rw [of_decide_eq_true hj]
    exact findApp_active hi

theorem carried_place {d : State} {x y : ℤ} {p : ℤ × ℤ} (h : Pressed s i x y d)
    (hactive : chosen s i j → (s.apps j).isActive) : ((carried d p j).x, (carried d p j).y) =
      if chosen s i j then (dropX s i j (p.1 - x), dropY s i j (p.2 - y)) else place s j := by
  have hstartX : d.dragStartX = x := (Prod.ext_iff.mp h.start).1
  have hstartY : d.dragStartY = y := (Prod.ext_iff.mp h.start).2
  unfold carried DesktopApp.follow
  by_cases hj : chosen s i j
  · have hon : ¬ (!(d.apps j).isActive || !(d.apps j).isSelected) = true := by
      rw [h.active, h.selected, hactive hj, hj]
      decide
    obtain ⟨hx, hy⟩ := h.offset j ((h.active j).trans (hactive hj)) ((h.selected j).trans hj)
    rw [if_neg hon, if_pos hj, hx, hy, h.original.1, h.original.2, hstartX, hstartY]
    rfl
  · have hoff : (!(d.apps j).isActive || !(d.apps j).isSelected) = true := by
      rw [h.selected, Bool.eq_false_iff.mpr hj]
      exact Bool.or_true _
    rw [if_pos hoff, if_neg hj]
    exact h.place j

theorem drop_inside (h : Inside (s.apps i)) (h' : Inside (s.apps j)) :
    dropX s i j 0 = (s.apps j).x ∧ dropY s i j 0 = (s.apps j).y := by
  have hback : ∀ x y : ℤ, x + (y - x) = y := fun x y => by omega
  unfold dropX dropY
  rw [Int.add_zero, Int.add_zero, boundX_of_inside h.left h.right, boundY_of_inside h.top h.bottom,
    hback, hback]
  exact ⟨boundX_of_inside h'.left h'.right, boundY_of_inside h'.top h'.bottom⟩

/-- A drag in any reachable state: once the pointer is far from the press, the chosen apps are
where its last position puts them, whatever way it took, and back at the press they are where
they were. The other apps do not move. -/
theorem drag_ends {es ds : List Event} {press : Message} {p : ℤ × ℤ} (forks : Bool)
    (hs : run customUpdateWindow start es = some s) (hpress : press.msg_type = .M_MOUSE_DOWN)
    (hi : findAppAtPosition s (press.params 0) (press.params 1) = some i)
    (hds : ∀ e ∈ ds, e.passive)
    (ht : run customUpdateWindow s (⟨some press, forks⟩ :: ds) = some t)
    (hp : (moves ds).getLast? = some p) : (∀ j, place t j =
      if (∃ q ∈ moves ds, Far (press.params 0, press.params 1) q) ∧ chosen s i j then
        (dropX s i j (p.1 - press.params 0), dropY s i j (p.2 - press.params 1))
      else place s j) ∧
    (p = (press.params 0, press.params 1) → ∀ j, place t j = place s j) := by
  have hinv : Inv s := (always_iff_run start es).mp (always_inv es) es s (List.prefix_refl es) hs
  obtain ⟨d, hd, hrest⟩ := Option.bind_eq_some_iff.mp ht
  have hdown : d = mouseDown (press.params 0) (press.params 1) s := by
    unfold customUpdateWindow at hd
    dsimp only at hd
    rw [hpress] at hd
    exact (Option.some.inj hd).symm
  have hpressed := mouseDown_pressed hi
  rw [← hdown] at hpressed
  have hdragged := hpressed.dragged.run hds hrest
  rw [List.nil_append] at hdragged
  have hlast : (moves ds).getLastD d.dragStart = p := by
    rw [List.getLastD_eq_getLast?, hp]
    rfl
  have hfar := hdragged.dragging
  rw [hpressed.start] at hfar
  have hplace : ∀ j, place t j =
      if (∃ q ∈ moves ds, Far (press.params 0, press.params 1) q) ∧ chosen s i j then
        (dropX s i j (p.1 - press.params 0), dropY s i j (p.2 - press.params 1))
      else place s j := by
    intro j
    have happ := hdragged.apps j
    rw [hlast] at happ
    by_cases hd : t.isDragging = true
    · rw [if_pos hd] at happ
      unfold place
      rw [happ, carried_place hpressed (chosen_active hinv hi)]
      by_cases hj : chosen s i j
      · rw [if_pos hj, if_pos ⟨hfar.mp hd, hj⟩]
      · rw [if_neg hj, if_neg fun h => hj h.2]
        rfl
    · rw [if_neg hd] at happ
      rw [if_neg fun h => hd (hfar.mpr h.1), ← hpressed.place j]
      unfold place
      rw [happ]
  refine ⟨hplace, fun hback j => ?_⟩
  rw [hplace j, hback]
  split
  · rename_i hj
    obtain ⟨hx, hy⟩ := drop_inside (hinv.inside i (findApp_active hi))
      (hinv.inside j (chosen_active hinv hi hj.2))
    rw [Int.sub_self, Int.sub_self, hx, hy]
    rfl
  · rfl

/-- The terminal's icon is dragged by a hundred pixels to the right and two hundred down. -/
theorem drag_ends_terminal : ∃ t, run customUpdateWindow start
    [⟨some (.at .M_MOUSE_DOWN 30 30), true⟩, ⟨some (.at .M_MOUSE_MOVE 130 230), true⟩] = some t ∧
      place t ⟨0, by decide⟩ = (120, 220) := by
  refine ⟨_, rfl, ?_⟩
  have hrun : run customUpdateWindow start [] = some start := rfl
  have hpress : (Message.at .M_MOUSE_DOWN 30 30).msg_type = .M_MOUSE_DOWN := rfl
  have hi : findAppAtPosition start 30 30 = some ⟨0, by decide⟩ := by decide
  have hds : ∀ e ∈ [(⟨some (.at .M_MOUSE_MOVE 130 230), true⟩ : Event)], e.passive := by decide
  have hends := drag_ends true hrun hpress hi hds rfl rfl
  exact (hends.1 _).trans (by decide)

end Gestures

section Boxes

/-- The app meets the box with these corners. -/
def DesktopApp.covered (a : DesktopApp) (p q : ℤ × ℤ) : Bool :=
  isAppInSelectionBox a (min p.1 q.1) (min p.2 q.2) (max p.1 q.1) (max p.2 q.2)

/-- The places are closer than the threshold at which the selection is renewed. -/
def Near (p q : ℤ × ℤ) : Prop :=
  abs_int (p.1 - q.1) < SELECTION_UPDATE_THRESHOLD ∧ abs_int (p.2 - q.2) < SELECTION_UPDATE_THRESHOLD

/-- The selection that is shown for a box from `p`, when the pointer was at the places `ps`. -/
def Shown (s : State) (p : ℤ × ℤ) (ps : List (ℤ × ℤ)) (q : ℤ × ℤ) (t : State) : Prop :=
  (q = p ∧ ∀ j, (t.apps j).isSelected = false) ∨ (q ∈ ps ∧ ∀ j, (t.apps j).isSelected = (s.apps j).covered p q)

/-- A box that was opened at `p` in the state `s`. -/
structure Opened (s : State) (p : ℤ × ℤ) (ps : List (ℤ × ℤ)) (t : State) : Prop where
  inv : Inv t
  isSelecting : t.isSelecting = true
  noDrag : t.draggingApp = none
  start : (t.selectionStartX, t.selectionStartY) = p
  current : (t.selectionCurrentX, t.selectionCurrentY) = ps.getLastD p
  place : ∀ j, place t j = place s j
  active : ∀ j, (t.apps j).isActive = (s.apps j).isActive
  shown : Shown s p ps (t.lastSelectionUpdateX, t.lastSelectionUpdateY) t

/-- The box at the end of a turn of the loop. -/
structure Boxed (s : State) (p : ℤ × ℤ) (ps : List (ℤ × ℤ)) (t : State) : Prop extends Opened s p ps t where
  near : Near (ps.getLastD p) (t.lastSelectionUpdateX, t.lastSelectionUpdateY)

theorem near_refl (p : ℤ × ℤ) : Near p p := by
  unfold Near
  rw [Int.sub_self, Int.sub_self]
  decide

theorem covered_congr {p q : ℤ × ℤ} (hx : a.x = b.x) (hy : a.y = b.y)
    (h : a.isActive = b.isActive) : a.covered p q = b.covered p q := by
  unfold DesktopApp.covered isAppInSelectionBox
  rw [hx, hy, h]

theorem mouseDown_boxed (hs : Inv s) (hnone : findAppAtPosition s mouseX mouseY = none) :
    Boxed s (mouseX, mouseY) [] (mouseDown mouseX mouseY s) := by
  have hinv := hs.mouseDown mouseX mouseY
  unfold mouseDown at hinv ⊢
  rw [hnone] at hinv ⊢
  exact ⟨⟨hinv, rfl, rfl, rfl, rfl, fun _ => rfl, fun _ => rfl, Or.inl ⟨rfl, fun _ => rfl⟩⟩,
    near_refl _⟩

/-- The selection after a call of updateSelection for the box. -/
theorem selectBox_selected (h : Inv t) (j : Fin MAX_APPS) : ((selectBox t).apps j).isSelected =
    (t.apps j).covered (t.selectionStartX, t.selectionStartY) (t.selectionCurrentX,
      t.selectionCurrentY) :=
  boxed_selected (h.hidden j) _ _ _ _

theorem selectBox_place (j : Fin MAX_APPS) :
    place (selectBox t) j = place t j ∧ ((selectBox t).apps j).isActive = (t.apps j).isActive := by
  obtain ⟨hx, hy, hactive⟩ := boxed_place (t.apps j) (min t.selectionStartX t.selectionCurrentX)
    (min t.selectionStartY t.selectionCurrentY) (max t.selectionStartX t.selectionCurrentX)
    (max t.selectionStartY t.selectionCurrentY)
  exact ⟨Prod.ext hx hy, hactive⟩

theorem Opened.selected {p : ℤ × ℤ} {ps : List (ℤ × ℤ)} (h : Opened s p ps t) (j : Fin MAX_APPS) :
    ((selectBox t).apps j).isSelected = (s.apps j).covered p (ps.getLastD p) := by
  obtain ⟨hx, hy⟩ := Prod.ext_iff.mp (h.place j)
  rw [selectBox_selected h.inv, h.start, h.current]
  exact covered_congr hx hy (h.active j)

theorem Opened.renew {p q : ℤ × ℤ} {ps : List (ℤ × ℤ)} (h : Opened s p (ps ++ [q]) t) :
    Boxed s p (ps ++ [q]) (renewSelection q.1 q.2 t) := by
  have hlast : (ps ++ [q]).getLastD p = q := by simp
  have hinv := h.inv.renewSelection q.1 q.2
  unfold renewSelection at hinv ⊢
  by_cases hfar : abs_int (q.1 - t.lastSelectionUpdateX) ≥ SELECTION_UPDATE_THRESHOLD ∨
      abs_int (q.2 - t.lastSelectionUpdateY) ≥ SELECTION_UPDATE_THRESHOLD
  · rw [if_pos hfar] at hinv ⊢
    refine ⟨⟨hinv, h.isSelecting, h.noDrag, h.start, h.current, fun j => ?_, fun j => ?_,
      Or.inr ⟨?_, fun j => ?_⟩⟩, ?_⟩
    · exact (selectBox_place j).1.trans (h.place j)
    · exact (selectBox_place j).2.trans (h.active j)
    · exact List.mem_append_right ps (List.mem_singleton_self q)
    · exact (h.selected j).trans (by rw [hlast])
    · rw [hlast]
      exact near_refl q
  · rw [if_neg hfar] at hinv ⊢
    obtain ⟨hx, hy⟩ := not_or.mp hfar
    refine ⟨h, ?_⟩
    rw [hlast]
    exact ⟨Int.not_le.mp hx, Int.not_le.mp hy⟩

theorem Boxed.move {p : ℤ × ℤ} {ps : List (ℤ × ℤ)} (h : Boxed s p ps t) (q : ℤ × ℤ) :
    Boxed s p (ps ++ [q]) (selectMove q.1 q.2 (dragMove q.1 q.2 t)) := by
  have hlast : (ps ++ [q]).getLastD p = q := by simp
  have hdrag : dragMove q.1 q.2 t = t := by
    unfold dragMove
    rw [if_neg fun hc => hc.1 h.noDrag]
  rw [hdrag, selectMove, if_pos h.isSelecting]
  refine Opened.renew ⟨⟨h.inv.inside, h.inv.hidden, h.inv.count, h.inv.leader, h.inv.dragging⟩,
    h.isSelecting, h.noDrag, h.start, hlast.symm, h.place, h.active, ?_⟩
  rcases h.shown with hnone | ⟨hmem, hsel⟩
  · exact Or.inl hnone
  · exact Or.inr ⟨List.mem_append_left [q] hmem, hsel⟩

theorem Boxed.run {p : ℤ × ℤ} {ps : List (ℤ × ℤ)} {es : List Event} {u : State} (h : Boxed s p ps t)
    (hes : ∀ e ∈ es, e.passive) (hu : run customUpdateWindow t es = some u) :
    Boxed s p (ps ++ moves es) u := by
  induction es generalizing t ps with
  | nil =>
    rw [← Option.some.inj hu, moves, List.filterMap_nil, List.append_nil]
    exact h
  | cons e es ih =>
    obtain ⟨v, hv, hrest⟩ := Option.bind_eq_some_iff.mp hu
    have hlater := fun e' he' => hes e' (List.mem_cons_of_mem e he')
    rcases passive_cases (hes e List.mem_cons_self) hv with ⟨q, hq, rfl⟩ | ⟨hq, paint, rfl⟩
    · have hmoves : ps ++ moves (e :: es) = ps ++ [q] ++ moves es := by
        rw [moves, List.filterMap_cons_some hq, List.append_assoc]
        rfl
      rw [hmoves]
      exact ih (h.move q) hlater hrest
    · have hmoves : moves (e :: es) = moves es := List.filterMap_cons_none hq
      have hv : Boxed s p ps { t with needsRepaint := paint } :=
        ⟨⟨⟨h.inv.inside, h.inv.hidden, h.inv.count, h.inv.leader, h.inv.dragging⟩, h.isSelecting,
          h.noDrag, h.start, h.current, h.place, h.active, h.shown⟩, h.near⟩
      rw [hmoves]
      exact ih hv hlater hrest

/-- A box in any reachable state: what is shown while the button is held is the selection of
the box to a place of the pointer less than three pixels from the last, and when the button is
released the selected apps are those that the box to the last place covers. No app moves. -/
theorem box_selects {es ds : List Event} {press release : Message} {u : State} (forks forks' : Bool)
    (hs : run customUpdateWindow start es = some s) (hpress : press.msg_type = .M_MOUSE_DOWN)
    (hnone : findAppAtPosition s (press.params 0) (press.params 1) = none)
    (hds : ∀ e ∈ ds, e.passive)
    (ht : run customUpdateWindow s (⟨some press, forks⟩ :: ds) = some t)
    (hrelease : release.msg_type = .M_MOUSE_UP)
    (hu : customUpdateWindow t ⟨some release, forks'⟩ = some u) :
    (∀ j, place t j = place s j ∧ place u j = place s j) ∧
    (∃ q, Near ((moves ds).getLastD (press.params 0, press.params 1)) q ∧
      Shown s (press.params 0, press.params 1) (moves ds) q t) ∧
    u.isSelecting = false ∧ ∀ j, (u.apps j).isSelected =
      (s.apps j).covered (press.params 0, press.params 1) ((moves ds).getLastD (press.params 0,
      press.params 1)) := by
  have hinv : Inv s := (always_iff_run start es).mp (always_inv es) es s (List.prefix_refl es) hs
  obtain ⟨d, hd, hrest⟩ := Option.bind_eq_some_iff.mp ht
  have hdown : d = mouseDown (press.params 0) (press.params 1) s := by
    unfold customUpdateWindow at hd
    dsimp only at hd
    rw [hpress] at hd
    exact (Option.some.inj hd).symm
  have hup : u = endSelection (endDrag t) := by
    unfold customUpdateWindow at hu
    dsimp only at hu
    rw [hrelease] at hu
    exact (Option.some.inj hu).symm
  have hboxed := mouseDown_boxed hinv hnone
  rw [← hdown] at hboxed
  have hend := hboxed.run hds hrest
  rw [List.nil_append] at hend
  have hdrag : endDrag t = t := by
    unfold endDrag
    rw [if_neg (not_not_intro hend.noDrag)]
  rw [hdrag, endSelection, if_pos hend.isSelecting] at hup
  subst hup
  refine ⟨fun j => ⟨hend.place j, (selectBox_place j).1.trans (hend.place j)⟩,
    ⟨_, hend.near, hend.shown⟩, rfl, fun j => ?_⟩
  exact hend.selected j

/-- A box over the first two icons. -/
theorem box_selects_two : ∃ t u, run customUpdateWindow start
    [⟨some (.at .M_MOUSE_DOWN 10 10), true⟩, ⟨some (.at .M_MOUSE_MOVE 60 120), true⟩] = some t ∧
      customUpdateWindow t ⟨some (.at .M_MOUSE_UP 60 120), true⟩ = some u ∧
        (u.apps ⟨1, by decide⟩).isSelected = true ∧ (u.apps ⟨2, by decide⟩).isSelected = false := by
  refine ⟨_, _, rfl, rfl, ?_⟩
  have hrun : run customUpdateWindow start [] = some start := rfl
  have hpress : (Message.at .M_MOUSE_DOWN 10 10).msg_type = .M_MOUSE_DOWN := rfl
  have hnone : findAppAtPosition start 10 10 = none := by decide
  have hds : ∀ e ∈ [(⟨some (.at .M_MOUSE_MOVE 60 120), true⟩ : Event)], e.passive := by decide
  have hrelease : (Message.at .M_MOUSE_UP 60 120).msg_type = .M_MOUSE_UP := rfl
  have hselects := box_selects true true hrun hpress hnone hds rfl hrelease rfl
  exact ⟨(hselects.2.2.2 _).trans (by decide), (hselects.2.2.2 _).trans (by decide)⟩

end Boxes

end NorthOS.DesktopApps
