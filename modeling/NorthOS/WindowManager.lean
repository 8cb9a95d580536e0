import Mathlib.Logic.Function.Basic
import NorthOS.IndexList

/-!
The window manager of window_manager.c: the table of windows threaded into a
list, the popup, the message queues, and the handlers of mouse and key messages.
A function returns `none` where the C code indexes windowlist outside its
bounds or panics. Pixels are left out; updateScreen gives the order of painting.
-/
namespace NorthOS.WindowManager

def MAX_WINDOW_CNT : ℕ := 50
def MSG_BUF_SIZE : ℕ := 50
def MAX_TITLE_LEN : ℕ := 50
def TITLE_HEIGHT : ℤ := 28
def DOCK_HEIGHT : ℤ := 36
def DOCK_PROGRAM_NORMAL_WIDTH : ℤ := 160
def START_ICON_WIDTH : ℤ := 72
def SHOW_DESKTOP_ICON_WIDTH : ℤ := 10
def MOUSE_SPEED_X : ℤ := 1
def MOUSE_SPEED_Y : ℤ := -1

inductive MsgType
  | M_KEY_UP | M_KEY_DOWN
  | M_MOUSE_MOVE | M_MOUSE_DOWN | M_MOUSE_UP
  | M_MOUSE_LEFT_CLICK | M_MOUSE_RIGHT_CLICK | M_MOUSE_DBCLICK
  | WM_WINDOW_CLOSE | WM_WINDOW_MINIMIZE | WM_WINDOW_MAXIMIZE
  | WM_POPUP_WINDOW_OPEN | WM_POPUP_WINDOW_CLOSE
  deriving DecidableEq, Repr

/-- Parameters the sender leaves unset are 0 here. -/
structure Message where
  msg_type : MsgType
  params : ℕ → ℤ

def Message.plain (t : MsgType) : Message := ⟨t, fun _ => 0⟩

def Message.at (t : MsgType) (x y : ℤ) : Message :=
  ⟨t, fun i => if i = 0 then x else if i = 1 then y else 0⟩

structure WinRect where
  xmin : ℤ
  xmax : ℤ
  ymin : ℤ
  ymax : ℤ
  deriving DecidableEq, Repr

def isInRect (xmin ymin xmax ymax x y : ℤ) : Bool :=
  decide (x ≥ xmin ∧ x ≤ xmax ∧ y ≥ ymin ∧ y ≤ ymax)

def moveRect (rect : WinRect) (dx dy : ℤ) : WinRect :=
  ⟨rect.xmin + dx, rect.xmax + dx, rect.ymin + dy, rect.ymax + dy⟩

structure MsgBuf where
  data : ℕ → Message
  front : ℕ
  rear : ℕ
  cnt : ℕ

def initMessageQueue (buf : MsgBuf) : MsgBuf := { buf with front := 0, rear := 0, cnt := 0 }

/-- A full queue drops the message. -/
def dispatchMessage (buf : MsgBuf) (msg : Message) : MsgBuf :=
  if MSG_BUF_SIZE ≤ buf.cnt then buf
  else
    { buf with
      cnt := buf.cnt + 1
      data := Function.update buf.data buf.rear msg
      rear := if MSG_BUF_SIZE ≤ buf.rear + 1 then 0 else buf.rear + 1 }

def getMessage (buf : MsgBuf) : Option (Message × MsgBuf) :=
  if buf.cnt = 0 then none
  else some (buf.data buf.front,
    { buf with front := (buf.front + 1) % MSG_BUF_SIZE, cnt := buf.cnt - 1 })

structure KernelWindow where
  position : WinRect
  window_buf : ℕ
  msg_buf : MsgBuf
  title : List UInt8
  minimized : Bool
  hasTitleBar : Bool

/-- An entry of windowlist; `proc` names the process that created the window. -/
structure WindowSlot where
  proc : ℕ
  wnd : KernelWindow
  next : ℤ
  prev : ℤ

structure PopupWindow where
  proc : ℕ
  wnd : KernelWindow
  caller : ℤ

structure State where
  windowlist : ℤ → WindowSlot
  windowlisthead : ℤ
  windowlisttail : ℤ
  desktopId : ℤ
  popupwindow : PopupWindow
  mouseShape : ℕ
  clickedOnTitle : Bool
  clickedOnContent : Bool
  clickedOnPopup : Bool
  wm_mouse_pos : ℤ × ℤ
  wm_last_mouse_pos : ℤ × ℤ
  SCREEN_WIDTH : ℤ
  SCREEN_HEIGHT : ℤ

/-- The fields of the client's window struct that the kernel reads; handler is the
one it writes. -/
structure Window where
  initialPosition : WinRect
  hasTitleBar : Bool
  window_buf : ℕ
  width : ℤ
  height : ℤ
  handler : ℤ

/-- One more than the number of slots: a loop that is still running then has come
back to a window it visited before. -/
def loopFuel : ℕ := MAX_WINDOW_CNT + 1

namespace State

def next (s : State) (i : ℤ) : ℤ := (s.windowlist i).next

def prev (s : State) (i : ℤ) : ℤ := (s.windowlist i).prev

/-- `windowlist[i]`, defined inside the array only. -/
def slot (s : State) (i : ℤ) : Option WindowSlot :=
  if 0 ≤ i ∧ i < MAX_WINDOW_CNT then some (s.windowlist i) else none

def setSlot (s : State) (i : ℤ) (f : WindowSlot → WindowSlot) : Option State :=
  if 0 ≤ i ∧ i < MAX_WINDOW_CNT then
    some { s with windowlist := Function.update s.windowlist i (f (s.windowlist i)) }
  else none

def setWnd (s : State) (i : ℤ) (f : KernelWindow → KernelWindow) : Option State :=
  s.setSlot i fun w => { w with wnd := f w.wnd }

/-- `dispatchMessage(&windowlist[i].wnd.msg_buf, msg)` -/
def dispatchTo (s : State) (i : ℤ) (msg : Message) : Option State :=
  s.setWnd i fun w => { w with msg_buf := dispatchMessage w.msg_buf msg }

/-- `dispatchMessage(&popupwindow.wnd.msg_buf, msg)` -/
def dispatchPopup (s : State) (msg : Message) : State :=
  { s with popupwindow :=
      { s.popupwindow with wnd :=
          { s.popupwindow.wnd with msg_buf := dispatchMessage s.popupwindow.wnd.msg_buf msg } } }

/-- The pointer position relative to `windowlist[i]`. -/
def forward (s : State) (i : ℤ) (t : MsgType) : Option State := do
  let w ← s.slot i
  s.dispatchTo i (.at t (s.wm_mouse_pos.1 - w.wnd.position.xmin)
    (s.wm_mouse_pos.2 - w.wnd.position.ymin))

/-- The pointer position relative to the popup. -/
def popupMessage (s : State) (t : MsgType) : Message :=
  .at t (s.wm_mouse_pos.1 - s.popupwindow.wnd.position.xmin)
    (s.wm_mouse_pos.2 - s.popupwindow.wnd.position.ymin)

/-- -1 when every slot is in use. -/
def findNextAvailableWindowId (s : State) : ℤ :=
  match (List.range MAX_WINDOW_CNT).find? fun i : ℕ => s.prev i = i ∧ s.next i = i with
  | some i => (i : ℤ)
  | none => -1

def addToWindowList (s : State) (idx : ℤ) : Option State := do
  let s ← s.setSlot idx fun w => { w with prev := s.windowlisttail, next := -1 }
  let s ← (if s.windowlisttail ≠ -1 then
      s.setSlot s.windowlisttail fun w => { w with next := idx }
    else some s)
  some { s with windowlisttail := idx }

def removeFromWindowList (s : State) (idx : ℤ) : Option State := do
  let s ← (if s.windowlisttail = idx then do
      let w ← s.slot s.windowlisttail
      some { s with windowlisttail := w.prev }
    else some s)
  let w ← s.slot idx
  let s ← (if w.prev ≠ -1 then s.setSlot w.prev fun p => { p with next := w.next } else some s)
  let w ← s.slot idx
  if w.next ≠ -1 then s.setSlot w.next fun p => { p with prev := w.prev } else some s

def focusWindow (s : State) (winId : ℤ) : Option State :=
  if winId = -1 ∨ winId = s.windowlisttail then some s
  else if winId = s.windowlisthead then do
    let w ← s.slot winId
    let s ← s.setSlot w.next fun p => { p with prev := -1 }
    addToWindowList { s with windowlisthead := w.next } winId
  else do
    let w ← s.slot winId
    let s ← s.setSlot w.prev fun p => { p with next := w.next }
    let s ← s.setSlot w.next fun p => { p with prev := w.prev }
    s.addToWindowList winId

def moveFocusWindow (s : State) (dx dy : ℤ) : Option State := do
  let w ← s.slot s.windowlisttail
  if w.wnd.hasTitleBar then
    s.setWnd s.windowlisttail fun k => { k with position := moveRect k.position dx dy }
  else some s

def getWindowCount (s : State) : Option ℕ :=
  (IndexList.walk s.next loopFuel s.windowlisthead).map fun visited =>
    (visited.filter (· ≠ s.desktopId)).length

/-- The first loop of handleDesktopDockClick: the window whose dock cell contains
`mouse_x`, or -1. -/
def dockWindow (s : State) (mouse_x barWidth : ℤ) : ℕ → ℤ → ℤ → Option ℤ
  | 0, _, _ => none
  | fuel + 1, xStart, p =>
    if p = -1 then some (-1)
    else if p ≠ s.desktopId then
      if mouse_x > xStart + 1 ∧ mouse_x ≤ xStart + barWidth - 1 then some p
      else s.dockWindow mouse_x barWidth fuel (xStart + barWidth) (s.next p)
    else s.dockWindow mouse_x barWidth fuel xStart (s.next p)

/-- The show-desktop loop: every window that is not minimized is asked to be. -/
def minimizeAll (s : State) : List ℤ → Option State
  | [] => some s
  | p :: rest => do
    let w ← s.slot p
    let s ← (if p ≠ s.desktopId ∧ w.wnd.minimized = false then
        s.dispatchTo p (.plain .WM_WINDOW_MINIMIZE)
      else some s)
    s.minimizeAll rest

def handleDesktopDockClick (s : State) (mouse_x : ℤ) (msg : Message) : Option State := do
  let windowCount ← s.getWindowCount
  let s ← (if 0 < windowCount then do
      let barWidth := min ((s.SCREEN_WIDTH - START_ICON_WIDTH - SHOW_DESKTOP_ICON_WIDTH).tdiv
        (windowCount + 1)) DOCK_PROGRAM_NORMAL_WIDTH
      let p ← s.dockWindow mouse_x barWidth loopFuel (START_ICON_WIDTH + 5) s.windowlisthead
      if p = -1 then some s
      else do
        let w ← s.slot p
        if w.wnd.minimized then s.dispatchTo p (.plain .WM_WINDOW_MAXIMIZE)
        else s.focusWindow p
    else some s)
  let s ← (if mouse_x ≥ s.SCREEN_WIDTH - SHOW_DESKTOP_ICON_WIDTH then do
      let visited ← IndexList.walk s.next loopFuel s.windowlisthead
      s.minimizeAll visited
    else some s)
  if mouse_x ≤ START_ICON_WIDTH ∧ msg.msg_type = .M_MOUSE_LEFT_CLICK ∧
      s.popupwindow.caller ≠ s.desktopId then
    s.dispatchTo s.desktopId (.at msg.msg_type s.wm_mouse_pos.1 s.wm_mouse_pos.2)
  else some s

def clampMouse (s : State) : State :=
  let x := if s.wm_mouse_pos.1 > s.SCREEN_WIDTH then s.SCREEN_WIDTH else s.wm_mouse_pos.1
  let y := if s.wm_mouse_pos.2 > s.SCREEN_HEIGHT then s.SCREEN_HEIGHT else s.wm_mouse_pos.2
  { s with wm_mouse_pos := (if x < 0 then 0 else x, if y < 0 then 0 else y) }

/-- The pointer part of M_MOUSE_MOVE; its second inner test reads params[0] against
the height. -/
def movePointer (s : State) (msg : Message) : State :=
  if msg.params 0 > -s.SCREEN_WIDTH ∧ msg.params 0 < s.SCREEN_WIDTH ∧
      msg.params 1 > -s.SCREEN_HEIGHT ∧ msg.params 0 < s.SCREEN_HEIGHT then
    clampMouse { s with
      wm_last_mouse_pos := s.wm_mouse_pos
      wm_mouse_pos := (s.wm_mouse_pos.1 + msg.params 0 * MOUSE_SPEED_X,
        s.wm_mouse_pos.2 + msg.params 1 * MOUSE_SPEED_Y) }
  else clampMouse { s with wm_last_mouse_pos := s.wm_mouse_pos }

def mouseMove (s : State) (msg : Message) : Option State :=
  let s := s.movePointer msg
  if s.clickedOnTitle then
    State.moveFocusWindow { s with mouseShape := 1 }
      (s.wm_mouse_pos.1 - s.wm_last_mouse_pos.1) (s.wm_mouse_pos.2 - s.wm_last_mouse_pos.2)
  else if s.clickedOnContent then s.forward s.windowlisttail msg.msg_type
  else some s

/-- The test of the focus loop: a visible window under the pointer, its title bar
strip included. -/
def hit (s : State) (p : ℤ) : Bool :=
  decide (p ≠ s.desktopId) && !(s.windowlist p).wnd.minimized &&
    isInRect (s.windowlist p).wnd.position.xmin
      ((s.windowlist p).wnd.position.ymin - TITLE_HEIGHT)
      (s.windowlist p).wnd.position.xmax (s.windowlist p).wnd.position.ymax
      s.wm_mouse_pos.1 s.wm_mouse_pos.2

/-- The part of M_MOUSE_DOWN that looks at the focused window's title bar. -/
def pressTitle (s : State) : Option State := do
  let w ← s.slot s.windowlisttail
  let r := w.wnd.position
  let x := s.wm_mouse_pos.1
  if isInRect r.xmin (r.ymin - TITLE_HEIGHT) r.xmax r.ymin x s.wm_mouse_pos.2 then
    if x + 30 > r.xmax then s.dispatchTo s.windowlisttail (.plain .WM_WINDOW_CLOSE)
    else if x + 60 > r.xmax ∧ x + 30 ≤ r.xmax then
      s.dispatchTo s.windowlisttail (.plain .WM_WINDOW_MINIMIZE)
    else some { s with clickedOnTitle := true }
  else some s

/-- The part of M_MOUSE_DOWN that looks at its content; the message it forwards is
relative to the popup. -/
def pressContent (s : State) (msg : Message) : Option State := do
  let w ← s.slot s.windowlisttail
  let r := w.wnd.position
  if isInRect r.xmin r.ymin r.xmax r.ymax s.wm_mouse_pos.1 s.wm_mouse_pos.2 then
    State.dispatchTo { s with clickedOnContent := true } s.windowlisttail
      (s.popupMessage msg.msg_type)
  else some s

def mouseDown (s : State) (msg : Message) : Option State :=
  let r := s.popupwindow.wnd.position
  if s.popupwindow.caller ≠ -1 ∧
      isInRect r.xmin r.ymin r.xmax r.ymax s.wm_mouse_pos.1 s.wm_mouse_pos.2 then
    some { s with clickedOnPopup := true }
  else do
    let s := s.dispatchPopup (.plain .WM_WINDOW_CLOSE)
    let p ← IndexList.search s.prev s.hit loopFuel s.windowlisttail
    let s ← (if p = -1 then s.focusWindow s.desktopId else s.focusWindow p)
    let s ← s.pressTitle
    s.pressContent msg

def mouseUp (s : State) (msg : Message) : Option State := do
  let s := { s with clickedOnPopup := false }
  let s ← (if s.clickedOnContent then
      State.forward { s with clickedOnContent := false } s.windowlisttail msg.msg_type
    else some s)
  some { s with clickedOnTitle := false, mouseShape := 0 }

/-- The click cases, which fall through to M_MOUSE_UP unless they forwarded the
click to the focused window. -/
def mouseClick (s : State) (msg : Message) : Option State :=
  if s.clickedOnPopup then
    (State.dispatchPopup { s with clickedOnPopup := false } (s.popupMessage msg.msg_type)).mouseUp
      msg
  else if s.clickedOnContent then
    let s := { s with clickedOnContent := false }
    if s.windowlisttail = s.desktopId ∧
        s.wm_mouse_pos.2 ≥ s.SCREEN_HEIGHT - DOCK_HEIGHT ∧
        s.wm_mouse_pos.2 ≤ s.SCREEN_HEIGHT then do
      let s ← s.handleDesktopDockClick s.wm_mouse_pos.1 msg
      s.mouseUp msg
    else s.forward s.windowlisttail msg.msg_type
  else s.mouseUp msg

def wmHandleMessage (s : State) (msg : Message) : Option State :=
  match msg.msg_type with
  | .M_MOUSE_MOVE => s.mouseMove msg
  | .M_MOUSE_DOWN => s.mouseDown msg
  | .M_MOUSE_LEFT_CLICK => s.mouseClick msg
  | .M_MOUSE_RIGHT_CLICK => s.mouseClick msg
  | .M_MOUSE_DBCLICK => s.mouseClick msg
  | .M_MOUSE_UP => s.mouseUp msg
  | .M_KEY_DOWN => s.dispatchTo s.windowlisttail msg
  | .M_KEY_UP => s.dispatchTo s.windowlisttail msg
  | _ => some s

/-- The windows updateScreen paints, in order; a caller that does not own the
desktop is a panic. -/
def updateScreen (s : State) (myproc : ℕ) : Option (List ℤ) := do
  let d ← s.slot s.desktopId
  if myproc ≠ d.proc then none
  else do
    let visited ← IndexList.walk s.next loopFuel s.windowlisthead
    some (s.desktopId :: visited.filter fun p =>
      p ≠ s.desktopId ∧ (s.windowlist p).wnd.minimized = false)

/-- Where createWindow and createPopupWindow accept the client's position. -/
def fitsScreen (s : State) (w : Window) : Bool :=
  decide (w.initialPosition.xmin ≥ 0 ∧ w.initialPosition.xmax ≤ s.SCREEN_WIDTH ∧
    w.initialPosition.ymin ≥ 0 ∧ w.initialPosition.ymax ≤ s.SCREEN_HEIGHT ∧
    w.initialPosition.xmax - w.initialPosition.xmin = w.width ∧
    w.initialPosition.ymax - w.initialPosition.ymin = w.height)

def centered (s : State) (w : Window) : WinRect where
  xmin := s.SCREEN_WIDTH.tdiv 2 - w.width.tdiv 2
  ymin := s.SCREEN_HEIGHT.tdiv 2 - w.height.tdiv 2
  xmax := s.SCREEN_WIDTH.tdiv 2 + w.width.tdiv 2
  ymax := s.SCREEN_HEIGHT.tdiv 2 + w.height.tdiv 2

/-- Returns the client's struct with its handler set and the result of the call. -/
def createWindow (s : State) (myproc : ℕ) (window : Window) (title : List UInt8) :
    Option (State × Window × ℤ) :=
  let winId := s.findNextAvailableWindowId
  if winId = -1 then some (s, window, 1)
  else do
    let s := if s.windowlisthead = -1 then { s with windowlisthead := winId } else s
    let s ← s.addToWindowList winId
    let s := if s.desktopId = -1 then { s with desktopId := winId } else s
    let s ← s.setSlot winId fun w =>
      { w with
        proc := myproc
        wnd :=
          { position := if s.fitsScreen window then window.initialPosition else s.centered window
            window_buf := window.window_buf
            msg_buf := initMessageQueue w.wnd.msg_buf
            title := title.take (MAX_TITLE_LEN - 1)
            minimized := false
            hasTitleBar := window.hasTitleBar } }
    some (s, { window with handler := winId }, 0)

def createPopupWindow (s : State) (myproc : ℕ) (window : Window) (caller : ℤ) :
    State × Window × ℤ :=
  if s.popupwindow.caller ≠ -1 then (s, window, 1)
  else
    let k := s.popupwindow.wnd
    ({ s with popupwindow :=
        { proc := myproc
          caller := caller
          wnd := { k with
            position := if s.fitsScreen window then window.initialPosition else k.position
            window_buf := window.window_buf
            minimized := false
            hasTitleBar := window.hasTitleBar
            msg_buf := initMessageQueue k.msg_buf } } },
      { window with handler := caller }, 0)

def closePopupWindow (s : State) (window : Window) : State × Window × ℤ :=
  let k := s.popupwindow.wnd
  ({ s with popupwindow :=
      { s.popupwindow with
        caller := -1
        wnd := { k with msg_buf := initMessageQueue k.msg_buf, title := [] } } },
    { window with handler := -1 }, 0)

def closeWindow (s : State) (window : Window) : Option (State × Window × ℤ) := do
  let winId := window.handler
  let s ← s.removeFromWindowList winId
  let s ← s.setSlot winId fun w =>
    { w with
      prev := winId
      next := winId
      wnd := { w.wnd with msg_buf := initMessageQueue w.wnd.msg_buf, title := [] } }
  let s ← (if winId = s.windowlisttail then do
      let w ← s.slot winId
      s.focusWindow w.prev
    else some s)
  some (s, { window with handler := -1 }, 0)

def minimizeWindow (s : State) (window : Window) : Option State := do
  let winId := window.handler
  let s ← s.setWnd winId fun k => { k with minimized := true }
  if winId = s.windowlisttail then do
    let w ← s.slot winId
    s.focusWindow w.prev
  else some s

def maximizeWindow (s : State) (window : Window) : Option State := do
  let winId := window.handler
  let s ← s.setWnd winId fun k => { k with minimized := false }
  s.focusWindow winId

/-- The loop of turnoffScreen over the windows it visits. -/
def closeAll (s : State) : List ℤ → Option State
  | [] => some s
  | p :: rest => do
    let s ← s.dispatchTo p (.plain .WM_WINDOW_CLOSE)
    s.closeAll rest

def turnoffScreen (s : State) : Option State := do
  let visited ← IndexList.walk s.next loopFuel s.windowlisthead
  s.closeAll visited

end State

/-- wmInit on any earlier contents of the tables. The screen size comes from the boot
loader, and desktopId is -1 from its initializer. -/
def wmInit (table : ℤ → WindowSlot) (popup : PopupWindow) (width height : ℤ) : State where
  windowlist := fun i => { table i with next := i, prev := i }
  windowlisthead := -1
  windowlisttail := -1
  desktopId := -1
  popupwindow := { popup with caller := -1 }
  mouseShape := 0
  clickedOnTitle := false
  clickedOnContent := false
  clickedOnPopup := false
  wm_mouse_pos := (width.tdiv 2, height.tdiv 2)
  wm_last_mouse_pos := (width.tdiv 2, height.tdiv 2)
  SCREEN_WIDTH := width
  SCREEN_HEIGHT := height

end NorthOS.WindowManager
