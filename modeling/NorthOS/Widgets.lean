import NorthOS.WindowManager

/-!
The widgets of a window of user_window.c: the table of widgets threaded into a list, what
adds and removes widgets, and which widget's handler a message goes to. The state also
remembers the widgets that were added and not removed, in that order, it numbers the
contexts, and it notes for each call of a handler whether the widget was in the list and
its context freed. What the widgets show is left out.
-/
namespace NorthOS.Widgets

open WindowManager (Message MsgType WinRect isInRect)

def MAX_WIDGET_SIZE : ℕ := 50

inductive WidgetType
  | TEXT | INPUTFIELD | BUTTON | ICON | COLORFILL | SHAPE | IMAGE
  deriving DecidableEq, Repr

/-- A widget without its links. -/
structure Widget where
  context : ℕ
  type : WidgetType
  position : WinRect
  scrollable : Bool

/-- A call of the handler of widget `p`. -/
structure Call where
  p : ℤ
  listed : Bool
  freed : Bool
  deriving DecidableEq

/-- The maps stand for the fields of `win->widgets`, and outside of its bounds for what
memory holds there. -/
structure Window where
  scrollOffsetX : ℤ
  scrollOffsetY : ℤ
  widgets : ℤ → Widget
  next : ℤ → ℤ
  prev : ℤ → ℤ
  widgetlisthead : ℤ
  widgetlisttail : ℤ
  keyfocus : ℤ
  live : List ℤ
  mallocs : ℕ
  frees : List ℕ
  calls : List Call

/-- Indices of the table. -/
def InTable (i : ℤ) : Prop := 0 ≤ i ∧ i < (MAX_WIDGET_SIZE : ℤ)

instance (i : ℤ) : Decidable (InTable i) := by
  unfold InTable
  infer_instance

/-- More turns than a list of widgets has. -/
def loopFuel : ℕ := MAX_WIDGET_SIZE + 1

namespace Window

section Lists

/-- The part of createWindow and createPopupWindow that empties the list. -/
def emptyList (win : Window) : Window :=
  { win with
    widgetlisthead := -1
    widgetlisttail := -1
    next := fun i => if InTable i then i else win.next i
    prev := fun i => if InTable i then i else win.prev i
    scrollOffsetX := 0
    scrollOffsetY := 0
    live := []
    frees := []
    calls := [] }

/-- Once the buffer has been allocated. -/
def createWindow (win : Window) : Window := { win.emptyList with keyfocus := -1 }

/-- keyfocus stays as it is. -/
def createPopupWindow (win : Window) : Window := win.emptyList

def findNextAvailable (win : Window) : ℤ :=
  (((List.range MAX_WIDGET_SIZE).map fun i : ℕ => (i : ℤ)).find? fun i =>
    win.prev i = i ∧ win.next i = i).getD (-1)

def addToWidgetListTail (win : Window) (idx : ℤ) : Window :=
  let prev := Function.update win.prev idx win.widgetlisttail
  let next := Function.update win.next idx (-1)
  let next := if win.widgetlisttail ≠ -1 then Function.update next win.widgetlisttail idx else next
  { win with prev := prev, next := next, widgetlisttail := idx, live := win.live ++ [idx] }

def removeFromWidgetList (win : Window) (idx : ℤ) : Window :=
  let head := if win.widgetlisthead = idx then win.next win.widgetlisttail else win.widgetlisthead
  let tail := if win.widgetlisttail = idx then win.prev win.widgetlisttail else win.widgetlisttail
  let next := if win.prev idx ≠ -1 then Function.update win.next (win.prev idx) (win.next idx) else win.next
  let prev := if next idx ≠ -1 then Function.update win.prev (next idx) (win.prev idx) else win.prev
  { win with
    widgetlisthead := head
    widgetlisttail := tail
    next := Function.update next idx idx
    prev := Function.update prev idx idx
    live := win.live.erase idx }

/-- The index of the new widget, or -1. -/
def addWidget (win : Window) : Window × ℤ :=
  let widgetId := win.findNextAvailable
  if widgetId = -1 then (win, -1)
  else
    let win := if win.widgetlisthead = -1 then { win with widgetlisthead := widgetId } else win
    (win.addToWidgetListTail widgetId, widgetId)

/-- Only these contexts are freed. -/
def freeWidget (win : Window) (index : ℤ) : Window :=
  match (win.widgets index).type with
  | .COLORFILL | .BUTTON | .TEXT | .INPUTFIELD =>
    { win with frees := (win.widgets index).context :: win.frees }
  | _ => win

def removeWidget (win : Window) (index : ℤ) : Window :=
  if win.prev index = index ∧ win.next index = index then win
  else (win.freeWidget index).removeFromWidgetList index

end Lists

section Adding

/-- What the functions that add a widget have in common: the context is the next one that
malloc returns. -/
def addTyped (win : Window) (type : WidgetType) (x y w h : ℤ) (scrollable : Bool) : Window × ℤ :=
  let r := win.addWidget
  if r.2 = -1 then (win, -1)
  else
    ({ r.1 with
      mallocs := r.1.mallocs + 1
      widgets := Function.update r.1.widgets r.2 ⟨r.1.mallocs, type, ⟨x, x + w, y, y + h⟩, scrollable⟩ }, r.2)

def addRectangleWidget (win : Window) : ℤ → ℤ → ℤ → ℤ → Bool → Window × ℤ := win.addTyped .SHAPE

def addColorFillWidget (win : Window) : ℤ → ℤ → ℤ → ℤ → Bool → Window × ℤ := win.addTyped .COLORFILL

def addButtonWidget (win : Window) : ℤ → ℤ → ℤ → ℤ → Bool → Window × ℤ := win.addTyped .BUTTON

def addTextWidget (win : Window) : ℤ → ℤ → ℤ → ℤ → Bool → Window × ℤ := win.addTyped .TEXT

/-- The new field gets the focus. -/
def addInputFieldWidget (win : Window) (x y w h : ℤ) (scrollable : Bool) : Window × ℤ :=
  let r := win.addTyped .INPUTFIELD x y w h scrollable
  if r.2 = -1 then r else ({ r.1 with keyfocus := r.2 }, r.2)

/-- A call that adds a widget, or removeWidget. -/
inductive Op
  | addRectangle (x y w h : ℤ) (scrollable : Bool)
  | addColorFill (x y w h : ℤ) (scrollable : Bool)
  | addButton (x y w h : ℤ) (scrollable : Bool)
  | addText (x y w h : ℤ) (scrollable : Bool)
  | addInputField (x y w h : ℤ) (scrollable : Bool)
  | remove (index : ℤ)

/-- An index outside of the table is no argument of removeWidget. -/
def exec (win : Window) : Op → Option Window
  | .addRectangle x y w h scrollable => some (win.addRectangleWidget x y w h scrollable).1
  | .addColorFill x y w h scrollable => some (win.addColorFillWidget x y w h scrollable).1
  | .addButton x y w h scrollable => some (win.addButtonWidget x y w h scrollable).1
  | .addText x y w h scrollable => some (win.addTextWidget x y w h scrollable).1
  | .addInputField x y w h scrollable => some (win.addInputFieldWidget x y w h scrollable).1
  | .remove index => if InTable index then some (win.removeWidget index) else none

end Adding

section Messages

/-- The handler of widget `p` is called. -/
def call (win : Window) (p : ℤ) : Window :=
  { win with calls := win.calls ++
      [⟨p, decide (p ∈ win.live), decide ((win.widgets p).context ∈ win.frees)⟩] }

/-- The test of updateWindow for a widget under the mouse. -/
def hit (win : Window) (mouse_x mouse_y : ℤ) (p : ℤ) : Bool :=
  let r := (win.widgets p).position
  if (win.widgets p).scrollable then
    isInRect (r.xmin - win.scrollOffsetX) (r.ymin - win.scrollOffsetY) (r.xmax - win.scrollOffsetX)
      (r.ymax - win.scrollOffsetY) mouse_x mouse_y
  else isInRect r.xmin r.ymin r.xmax r.ymax mouse_x mouse_y

/-- The test of updatePopupWindow. -/
def hitPopup (win : Window) (mouse_x mouse_y : ℤ) (p : ℤ) : Bool :=
  let r := (win.widgets p).position
  isInRect r.xmin r.ymin r.xmax r.ymax mouse_x mouse_y

end Messages

end Window

/-- What the application is doing: its own code, a handler called for a key or for the
mouse, or nothing any more. -/
inductive Doing
  | own
  | key
  | mouse (p : ℤ)
  | closed
  deriving DecidableEq

structure App where
  popup : Bool
  win : Window
  doing : Doing

inductive Act
  | op (o : Window.Op)
  | scroll (x y : ℤ)
  | message (msg : Message)
  | ret

namespace App

def isKey (msg : Message) : Bool :=
  decide (msg.msg_type = .M_KEY_DOWN ∨ msg.msg_type = .M_KEY_UP)

/-- The loop over the widgets from the tail, which stops at the first one that is hit. -/
def callHit (s : App) (hit : ℤ → Bool) : Option App :=
  (IndexList.search s.win.prev hit loopFuel s.win.widgetlisttail).map fun p =>
    if p = -1 then s else { s with win := s.win.call p, doing := .mouse p }

/-- updateWindow up to the call of a handler; closeWindow frees all and exits. -/
def updateWindow (s : App) (msg : Message) : Option App :=
  match msg.msg_type with
  | .WM_WINDOW_CLOSE => some { s with doing := .closed }
  | .WM_WINDOW_MINIMIZE => some s
  | .WM_WINDOW_MAXIMIZE => some s
  | _ =>
    if s.win.keyfocus ≠ -1 ∧ isKey msg then
      some { s with win := s.win.call s.win.keyfocus, doing := .key }
    else s.callHit (s.win.hit (msg.params 0) (msg.params 1))

def updatePopupWindow (s : App) (msg : Message) : Option App :=
  match msg.msg_type with
  | .WM_WINDOW_CLOSE => some { s with doing := .closed }
  | _ =>
    if isKey msg then some { s with win := s.win.call s.win.keyfocus, doing := .key }
    else s.callHit (s.win.hitPopup (msg.params 0) (msg.params 1))

/-- What follows the handler of a widget under the mouse. -/
def afterMouse (s : App) (p : ℤ) : App :=
  if (s.win.widgets p).type = .INPUTFIELD then
    { s with win := { s.win with keyfocus := p }, doing := .own }
  else { s with doing := .own }

/-- Handlers add, remove and scroll like the application's own code. -/
def step (s : App) : Act → Option App
  | .op o => if s.doing = .closed then none else (s.win.exec o).map fun w => { s with win := w }
  | .scroll x y =>
    if s.doing = .closed then none
    else some { s with win := { s.win with scrollOffsetX := x, scrollOffsetY := y } }
  | .message msg =>
    if s.doing ≠ .own then none
    else if s.popup then s.updatePopupWindow msg else s.updateWindow msg
  | .ret =>
    match s.doing with
    | .key => some { s with doing := .own }
    | .mouse p => some (s.afterMouse p)
    | _ => none

end App

end NorthOS.Widgets
