import NorthOS.Navigation
import NorthOS.Widgets

/-!
The window of the explorer: the items of the directory that is shown, the text widgets that
show them, the selected item, and the handlers. The file system is what its calls answer. A
string is the list of its characters, and the texts of the widgets are kept by their indices.
The state also remembers the directory that was listed last and what Delete and Rename act on.
-/
namespace NorthOS.Explorer

open WindowManager (Message MsgType)
open Widgets (Window InTable MAX_WIDGET_SIZE loopFuel)
open TextCopies (MAX_SHORT_STRLEN MAX_LONG_STRLEN)
open Navigation (slash beforeSlash)

def chars (s : String) : List ℤ := s.toList.map fun c => (c.toNat : ℤ)

def DIRSIZ : ℕ := 14

def KEY_UP : ℤ := 0xE2
def KEY_DN : ℤ := 0xE3
def newline : ℤ := 10
def dot : ℤ := 46
def space : ℤ := 32

def width : ℤ := 680
def height : ℤ := 480
def TOPBAR_HEIGHT : ℤ := 40
def STATUSBAR_HEIGHT : ℤ := 24
def ITEM_HEIGHT : ℤ := 24
def ITEM_PADDING : ℤ := 4
def CONTENT_PADDING : ℤ := 8

section Names

/-- What is behind the last '.', and the whole name where there is none. -/
def getFileExtension (filename : List ℤ) : List ℤ :=
  (filename.reverse.takeWhile (· ≠ dot)).reverse

def hasCapital (filename : List ℤ) : Bool := filename.any fun c => decide (65 ≤ c ∧ c ≤ 90)

def isExecutable (filename : List ℤ) : Bool :=
  if filename ∈ ["terminal", "editor", "explorer", "floppybird", "calculator"].map chars then true
  else if getFileExtension filename = [] then !hasCapital filename
  else decide (getFileExtension filename ∉
    ["txt", "md", "json", "xml", "yaml", "yml", "ini", "conf", "csv", "log",
      "html", "htm", "css", "js", "ts", "jsx", "tsx", "php", "asp", "jsp",
      "c", "cpp", "h", "hpp", "cc", "hh", "cxx", "s", "asm",
      "java", "kt", "kts", "groovy", "scala",
      "py", "rb", "pl", "sh", "bat", "ps1", "lua", "r", "dart",
      "go", "rs", "swift", "sql", "toml", "lock"].map chars)

def shouldShowFile (filename : List ℤ) : Bool :=
  decide (filename ∉ [".", "..", "kernel", "initcode", "init", "cat", "echo", "grep", "kill", "ln",
    "ls", "mkdir", "rm", "sh", "wc", "usertests", "forktest", "desktop"].map chars)

def isProtected (name : List ℤ) : Bool :=
  decide (name ∈ ["editor", "explorer", "terminal", "floppybird", ".", "..", "kernel", "initcode",
    "init", "cat", "echo", "grep", "kill", "ln", "ls", "mkdir", "rm", "sh", "wc", "stressfs",
    "usertests", "zombie", "forktest"].map chars)

/-- The last component of a path. -/
def fmtname (path : List ℤ) : List ℤ := (path.reverse.takeWhile (· ≠ slash)).reverse

/-- The static buffer that is answered, given what it held before. -/
def getParentPath (path buf : List ℤ) : List ℤ :=
  let buf := if slash ∈ path then beforeSlash path else buf
  if buf = [] then [slash] else buf

/-- The path of an entry of a directory. -/
def entryPath (dir name : List ℤ) : List ℤ := if dir = [] then name else dir ++ slash :: name

end Names

section States

inductive FileType
  | T_DIR | T_FILE | T_DEV
  deriving DecidableEq, Repr

structure Dirent where
  inum : ℕ
  name : List ℤ

/-- `opened` is the type that open and fstat find at a path, where both succeed. -/
structure FileSystem where
  opened : List ℤ → Option FileType
  entries : List ℤ → List Dirent
  stat : List ℤ → Option FileType

structure FileItem where
  name : List ℤ
  is_dir : Bool
  widget_id : ℤ
  y_pos : ℤ

inductive Handler
  | emptyHandler | handleBack | handleHome | handleNewFolder | handleNewFile | handleRename
  | handleDelete | handleFileClick | handleKeyboard | dialogInputHandler | confirmNewFolder
  | confirmNewFile | confirmRename | cancelDialog
  deriving DecidableEq, Repr

/-- `dialog_bg` and the others. -/
inductive DialogPart
  | bg | panel | title | input | btn1 | btn2
  deriving DecidableEq, Repr

/-- Delete or Rename acts on a path; the directory that was listed and the name of the item at
the selected index go with it. -/
structure Acted where
  path : List ℤ
  dir : List ℤ
  name : List ℤ

structure State where
  desktop : Window
  handler : ℤ → Handler
  text : ℤ → List ℤ
  current_path : List ℤ
  parentBuf : List ℤ
  path_display_widget : ℤ
  items : List FileItem
  selected_index : ℤ
  selected_name : List ℤ
  is_selected_dir : Bool
  dialog_active : Bool
  dialog : DialogPart → ℤ
  need_refresh : Bool
  listed : List ℤ
  acts : List Acted

def State.total_items (s : State) : ℤ := s.items.length

/-- The item at an index of the table. -/
def State.item (s : State) (i : ℤ) : Option FileItem :=
  if i < 0 then none else s.items[i.toNat]?

end States

section Listing

def removeAllScrollableWidgets (s : State) : Option State :=
  (IndexList.walk s.desktop.next loopFuel s.desktop.widgetlisthead).map fun visited =>
    let toRemove := (visited.filter fun p =>
      decide (InTable p) && (s.desktop.widgets p).scrollable).take MAX_WIDGET_SIZE
    { s with desktop := toRemove.foldl Window.removeWidget s.desktop }

/-- A widget has been added, or there was no room for it. -/
def State.added (s : State) (r : Window × ℤ) (text : List ℤ) (handler : Handler) : State × ℤ :=
  if r.2 = -1 then (s, -1)
  else
    ({ s with
      desktop := r.1
      handler := Function.update s.handler r.2 handler
      text := Function.update s.text r.2 text }, r.2)

def displayText (name : List ℤ) (isDir : Bool) : List ℤ :=
  let tag := chars (if isDir then "[DIR]  " else if isExecutable name then "[EXEC] " else "[FILE] ")
  if tag.length + name.length < MAX_SHORT_STRLEN + 10 then tag ++ name else tag

/-- What the loop makes of an entry: its name and whether it is a directory, where it is shown. -/
def shown (fs : FileSystem) (dir : List ℤ) (de : Dirent) : Option (List ℤ × Bool) :=
  if de.inum = 0 then none
  else
    let pathBuf := entryPath dir ((de.name.take DIRSIZ).takeWhile (· ≠ 0))
    let formatName := (fmtname pathBuf).take (MAX_SHORT_STRLEN - 1)
    match fs.stat pathBuf with
    | none => none
    | some .T_DIR =>
      if formatName ≠ [dot] ∧ formatName ≠ [dot, dot] then some (formatName, true) else none
    | some .T_FILE => if shouldShowFile formatName then some (formatName, false) else none
    | some .T_DEV => none

/-- The widget and the item of an entry that is shown. -/
def addItem (s : State) (name : List ℤ) (isDir : Bool) : State :=
  let y := TOPBAR_HEIGHT + CONTENT_PADDING + s.total_items * (ITEM_HEIGHT + ITEM_PADDING)
  let r := s.added (s.desktop.addTextWidget CONTENT_PADDING y (width - CONTENT_PADDING * 2)
    ITEM_HEIGHT true) (displayText name isDir) .handleFileClick
  if r.1.items.length < MAX_WIDGET_SIZE then
    { r.1 with items := r.1.items ++ [⟨name, isDir, r.2, y⟩] }
  else r.1

def loadEntries (fs : FileSystem) (dir : List ℤ) : List Dirent → State → State
  | [], s => s
  | de :: des, s =>
    match shown fs dir de with
    | none => loadEntries fs dir des s
    | some (name, isDir) =>
      let s := addItem s name isDir
      if MAX_WIDGET_SIZE - 10 ≤ s.items.length then s else loadEntries fs dir des s

def openPath (s : State) : List ℤ := if s.current_path = [] then [dot] else s.current_path

/-- The checks of loadFiles before the loop. -/
def opens (fs : FileSystem) (s : State) : Bool :=
  decide (s.current_path.length < MAX_LONG_STRLEN ∧ fs.opened (openPath s) = some .T_DIR ∧
    s.current_path.length + 1 + DIRSIZ + 1 ≤ MAX_LONG_STRLEN)

def loadFiles (fs : FileSystem) (s : State) : Option State :=
  (removeAllScrollableWidgets s).map fun s =>
    if !opens fs s then s
    else
      let s := loadEntries fs s.current_path (fs.entries (openPath s))
        { s with items := [], listed := s.current_path }
      let pathText := if s.current_path = [] then [slash] else s.current_path
      { s with
        text := if InTable s.path_display_widget then
            Function.update s.text s.path_display_widget pathText
          else s.text
        selected_index := -1 }

end Listing

section Dialogs

def clearPart (s : State) (part : DialogPart) : State :=
  if s.dialog part = -1 then s
  else
    { s with
      desktop := s.desktop.removeWidget (s.dialog part)
      dialog := Function.update s.dialog part (-1) }

def clearDialog (s : State) : State :=
  { [DialogPart.bg, .panel, .title, .input, .btn1, .btn2].foldl clearPart s with
    dialog_active := false }

def showPart (s : State) (part : DialogPart) (r : Window × ℤ) (text : List ℤ) (handler : Handler) :
    State :=
  let q := s.added r text handler
  { q.1 with dialog := Function.update q.1.dialog part q.2 }

def showDialog (s : State) (title defaultText : List ℤ) (onConfirm : Handler) : State :=
  let s := { clearDialog s with dialog_active := true }
  let s := showPart s .bg (s.desktop.addColorFillWidget 0 0 width height false) [] .emptyHandler
  let s := showPart s .panel (s.desktop.addColorFillWidget 170 170 340 140 false) [] .emptyHandler
  let s := showPart s .title (s.desktop.addTextWidget 190 190 300 20 false) title .emptyHandler
  let s := showPart s .input (s.desktop.addInputFieldWidget 190 225 300 28 false) defaultText
    .dialogInputHandler
  let s := showPart s .btn1 (s.desktop.addButtonWidget 350 270 70 28 false) (chars "OK") onConfirm
  let s := showPart s .btn2 (s.desktop.addButtonWidget 430 270 70 28 false) (chars "Cancel")
    .cancelDialog
  { s with desktop := { s.desktop with keyfocus := s.dialog .input } }

/-- The path of a new entry, where it fits. -/
def newPath (s : State) (name : List ℤ) : Option (List ℤ) :=
  if 0 < s.current_path.length ∧ s.current_path.length + name.length + 2 < MAX_LONG_STRLEN ∨
      s.current_path.length = 0 ∧ name.length < MAX_LONG_STRLEN then
    some (entryPath s.current_path name)
  else none

/-- The new directory is the file system's affair. -/
def confirmNewFolder (s : State) (newDir : List ℤ) : State :=
  if newDir = [] ∨ newPath s newDir = none then clearDialog s
  else { clearDialog s with need_refresh := true }

def trim (name : List ℤ) : List ℤ := name.dropWhile (· = space)

def confirmNewFile (s : State) (newFile : List ℤ) : State :=
  if trim newFile = [] ∨ newPath s (trim newFile) = none then clearDialog s
  else { clearDialog s with need_refresh := true }

/-- The selected entry's path and the name of the item at the selected index. -/
def State.acted (s : State) : Acted :=
  ⟨entryPath s.current_path s.selected_name, s.listed,
    ((s.item s.selected_index).map FileItem.name).getD []⟩

/-- A longer name does not fit into `newName`. -/
def confirmRename (s : State) (entered : List ℤ) : Option State :=
  if s.selected_index = -1 ∨ s.selected_index ≥ s.total_items then some s
  else if MAX_SHORT_STRLEN ≤ entered.length then none
  else if trim entered = [] ∨ trim entered = s.selected_name then some (clearDialog s)
  else if newPath s s.selected_name = none ∨ newPath s (trim entered) = none then
    some (clearDialog s)
  else
    some { clearDialog { s with acts := s.acts ++ [s.acted] } with
      selected_index := -1
      need_refresh := true }

end Dialogs

section Handlers

/-- A click on a directory that is shown, or Enter on the selected one. -/
def enter (s : State) (name : List ℤ) : State :=
  if s.current_path.length + name.length + 2 ≥ MAX_LONG_STRLEN then s
  else { s with current_path := entryPath s.current_path name, need_refresh := true }

def handleBack (s : State) : State :=
  let parentPath := getParentPath s.current_path s.parentBuf
  { s with
    parentBuf := parentPath
    current_path := if parentPath = [slash] then [] else parentPath
    need_refresh := true }

def handleHome (s : State) : State := { s with current_path := [], need_refresh := true }

def handleRename (s : State) : State :=
  if s.selected_index = -1 ∨ s.selected_index ≥ s.total_items then s
  else if isProtected s.selected_name then s
  else showDialog s (chars "Rename") s.selected_name .confirmRename

def handleDelete (s : State) : State :=
  if s.selected_index = -1 ∨ s.selected_index ≥ s.total_items then s
  else if isProtected s.selected_name then s
  else if newPath s s.selected_name = none then s
  else { s with acts := s.acts ++ [s.acted], need_refresh := true }

def select (s : State) (idx : ℤ) : State :=
  match s.item idx with
  | none => { s with selected_index := idx }
  | some item =>
    { s with selected_index := idx, selected_name := item.name, is_selected_dir := item.is_dir }

/-- The first item of the widget. A double click on a file starts a program, which changes
nothing here. -/
def handleFileClick (s : State) (wid : ℤ) (type : MsgType) : State :=
  match s.items.findIdx? (fun item => item.widget_id = wid) with
  | none => s
  | some idx =>
    match s.item idx with
    | none => s
    | some item =>
      if type = .M_MOUSE_DBCLICK then if item.is_dir then enter s item.name else s
      else if type = .M_MOUSE_LEFT_CLICK then
        { s with
          selected_index := idx
          selected_name := item.name.take (MAX_SHORT_STRLEN - 1)
          is_selected_dir := item.is_dir }
      else s

def handleKeyboard (s : State) (key : ℤ) : State :=
  if key = KEY_DN then
    if s.selected_index < s.total_items - 1 then select s (s.selected_index + 1)
    else if s.selected_index = -1 ∧ s.total_items > 0 then select s 0
    else s
  else if key = KEY_UP then
    if s.selected_index > 0 then select s (s.selected_index - 1)
    else if s.selected_index = -1 ∧ s.total_items > 0 then select s 0
    else s
  else if key = newline ∧ s.selected_index ≥ 0 ∧ s.selected_index < s.total_items then
    if s.is_selected_dir then enter s s.selected_name else s
  else s

/-- What the user has typed into the field of the dialog, and the texts of the widgets after a
write into freed memory. -/
structure Input where
  msg : Message
  entered : List ℤ
  overwritten : ℤ → List ℤ

/-- The field that is written is not in the list any more. -/
def Stale (s : State) (p : ℤ) (input : Input) : Prop :=
  s.handler p = .dialogInputHandler ∧ input.msg.msg_type = .M_KEY_DOWN ∧ p ∉ s.desktop.live

instance (s : State) (p : ℤ) (input : Input) : Decidable (Stale s p input) := by
  unfold Stale
  infer_instance

/-- The handler of widget p is called. -/
def handle (s : State) (p : ℤ) (input : Input) : Option State :=
  let click := input.msg.msg_type = .M_MOUSE_LEFT_CLICK
  match s.handler p with
  | .emptyHandler => some s
  | .handleBack => some (if click ∧ !s.dialog_active then handleBack s else s)
  | .handleHome => some (if click ∧ !s.dialog_active then handleHome s else s)
  | .handleNewFolder =>
    some (if click ∧ !s.dialog_active then
      showDialog s (chars "New Folder") (chars "newfolder") .confirmNewFolder else s)
  | .handleNewFile =>
    some (if click ∧ !s.dialog_active then
      showDialog s (chars "New File") (chars "newfile.txt") .confirmNewFile else s)
  | .handleRename => some (if click ∧ !s.dialog_active then handleRename s else s)
  | .handleDelete => some (if click ∧ !s.dialog_active then handleDelete s else s)
  | .handleFileClick => some (if s.dialog_active then s else handleFileClick s p input.msg.msg_type)
  | .handleKeyboard =>
    some (if input.msg.msg_type = .M_KEY_DOWN ∧ !s.dialog_active then
      handleKeyboard s (input.msg.params 0) else s)
  | .dialogInputHandler => some (if Stale s p input then { s with text := input.overwritten } else s)
  | .confirmNewFolder =>
    some (if click ∧ s.dialog .input ≠ -1 then confirmNewFolder s input.entered else s)
  | .confirmNewFile =>
    some (if click ∧ s.dialog .input ≠ -1 then confirmNewFile s input.entered else s)
  | .confirmRename => if click ∧ s.dialog .input ≠ -1 then confirmRename s input.entered else some s
  | .cancelDialog => some (if click then clearDialog s else s)

end Handlers

section Loop

/-- A key goes to the widget with the focus, if there is one. -/
def Keyed (s : State) (msg : Message) : Prop :=
  s.desktop.keyfocus ≠ -1 ∧ Widgets.App.isKey msg

instance (s : State) (msg : Message) : Decidable (Keyed s msg) := by
  unfold Keyed
  infer_instance

/-- The widget under the mouse, or -1. -/
def mouseTarget (s : State) (msg : Message) : Option ℤ :=
  IndexList.search s.desktop.prev (s.desktop.hit (msg.params 0) (msg.params 1)) loopFuel
    s.desktop.widgetlisttail

def afterMouse (p : ℤ) (s : State) : State :=
  if (s.desktop.widgets p).type = .INPUTFIELD then
    { s with desktop := { s.desktop with keyfocus := p } }
  else s

/-- Closing the window ends the program. -/
def updateWindow (s : State) (input : Input) : Option State :=
  match input.msg.msg_type with
  | .WM_WINDOW_CLOSE => none
  | .WM_WINDOW_MINIMIZE => some s
  | .WM_WINDOW_MAXIMIZE => some s
  | _ =>
    if Keyed s input.msg then handle s s.desktop.keyfocus input
    else (mouseTarget s input.msg).bind fun p =>
      if p = -1 then some s else (handle s p input).map (afterMouse p)

inductive Act
  | load (fs : FileSystem)
  | message (input : Input)

/-- In the loop a refresh comes before the next message. -/
def step (s : State) : Act → Option State
  | .load fs => loadFiles fs { s with need_refresh := false }
  | .message input => if s.need_refresh then none else updateWindow s input

end Loop

section Start

def place (s : State) (r : Window × ℤ) (text : List ℤ) (handler : Handler) : State :=
  (s.added r text handler).1

def placeColor (x y w h : ℤ) (handler : Handler) (s : State) : State :=
  place s (s.desktop.addColorFillWidget x y w h false) [] handler

def placeButton (text : String) (x w : ℤ) (handler : Handler) (s : State) : State :=
  place s (s.desktop.addButtonWidget x 8 w 24 false) (chars text) handler

def placePath (s : State) : State :=
  let r := s.added (s.desktop.addTextWidget 354 12 (width - 364) 18 false) [slash] .emptyHandler
  { r.1 with path_display_widget := r.2 }

def focusTail (s : State) : State :=
  { s with desktop := { s.desktop with keyfocus := s.desktop.widgetlisttail } }

def placeBar (s : State) : State :=
  placeButton "Delete" 286 58 .handleDelete <|
  placeButton "Rename" 218 60 .handleRename <|
  placeButton "+File" 162 48 .handleNewFile <|
  placeButton "+Dir" 106 48 .handleNewFolder <|
  placeButton "Home" 48 50 .handleHome <|
  placeButton "<" 8 32 .handleBack <|
  placeColor 0 0 width TOPBAR_HEIGHT .emptyHandler s

/-- Each line is done to the state that the line below it leaves. -/
def initUI (s : State) : State :=
  focusTail <|
  placeColor 0 0 0 0 .handleKeyboard <|
  placeColor 0 (height - STATUSBAR_HEIGHT) width STATUSBAR_HEIGHT .emptyHandler <|
  placePath <|
  placeBar <|
  placeColor 0 0 width height .emptyHandler s

/-- What main sets before it draws; win is what memory holds of the window. -/
def main (win : Window) : State where
  desktop := win.createWindow
  handler := fun _ => .emptyHandler
  text := fun _ => []
  current_path := []
  parentBuf := []
  path_display_widget := 0
  items := []
  selected_index := -1
  selected_name := []
  is_selected_dir := false
  dialog_active := false
  dialog := fun _ => -1
  need_refresh := false
  listed := []
  acts := []

def start (win : Window) : State := initUI (main win)

end Start

end NorthOS.Explorer
