import NorthOS.TextLayout
import NorthOS.Widgets
import NorthOS.Runs

/-!
The texts that the terminal and the dialogs of the explorer copy with strcpy. Each step
gives the copies into a text, an input field, a button or the new name of a file, with the
length copied and what the destination has room for. The terminal is careful with what is
typed and with the command line, but not with the output of a command; a dialog is not
with what is typed.
-/
namespace NorthOS.TextCopies

open UserGui (CHARACTER_WIDTH CHARACTER_HEIGHT newline nextCell getMouseXFromOffset
  getMouseYFromOffset)
open Widgets (Window loopFuel)
open Runs

def MAX_SHORT_STRLEN : ℕ := 50
def MAX_LONG_STRLEN : ℕ := 1000

/-- A strcpy of a string of that length. -/
structure Copy where
  length : ℕ
  capacity : ℕ

def Copy.Fits (copy : Copy) : Prop := copy.length < copy.capacity

/-- Texts are compared character by character. -/
instance lawfulBEq_text : LawfulBEq (List ℤ) := inferInstance

def cstr (s : String) : List ℤ := s.toList.map fun c => (c.toNat : ℤ)

/-- The string in a buffer of bytes. -/
def cstring (buf : List ℤ) : List ℤ := buf.takeWhile (· ≠ 0)

/-- The copy into the context of a widget; without a widget there is none. -/
def copyInto (widgetId : ℤ) (text : List ℤ) (capacity : ℕ) : List Copy :=
  if widgetId = -1 then [] else [⟨text.length, capacity⟩]

structure InputField where
  text : List ℤ
  current_pos : ℕ

section Keys

def KEY_HOME : ℤ := 0xE0
def KEY_END : ℤ := 0xE1
def KEY_UP : ℤ := 0xE2
def KEY_DN : ℤ := 0xE3
def KEY_LF : ℤ := 0xE4
def KEY_RT : ℤ := 0xE5
def KEY_KP_1 : ℤ := 0x4F
def KEY_KP_2 : ℤ := 0x50
def KEY_KP_4 : ℤ := 0x4B
def KEY_KP_6 : ℤ := 0x4D
def KEY_KP_7 : ℤ := 0x47
def KEY_KP_8 : ℤ := 0x48
def backspace : ℤ := 8

/-- The loop of `getInputOffsetFromMousePosition`. -/
def inputOffsetFrom (charPerLine mouse_x mouse_y : ℤ) : List ℤ → ℤ × ℤ → ℕ → ℕ → ℕ
  | [], _, current_pos, first_y_match_pos =>
    if first_y_match_pos > 0 then first_y_match_pos else current_pos
  | ch :: str, offset, current_pos, first_y_match_pos =>
    if mouse_y = offset.2 ∧ mouse_x = offset.1 then current_pos
    else
      inputOffsetFrom charPerLine mouse_x mouse_y str (nextCell charPerLine ch offset)
        (current_pos + 1) (if mouse_y = offset.2 then current_pos else first_y_match_pos)

def getInputOffsetFromMousePosition (str : List ℤ) (width mouse_x mouse_y : ℤ) : ℕ :=
  if mouse_y < 0 then 0
  else inputOffsetFrom (width.tdiv CHARACTER_WIDTH) mouse_x mouse_y str (0, 0) 0 0

/-- A character that is put into the text. -/
def typed (newChar : ℤ) : Prop := 32 ≤ newChar ∧ newChar ≤ 126 ∨ newChar = newline

instance (newChar : ℤ) : Decidable (typed newChar) := by
  unfold typed
  infer_instance

/-- The tail of the text goes to a buffer of its own and from there behind the character. -/
def insertChar (f : InputField) (newChar : ℤ) : InputField × List Copy :=
  if typed newChar then
    let temp := f.text.drop f.current_pos
    (⟨f.text.take f.current_pos ++ newChar :: temp, f.current_pos + 1⟩,
      [⟨temp.length, MAX_LONG_STRLEN - (f.current_pos + 1)⟩])
  else (f, [])

def deleteChar (f : InputField) (newChar : ℤ) : InputField × List Copy :=
  if newChar = backspace ∧ f.current_pos > 0 then
    let temp := f.text.drop f.current_pos
    (⟨f.text.take (f.current_pos - 1) ++ temp, f.current_pos - 1⟩,
      [⟨temp.length, MAX_LONG_STRLEN - (f.current_pos - 1)⟩])
  else (f, [])

/-- The keys that move the text cursor; `charCount` is the length before the key. -/
def moveCursor (f : InputField) (width newChar : ℤ) (charCount : ℕ) : InputField :=
  let pos := f.current_pos
  let pos := if (newChar = KEY_LF ∨ newChar = KEY_KP_4 ∨ newChar = 52) ∧ pos > 0 then pos - 1
    else pos
  let pos := if (newChar = KEY_RT ∨ newChar = KEY_KP_6 ∨ newChar = 54) ∧ pos < charCount
    then pos + 1 else pos
  let mouse_X := getMouseXFromOffset f.text width pos
  let mouse_Y := getMouseYFromOffset f.text width pos
  let pos := if newChar = KEY_UP ∨ newChar = KEY_KP_8 ∨ newChar = 56 then
    getInputOffsetFromMousePosition f.text width mouse_X (mouse_Y - 1) else pos
  let pos := if newChar = KEY_DN ∨ newChar = KEY_KP_2 ∨ newChar = 50 then
    getInputOffsetFromMousePosition f.text width mouse_X (mouse_Y + 1) else pos
  let pos := if newChar = KEY_HOME ∨ newChar = KEY_KP_7 then
    getInputOffsetFromMousePosition f.text width 0 mouse_Y else pos
  let pos := if newChar = KEY_END ∨ newChar = KEY_KP_1 then
    getInputOffsetFromMousePosition f.text width (width.tdiv CHARACTER_WIDTH) mouse_Y else pos
  { f with current_pos := pos }

def inputFieldKeyHandler (f : InputField) (width newChar : ℤ) : InputField × List Copy :=
  let charCount := f.text.length
  let inserted := insertChar f newChar
  let deleted := deleteChar (moveCursor inserted.1 width newChar charCount) newChar
  (deleted.1, inserted.2 ++ deleted.2)

end Keys

section Terminal

def READBUFFERSIZE : ℕ := 2000
def inputOffset : ℤ := 25
def promptWidth : ℤ := 70
def bottomAreaHeight : ℤ := 30
def windowWidth : ℤ := 600
def windowHeight : ℤ := 450

/-- What a read of at most 255 bytes returns before the end of a pipe. -/
abbrev Chunk := { bytes : List ℤ // 0 < bytes.length ∧ bytes.length ≤ 255 }

/-- What becomes of the command: no process, or one with or without a pipe to read from. -/
inductive Outcome
  | forkFailed
  | ran (pipe : Bool) (reads : List Chunk)

/-- `input` is the text and the cursor of the input field. -/
structure Terminal where
  win : Window
  inputWidgetId : ℤ
  input : InputField
  read_buf : List ℤ
  totallines : ℤ

def GUI_programs : List (List ℤ) :=
  [cstr "terminal", cstr "editor", cstr "explorer", cstr "floppybird", cstr "calculator"]

def isGUIProgram (cmd : List ℤ) : Bool :=
  (cmd.take (MAX_SHORT_STRLEN - 1)).takeWhile (· ≠ 32) ∈ GUI_programs

/-- The list has at most as many widgets as the table. -/
def removeAllHistoryFrom (inputWidgetId : ℤ) : ℕ → Window → ℤ → Window
  | 0, win, _ => win
  | fuel + 1, win, p =>
    if p ≠ -1 ∧ p > inputWidgetId then
      removeAllHistoryFrom inputWidgetId fuel (win.removeWidget p) (win.prev p)
    else win

def clearTerminal (t : Terminal) : Terminal :=
  let win := removeAllHistoryFrom t.inputWidgetId loopFuel t.win t.win.widgetlisttail
  { t with win := { win with scrollOffsetY := 0 }, totallines := 0 }

def addToHistory (t : Terminal) (text : List ℤ) : Terminal × List Copy :=
  let width := windowWidth - inputOffset * 2
  let lines := getMouseYFromOffset text width text.length + 1
  let height := lines * CHARACTER_HEIGHT
  let yPos := 30 + t.totallines * CHARACTER_HEIGHT
  let r := t.win.addTextWidget inputOffset yPos width height true
  let totallines := t.totallines + lines
  let totalContentHeight := 30 + totallines * CHARACTER_HEIGHT
  let visibleHeight := windowHeight - bottomAreaHeight - 30
  let win := if totalContentHeight > visibleHeight then
    { r.1 with scrollOffsetY := totalContentHeight - visibleHeight } else r.1
  ({ t with win := win, totallines := totallines },
    copyInto r.2 text MAX_LONG_STRLEN)

/-- The loop that reads the output. -/
def readOutput : List Chunk → List ℤ → List ℤ
  | [], buf => buf
  | chunk :: reads, buf =>
    if buf.length < READBUFFERSIZE - 256 then
      readOutput reads <|
        if buf.length + chunk.1.length < READBUFFERSIZE - 1 then buf ++ chunk.1 else buf
    else buf

/-- What read_buf holds after a command; without a process it still holds the last output. -/
def output (t : Terminal) (buffer : List ℤ) : Outcome → List ℤ
  | .forkFailed => t.read_buf
  | .ran pipe reads => if !isGUIProgram buffer ∧ pipe then readOutput reads [] else []

def historyLine (buffer : List ℤ) : List ℤ :=
  let prompt := cstr "host$> "
  if prompt.length + buffer.length < MAX_LONG_STRLEN - 1 then prompt ++ buffer else prompt

def executeCommand (t : Terminal) (buffer : List ℤ) (outcome : Outcome) : Terminal × List Copy :=
  if buffer = cstr "clear" then (clearTerminal t, [])
  else
    let t := { t with read_buf := output t buffer outcome }
    let line := addToHistory t (historyLine buffer)
    if (cstring t.read_buf).length > 0 then
      let out := addToHistory line.1 (cstring t.read_buf)
      (out.1, line.2 ++ out.2)
    else line

/-- A click into the input field, or a key with what becomes of a command it starts. -/
inductive Event
  | click (mouse_x mouse_y : ℤ)
  | key (c : ℤ) (outcome : Outcome)

def inputMouseLeftClickHandler (t : Terminal) (mouse_x mouse_y : ℤ) : Terminal :=
  let r := (t.win.widgets t.inputWidgetId).position
  let mouse_char_y := (mouse_y - r.ymin).tdiv CHARACTER_HEIGHT
  let mouse_char_x := (mouse_x - r.xmin).tdiv CHARACTER_WIDTH
  let new_pos := getInputOffsetFromMousePosition t.input.text (r.xmax - r.xmin) mouse_char_x
    mouse_char_y
  { t with input := ⟨t.input.text, new_pos⟩ }

/-- The input field grows with the text, within the area at the bottom. -/
def growInput (t : Terminal) (width : ℤ) : Terminal :=
  let w := t.win.widgets t.inputWidgetId
  let textLines := getMouseYFromOffset t.input.text width t.input.text.length + 1
  let newHeight := textLines * CHARACTER_HEIGHT
  if newHeight > CHARACTER_HEIGHT ∧ newHeight < bottomAreaHeight - 5 then
    let grown := { w with position := { w.position with ymax := w.position.ymin + newHeight } }
    let widgets := Function.update t.win.widgets t.inputWidgetId grown
    { t with win := { t.win with widgets := widgets } }
  else t

def inputHandler (t : Terminal) : Event → Terminal × List Copy
  | .click mouse_x mouse_y => (inputMouseLeftClickHandler t mouse_x mouse_y, [])
  | .key c outcome =>
    let r := (t.win.widgets t.inputWidgetId).position
    let width := r.xmax - r.xmin
    if c = newline then
      let buffer := t.input.text.take (MAX_LONG_STRLEN - 1)
      if buffer.length = 0 then (t, [])
      else
        let done := executeCommand t buffer outcome
        ({ done.1 with input := ⟨[], 0⟩ }, done.2)
    else
      let handled := if t.input.text.length < MAX_LONG_STRLEN - 1 then
        inputFieldKeyHandler t.input width c else (t.input, [])
      (growInput { t with input := handled.1 } width, handled.2)

/-- The state in which main of terminal.c begins to take messages, and its copies. -/
def Terminal.main (win : Window) : Terminal × List Copy :=
  let width := windowWidth - inputOffset * 2
  let bottomY := windowHeight - bottomAreaHeight
  let win := win.createWindow
  let win := (win.addColorFillWidget 0 0 windowWidth (windowHeight - bottomAreaHeight) false).1
  let win := (win.addColorFillWidget 0 bottomY windowWidth bottomAreaHeight false).1
  let prompt := win.addTextWidget inputOffset (bottomY + 5) promptWidth CHARACTER_HEIGHT false
  let input := prompt.1.addInputFieldWidget (inputOffset + promptWidth) (bottomY + 5)
    (width - promptWidth) CHARACTER_HEIGHT false
  (⟨input.1, input.2, ⟨[], 0⟩, [], 0⟩,
    copyInto prompt.2 (cstr "host$>") MAX_LONG_STRLEN ++ copyInto input.2 [] MAX_LONG_STRLEN)

end Terminal

section Explorer

abbrev ShortString := { name : List ℤ // name.length < MAX_SHORT_STRLEN }

/-- What the OK button of the dialog calls. -/
inductive Confirm
  | newFolder | newFile | rename
  deriving DecidableEq

/-- `input` is the text and the cursor of the input field of the dialog. -/
structure Explorer where
  win : Window
  width : ℤ
  height : ℤ
  current_path : List ℤ
  selected_index : ℤ
  total_items : ℤ
  selected_name : ShortString
  dialog_active : Bool
  dialog_bg : ℤ
  dialog_panel : ℤ
  dialog_title : ℤ
  dialog_input : ℤ
  dialog_btn1 : ℤ
  dialog_btn2 : ℤ
  input : InputField
  onConfirm : Confirm

def protectedNames : List (List ℤ) :=
  ["editor", "explorer", "terminal", "floppybird", ".", "..", "kernel", "initcode", "init", "cat",
    "echo", "grep", "kill", "ln", "ls", "mkdir", "rm", "sh", "wc", "stressfs", "usertests",
    "zombie", "forktest"].map cstr

def isProtected (name : List ℤ) : Bool := name ∈ protectedNames

def removeIfShown (win : Window) (index : ℤ) : Window :=
  if index ≠ -1 then win.removeWidget index else win

def clearDialog (x : Explorer) : Explorer :=
  let win := [x.dialog_bg, x.dialog_panel, x.dialog_title, x.dialog_input, x.dialog_btn1,
    x.dialog_btn2].foldl removeIfShown x.win
  { x with
    win := win, dialog_active := false, dialog_bg := -1, dialog_panel := -1, dialog_title := -1,
    dialog_input := -1, dialog_btn1 := -1, dialog_btn2 := -1 }

def showDialog (x : Explorer) (title defaultText : List ℤ) (onConfirm : Confirm) :
    Explorer × List Copy :=
  let x := clearDialog x
  let dialogW := 340
  let dialogH := 140
  let dialogX := (x.width - dialogW).tdiv 2
  let dialogY := (x.height - dialogH).tdiv 2
  let bg := x.win.addColorFillWidget 0 0 x.width x.height false
  let panel := bg.1.addColorFillWidget dialogX dialogY dialogW dialogH false
  let text := panel.1.addTextWidget (dialogX + 20) (dialogY + 20) (dialogW - 40) 20 false
  let input := text.1.addInputFieldWidget (dialogX + 20) (dialogY + 55) (dialogW - 40) 28 false
  let btn1 := input.1.addButtonWidget (dialogX + dialogW - 160) (dialogY + 100) 70 28 false
  let btn2 := btn1.1.addButtonWidget (dialogX + dialogW - 80) (dialogY + 100) 70 28 false
  ({ x with
      win := { btn2.1 with keyfocus := input.2 }, dialog_active := true, dialog_bg := bg.2,
      dialog_panel := panel.2, dialog_title := text.2, dialog_input := input.2,
      dialog_btn1 := btn1.2, dialog_btn2 := btn2.2,
      input := ⟨defaultText, defaultText.length⟩, onConfirm := onConfirm },
    copyInto text.2 title MAX_LONG_STRLEN ++ copyInto input.2 defaultText MAX_LONG_STRLEN ++
      copyInto btn1.2 (cstr "OK") MAX_SHORT_STRLEN ++
      copyInto btn2.2 (cstr "Cancel") MAX_SHORT_STRLEN)

/-- The files are renamed by system calls, which copy no text. -/
def confirmRename (x : Explorer) : Explorer × List Copy :=
  if x.dialog_input = -1 then (x, [])
  else if x.selected_index = -1 ∨ x.selected_index ≥ x.total_items then (x, [])
  else
    let copies : List Copy := [⟨x.input.text.length, MAX_SHORT_STRLEN⟩]
    let newName := x.input.text.dropWhile (· = 32)
    let pathLen := x.current_path.length
    if newName.length = 0 ∨ newName = x.selected_name.1 then (clearDialog x, copies)
    else if pathLen > 0 ∧ (pathLen + x.selected_name.1.length + 2 ≥ MAX_LONG_STRLEN ∨
        pathLen + newName.length + 2 ≥ MAX_LONG_STRLEN) then (clearDialog x, copies)
    else if pathLen = 0 ∧ (x.selected_name.1.length ≥ MAX_LONG_STRLEN ∨
        newName.length ≥ MAX_LONG_STRLEN) then (clearDialog x, copies)
    else ({ clearDialog x with selected_index := -1 }, copies)

/-- The folder and the file are made by system calls as well. -/
def confirmNewFolder (x : Explorer) : Explorer × List Copy :=
  if x.dialog_input = -1 then (x, []) else (clearDialog x, [])

def confirmNewFile (x : Explorer) : Explorer × List Copy :=
  if x.dialog_input = -1 then (x, []) else (clearDialog x, [])

def handleNewFolder (x : Explorer) : Explorer × List Copy :=
  if x.dialog_active then (x, [])
  else showDialog x (cstr "New Folder") (cstr "newfolder") .newFolder

def handleNewFile (x : Explorer) : Explorer × List Copy :=
  if x.dialog_active then (x, [])
  else showDialog x (cstr "New File") (cstr "newfile.txt") .newFile

def handleRename (x : Explorer) : Explorer × List Copy :=
  if x.dialog_active then (x, [])
  else if x.selected_index = -1 ∨ x.selected_index ≥ x.total_items then (x, [])
  else if isProtected x.selected_name.1 then (x, [])
  else showDialog x (cstr "Rename") x.selected_name.1 .rename

/-- The handler of the input field of the dialog, if it has one. -/
def dialogInputHandler (x : Explorer) (c : ℤ) : Explorer × List Copy :=
  if x.dialog_input = -1 then (x, [])
  else
    let r := (x.win.widgets x.dialog_input).position
    let handled := inputFieldKeyHandler x.input (r.xmax - r.xmin) c
    ({ x with input := handled.1 }, handled.2)

/-- The handler of the OK button, if there is one. -/
def confirm (x : Explorer) : Explorer × List Copy :=
  if x.dialog_btn1 = -1 then (x, [])
  else match x.onConfirm with
    | .newFolder => confirmNewFolder x
    | .newFile => confirmNewFile x
    | .rename => confirmRename x

def cancelDialog (x : Explorer) : Explorer × List Copy :=
  if x.dialog_btn2 = -1 then (x, []) else (clearDialog x, [])

/-- A click on a button, a key, or what moving among the files leaves in the state. -/
inductive Action
  | newFolder
  | newFile
  | rename
  | key (c : ℤ)
  | ok
  | cancel
  | browse (current_path : List ℤ) (selected_index total_items : ℤ) (selected_name : ShortString)

def handle (x : Explorer) : Action → Explorer × List Copy
  | .newFolder => handleNewFolder x
  | .newFile => handleNewFile x
  | .rename => handleRename x
  | .key c => dialogInputHandler x c
  | .ok => confirm x
  | .cancel => cancelDialog x
  | .browse current_path selected_index total_items selected_name =>
    ({ x with
        current_path := current_path, selected_index := selected_index,
        total_items := total_items, selected_name := selected_name }, [])

/-- The state in which main of explorer_main.c begins to take messages, with the widgets that
initUI and loadFiles have made. -/
def Explorer.main (win : Window) : Explorer :=
  ⟨win, 680, 480, [], -1, 0, ⟨[], by decide⟩, false, -1, -1, -1, -1, -1, -1, ⟨[], 0⟩, .newFolder⟩

end Explorer

section Fields

variable {f : InputField} {width c : ℤ}

/-- The cursor is in the text or behind it. -/
def InputField.Valid (f : InputField) : Prop := f.current_pos ≤ f.text.length

theorem inputOffsetFrom_le {charPerLine mouse_x mouse_y : ℤ} {str : List ℤ} :
    ∀ {offset : ℤ × ℤ} {pos first : ℕ}, first ≤ pos →
      inputOffsetFrom charPerLine mouse_x mouse_y str offset pos first ≤ pos + str.length := by
  induction str with
  | nil =>
    intro offset pos first hfirst
    unfold inputOffsetFrom
    split <;> omega
  | cons ch str ih =>
    intro offset pos first hfirst
    unfold inputOffsetFrom
    rw [List.length_cons]
    split
    · omega
    · have hmatch : (if mouse_y = offset.2 then pos else first) ≤ pos + 1 := by
        split <;> omega
      have hnext := @ih (nextCell charPerLine ch offset) (pos + 1) _ hmatch
      omega

theorem getInputOffset_le {str : List ℤ} {mouse_x mouse_y : ℤ} :
    getInputOffsetFromMousePosition str width mouse_x mouse_y ≤ str.length := by
  unfold getInputOffsetFromMousePosition
  split
  · exact Nat.zero_le _
  · exact (inputOffsetFrom_le le_rfl).trans (Nat.zero_add _).le

theorem moveCursor_valid {charCount : ℕ} (hf : f.Valid) (hcount : charCount ≤ f.text.length) :
    (moveCursor f width c charCount).Valid := by
  have hchoice : ∀ {b : Prop} [Decidable b] {p q : ℕ}, (b → p ≤ f.text.length) →
      q ≤ f.text.length → (if b then p else q) ≤ f.text.length := by
    intro b _ p q hp hq
    split
    · exact hp ‹_›
    · exact hq
  have hoff : ∀ {mouse_x mouse_y : ℤ},
      getInputOffsetFromMousePosition f.text width mouse_x mouse_y ≤ f.text.length :=
    getInputOffset_le
  unfold InputField.Valid at hf
  refine hchoice (fun _ => hoff) (hchoice (fun _ => hoff) (hchoice (fun _ => hoff)
    (hchoice (fun _ => hoff) (hchoice (fun h => ?_) (hchoice (fun _ => ?_) hf)))))
  · exact h.2.trans_le hcount
  · omega

theorem insertChar_length (hf : f.Valid) :
    (insertChar f c).1.text.length = f.text.length + if typed c then 1 else 0 := by
  unfold insertChar
  split
  · simp only [List.length_append, List.length_take, List.length_cons, List.length_drop]
    unfold InputField.Valid at hf
    omega
  · rfl

theorem insertChar_valid (hf : f.Valid) : (insertChar f c).1.Valid := by
  have hlen := insertChar_length (c := c) hf
  unfold InputField.Valid at *
  rw [hlen]
  unfold insertChar
  split <;> simp only <;> omega

theorem deleteChar_spec (hf : f.Valid) :
    (deleteChar f c).1.Valid ∧ (deleteChar f c).1.text.length ≤ f.text.length ∧
      (f.text.length < MAX_LONG_STRLEN → ∀ copy ∈ (deleteChar f c).2, copy.Fits) := by
  unfold InputField.Valid at *
  unfold deleteChar
  split
  · simp only [List.length_append, List.length_take, List.length_drop, List.forall_mem_singleton,
      Copy.Fits]
    omega
  · exact ⟨hf, le_rfl, fun _ _ h => nomatch h⟩

theorem insertChar_moved (hf : f.Valid) :
    (moveCursor (insertChar f c).1 width c f.text.length).Valid := by
  refine moveCursor_valid (insertChar_valid hf) ?_
  rw [insertChar_length hf]
  omega

theorem inputFieldKeyHandler_valid (hf : f.Valid) : (inputFieldKeyHandler f width c).1.Valid :=
  (deleteChar_spec (insertChar_moved hf)).1

end Fields

section TerminalRuns

variable {t : Terminal} {text buffer : List ℤ} {e : Event}

/-- The text in the input field has been typed. -/
def Terminal.Valid (t : Terminal) : Prop :=
  t.input.Valid ∧ t.input.text.length < MAX_LONG_STRLEN

end TerminalRuns

section ExplorerRuns

variable {x : Explorer} {a : Action}

def Explorer.Valid (x : Explorer) : Prop :=
  x.input.Valid ∧ x.input.text.length < MAX_LONG_STRLEN

end ExplorerRuns

def Terminal.step (t : Terminal) (e : Event) : Option Terminal := some (inputHandler t e).1

def Explorer.step (x : Explorer) (a : Action) : Option Explorer := some (handle x a).1

/-- The copies of the step fit. -/
def Terminal.Fits (t : Terminal) (e : Event) : Prop := ∀ copy ∈ (inputHandler t e).2, copy.Fits

def Explorer.Fits (x : Explorer) (a : Action) : Prop := ∀ copy ∈ (handle x a).2, copy.Fits

end NorthOS.TextCopies
