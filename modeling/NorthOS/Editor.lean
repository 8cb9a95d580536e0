import NorthOS.CString
import NorthOS.LineEditor
import NorthOS.TextCopies

/-!
The keys of the text editor of editor.c. `safeKeyHandler` changes the array of the input field
in place and finds the lines of the text by scanning; a line editor on lists is what it does.
-/
namespace NorthOS.Editor

open CString TextCopies
open UserGui (newline)
open WindowManager (Message MsgType)

variable {n len pos start stop : ℕ}

def KEY_PGUP : ℤ := 0xE6
def KEY_PGDN : ℤ := 0xE7
def KEY_DEL : ℤ := 0xE9
def KEY_KP_3 : ℤ := 0x51
def KEY_KP_9 : ℤ := 0x49

/-- The input field of the editor, with what the handler leaves for the window. -/
structure App where
  text : Cells
  current_pos : ℤ
  isModified : Bool
  needsRepaint : Bool

section Scans

/-- The loop back to the character behind a newline. -/
def lineStart (text : Cells) : ℕ → ℕ
  | 0 => 0
  | pos + 1 => if text pos ≠ newline then lineStart text pos else pos + 1

/-- The loop on to a newline, over at most that many characters. -/
def lineEnd (text : Cells) : ℕ → ℕ → ℕ
  | 0, pos => pos
  | n + 1, pos => if text pos ≠ newline then lineEnd text n (pos + 1) else pos

def upFrom (text : Cells) (pos : ℕ) : ℕ :=
  let start := lineStart text pos
  if start > 0 then
    let prevLineEnd := start - 1
    let prevLineStart := lineStart text prevLineEnd
    let col := pos - start
    let prevLineLen := prevLineEnd - prevLineStart
    prevLineStart + if col > prevLineLen then prevLineLen else col
  else 0

def downFrom (text : Cells) (len pos : ℕ) : ℕ :=
  let start := lineStart text pos
  let stop := lineEnd text (len - pos) pos
  if stop < len then
    let nextLineStart := stop + 1
    let col := pos - start
    let nextLineEnd := lineEnd text (len - nextLineStart) nextLineStart
    let nextLineLen := nextLineEnd - nextLineStart
    nextLineStart + if col > nextLineLen then nextLineLen else col
  else len

end Scans

def clampPos (pos : ℤ) (len : ℕ) : ℕ :=
  if pos < 0 then 0 else if pos > len then len else pos.toNat

/-- What every key but the page keys ends with. -/
def App.keepValid (s : App) : Option App :=
  (strlen MAX_LONG_STRLEN s.text).map fun len =>
    { s with current_pos := clampPos s.current_pos len, needsRepaint := true }

def App.moveTo (s : App) (pos : ℕ) : Option App := App.keepValid { s with current_pos := pos }

def App.insert (s : App) (len pos : ℕ) (key : ℤ) : Option App :=
  if len < MAX_LONG_STRLEN - 1 then
    ((shiftUp MAX_LONG_STRLEN pos (len + 1 - pos) s.text).bind (store MAX_LONG_STRLEN pos key)).bind
      fun text => App.keepValid
        { s with text := text, current_pos := (pos + 1 : ℕ), isModified := true }
  else s.keepValid

/-- The character at `i` goes, and the cursor stands there. -/
def App.delete (s : App) (len i : ℕ) : Option App :=
  (shiftDown MAX_LONG_STRLEN (len - i) i s.text).bind fun text => App.keepValid
    { s with text := text, current_pos := i, isModified := true }

def repeated : ℕ → (App → Option App) → App → Option App
  | 0, _, s => some s
  | n + 1, f, s => (f s).bind (repeated n f)

def simulated (msg : Message) (key : ℤ) : Message :=
  { msg with params := Function.update msg.params 0 key }

theorem simulated_key {msg : Message} {key : ℤ} : (simulated msg key).params 0 = key := by
  change Function.update msg.params 0 key 0 = key
  rw [Function.update_self]

def safeKeyHandler (s : App) (msg : Message) : Option App :=
  if msg.msg_type ≠ .M_KEY_DOWN then some s
  else (strlen MAX_LONG_STRLEN s.text).bind fun len =>
    let key := msg.params 0
    let pos := clampPos s.current_pos len
    let s := { s with current_pos := pos }
    if typed key then s.insert len pos key
    else if key = backspace ∧ pos > 0 then s.delete len (pos - 1)
    else if key = KEY_DEL ∧ pos < len then s.delete len pos
    else if (key = KEY_LF ∨ key = KEY_KP_4 ∨ key = 52) ∧ pos > 0 then s.moveTo (pos - 1)
    else if (key = KEY_RT ∨ key = KEY_KP_6 ∨ key = 54) ∧ pos < len then s.moveTo (pos + 1)
    else if key = KEY_UP ∨ key = KEY_KP_8 ∨ key = 56 then s.moveTo (upFrom s.text pos)
    else if key = KEY_DN ∨ key = KEY_KP_2 ∨ key = 50 then s.moveTo (downFrom s.text len pos)
    else if key = KEY_HOME ∨ key = KEY_KP_7 then s.moveTo (lineStart s.text pos)
    else if key = KEY_END ∨ key = KEY_KP_1 then s.moveTo (lineEnd s.text (len - pos) pos)
    else if _h : key = KEY_PGUP ∨ key = KEY_KP_9 then
      repeated 10 (fun s => safeKeyHandler s (simulated msg KEY_UP)) s
    else if _h : key = KEY_PGDN ∨ key = KEY_KP_3 then
      repeated 10 (fun s => safeKeyHandler s (simulated msg KEY_DN)) s
    else s.keepValid
termination_by if msg.params 0 = KEY_UP ∨ msg.params 0 = KEY_DN then 0 else 1
decreasing_by
  all_goals
    have hcaller : ¬(msg.params 0 = KEY_UP ∨ msg.params 0 = KEY_DN) := by
      rcases _h with h | h <;> rw [show msg.params 0 = _ from h] <;> decide
    rw [if_neg hcaller, simulated_key]
    decide

def keys (s : App) (msgs : List Message) : Option App := msgs.foldlM safeKeyHandler s

/-- The reference: what a key does to the line editor. -/
def press (e : LineEditor) (key : ℤ) : LineEditor :=
  if typed key then e.insert (MAX_LONG_STRLEN - 1) key
  else if key = backspace then e.backspace
  else if key = KEY_DEL then e.delete
  else if key = KEY_LF then e.moveLeft
  else if key = KEY_RT then e.moveRight
  else if key = KEY_UP then e.up
  else if key = KEY_DN then e.down
  else if key = KEY_HOME then e.home
  else if key = KEY_END then e.goToEnd
  else if key = KEY_PGUP then LineEditor.up^[10] e
  else if key = KEY_PGDN then LineEditor.down^[10] e
  else e

def receive (e : LineEditor) (msg : Message) : LineEditor :=
  if msg.msg_type = .M_KEY_DOWN then press e (msg.params 0) else e

section ScanLines

variable {a : Cells} {u w v : List ℤ} {above below : List (List ℤ)} {e : LineEditor}

theorem lineStart_eq (hline : ∀ i, start ≤ i → i < start + n → a i ≠ newline)
    (hstart : start = 0 ∨ a (start - 1) = newline) : lineStart a (start + n) = start := by
  induction n with
  | zero =>
    rcases start with _ | start
    · rfl
    · rcases hstart with hzero | hnewline
      · exact absurd hzero (Nat.succ_ne_zero _)
      · exact if_neg fun hne => hne hnewline
  | succ n ih =>
    rw [← Nat.add_assoc, lineStart, if_pos (hline _ (Nat.le_add_right _ _) (by omega))]
    exact ih fun i hi hi' => hline i hi (by omega)

theorem lineEnd_eq (hline : ∀ i, pos ≤ i → i < pos + n → a i ≠ newline)
    (hstop : len = 0 ∨ a (pos + n) = newline) : lineEnd a (n + len) pos = pos + n := by
  induction n generalizing pos with
  | zero =>
    rw [Nat.zero_add]
    rcases len with _ | len
    · rfl
    · rcases hstop with hzero | hnewline
      · exact absurd hzero (Nat.succ_ne_zero _)
      · exact if_neg fun hne => hne hnewline
  | succ n ih =>
    rw [Nat.succ_add, lineEnd, if_pos (hline pos le_rfl (by omega)), ih]
    · omega
    · exact fun i hi hi' => hline i (by omega) (by omega)
    · rwa [show pos + 1 + n = pos + (n + 1) by omega]

theorem lineStart_above (h : Holds MAX_LONG_STRLEN a (LineEditor.textAbove above ++ (w ++ v)))
    (hw : newline ∉ w) :
    lineStart a ((LineEditor.textAbove above).length + w.length) =
      (LineEditor.textAbove above).length := by
  refine lineStart_eq (fun i hi hi' hnewline => hw (hnewline ▸ h.cell_mem hi hi')) ?_
  cases above with
  | nil => exact .inl rfl
  | cons line above =>
    right
    have hsplit : LineEditor.textAbove (line :: above) ++ (w ++ v) =
        (LineEditor.textAbove above ++ line) ++ newline :: (w ++ v) := by
      simp only [LineEditor.textAbove, List.append_assoc, List.cons_append, List.nil_append]
    have hlen : (LineEditor.textAbove (line :: above)).length - 1 =
        (LineEditor.textAbove above ++ line).length := by
      simp only [LineEditor.textAbove, List.length_append, List.length_singleton]
      omega
    rw [hlen]
    exact (hsplit ▸ h).cell_between

theorem lineEnd_below (h : Holds MAX_LONG_STRLEN a (u ++ (w ++ LineEditor.textBelow below)))
    (hw : newline ∉ w) :
    lineEnd a (w.length + (LineEditor.textBelow below).length) u.length = u.length + w.length := by
  refine lineEnd_eq (fun i hi hi' hnewline => hw (hnewline ▸ h.cell_mem hi hi')) ?_
  cases below with
  | nil => exact .inl rfl
  | cons line below =>
    right
    have hsplit : u ++ (w ++ LineEditor.textBelow (line :: below)) =
        (u ++ w) ++ newline :: (line ++ LineEditor.textBelow below) := by
      simp only [LineEditor.textBelow, List.flatMap_cons, List.append_assoc, List.cons_append]
    rw [← List.length_append]
    exact (hsplit ▸ h).cell_between

theorem lineStart_cursor (h : Holds MAX_LONG_STRLEN a e.text) (he : e.Lined) :
    lineStart a e.cursor = (LineEditor.textAbove e.above).length := by
  have hsplit : e.text = LineEditor.textAbove e.above ++ (e.left.reverse ++ e.after) := by
    rw [LineEditor.text, LineEditor.before, List.append_assoc]
  have hleft : newline ∉ e.left.reverse := fun hmem => he.left (List.mem_reverse.mp hmem)
  rw [LineEditor.cursor, LineEditor.before, List.length_append]
  exact lineStart_above (hsplit ▸ h) hleft

theorem text_length : e.text.length = e.cursor + e.after.length := List.length_append ..

theorem lineEnd_cursor (h : Holds MAX_LONG_STRLEN a e.text) (he : e.Lined) :
    lineEnd a (e.text.length - e.cursor) e.cursor = e.cursor + e.right.length := by
  have hlen : e.text.length - e.cursor = e.right.length +
      (LineEditor.textBelow e.below).length := by
    rw [text_length, Nat.add_sub_cancel_left, LineEditor.after, List.length_append]
  rw [hlen]
  exact lineEnd_below h he.right

theorem upFrom_cursor (h : Holds MAX_LONG_STRLEN a e.text) (he : e.Lined) :
    upFrom a e.cursor = e.up.cursor := by
  unfold upFrom
  rw [lineStart_cursor h he]
  unfold LineEditor.up
  split
  · rename_i line above habove
    have hsplit : e.text = LineEditor.textAbove above ++ (line ++
        newline :: (e.left.reverse ++ e.after)) := by
      simp only [LineEditor.text, LineEditor.before, habove, LineEditor.textAbove,
        List.append_assoc, List.cons_append, List.nil_append]
    have hlen : (LineEditor.textAbove e.above).length =
        (LineEditor.textAbove above).length + line.length + 1 := by
      rw [habove]
      simp only [LineEditor.textAbove, List.length_append, List.length_singleton]
      omega
    have hcursor : e.cursor = (LineEditor.textAbove e.above).length + e.left.length := by
      rw [LineEditor.cursor, LineEditor.before, List.length_append, List.length_reverse]
    have hline : newline ∉ line := he.above line (habove ▸ List.mem_cons_self)
    have hprev := lineStart_above (hsplit ▸ h) hline
    simp only [hlen, Nat.add_sub_cancel, hprev, hcursor]
    rw [if_pos (Nat.succ_pos _)]
    simp only [LineEditor.cursor, LineEditor.before, List.length_append, List.length_reverse,
      List.length_take]
    split <;> omega
  · rename_i habove
    simp only [LineEditor.cursor, LineEditor.before, LineEditor.home, habove]
    rfl

theorem downFrom_cursor (h : Holds MAX_LONG_STRLEN a e.text) (he : e.Lined) :
    downFrom a e.text.length e.cursor = e.down.cursor := by
  unfold downFrom
  rw [lineStart_cursor h he, lineEnd_cursor h he]
  have hcursor : e.cursor = (LineEditor.textAbove e.above).length + e.left.length := by
    rw [LineEditor.cursor, LineEditor.before, List.length_append, List.length_reverse]
  have hlen : e.text.length = e.cursor + e.right.length +
      (LineEditor.textBelow e.below).length := by
    rw [text_length, LineEditor.after, List.length_append, Nat.add_assoc]
  unfold LineEditor.down
  split
  · rename_i line below hbelow
    have hsplit : e.text = (e.before ++ (e.right ++ [newline])) ++
        (line ++ LineEditor.textBelow below) := by
      simp only [LineEditor.text, LineEditor.after, hbelow, LineEditor.textBelow, List.flatMap_cons,
        List.append_assoc, List.cons_append, List.nil_append]
    have hrest : (LineEditor.textBelow e.below).length =
        line.length + (LineEditor.textBelow below).length + 1 := by
      rw [hbelow]
      simp only [LineEditor.textBelow, List.flatMap_cons, List.length_append, List.length_cons]
      omega
    have hfirst : (e.before ++ (e.right ++ [newline])).length = e.cursor + e.right.length + 1 := by
      simp only [List.length_append, List.length_singleton, LineEditor.cursor, Nat.add_assoc]
    have hline : newline ∉ line := he.below line (hbelow ▸ List.mem_cons_self)
    have hnext := lineEnd_below (hsplit ▸ h) hline
    rw [hfirst] at hnext
    have hcount : e.text.length - (e.cursor + e.right.length + 1) =
        line.length + (LineEditor.textBelow below).length := by omega
    simp only [hcount, hnext]
    rw [if_pos (by omega)]
    simp only [LineEditor.cursor, LineEditor.before, LineEditor.textAbove, LineEditor.line,
      List.length_append, List.length_reverse, List.length_take, List.length_singleton]
    split <;> omega
  · rename_i hbelow
    have hrest : (LineEditor.textBelow e.below).length = 0 := by
      rw [hbelow]
      rfl
    rw [if_neg (by omega), hlen, hrest, hcursor]
    simp only [LineEditor.cursor, LineEditor.before, LineEditor.goToEnd, LineEditor.line,
      List.length_append, List.length_reverse]
    omega

end ScanLines

/-- The array and the cursor of the handler are those of the line editor. -/
structure Shows (s : App) (e : LineEditor) : Prop where
  text : Holds MAX_LONG_STRLEN s.text e.text
  pos : s.current_pos = e.cursor
  lined : e.Lined

section Handler

variable {s : App} {e e' : LineEditor} {msg : Message} {key : ℤ}

theorem clampPos_eq (hpos : pos ≤ len) : clampPos (pos : ℤ) len = pos := by
  unfold clampPos
  rw [if_neg (by omega), if_neg (by omega)]
  exact Int.toNat_natCast pos

theorem cursor_le : e.cursor ≤ e.text.length := text_length ▸ Nat.le_add_right _ _

theorem keepValid_shows (h : Shows s e) : ∃ t, s.keepValid = some t ∧ Shows t e := by
  unfold App.keepValid
  rw [h.text.strlen, Option.map_some, h.pos, clampPos_eq cursor_le]
  exact ⟨_, rfl, h.text, rfl, h.lined⟩

theorem moveTo_shows (h : Shows s e) (htext : e'.text = e.text) (hpos : pos = e'.cursor)
    (he' : e'.Lined) : ∃ t, s.moveTo pos = some t ∧ Shows t e' :=
  keepValid_shows ⟨htext ▸ h.text, congrArg _ hpos, he'⟩

theorem insert_shows (h : Shows s e) (hkey : key ≠ 0) :
    ∃ t, s.insert e.text.length e.cursor key = some t ∧
      Shows t (e.insert (MAX_LONG_STRLEN - 1) key) := by
  have hroom := h.text.room
  unfold App.insert
  by_cases hfull : e.text.length = MAX_LONG_STRLEN - 1
  · rw [if_neg (by omega), LineEditor.insert_full hfull]
    exact keepValid_shows h
  · obtain ⟨hbefore, hafter⟩ := LineEditor.insert_spec (c := key) hfull
    have htext : (e.insert (MAX_LONG_STRLEN - 1) key).text = e.before ++ key :: e.after := by
      rw [LineEditor.text, hbefore, hafter, List.append_assoc]
      rfl
    obtain ⟨text, hstored, hholds⟩ := Holds.insert (u := e.before) h.text (by
      rw [← LineEditor.text]
      omega) hkey
    rw [if_pos (by omega)]
    change ∃ t, Option.bind (Option.bind (shiftUp _ e.before.length
      ((e.before ++ e.after).length + 1 - e.before.length) s.text) _) _ = some t ∧ _
    rw [show LineEditor.cursor e = e.before.length from rfl, hstored]
    refine keepValid_shows ⟨htext ▸ hholds, ?_, h.lined.insert⟩
    rw [LineEditor.cursor, hbefore, List.length_append]
    rfl

theorem delete_shows {c : ℤ} (h : Shows s e) (htext : e.text = e'.before ++ c :: e'.after)
    (he' : e'.Lined) : ∃ t, s.delete e.text.length e'.cursor = some t ∧ Shows t e' := by
  have hholds := h.text
  rw [htext] at hholds
  obtain ⟨text, hshifted, hholds'⟩ := hholds.erase
  unfold App.delete
  rw [htext, show e'.cursor = e'.before.length from rfl, hshifted]
  exact keepValid_shows ⟨hholds', rfl, he'⟩

theorem back_shows (h : Shows s e) :
    (e.cursor > 0 → ∃ t, s.delete e.text.length (e.cursor - 1) = some t ∧ Shows t e.backspace) ∧
      (e.cursor > 0 → ∃ t, s.moveTo (e.cursor - 1) = some t ∧ Shows t e.moveLeft) ∧
      (¬e.cursor > 0 → e.backspace = e ∧ e.moveLeft = e) := by
  rcases e.before_cases with ⟨hbefore, hleft, habove⟩ | ⟨c, hbefore, hafter, hmoved, hrest⟩
  · have hcursor : e.cursor = 0 := congrArg List.length hbefore
    refine ⟨fun hpos => absurd hcursor hpos.ne', fun hpos => absurd hcursor hpos.ne', fun _ => ?_⟩
    unfold LineEditor.backspace LineEditor.moveLeft
    rw [hleft, habove]
    exact ⟨rfl, rfl⟩
  · have hcursor : e.cursor = e.backspace.cursor + 1 := by
      rw [LineEditor.cursor, hbefore, List.length_append]
      rfl
    have htext : e.text = e.backspace.before ++ c :: e.after := by
      rw [LineEditor.text, hbefore, List.append_assoc]
      rfl
    have hback : e.cursor - 1 = e.backspace.cursor := by omega
    refine ⟨fun _ => ?_, fun _ => ?_, fun hpos => absurd (hcursor ▸ Nat.succ_pos _) hpos⟩
    · rw [hback]
      exact delete_shows h (hafter ▸ htext) h.lined.takeBefore.1
    · refine moveTo_shows h ?_ (hback.trans (congrArg List.length hmoved.symm)) h.lined.takeBefore.2
      rw [htext, LineEditor.text, hmoved, hrest]

theorem forth_shows (h : Shows s e) :
    (e.cursor < e.text.length →
        ∃ t, s.delete e.text.length e.cursor = some t ∧ Shows t e.delete) ∧
      (e.cursor < e.text.length → ∃ t, s.moveTo (e.cursor + 1) = some t ∧ Shows t e.moveRight) ∧
      (¬e.cursor < e.text.length → e.delete = e ∧ e.moveRight = e) := by
  rcases e.after_cases with ⟨hafter, hright, hbelow⟩ | ⟨c, hafter, hbefore, hmoved, hrest⟩
  · have hcursor : ¬e.cursor < e.text.length := by
      rw [text_length, hafter]
      exact lt_irrefl _
    refine ⟨fun hpos => absurd hpos hcursor, fun hpos => absurd hpos hcursor, fun _ => ?_⟩
    unfold LineEditor.delete LineEditor.moveRight
    rw [hright, hbelow]
    exact ⟨rfl, rfl⟩
  · have hlen : e.cursor < e.text.length := by
      rw [text_length, hafter, List.length_cons]
      omega
    have htext : e.text = e.delete.before ++ c :: e.delete.after := by
      rw [LineEditor.text, hafter, hbefore]
    refine ⟨fun _ => ?_, fun _ => ?_, fun hpos => absurd hlen hpos⟩
    · rw [show e.cursor = e.delete.cursor from congrArg List.length hbefore.symm]
      exact delete_shows h htext h.lined.takeAfter.1
    · refine moveTo_shows h ?_ ?_ h.lined.takeAfter.2
      · rw [LineEditor.text, hmoved, hrest, List.append_assoc, htext, hbefore]
        rfl
      · rw [LineEditor.cursor, LineEditor.cursor, hmoved, List.length_append]
        rfl

/-- The keys of the number pad are letters, which are typed. -/
theorem untyped {k a b : ℤ} (hkey : ¬typed key) (ha : typed a) (hb : typed b) :
    key = k ∨ key = a ∨ key = b ↔ key = k := by
  refine ⟨fun h => ?_, .inl⟩
  rcases h with h | h | h
  · exact h
  · exact absurd (h ▸ ha) hkey
  · exact absurd (h ▸ hb) hkey

theorem line_shows (h : Shows s e) (hmsg : msg.msg_type = .M_KEY_DOWN)
    (hup : msg.params 0 ≠ KEY_PGUP) (hdown : msg.params 0 ≠ KEY_PGDN) :
    ∃ t, safeKeyHandler s msg = some t ∧ Shows t (press e (msg.params 0)) := by
  rw [safeKeyHandler, if_neg (not_not.mpr hmsg), h.text.strlen, Option.bind_some]
  simp only [h.pos, clampPos_eq cursor_le]
  have hs : Shows { s with current_pos := e.cursor } e := ⟨h.text, rfl, h.lined⟩
  generalize ({ s with current_pos := e.cursor } : App) = s at hs
  generalize msg.params 0 = key at hup hdown
  unfold press
  by_cases htyped : typed key
  · rw [if_pos htyped, if_pos htyped]
    refine insert_shows hs fun hzero => ?_
    rw [hzero] at htyped
    revert htyped
    decide
  rw [if_neg htyped, if_neg htyped]
  have two {k a : ℤ} (ha : typed a) : key = k ∨ key = a ↔ key = k :=
    ⟨fun h => h.resolve_right fun h => htyped (h ▸ ha), .inl⟩
  simp only [untyped htyped (k := KEY_LF) (a := KEY_KP_4) (b := 52) (by decide) (by decide),
    untyped htyped (k := KEY_RT) (a := KEY_KP_6) (b := 54) (by decide) (by decide),
    untyped htyped (k := KEY_UP) (a := KEY_KP_8) (b := 56) (by decide) (by decide),
    untyped htyped (k := KEY_DN) (a := KEY_KP_2) (b := 50) (by decide) (by decide),
    two (k := KEY_HOME) (a := KEY_KP_7) (by decide), two (k := KEY_END) (a := KEY_KP_1) (by decide),
    two (k := KEY_PGUP) (a := KEY_KP_9) (by decide), two (k := KEY_PGDN) (a := KEY_KP_3)
    (by decide), dif_neg hup, dif_neg hdown, if_neg hup, if_neg hdown]
  have hkept : ∃ t, s.keepValid = some t ∧ Shows t e := keepValid_shows hs
  by_cases hback : key = backspace
  · subst hback
    by_cases hpos : e.cursor > 0
    · rw [if_pos ⟨rfl, hpos⟩, if_pos rfl]
      exact (back_shows hs).1 hpos
    · rw [if_pos rfl, ((back_shows hs).2.2 hpos).1, if_neg fun h => hpos h.2]
      simpa +decide only [false_and, if_false] using hkept
  rw [if_neg fun h => hback h.1, if_neg hback]
  by_cases hdel : key = KEY_DEL
  · subst hdel
    by_cases hpos : e.cursor < e.text.length
    · rw [if_pos ⟨rfl, hpos⟩, if_pos rfl]
      exact (forth_shows hs).1 hpos
    · rw [if_pos rfl, ((forth_shows hs).2.2 hpos).1, if_neg fun h => hpos h.2]
      simpa +decide only [false_and, if_false] using hkept
  rw [if_neg fun h => hdel h.1, if_neg hdel]
  by_cases hleft : key = KEY_LF
  · subst hleft
    by_cases hpos : e.cursor > 0
    · rw [if_pos ⟨rfl, hpos⟩, if_pos rfl]
      exact (back_shows hs).2.1 hpos
    · rw [if_pos rfl, ((back_shows hs).2.2 hpos).2, if_neg fun h => hpos h.2]
      simpa +decide only [false_and, if_false] using hkept
  rw [if_neg fun h => hleft h.1, if_neg hleft]
  by_cases hright : key = KEY_RT
  · subst hright
    by_cases hpos : e.cursor < e.text.length
    · rw [if_pos ⟨rfl, hpos⟩, if_pos rfl]
      exact (forth_shows hs).2.1 hpos
    · rw [if_pos rfl, ((forth_shows hs).2.2 hpos).2, if_neg fun h => hpos h.2]
      simpa +decide only [false_and, if_false] using hkept
  rw [if_neg fun h => hright h.1, if_neg hright]
  split
  · exact moveTo_shows hs LineEditor.text_up (upFrom_cursor h.text h.lined) hs.lined.up
  split
  · exact moveTo_shows hs LineEditor.text_down (downFrom_cursor h.text h.lined) hs.lined.down
  split
  · refine moveTo_shows hs LineEditor.text_home ?_ hs.lined.home
    rw [lineStart_cursor h.text h.lined, LineEditor.cursor, LineEditor.before, LineEditor.home,
      List.reverse_nil, List.append_nil]
  split
  · refine moveTo_shows hs LineEditor.text_goToEnd ?_ hs.lined.goToEnd
    rw [lineEnd_cursor h.text h.lined]
    simp only [LineEditor.cursor, LineEditor.before, LineEditor.goToEnd, LineEditor.line,
      List.reverse_reverse, List.length_append, Nat.add_assoc]
  exact hkept

theorem repeated_shows {f : App → Option App} {g : LineEditor → LineEditor}
    (hf : ∀ {s e}, Shows s e → ∃ t, f s = some t ∧ Shows t (g e)) :
    ∀ {n s e}, Shows s e → ∃ t, repeated n f s = some t ∧ Shows t (g^[n] e)
  | 0, s, _, h => ⟨s, rfl, h⟩
  | n + 1, s, e, h => by
    obtain ⟨t, ht, htshows⟩ := hf h
    obtain ⟨u, hu, hushows⟩ := repeated_shows hf (n := n) htshows
    refine ⟨u, ?_, hushows⟩
    rw [repeated, ht]
    exact hu

/-- A key shown by the array is the key of the line editor. -/
theorem safeKeyHandler_shows (h : Shows s e) (msg : Message) :
    ∃ t, safeKeyHandler s msg = some t ∧ Shows t (receive e msg) := by
  unfold receive
  by_cases hmsg : msg.msg_type = .M_KEY_DOWN
  swap
  · rw [if_neg hmsg, safeKeyHandler, if_pos hmsg]
    exact ⟨s, rfl, h⟩
  rw [if_pos hmsg]
  have hs : Shows { s with current_pos := e.cursor } e := ⟨h.text, rfl, h.lined⟩
  by_cases hup : msg.params 0 = KEY_PGUP
  · have hten := repeated_shows (f := fun s => safeKeyHandler s (simulated msg KEY_UP))
      (g := LineEditor.up) (fun {s e} h => by
        have hkey : (simulated msg KEY_UP).msg_type = .M_KEY_DOWN := hmsg
        have hline := line_shows h hkey
        rw [simulated_key] at hline
        exact hline (by decide) (by decide)) (n := 10) hs
    rw [safeKeyHandler, if_neg (not_not.mpr hmsg), h.text.strlen, Option.bind_some]
    simp only [h.pos, clampPos_eq cursor_le, hup]
    simpa +decide only [press, false_and, if_false, if_true, dite_true] using hten
  by_cases hdown : msg.params 0 = KEY_PGDN
  · have hten := repeated_shows (f := fun s => safeKeyHandler s (simulated msg KEY_DN))
      (g := LineEditor.down) (fun {s e} h => by
        have hkey : (simulated msg KEY_DN).msg_type = .M_KEY_DOWN := hmsg
        have hline := line_shows h hkey
        rw [simulated_key] at hline
        exact hline (by decide) (by decide)) (n := 10) hs
    rw [safeKeyHandler, if_neg (not_not.mpr hmsg), h.text.strlen, Option.bind_some]
    simp only [h.pos, clampPos_eq cursor_le, hdown]
    simpa +decide only [press, false_and, if_false, if_true, dite_true, dite_false] using hten
  exact line_shows h hmsg hup hdown

theorem keys_shows (msgs : List Message) (h : Shows s e) :
    ∃ t, keys s msgs = some t ∧ Shows t (msgs.foldl receive e) := by
  induction msgs generalizing s e with
  | nil => exact ⟨s, rfl, h⟩
  | cons msg msgs ih =>
    obtain ⟨t, ht, htshows⟩ := safeKeyHandler_shows h msg
    obtain ⟨u, hu, hushows⟩ := ih htshows
    refine ⟨u, ?_, hushows⟩
    rw [keys, List.foldlM_cons, ht]
    exact hu

end Handler

theorem backspace_insert {e : LineEditor} {limit : ℕ} {c : ℤ} (hroom : e.text.length ≠ limit) :
    (e.insert limit c).backspace = e := by
  unfold LineEditor.insert
  rw [if_neg hroom]
  split
  · simp only [LineEditor.backspace, List.reverse_reverse]
  · rfl

/-- From any text and any cursor in it the keys have the effect they have on the line editor,
and a character that is typed and taken back leaves the text and the cursor as they were. -/
theorem safeKeyHandler_refines (s : App) (l : List ℤ) (htext : Holds MAX_LONG_STRLEN s.text l)
    (hpos : 0 ≤ s.current_pos ∧ s.current_pos ≤ l.length) :
    let e := LineEditor.ofText l s.current_pos.toNat
    (e.text = l ∧ (e.cursor : ℤ) = s.current_pos) ∧
      (∀ msgs : List Message, ∃ t, keys s msgs = some t ∧
        Holds MAX_LONG_STRLEN t.text (msgs.foldl receive e).text ∧
        t.current_pos = (msgs.foldl receive e).cursor) ∧
      ∀ msg back : Message, msg.msg_type = .M_KEY_DOWN → typed (msg.params 0) →
        back.msg_type = .M_KEY_DOWN → back.params 0 = backspace → l.length < MAX_LONG_STRLEN - 1 →
          ∃ t, keys s [msg, back] = some t ∧ Holds MAX_LONG_STRLEN t.text l ∧
            t.current_pos = s.current_pos := by
  intro e
  have hl : e.text = l := LineEditor.text_ofText
  have hcursor : (e.cursor : ℤ) = s.current_pos := by
    rw [LineEditor.cursor_ofText (by omega)]
    exact Int.toNat_of_nonneg hpos.1
  have hs : Shows s e := ⟨hl.symm ▸ htext, hcursor.symm, LineEditor.lined_ofText⟩
  refine ⟨⟨hl, hcursor⟩, fun msgs => ?_, fun msg back hmsg htyped hback hkey hroom => ?_⟩
  · obtain ⟨t, ht, hshows⟩ := keys_shows msgs hs
    exact ⟨t, ht, hshows.text, hshows.pos⟩
  · obtain ⟨t, ht, hshows⟩ := keys_shows [msg, back] hs
    have hfold : [msg, back].foldl receive e = e := by
      simp only [List.foldl_cons, List.foldl_nil, receive, hmsg, hback, hkey, if_true, press,
        if_pos htyped]
      rw [if_neg (by decide)]
      exact backspace_insert (by rw [hl]; omega)
    rw [hfold] at hshows
    exact ⟨t, ht, hl ▸ hshows.text, hshows.pos.trans hcursor⟩

/-- Two lines, with the cursor behind the first character of the second. -/
def twoLines : App := ⟨fun i => [97, 98, 99, newline, 100, 101].getD i 0, 5, false, false⟩

theorem safeKeyHandler_refines_twoLines :
    ∃ t, keys twoLines [.at .M_KEY_DOWN KEY_UP 0, .at .M_KEY_DOWN 120 0] = some t ∧
      Holds MAX_LONG_STRLEN t.text [97, 120, 98, 99, newline, 100, 101] ∧ t.current_pos = 2 :=
  (safeKeyHandler_refines twoLines [97, 98, 99, newline, 100, 101]
    ⟨by decide, by decide, fun _ _ => rfl⟩ (by decide)).2.1
    [.at .M_KEY_DOWN KEY_UP 0, .at .M_KEY_DOWN 120 0]

end NorthOS.Editor
