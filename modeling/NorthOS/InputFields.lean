import NorthOS.CString
import NorthOS.TextCopies

/-!
The arrays behind an input field. `inputFieldKeyHandler` makes room for a character and closes
the gap of one by copying the rest of the text to a temporary and back with strcpy, which does
not look for the end of the arrays. The terminal hands it a key only while there is room; a
dialog of the explorer hands it every key.
-/
namespace NorthOS.InputFields

open CString TextCopies Runs
open UserGui (CHARACTER_WIDTH CHARACTER_HEIGHT newline getMouseYFromOffset)
open WindowManager (Message MsgType WinRect)

/-- The widget of an input field with its context. -/
structure Field where
  position : WinRect
  text : Cells
  current_pos : ℤ

def Field.width (f : Field) : ℤ := f.position.xmax - f.position.xmin

/-- The number of a cell; an access before the array has none. -/
def cellOf (i : ℤ) : Option ℕ := if 0 ≤ i then some i.toNat else none

/-- The field that addInputFieldWidget makes of a text, in memory of malloc. -/
def addInputFieldWidget (position : WinRect) (memory : Cells) (size : ℕ) (text : Cells) :
    Option Field :=
  (strcpy MAX_LONG_STRLEN 0 memory size 0 text).bind fun copied =>
    (strlen size text).map fun len : ℕ => { position := position, text := copied, current_pos := len }

section Keys

variable (f : Field) (newChar : ℤ)

/-- `temp` is the temporary, with what it has before. -/
def putChar (temp : Cells) : Option Field :=
  if typed newChar then
    (cellOf f.current_pos).bind fun pos =>
      (strcpy MAX_LONG_STRLEN 0 temp MAX_LONG_STRLEN pos f.text).bind fun temp =>
        (store MAX_LONG_STRLEN pos newChar f.text).bind fun text =>
          (strcpy MAX_LONG_STRLEN (pos + 1) text MAX_LONG_STRLEN 0 temp).map fun text =>
            { f with text := text, current_pos := (pos + 1 : ℕ) }
  else some f

/-- The cursor keys read the text as the string that it is. -/
def moveCursor (charCount : ℕ) : Option Field :=
  (string MAX_LONG_STRLEN f.text).bind fun text =>
    (cellOf f.current_pos).map fun pos =>
      let moved := TextCopies.moveCursor ⟨text, pos⟩ f.width newChar charCount
      { f with current_pos := moved.current_pos }

def dropChar (temp : Cells) : Option Field :=
  if newChar = backspace ∧ f.current_pos > 0 then
    (cellOf f.current_pos).bind fun pos =>
      (strcpy MAX_LONG_STRLEN 0 temp MAX_LONG_STRLEN pos f.text).bind fun temp =>
        (strcpy MAX_LONG_STRLEN (pos - 1) f.text MAX_LONG_STRLEN 0 temp).map fun text =>
          { f with text := text, current_pos := (pos - 1 : ℕ) }
  else some f

def inputFieldKeyHandler (temp : Cells) : Option Field :=
  (strlen MAX_LONG_STRLEN f.text).bind fun charCount =>
    (putChar f newChar temp).bind fun f =>
      (moveCursor f newChar charCount).bind fun f => dropChar f newChar temp

end Keys

def inputMouseLeftClickHandler (f : Field) (mouse_x mouse_y : ℤ) : Option Field :=
  (string MAX_LONG_STRLEN f.text).map fun text =>
    let mouse_char_y := (mouse_y - f.position.ymin).tdiv CHARACTER_HEIGHT
    let mouse_char_x := (mouse_x - f.position.xmin).tdiv CHARACTER_WIDTH
    { f with
      current_pos := getInputOffsetFromMousePosition text f.width mouse_char_x mouse_char_y }

/-- The height of the field of the terminal follows the text. -/
def grow (f : Field) : Option Field :=
  (string MAX_LONG_STRLEN f.text).map fun text =>
    let textLines := getMouseYFromOffset text f.width text.length + 1
    let newHeight := textLines * CHARACTER_HEIGHT
    if newHeight > CHARACTER_HEIGHT ∧ newHeight < bottomAreaHeight - 5 then
      { f with position := { f.position with ymax := f.position.ymin + newHeight } }
    else f

/-- The handler of the terminal; executing a command leaves the field alone. -/
def inputHandler (temp : Cells) (f : Field) (msg : Message) : Option Field :=
  (strlen MAX_LONG_STRLEN f.text).bind fun charCount =>
    if msg.msg_type = .M_MOUSE_LEFT_CLICK then
      inputMouseLeftClickHandler f (msg.params 0) (msg.params 1)
    else if msg.msg_type = .M_KEY_DOWN then
      if msg.params 0 = newline then
        if charCount = 0 then some f
        else (store MAX_LONG_STRLEN 0 0 f.text).map fun text =>
          { f with text := text, current_pos := 0 }
      else if charCount < MAX_LONG_STRLEN - 1 then
        (inputFieldKeyHandler f (msg.params 0) temp).bind grow
      else grow f
    else some f

def dialogInputHandler (temp : Cells) (f : Field) (msg : Message) : Option Field :=
  if msg.msg_type ≠ .M_KEY_DOWN then some f else inputFieldKeyHandler f (msg.params 0) temp

/-- The text of the field is that list, and the cursor is in it. -/
structure Shows (f : Field) (g : InputField) : Prop where
  text : Holds MAX_LONG_STRLEN f.text g.text
  pos : f.current_pos = g.current_pos
  valid : g.Valid

/-- A character is typed only into a text of less than 999 characters. -/
def Room (f : Field) (msg : Message) : Prop :=
  msg.msg_type = .M_KEY_DOWN → typed (msg.params 0) →
    ∀ len, strlen MAX_LONG_STRLEN f.text = some len → len < MAX_LONG_STRLEN - 1

/-- What the handlers promise of a field: `0 ≤ current_pos ≤ strlen(text) < MAX_LONG_STRLEN`. -/
def Field.Bounded (f : Field) : Prop :=
  ∃ len : ℕ, strlen MAX_LONG_STRLEN f.text = some len ∧ 0 ≤ f.current_pos ∧ f.current_pos ≤ len ∧
    len < MAX_LONG_STRLEN

section Handler

variable {f : Field} {g : InputField} {c : ℤ} {temp : Cells} {msg : Message}

theorem cellOf_natCast (n : ℕ) : cellOf n = some n := by
  unfold cellOf
  rw [if_pos (Int.natCast_nonneg n), Int.toNat_natCast]

theorem Shows.bounded (h : Shows f g) : f.Bounded := by
  refine ⟨g.text.length, h.text.strlen, ?_, ?_, h.text.room⟩
  · rw [h.pos]
    exact Int.natCast_nonneg _
  · rw [h.pos]
    exact Int.ofNat_le.mpr h.valid

/-- The text before the cursor and the rest of it. -/
theorem Shows.split (h : Shows f g) :
    g.text = g.text.take g.current_pos ++ g.text.drop g.current_pos ∧
      (g.text.take g.current_pos).length = g.current_pos :=
  ⟨(List.take_append_drop _ _).symm, List.length_take_of_le h.valid⟩

theorem putChar_room (h : Shows f g) (hroom : typed c → g.text.length < MAX_LONG_STRLEN - 1) :
    ∃ t, putChar f c temp = some t ∧ t.position = f.position ∧ Shows t (insertChar g c).1 := by
  obtain ⟨hsplit, hpos⟩ := h.split
  have hvalid : (insertChar g c).1.Valid := insertChar_valid h.valid
  unfold putChar
  unfold insertChar at hvalid ⊢
  by_cases hc : typed c
  swap
  · rw [if_neg hc]
    rw [if_neg hc] at hvalid ⊢
    exact ⟨f, rfl, rfl, h⟩
  rw [if_pos hc]
  rw [if_pos hc] at hvalid ⊢
  generalize hu : g.text.take g.current_pos = u at *
  generalize hv : g.text.drop g.current_pos = v at *
  have hlen : g.text.length = u.length + v.length := by rw [hsplit, List.length_append]
  have hfits : u.length + v.length < MAX_LONG_STRLEN - 1 := hlen ▸ hroom hc
  have hholds : Holds MAX_LONG_STRLEN f.text (u ++ v) := hsplit ▸ h.text
  have hnonzero := hholds.nonzero
  rw [List.mem_append, not_or] at hnonzero
  obtain ⟨saved, hsaved, hrest⟩ := hholds.strcpy_rest (n := MAX_LONG_STRLEN) (a := temp) (by omega)
  have hc0 : c ≠ 0 := by
    rintro rfl
    revert hc
    decide
  have hbegins : Begins (Function.update f.text u.length c) (u ++ [c]) := hholds.begins.update
  obtain ⟨text, htext, hdone⟩ := hrest.strcpy_whole (n := MAX_LONG_STRLEN) hbegins
    (by
      rw [List.mem_append, List.mem_singleton, not_or]
      exact ⟨hnonzero.1, hc0.symm⟩)
    (by
      rw [List.length_append, List.length_singleton]
      omega)
  rw [List.length_append, List.length_singleton] at htext
  rw [← hpos] at hvalid
  rw [h.pos, cellOf_natCast, Option.bind_some, ← hpos, hsaved, Option.bind_some,
    store_eq (by omega), Option.bind_some, htext, Option.map_some]
  rw [List.append_assoc] at hdone
  exact ⟨_, rfl, rfl, hdone, rfl, hvalid⟩

theorem putChar_full (h : Shows f g) (hc : typed c) (hfull : ¬g.text.length < MAX_LONG_STRLEN - 1) :
    putChar f c temp = none := by
  obtain ⟨hsplit, hpos⟩ := h.split
  generalize hu : g.text.take g.current_pos = u at *
  generalize hv : g.text.drop g.current_pos = v at *
  have hlen : g.text.length = u.length + v.length := by rw [hsplit, List.length_append]
  have hbound := h.text.room
  have hholds : Holds MAX_LONG_STRLEN f.text (u ++ v) := hsplit ▸ h.text
  obtain ⟨saved, hsaved, hrest⟩ := hholds.strcpy_rest (n := MAX_LONG_STRLEN) (a := temp) (by omega)
  have hover := strcpy_none (n := MAX_LONG_STRLEN) (i := u.length + 1)
    (a := Function.update f.text u.length c) (v := []) hrest (by omega)
  rw [List.length_nil] at hover
  unfold putChar
  rw [if_pos hc, h.pos, cellOf_natCast, Option.bind_some, ← hpos, hsaved, Option.bind_some,
    store_eq (by omega), Option.bind_some, hover, Option.map_none]

theorem moveCursor_shows {charCount : ℕ} (h : Shows f g) (hcount : charCount ≤ g.text.length) :
    ∃ t, moveCursor f c charCount = some t ∧ t.position = f.position ∧
      Shows t (TextCopies.moveCursor g f.width c charCount) := by
  have hvalid : (TextCopies.moveCursor g f.width c charCount).Valid :=
    moveCursor_valid h.valid hcount
  unfold moveCursor
  rw [h.text.string, Option.bind_some, h.pos, cellOf_natCast, Option.map_some]
  exact ⟨_, rfl, rfl, h.text, rfl, hvalid⟩

theorem dropChar_shows (h : Shows f g) :
    ∃ t, dropChar f c temp = some t ∧ t.position = f.position ∧ Shows t (deleteChar g c).1 := by
  obtain ⟨hsplit, hpos⟩ := h.split
  have hvalid : (deleteChar g c).1.Valid := (deleteChar_spec h.valid).1
  unfold dropChar
  unfold deleteChar at hvalid ⊢
  by_cases hback : c = backspace ∧ g.current_pos > 0
  swap
  · rw [if_neg (by rw [h.pos]; omega)]
    rw [if_neg hback] at hvalid ⊢
    exact ⟨f, rfl, rfl, h⟩
  rw [if_pos (by rw [h.pos]; omega)]
  rw [if_pos hback] at hvalid ⊢
  have hbound := h.text.room
  have hkept : (g.text.take (g.current_pos - 1)).length = g.current_pos - 1 :=
    List.length_take_of_le ((Nat.sub_le _ _).trans h.valid)
  have hdropped := List.length_drop (i := g.current_pos) (l := g.text)
  have hholds : Holds MAX_LONG_STRLEN f.text (g.text.take g.current_pos ++
      g.text.drop g.current_pos) :=
    hsplit ▸ h.text
  obtain ⟨saved, hsaved, hrest⟩ := hholds.strcpy_rest (n := MAX_LONG_STRLEN) (a := temp) (by omega)
  have hbegins : Begins f.text (g.text.take (g.current_pos - 1)) := by
    refine Holds.begins (v := g.text.drop (g.current_pos - 1)) (n := MAX_LONG_STRLEN) ?_
    rw [List.take_append_drop]
    exact h.text
  have hvalid' := h.valid
  unfold InputField.Valid at hvalid'
  obtain ⟨text, htext, hdone⟩ := hrest.strcpy_whole (n := MAX_LONG_STRLEN) hbegins
    (fun hmem => h.text.nonzero (List.mem_of_mem_take hmem)) (by omega)
  rw [hpos] at hsaved
  rw [hkept] at htext
  rw [h.pos, cellOf_natCast, Option.bind_some, hsaved, Option.bind_some, htext, Option.map_some]
  exact ⟨_, rfl, rfl, hdone, rfl, hvalid⟩

/-- The handler does on the arrays what it does on lists while a character has room. -/
theorem inputFieldKeyHandler_room (h : Shows f g)
    (hroom : typed c → g.text.length < MAX_LONG_STRLEN - 1) :
    ∃ t, inputFieldKeyHandler f c temp = some t ∧ t.position = f.position ∧
      Shows t (TextCopies.inputFieldKeyHandler g f.width c).1 := by
  obtain ⟨f₁, h₁, hpos₁, hs₁⟩ := putChar_room h hroom
  have hcount : g.text.length ≤ (insertChar g c).1.text.length := by
    rw [insertChar_length h.valid]
    exact Nat.le_add_right _ _
  obtain ⟨f₂, h₂, hpos₂, hs₂⟩ := moveCursor_shows (c := c) hs₁ hcount
  obtain ⟨f₃, h₃, hpos₃, hs₃⟩ := dropChar_shows (c := c) hs₂
  have hwidth : f₁.width = f.width := by rw [Field.width, hpos₁, Field.width]
  refine ⟨f₃, ?_, hpos₃.trans (hpos₂.trans hpos₁), hwidth ▸ hs₃⟩
  unfold inputFieldKeyHandler
  rw [h.text.strlen, Option.bind_some, h₁, Option.bind_some, h₂]
  exact h₃

theorem inputFieldKeyHandler_full (h : Shows f g) (hc : typed c)
    (hfull : ¬g.text.length < MAX_LONG_STRLEN - 1) : inputFieldKeyHandler f c temp = none := by
  unfold inputFieldKeyHandler
  rw [h.text.strlen, Option.bind_some, putChar_full h hc hfull]
  rfl

theorem grow_shows (h : Shows f g) : ∃ t, grow f = some t ∧ Shows t g := by
  unfold grow
  rw [h.text.string, Option.map_some]
  refine ⟨_, rfl, ?_⟩
  simp only
  split
  · exact ⟨h.text, h.pos, h.valid⟩
  · exact h

/-- The terminal handles every message within its arrays. -/
theorem inputHandler_shows (h : Shows f g) :
    ∃ t, inputHandler temp f msg = some t ∧ ∃ g', Shows t g' := by
  unfold inputHandler
  rw [h.text.strlen, Option.bind_some]
  split
  · unfold inputMouseLeftClickHandler
    rw [h.text.string, Option.map_some]
    exact ⟨_, rfl, ⟨g.text, getInputOffsetFromMousePosition g.text _ _ _⟩, h.text, rfl,
      getInputOffset_le⟩
  split
  · split
    · split
      · exact ⟨f, rfl, g, h⟩
      · rw [store_eq (by decide), Option.map_some]
        have hempty : Holds MAX_LONG_STRLEN (Function.update f.text 0 0) [] :=
          holds_nil (by decide) (Function.update_self (0 : ℕ) (0 : ℤ) f.text)
        exact ⟨_, rfl, ⟨[], 0⟩, hempty, rfl, le_rfl⟩
    · split
      · rename_i hroom
        obtain ⟨t, ht, _, hs⟩ := inputFieldKeyHandler_room (c := msg.params 0) h
          fun _ => hroom
        obtain ⟨u, hu, hus⟩ := grow_shows hs
        rw [ht]
        exact ⟨u, hu, _, hus⟩
      · obtain ⟨t, ht, hs⟩ := grow_shows h
        exact ⟨t, ht, g, hs⟩
  · exact ⟨f, rfl, g, h⟩

theorem room_iff (h : Shows f g) : Room f msg ↔
    (msg.msg_type = .M_KEY_DOWN → typed (msg.params 0) → g.text.length < MAX_LONG_STRLEN - 1) := by
  unfold Room
  rw [h.text.strlen]
  simp only [Option.some.injEq, forall_eq']

/-- A dialog handles a message within its arrays exactly if a character has room. -/
theorem dialogInputHandler_shows_iff (h : Shows f g) :
    (∃ t, dialogInputHandler temp f msg = some t) ↔ Room f msg := by
  rw [room_iff h]
  unfold dialogInputHandler
  by_cases hmsg : msg.msg_type = .M_KEY_DOWN
  swap
  · rw [if_pos hmsg]
    exact iff_of_true ⟨f, rfl⟩ fun hkey => absurd hkey hmsg
  rw [if_neg (not_not.mpr hmsg)]
  constructor
  · rintro ⟨t, ht⟩ _ hc
    by_contra hfull
    rw [inputFieldKeyHandler_full h hc hfull] at ht
    cases ht
  · intro hroom
    obtain ⟨t, ht, _⟩ := inputFieldKeyHandler_room h (hroom hmsg)
    exact ⟨t, ht⟩

theorem dialogInputHandler_shows {t : Field} (h : Shows f g)
    (ht : dialogInputHandler temp f msg = some t) : ∃ g', Shows t g' := by
  have hroom := (room_iff h).mp ((dialogInputHandler_shows_iff h).mp ⟨t, ht⟩)
  unfold dialogInputHandler at ht
  by_cases hmsg : msg.msg_type = .M_KEY_DOWN
  · obtain ⟨u, hu, _, hs⟩ := inputFieldKeyHandler_room h (hroom hmsg)
    rw [if_neg (not_not.mpr hmsg), hu] at ht
    cases ht
    exact ⟨_, hs⟩
  · rw [if_pos hmsg] at ht
    cases ht
    exact ⟨g, h⟩

theorem addInputFieldWidget_shows {position : WinRect} {memory text : Cells} {size : ℕ} {l : List ℤ}
    (hl : Holds size text l) (hroom : l.length < MAX_LONG_STRLEN) :
    ∃ t, addInputFieldWidget position memory size text = some t ∧ Shows t ⟨l, l.length⟩ := by
  obtain ⟨copied, hcopied, hholds⟩ := Holds.strcpy_rest (v := []) (a := memory) hl hroom
  rw [List.length_nil] at hcopied
  unfold addInputFieldWidget
  rw [hcopied, Option.bind_some, hl.strlen, Option.map_some]
  exact ⟨_, rfl, hholds, rfl, le_rfl⟩

end Handler

/-- A message, with what the memory of the temporary has before it. -/
abbrev Delivery := Cells × Message

def terminalStep (f : Field) (d : Delivery) : Option Field := inputHandler d.1 f d.2

def dialogStep (f : Field) (d : Delivery) : Option Field := dialogInputHandler d.1 f d.2

def Field.Shown (f : Field) : Prop := ∃ g, Shows f g

theorem Field.Shown.bounded {f : Field} (h : f.Shown) : f.Bounded := by
  obtain ⟨g, hg⟩ := h
  exact hg.bounded

theorem terminalStep_shown {f t : Field} {d : Delivery} (h : f.Shown)
    (ht : terminalStep f d = some t) : t.Shown := by
  obtain ⟨g, hg⟩ := h
  obtain ⟨u, hu, hushown⟩ := inputHandler_shows hg
  cases ht.symm.trans hu
  exact hushown

theorem dialogStep_shown {f t : Field} {d : Delivery} (h : f.Shown)
    (ht : dialogStep f d = some t) : t.Shown := by
  obtain ⟨g, hg⟩ := h
  exact dialogInputHandler_shows hg ht

/-- Every message is handled within the arrays, and the field is bounded after each. -/
def Handled (step : Field → Delivery → Option Field) (f : Field) (ds : List Delivery) : Prop :=
  (∃ t, run step f ds = some t) ∧ Always step Field.Bounded f ds

/-- The field of the terminal is bounded in every run. The one of a dialog is bounded and no
copy leaves its array exactly if no character is typed into a text of 999 characters. -/
theorem handled_iff (position : WinRect) (memory : Cells) (ds : List Delivery) {size : ℕ}
    {defaultText : Cells} {l : List ℤ} (hl : Holds size defaultText l)
    (hroom : l.length < MAX_LONG_STRLEN) :
    (∃ f, addInputFieldWidget position memory 1 (fun _ => 0) = some f ∧
        Handled terminalStep f ds) ∧
      ∃ f, addInputFieldWidget position memory size defaultText = some f ∧
        (Handled dialogStep f ds ↔ Along dialogStep (fun f d => Room f d.2) f ds) := by
  constructor
  · obtain ⟨f, hf, hshows⟩ := addInputFieldWidget_shows
      (holds_nil (n := 1) (a := fun _ => 0) Nat.one_pos rfl) (by decide)
    have hshown : f.Shown := ⟨_, hshows⟩
    refine ⟨f, hf, ?_, ?_⟩
    · refine (run_iff_along (C := fun _ _ => True) (fun f d h => ?_)
        (fun f d t => terminalStep_shown) hshown ds).mpr ?_
      · obtain ⟨g, hg⟩ := h
        obtain ⟨t, ht, _⟩ := inputHandler_shows hg
        exact iff_of_true ⟨t, ht⟩ trivial
      · exact along_of_invariant (fun _ _ _ => trivial) (fun f d t => terminalStep_shown) hshown ds
    · exact (always_of_invariant (fun f d t => terminalStep_shown) hshown ds).mono
        fun f h => h.bounded
  · obtain ⟨f, hf, hshows⟩ := addInputFieldWidget_shows
      hl hroom
    have hshown : f.Shown := ⟨_, hshows⟩
    have hbounded : Always dialogStep Field.Bounded f ds :=
      (always_of_invariant (fun f d t => dialogStep_shown) hshown ds).mono fun f h => h.bounded
    refine ⟨f, hf, Iff.trans (and_iff_left hbounded) ?_⟩
    refine run_iff_along (fun f d h => ?_) (fun f d t => dialogStep_shown) hshown ds
    obtain ⟨g, hg⟩ := h
    exact dialogInputHandler_shows_iff hg

def newfolder : Cells := fun i => (cstr "newfolder").getD i 0

theorem newfolder_holds : Holds 10 newfolder (cstr "newfolder") :=
  ⟨by decide, by decide, fun _ _ => rfl⟩

/-- The dialog for a new folder with the name it proposes, and one key. -/
theorem handled_iff_newfolder :
    (∃ f, addInputFieldWidget ⟨0, 300, 0, 28⟩ (fun _ => 7) 1 (fun _ => 0) = some f ∧
        Handled terminalStep f [(fun _ => 1, .at .M_KEY_DOWN 97 0)]) ∧
      ∃ f, addInputFieldWidget ⟨0, 300, 0, 28⟩ (fun _ => 7) 10 newfolder = some f ∧
        (Handled dialogStep f [(fun _ => 1, .at .M_KEY_DOWN 97 0)] ↔
          Along dialogStep (fun f d => Room f d.2) f [(fun _ => 1, .at .M_KEY_DOWN 97 0)]) :=
  handled_iff ⟨0, 300, 0, 28⟩ (fun _ => 7) [(fun _ => 1, .at .M_KEY_DOWN 97 0)] newfolder_holds
    (by decide)

section Overflow

variable {f t : Field} {g : InputField} {c width : ℤ}

theorem deleteChar_typed (hc : typed c) : deleteChar g c = (g, []) := by
  refine if_neg ?_
  rintro ⟨rfl, _⟩
  revert hc
  decide

theorem typed_length (hc : typed c) (hg : g.Valid) :
    (TextCopies.inputFieldKeyHandler g width c).1.text.length = g.text.length + 1 := by
  have hlen := insertChar_length (c := c) hg
  rw [if_pos hc] at hlen
  unfold TextCopies.inputFieldKeyHandler
  simp only [deleteChar_typed hc]
  exact hlen

/-- As long as the dialog takes them, each character makes the text longer by one. -/
theorem typed_run (hc : typed c) (h : Shows f g) {n : ℕ}
    (ht : run dialogStep f (List.replicate n (fun _ => 0, .at .M_KEY_DOWN c 0)) = some t) :
    ∃ g', Shows t g' ∧ g'.text.length = g.text.length + n := by
  induction n generalizing f g with
  | zero =>
    cases ht
    exact ⟨g, h, rfl⟩
  | succ n ih =>
    obtain ⟨u, hu, hrest⟩ := Option.bind_eq_some_iff.mp ht
    have hroom := (room_iff h).mp ((dialogInputHandler_shows_iff h).mp ⟨u, hu⟩) rfl
    obtain ⟨u', hu', _, hs⟩ := inputFieldKeyHandler_room (c := c) h hroom
    cases hu.symm.trans hu'
    obtain ⟨g', hg', hlen⟩ := ih hs hrest
    refine ⟨g', hg', ?_⟩
    rw [hlen, typed_length hc h.valid]
    omega

end Overflow

/-- 991 characters typed behind the nine of the name proposed for a folder. -/
theorem not_always_handled :
    ¬∀ (f : Field) (ds : List Delivery),
      addInputFieldWidget ⟨0, 300, 0, 28⟩ (fun _ => 0) 10 newfolder = some f →
        Handled dialogStep f ds := by
  intro h
  obtain ⟨f, hf, hshows⟩ := addInputFieldWidget_shows
    newfolder_holds (by decide)
  obtain ⟨t, ht⟩ := (h f (List.replicate 991 (fun _ => 0, .at .M_KEY_DOWN 97 0)) hf).1
  obtain ⟨g, hg, hlen⟩ := typed_run (by decide) hshows ht
  have hbound : g.text.length < 1000 := hg.text.room
  have hdefault : (cstr "newfolder").length = 9 := rfl
  rw [hlen, hdefault] at hbound
  omega

end NorthOS.InputFields
