import NorthOS.InputFields
import NorthOS.MousePositions

/-!
What a key does to an input field, against what it does in a text editor. The text is always
edited as it should be. But the tests for the cursor keys also look at the digits and at the codes
of the keypad, which are the codes of capital letters, so after some characters the cursor moves
on.
-/
namespace NorthOS.FieldKeys

open UserGui (newline nextCell getMouseXFromOffset getMouseYFromOffset)
open TextCopies (KEY_HOME KEY_END KEY_UP KEY_DN KEY_LF KEY_RT KEY_KP_1 KEY_KP_2 KEY_KP_4 KEY_KP_6
  KEY_KP_7 KEY_KP_8 backspace typed InputField insertChar moveCursor deleteChar MAX_LONG_STRLEN
  getInputOffsetFromMousePosition inputFieldKeyHandler_valid)
open InputFields (Field Shows inputFieldKeyHandler inputFieldKeyHandler_room)
open CString (Cells)
open MousePositions (cell cell_path cell_succ cell_eq charPerLine getInputOffset_search)
open TextRows

/-- The arrow keys, Home and End. -/
def cursorKeys : List ℤ := [KEY_LF, KEY_RT, KEY_UP, KEY_DN, KEY_HOME, KEY_END]

def insertedText (f : InputField) (newChar : ℤ) : List ℤ :=
  f.text.take f.current_pos ++ newChar :: f.text.drop f.current_pos

/-- What a text editor makes of a field. -/
structure Edited (f : InputField) (newChar : ℤ) (f' : InputField) : Prop where
  typed : typed newChar → f' = ⟨insertedText f newChar, f.current_pos + 1⟩
  erased : newChar = backspace →
    f' = ⟨f.text.take (f.current_pos - 1) ++ f.text.drop f.current_pos, f.current_pos - 1⟩
  moved : newChar ∈ cursorKeys → f'.text = f.text
  valid : f'.Valid

/-- The cursor stays behind the character of the key: what the fields have to be like for the
characters that are cursor keys as well. -/
def CursorKept (f : InputField) (width newChar : ℤ) : Prop :=
  let column := getMouseXFromOffset f.text width f.current_pos
  let row := getMouseYFromOffset f.text width f.current_pos
  if newChar = KEY_KP_4 ∨ newChar = 52 then False
  else if newChar = KEY_KP_6 ∨ newChar = 54 then f.text.length ≤ f.current_pos + 1
  else if newChar = KEY_KP_8 ∨ newChar = 56 then
    f.current_pos = f.text.length ∧ f.text.head? = some newline ∧ row = 1 ∧
      column < charPerLine width
  else if newChar = KEY_KP_2 ∨ newChar = 50 then f.current_pos = f.text.length
  else if newChar = KEY_KP_7 then charPerLine width ≤ column
  else if newChar = KEY_KP_1 then
    if f.current_pos = f.text.length then f.text = [] ∨ charPerLine width ≤ column
    else f.current_pos + 1 = f.text.length ∨ f.text[f.current_pos]? = some newline ∨
      column + 1 = charPerLine width ∨ charPerLine width ≤ 0
  else True

variable {f : InputField} {width c : ℤ} {p : ℕ}

section Inserted

theorem insertedText_length (hf : f.Valid) : (insertedText f c).length = f.text.length + 1 := by
  unfold InputField.Valid at hf
  unfold insertedText
  rw [List.length_append, List.length_take_of_le hf, List.length_cons, List.length_drop]
  omega

/-- Up to the cursor the cells are those of the text before. -/
theorem cell_before (hf : f.Valid) (hp : p ≤ f.current_pos) :
    cell (insertedText f c) width p = cell f.text width p := by
  unfold InputField.Valid at hf
  have hlen : p ≤ (f.text.take f.current_pos).length := by rwa [List.length_take_of_le hf]
  unfold insertedText
  rw [cell_eq, cell_eq, List.take_append_of_le_length hlen, List.take_take, min_eq_left hp]

theorem getElem_inserted (hf : f.Valid) (hlt : f.current_pos < (insertedText f c).length) :
    (insertedText f c)[f.current_pos] = c := by
  have hlen : (f.text.take f.current_pos).length = f.current_pos := List.length_take_of_le hf
  revert hlt
  unfold insertedText
  intro hlt
  rw [List.getElem_append_right (by omega)]
  simp only [hlen, Nat.sub_self, List.getElem_cons_zero]

theorem cell_behind (hf : f.Valid) :
    cell (insertedText f c) width (f.current_pos + 1) =
      nextCell (charPerLine width) c (cell f.text width f.current_pos) := by
  have hlen := insertedText_length (c := c) hf
  unfold InputField.Valid at hf
  have hlt : f.current_pos < (insertedText f c).length := by omega
  rw [cell_succ hlt, getElem_inserted hf hlt, cell_before hf le_rfl]

theorem getElem_behind (hf : f.Valid) (hlt : f.current_pos < f.text.length)
    (hlt' : f.current_pos + 1 < (insertedText f c).length) :
    (insertedText f c)[f.current_pos + 1] = f.text[f.current_pos] := by
  have hlen : (f.text.take f.current_pos).length = f.current_pos := List.length_take_of_le hf
  revert hlt'
  unfold insertedText
  intro hlt'
  rw [List.getElem_append_right (by omega)]
  simp only [hlen, Nat.add_sub_cancel_left, List.getElem_cons_succ, List.getElem_drop, add_zero]

/-- The row ends at a newline and behind its last column. -/
theorem nextCell_row {k : ℤ} {o : ℤ × ℤ} :
    (nextCell k c o).2 ≠ o.2 ↔ c = newline ∨ k < o.1 + 1 := by
  unfold nextCell
  split
  next hc =>
    rw [or_iff_right hc]
    split
    · exact iff_of_true (by dsimp only; omega) ‹_›
    · exact iff_of_false (not_not.mpr rfl) ‹_›
  next hc => exact iff_of_true (by dsimp only; omega) (.inl (not_not.mp hc))

theorem nextCell_char {k : ℤ} (hc : c ≠ newline) (o : ℤ × ℤ) :
    nextCell k c o = if o.1 + 1 > k then (0, o.2 + 1) else (o.1 + 1, o.2) := if_pos hc

/-- Nothing stands behind position 0 when the text begins with a newline. -/
theorem first_row (hlen : 0 < f.text.length) (hwide : 0 < charPerLine width) :
    (cell f.text width 1).2 = 1 ↔ f.text.head? = some newline := by
  obtain ⟨text, pos⟩ := f
  cases text with
  | nil => exact absurd hlen (lt_irrefl _)
  | cons d rest =>
    have hcell : cell (d :: rest) width 1 = nextCell (charPerLine width) d (0, 0) := rfl
    rw [hcell, List.head?_cons, Option.some_inj, nextCell]
    by_cases hd : d = newline
    · rw [if_neg (not_not.mpr hd)]
      exact iff_of_true (zero_add 1) hd
    · rw [if_pos hd, if_neg (by dsimp only; omega)]
      exact iff_of_false (by decide) hd

end Inserted

section Keys

/-- Where the cursor goes from behind the character. -/
def kept (f : InputField) (width newChar : ℤ) : InputField :=
  moveCursor ⟨insertedText f newChar, f.current_pos + 1⟩ width newChar f.text.length

/-- The characters whose codes are those of no cursor key. -/
theorem kept_other (hleft : ¬ (c = KEY_KP_4 ∨ c = 52)) (hright : ¬ (c = KEY_KP_6 ∨ c = 54))
    (hup : ¬ (c = KEY_KP_8 ∨ c = 56)) (hdown : ¬ (c = KEY_KP_2 ∨ c = 50)) (hhome : c ≠ KEY_KP_7)
    (hend : c ≠ KEY_KP_1) (hkey : c ∉ cursorKeys) :
    (kept f width c).current_pos = f.current_pos + 1 := by
  unfold cursorKeys at hkey
  simp only [List.mem_cons, List.not_mem_nil, or_false, not_or] at hkey hleft hright hup hdown
  unfold kept moveCursor
  simp [hkey, hleft, hright, hup, hdown, hhome, hend]

theorem kept_left (hc : c = KEY_KP_4 ∨ c = 52) : (kept f width c).current_pos = f.current_pos := by
  rcases hc with rfl | rfl <;> rfl

theorem kept_right (hc : c = KEY_KP_6 ∨ c = 54) : (kept f width c).current_pos =
    if f.current_pos + 1 < f.text.length then f.current_pos + 2 else f.current_pos + 1 := by
  rcases hc with rfl | rfl <;>
    simp [kept, moveCursor, KEY_LF, KEY_RT, KEY_UP, KEY_DN, KEY_HOME, KEY_END, KEY_KP_1, KEY_KP_2,
      KEY_KP_4, KEY_KP_6, KEY_KP_7, KEY_KP_8]

theorem kept_up (hc : c = KEY_KP_8 ∨ c = 56) : (kept f width c).current_pos =
    getInputOffsetFromMousePosition (insertedText f c) width
      (cell (insertedText f c) width (f.current_pos + 1)).1
      ((cell (insertedText f c) width (f.current_pos + 1)).2 - 1) := by
  rcases hc with rfl | rfl <;> rfl

theorem kept_down (hc : c = KEY_KP_2 ∨ c = 50) : (kept f width c).current_pos =
    getInputOffsetFromMousePosition (insertedText f c) width
      (cell (insertedText f c) width (f.current_pos + 1)).1
      ((cell (insertedText f c) width (f.current_pos + 1)).2 + 1) := by
  rcases hc with rfl | rfl <;> rfl

theorem kept_home (hc : c = KEY_KP_7) : (kept f width c).current_pos =
    getInputOffsetFromMousePosition (insertedText f c) width 0
      (cell (insertedText f c) width (f.current_pos + 1)).2 := by
  subst hc
  rfl

theorem kept_end (hc : c = KEY_KP_1) : (kept f width c).current_pos =
    getInputOffsetFromMousePosition (insertedText f c) width (charPerLine width)
      (cell (insertedText f c) width (f.current_pos + 1)).2 := by
  subst hc
  rfl

/-- A search in the text with the character, on a row that is there. -/
theorem search_inserted {x y : ℤ} (hf : f.Valid) (hy : 0 ≤ y) :
    Search (cell (insertedText f c) width) (f.text.length + 1) x y
      (getInputOffsetFromMousePosition (insertedText f c) width x y) := by
  rw [← insertedText_length (c := c) hf]
  exact getInputOffset_search hy

theorem path_inserted (hf : f.Valid) :
    RowCells (cell (insertedText f c) width) (f.text.length + 1) := by
  rw [← insertedText_length (c := c) hf]
  exact cell_path

theorem row_nonneg (hf : f.Valid) :
    0 ≤ (cell (insertedText f c) width (f.current_pos + 1)).2 := by
  have hpath : RowCells (cell (insertedText f c) width) (f.text.length + 1) := path_inserted hf
  have hrow := hpath.row_le (Nat.zero_le _) (Nat.succ_le_succ hf)
  rwa [hpath.start] at hrow

/-- A search on the row of the cursor, behind the character. -/
theorem search_row {x : ℤ} (hf : f.Valid) :
    Search (cell (insertedText f c) width) (f.text.length + 1) x
      (cell (insertedText f c) width (f.current_pos + 1)).2
      (getInputOffsetFromMousePosition (insertedText f c) width x
        (cell (insertedText f c) width (f.current_pos + 1)).2) :=
  search_inserted hf (row_nonneg hf)

/-- The last column ends its row. -/
theorem last_column (hf : f.Valid) {y : ℤ} (hp : p < f.text.length + 1)
    (hcell : cell (insertedText f c) width p = (charPerLine width, y)) :
    (cell (insertedText f c) width (p + 1)).2 ≠ y := by
  rw [cell_succ (by rwa [insertedText_length hf]), hcell, nextCell]
  split
  · rw [if_pos (by omega)]
    omega
  · omega

theorem kept_up_iff (hf : f.Valid) (hc : c = KEY_KP_8 ∨ c = 56) :
    (kept f width c).current_pos = f.current_pos + 1 ↔
      f.current_pos = f.text.length ∧ f.text.head? = some newline ∧
        (cell f.text width f.current_pos).2 = 1 ∧
          (cell f.text width f.current_pos).1 < charPerLine width := by
  have hchar : c ≠ newline := by
    rcases hc with rfl | rfl <;> decide
  have hpath : RowCells (cell (insertedText f c) width) (f.text.length + 1) := path_inserted hf
  have hpath' : RowCells (cell f.text width) f.text.length := cell_path
  have hpos : f.current_pos + 1 ≤ f.text.length + 1 := Nat.succ_le_succ hf
  have hbehind : cell (insertedText f c) width (f.current_pos + 1) =
      nextCell (charPerLine width) c (cell f.text width f.current_pos) := cell_behind hf
  have hcolumn := hpath'.column_nonneg hf
  have hrow := hpath'.row_le (Nat.zero_le _) hf
  rw [nextCell_char hchar] at hbehind
  rw [hpath'.start] at hrow
  rw [kept_up hc]
  by_cases hfirst : (cell (insertedText f c) width (f.current_pos + 1)).2 - 1 < 0
  · rw [getInputOffsetFromMousePosition, if_pos hfirst]
    refine iff_of_false (Nat.succ_ne_zero _).symm ?_
    rintro ⟨-, -, hone, hfits⟩
    rw [hbehind, if_neg (by omega), hone] at hfirst
    exact absurd hfirst (by decide)
  · rw [(search_inserted hf (by omega)).above_iff hpath hpos (by omega), Nat.add_right_cancel_iff]
    refine and_congr_right fun hend => ?_
    rw [hbehind]
    split
    next hover => exact iff_of_false (fun h => absurd h.2.1 (lt_irrefl _)) (by omega)
    next hover =>
      have hbegins : (cell f.text width f.current_pos).2 = 1 →
          ((cell (insertedText f c) width 1).2 = 1 ↔ f.text.head? = some newline) := by
        intro hone
        have hne : f.current_pos ≠ 0 := by
          intro hzero
          rw [hzero, hpath'.start] at hone
          exact absurd hone (by decide)
        rw [cell_before hf (by omega), first_row (by omega) (by omega)]
      constructor
      · rintro ⟨hone, -, hbreak⟩
        exact ⟨(hbegins hone).mp hbreak, hone, by omega⟩
      · rintro ⟨hbreak, hone, -⟩
        exact ⟨hone, by dsimp only; omega, (hbegins hone).mpr hbreak⟩

theorem kept_down_iff (hf : f.Valid) (hc : c = KEY_KP_2 ∨ c = 50) :
    (kept f width c).current_pos = f.current_pos + 1 ↔ f.current_pos = f.text.length := by
  have hpath : RowCells (cell (insertedText f c) width) (f.text.length + 1) := path_inserted hf
  have hpos : f.current_pos + 1 ≤ f.text.length + 1 := Nat.succ_le_succ hf
  have hrow : 0 ≤ (cell (insertedText f c) width (f.current_pos + 1)).2 := row_nonneg hf
  rw [kept_down hc, (search_inserted hf (by omega)).below_iff hpath hpos]
  omega

theorem kept_home_iff (hf : f.Valid) (hc : c = KEY_KP_7) :
    (kept f width c).current_pos = f.current_pos + 1 ↔
      charPerLine width ≤ (cell f.text width f.current_pos).1 := by
  have hchar : c ≠ newline := by
    rw [hc]
    decide
  have hpath : RowCells (cell (insertedText f c) width) (f.text.length + 1) := path_inserted hf
  have hpath' : RowCells (cell f.text width) f.text.length := cell_path
  have hpos : f.current_pos + 1 ≤ f.text.length + 1 := Nat.succ_le_succ hf
  have hcolumn := hpath'.column_nonneg hf
  rw [kept_home hc, (search_row hf).first_iff hpath hpos, cell_behind hf, nextCell_char hchar]
  split
  · exact iff_of_true rfl (by omega)
  · exact iff_of_false (by dsimp only; omega) (by omega)

/-- From the end of the text the row is searched without its last position. -/
theorem kept_end_last (hf : f.Valid) (hc : c = KEY_KP_1) (hend : f.current_pos = f.text.length) :
    (kept f width c).current_pos = f.current_pos + 1 ↔
      f.text = [] ∨ charPerLine width ≤ (cell f.text width f.current_pos).1 := by
  have hchar : c ≠ newline := by
    rw [hc]
    decide
  have hpath : RowCells (cell (insertedText f c) width) (f.text.length + 1) := path_inserted hf
  have hsearch : Search (cell (insertedText f c) width) (f.text.length + 1) (charPerLine width)
      (cell (insertedText f c) width (f.current_pos + 1)).2
      (getInputOffsetFromMousePosition (insertedText f c) width (charPerLine width)
        (cell (insertedText f c) width (f.current_pos + 1)).2) := search_row hf
  have hmiss := hpath.last_miss fun p hp => last_column hf hp
  have hstay : (cell f.text width f.current_pos).2 ≠
      (nextCell (charPerLine width) c (cell f.text width f.current_pos)).2 ↔
        charPerLine width ≤ (cell f.text width f.current_pos).1 := by
    rw [ne_comm, nextCell_row, or_iff_right hchar, Int.lt_add_one_iff]
  rw [kept_end hc]
  rw [hend] at hsearch ⊢
  rw [hsearch.len_iff hpath hmiss, Nat.add_sub_cancel, ← hend, cell_behind hf,
    cell_before hf le_rfl, hstay, hend]
  refine or_congr_left ?_
  rw [← List.length_eq_zero_iff]
  omega

theorem kept_end_inside (hf : f.Valid) (hc : c = KEY_KP_1)
    (hlt : f.current_pos < f.text.length) :
    (kept f width c).current_pos = f.current_pos + 1 ↔
      f.current_pos + 1 = f.text.length ∨ f.text[f.current_pos]? = some newline ∨
        (cell f.text width f.current_pos).1 + 1 = charPerLine width ∨ charPerLine width ≤ 0 := by
  have hchar : c ≠ newline := by
    rw [hc]
    decide
  have hpath : RowCells (cell (insertedText f c) width) (f.text.length + 1) := path_inserted hf
  have hpath' : RowCells (cell f.text width) f.text.length := cell_path
  have hcolumn := hpath'.column_nonneg hf
  have hlen := insertedText_length (c := c) hf
  rw [kept_end hc, (search_row hf).last_iff hpath (Nat.succ_pos _) (Nat.succ_lt_succ hlt)
      (fun p hp => last_column hf hp),
    cell_succ (by omega), getElem_behind hf hlt (by omega), nextCell_row, cell_behind hf,
    nextCell_char hchar, List.getElem?_eq_getElem hlt, Option.some_inj, Nat.add_right_cancel_iff]
  refine or_congr_right (or_congr_right ?_)
  split
  · dsimp only
    omega
  · dsimp only
    omega

end Keys

section Editing

theorem typed_ne_backspace (hc : typed c) : c ≠ backspace := by
  rintro rfl
  exact absurd hc (by decide)

theorem cursorKeys_untyped (hc : typed c) : c ∉ cursorKeys := by
  intro hkey
  have hnone : ∀ key ∈ cursorKeys, ¬ typed key := by decide
  exact hnone c hkey hc

theorem insertChar_untyped (hc : ¬ typed c) : (insertChar f c).1 = f := by
  rw [insertChar, if_neg hc]

theorem deleteChar_other (hc : c ≠ backspace) : (deleteChar f c).1 = f := by
  rw [deleteChar, if_neg fun h => hc h.1]

theorem deleteChar_backspace : (deleteChar f backspace).1 =
    ⟨f.text.take (f.current_pos - 1) ++ f.text.drop f.current_pos, f.current_pos - 1⟩ := by
  rw [deleteChar]
  split
  · rfl
  next hpos =>
    have hzero : f.current_pos = 0 := by
      by_contra hne
      exact hpos ⟨rfl, by omega⟩
    obtain ⟨text, pos⟩ := f
    obtain rfl : pos = 0 := hzero
    rfl

theorem handler_eq : (TextCopies.inputFieldKeyHandler f width c).1 =
    (deleteChar (moveCursor (insertChar f c).1 width c f.text.length) c).1 := rfl

theorem typed_kept (hc : typed c) :
    (TextCopies.inputFieldKeyHandler f width c).1 = kept f width c := by
  rw [handler_eq, deleteChar_other (typed_ne_backspace hc), insertChar, if_pos hc]
  rfl

theorem kept_iff (hf : f.Valid) (hkey : c ∉ cursorKeys) :
    (kept f width c).current_pos = f.current_pos + 1 ↔ CursorKept f width c := by
  unfold CursorKept
  split
  next hleft =>
    rw [kept_left hleft]
    exact iff_of_false (Nat.succ_ne_self _).symm not_false
  next hleft =>
  split
  next hright =>
    rw [kept_right hright]
    split
    · exact iff_of_false (by omega) (by omega)
    · exact iff_of_true rfl (by omega)
  next hright =>
  split
  next hup => exact kept_up_iff hf hup
  next hup =>
  split
  next hdown => exact kept_down_iff hf hdown
  next hdown =>
  split
  next hhome => exact kept_home_iff hf hhome
  next hhome =>
  split
  next hend =>
    split
    next hlast => exact kept_end_last hf hend hlast
    next hlast => exact kept_end_inside hf hend (lt_of_le_of_ne hf hlast)
  next hend => exact iff_of_true (kept_other hleft hright hup hdown hhome hend hkey) trivial

/-- After a character the text is what it should be, and it is the cursor that may have moved. -/
theorem edited_typed_iff (hf : f.Valid) (hc : typed c) :
    Edited f c (TextCopies.inputFieldKeyHandler f width c).1 ↔ CursorKept f width c := by
  have hvalid : (TextCopies.inputFieldKeyHandler f width c).1.Valid := inputFieldKeyHandler_valid hf
  have hkey := cursorKeys_untyped hc
  rw [typed_kept hc] at hvalid ⊢
  rw [← kept_iff hf hkey]
  constructor
  · intro h
    rw [h.typed hc]
  · intro hpos
    refine ⟨fun _ => ?_, ?_, fun h => absurd h hkey, hvalid⟩
    · rw [← hpos]
      rfl
    · exact fun h => absurd h (typed_ne_backspace hc)

theorem cursorKept_untyped (hc : ¬ typed c) : CursorKept f width c := by
  have hkeys : ∀ key ∈ [KEY_KP_4, 52, KEY_KP_6, 54, KEY_KP_8, 56, KEY_KP_2, 50, KEY_KP_7, KEY_KP_1],
      c ≠ key := by
    rintro key hmem rfl
    have htyped : ∀ key ∈ [KEY_KP_4, 52, KEY_KP_6, 54, KEY_KP_8, 56, KEY_KP_2, 50, KEY_KP_7,
      KEY_KP_1], typed key := by decide
    exact hc (htyped c hmem)
  simp only [List.forall_mem_cons, List.not_mem_nil, false_imp_iff, implies_true, and_true] at hkeys
  unfold CursorKept
  simp [hkeys]

theorem edited_untyped (hf : f.Valid) (hc : ¬ typed c) :
    Edited f c (TextCopies.inputFieldKeyHandler f width c).1 := by
  refine ⟨fun h => absurd h hc, ?_, ?_, inputFieldKeyHandler_valid hf⟩
  · rintro rfl
    rw [handler_eq, insertChar_untyped hc]
    exact deleteChar_backspace
  · intro hkey
    have hback : c ≠ backspace := by
      rintro rfl
      exact absurd hkey (by decide)
    rw [handler_eq, deleteChar_other hback, insertChar_untyped hc]
    rfl

end Editing

/-- The handler edits a field as a text editor does, exactly if the cursor keeps its place behind
the character of the key. -/
theorem inputFieldKeyHandler_edited_iff {t : Field} (h : Shows t f)
    (hroom : f.text.length < MAX_LONG_STRLEN - 1) (key : ℤ) (temp : Cells) :
    ∃ t' f', inputFieldKeyHandler t key temp = some t' ∧ Shows t' f' ∧
      (Edited f key f' ↔ CursorKept f t.width key) := by
  obtain ⟨t', ht, -, hs⟩ : ∃ t', inputFieldKeyHandler t key temp = some t' ∧
      t'.position = t.position ∧ Shows t' (TextCopies.inputFieldKeyHandler f t.width key).1 :=
    inputFieldKeyHandler_room h fun _ => hroom
  refine ⟨t', _, ht, hs, ?_⟩
  by_cases hc : typed key
  · exact edited_typed_iff h.valid hc
  · exact iff_of_true (edited_untyped h.valid hc) (cursorKept_untyped hc)

/-- A field with an empty text, 80 pixels wide. -/
def emptyField : Field := ⟨⟨0, 80, 0, 20⟩, fun _ => 0, 0⟩

theorem emptyField_shows : Shows emptyField ⟨[], 0⟩ :=
  ⟨CString.holds_nil (by decide) rfl, rfl, le_rfl⟩

theorem inputFieldKeyHandler_edited_letter :
    ∃ t' f', inputFieldKeyHandler emptyField 97 (fun _ => 0) = some t' ∧ Shows t' f' ∧
      Edited ⟨[], 0⟩ 97 f' := by
  obtain ⟨t', f', ht, hs, hedited⟩ :=
    inputFieldKeyHandler_edited_iff emptyField_shows (by decide) 97 fun _ => 0
  exact ⟨t', f', ht, hs, hedited.mpr ((kept_iff le_rfl (by decide)).mp rfl)⟩

/-- The cursor is left in front of a typed 4. -/
theorem not_edited_digit :
    ¬ ∀ (t : Field) (f : InputField) (key : ℤ) (temp : Cells), Shows t f →
      f.text.length < MAX_LONG_STRLEN - 1 →
        ∃ t' f', inputFieldKeyHandler t key temp = some t' ∧ Shows t' f' ∧ Edited f key f' := by
  intro h
  obtain ⟨t', f', ht, hs, hedited⟩ := h emptyField ⟨[], 0⟩ 52 (fun _ => 0) emptyField_shows
    (by decide)
  obtain ⟨u, hu, -, hus⟩ : ∃ u, inputFieldKeyHandler emptyField 52 (fun _ => 0) = some u ∧
      u.position = emptyField.position ∧
        Shows u (TextCopies.inputFieldKeyHandler ⟨[], 0⟩ emptyField.width 52).1 :=
    inputFieldKeyHandler_room emptyField_shows fun _ => by decide
  obtain rfl : u = t' := Option.some_inj.mp (hu.symm.trans ht)
  have hpos : (1 : ℤ) = 0 := by
    rw [hedited.typed (by decide)] at hs
    exact hs.pos.symm.trans hus.pos
  exact absurd hpos (by decide)

end NorthOS.FieldKeys
