import NorthOS.UserGui

/-!
The three layouts of a text. drawString wraps a line as soon as no further character fits;
the cursor of drawInputFieldWidget and getMouseXFromOffset and getMouseYFromOffset wrap one
character later. They agree on a text exactly if every line is shorter than the widget.
-/
namespace NorthOS.UserGui

open Gui Pixels

/-- The characters `drawString` comes to, each with its offset, up to where it breaks. -/
def layout (width height : ℤ) : List ℤ → ℤ × ℤ → List (ℤ × (ℤ × ℤ))
  | [], _ => []
  | ch :: str, offset =>
    if offset.2 + CHARACTER_HEIGHT > height then []
    else (ch, offset) :: layout width height str (advance width ch offset)

/-- The loop of `drawInputFieldWidget` that looks for the text cursor. -/
def cursorFrom (width height : ℤ) : List ℤ → ℤ × ℤ → ℤ × ℤ
  | [], offset => offset
  | ch :: text, offset =>
    if offset.2 > height then offset
    else cursorFrom width height text <|
      if ch ≠ newline then
        if offset.1 + CHARACTER_WIDTH > width then (0, offset.2 + CHARACTER_HEIGHT)
        else (offset.1 + CHARACTER_WIDTH, offset.2)
      else (0, offset.2 + CHARACTER_HEIGHT)

def cursor (width height : ℤ) (text : List ℤ) (current_pos : ℕ) : ℤ × ℤ :=
  cursorFrom width height (text.take current_pos) (0, 0)

/-- The widget at its place in the window, the scroll offset already subtracted. -/
def drawInputFieldWidget (tab : Tables) (win : Window) (text : List ℤ) (current_pos : ℕ)
    (color : RGBA) (xmin ymin width height : ℤ) : List Access :=
  let offset := cursor width height text current_pos
  drawString tab win text color xmin ymin width height ++
    if offset.2 < height then
      drawFillRect win ⟨0, 0, 0, 255⟩ (xmin + offset.1) (ymin + offset.2 + 1) 1
        (CHARACTER_HEIGHT - 4)
    else []

/-- The cell after a character, as user_handler.c counts them. -/
def nextCell (charPerLine ch : ℤ) (offset : ℤ × ℤ) : ℤ × ℤ :=
  if ch ≠ newline then
    if offset.1 + 1 > charPerLine then (0, offset.2 + 1) else (offset.1 + 1, offset.2)
  else (0, offset.2 + 1)

/-- The loop that getMouseXFromOffset and getMouseYFromOffset share. -/
def mouseFrom (charPerLine : ℤ) : List ℤ → ℤ × ℤ → ℤ × ℤ
  | [], offset => offset
  | ch :: str, offset => mouseFrom charPerLine str (nextCell charPerLine ch offset)

def getMouseXFromOffset (str : List ℤ) (width : ℤ) (offset : ℕ) : ℤ :=
  (mouseFrom (width.tdiv CHARACTER_WIDTH) (str.take offset) (0, 0)).1

def getMouseYFromOffset (str : List ℤ) (width : ℤ) (offset : ℕ) : ℤ :=
  (mouseFrom (width.tdiv CHARACTER_WIDTH) (str.take offset) (0, 0)).2

/-- The height of the widget in which addToHistory shows a text. -/
def historyHeight (text : List ℤ) (width : ℤ) : ℤ :=
  (getMouseYFromOffset text width text.length + 1) * CHARACTER_HEIGHT

/-- `drawString` paints character `p` at the cursor cell and at the mouse cell, and shows every
character in the height reserved by addToHistory. A character `next` behind the text is
the one that would be painted next. -/
structure LayoutsAgree (text : List ℤ) (width : ℤ) : Prop where
  cells : ∀ p ≤ text.length, ∀ height, (text.length + 1) * CHARACTER_HEIGHT ≤ height → ∀ next,
    (layout width height (text ++ [next]) (0, 0))[p]?.map Prod.snd =
        some (cursor width height text p) ∧
      cursor width height text p = (getMouseXFromOffset text width p * CHARACTER_WIDTH,
        getMouseYFromOffset text width p * CHARACTER_HEIGHT)
  shown : ∀ p, ∀ hp : p < text.length, ∃ offset,
    (layout width (historyHeight text width) text (0, 0))[p]? = some (text[p], offset) ∧
      offset.1 + CHARACTER_WIDTH ≤ width

/-- `drawString` paints the characters of its layout, as far as they fit in the line. -/
theorem drawStringFrom_eq {tab : Tables} {win : Window} {color : RGBA} {x y width height : ℤ}
    {str : List ℤ} : ∀ {offset : ℤ × ℤ},
    drawStringFrom tab win color x y width height str offset =
      (layout width height str offset).flatMap fun cell =>
        if cell.1 ≠ newline ∧ cell.2.1 + CHARACTER_WIDTH ≤ width then
          (drawCharacter tab (x + cell.2.1) (y + cell.2.2) cell.1 color win.width win.height).1
        else [] := by
  induction str with
  | nil =>
    intro offset
    rfl
  | cons ch str ih =>
    intro offset
    unfold drawStringFrom layout
    split
    · rfl
    · rw [ih, List.flatMap_cons]

section Wrapping

variable {width height : ℤ} {n c r : ℤ} {text : List ℤ}

/-- From column `c` on, no line of the text gets to `n` characters. -/
def Short (n : ℤ) : ℤ → List ℤ → Prop
  | _, [] => True
  | c, ch :: text => if ch = newline then Short n 0 text else c + 1 < n ∧ Short n (c + 1) text

/-- `acc` holds the beginning of the line. -/
theorem short_iff_lines {acc : List ℤ} (hacc : (acc.length : ℤ) < n) :
    Short n acc.length text ↔
      ∀ line ∈ text.splitOnPPrepend (· == newline) acc, (line.length : ℤ) < n := by
  induction text generalizing acc with
  | nil =>
    simp only [Short, List.splitOnPPrepend_nil, List.mem_singleton, true_iff]
    rintro line rfl
    rwa [List.length_reverse]
  | cons ch text ih =>
    rw [List.splitOnPPrepend_cons_eq_if]
    unfold Short
    by_cases hch : ch = newline
    · have hnext := @ih [] (by simpa using lt_of_le_of_lt (Int.natCast_nonneg _) hacc)
      rw [if_pos hch, if_pos (beq_iff_eq.mpr hch), List.forall_mem_cons, List.length_reverse]
      exact hnext.trans ⟨fun h => ⟨hacc, h⟩, fun h => h.2⟩
    · rw [if_neg hch, if_neg (by simpa using hch)]
      by_cases hroom : (acc.length : ℤ) + 1 < n
      · have hnext := @ih (ch :: acc) (by simpa using hroom)
        rw [List.length_cons, Nat.cast_add, Nat.cast_one] at hnext
        exact ⟨fun h => hnext.mp h.2, fun h => ⟨hroom, hnext.mpr h⟩⟩
      · -- the line that begins with `acc` has `n` characters already
        constructor
        · intro h
          exact absurd h.1 hroom
        · intro h
          rw [List.splitOnPPrepend_eq_modifyHead] at h
          obtain ⟨line, lines, hlines⟩ := List.exists_cons_of_ne_nil
            (List.splitOnP_ne_nil (· == newline) text)
          rw [hlines] at h
          have hlong := h _ (List.mem_cons_self ..)
          simp only [List.length_append, List.length_reverse, List.length_cons] at hlong
          push_cast at hlong
          omega

theorem cursorFrom_eq_mouseFrom (hheight : (r + text.length) * CHARACTER_HEIGHT ≤ height) :
    cursorFrom width height text (c * CHARACTER_WIDTH, r * CHARACTER_HEIGHT) =
      ((mouseFrom (width / CHARACTER_WIDTH) text (c, r)).1 * CHARACTER_WIDTH,
        (mouseFrom (width / CHARACTER_WIDTH) text (c, r)).2 * CHARACTER_HEIGHT) := by
  induction text generalizing c r with
  | nil => rfl
  | cons ch text ih =>
    rw [List.length_cons, Nat.cast_add, Nat.cast_one] at hheight
    have hheight' : (r + 1 + text.length) * CHARACTER_HEIGHT ≤ height := by
      rw [show r + 1 + (text.length : ℤ) = r + (text.length + 1) by ring]
      exact hheight
    have hrow : ∀ k : ℤ, k * CHARACTER_HEIGHT + CHARACTER_HEIGHT = (k + 1) * CHARACTER_HEIGHT :=
      fun k => by ring
    unfold cursorFrom mouseFrom nextCell
    rw [if_neg (by simp only [CHARACTER_HEIGHT] at hheight ⊢; omega)]
    by_cases hch : ch = newline
    · rw [if_neg (not_not.mpr hch), if_neg (not_not.mpr hch)]
      simpa [hrow] using ih (c := 0) hheight'
    · rw [if_pos hch, if_pos hch]
      have hwrap : c * CHARACTER_WIDTH + CHARACTER_WIDTH > width ↔
          c + 1 > width / CHARACTER_WIDTH := by
        simp only [CHARACTER_WIDTH]
        omega
      by_cases hc : c + 1 > width / CHARACTER_WIDTH
      · rw [if_pos (hwrap.mpr hc), if_pos hc]
        simpa [hrow] using ih (c := 0) hheight'
      · rw [if_neg (mt hwrap.mp hc), if_neg hc]
        have hnext := ih (c := c + 1) (r := r)
          (by simp only [CHARACTER_HEIGHT] at hheight ⊢; omega)
        rwa [show (c + 1) * CHARACTER_WIDTH = c * CHARACTER_WIDTH +
          CHARACTER_WIDTH by ring] at hnext

/-- Where a line is shorter than the widget, drawString advances as the cursor does. -/
theorem advance_eq {ch : ℤ} (hc : c < width / CHARACTER_WIDTH) :
    advance width ch (c * CHARACTER_WIDTH, r * CHARACTER_HEIGHT) =
      if ch ≠ newline ∧ c + 1 < width / CHARACTER_WIDTH then
        ((c + 1) * CHARACTER_WIDTH, r * CHARACTER_HEIGHT)
      else (0 * CHARACTER_WIDTH, (r + 1) * CHARACTER_HEIGHT) := by
  unfold advance
  have hwrap : c * CHARACTER_WIDTH + CHARACTER_WIDTH + CHARACTER_WIDTH > width ↔
      ¬c + 1 < width / CHARACTER_WIDTH := by
    simp only [CHARACTER_WIDTH] at hc ⊢
    omega
  by_cases hch : ch = newline
  · rw [if_neg (not_not.mpr hch), if_neg fun h => h.1 hch]
    exact Prod.ext (by ring) (by ring)
  · rw [if_pos hch]
    by_cases hroom : c + 1 < width / CHARACTER_WIDTH
    · rw [if_neg (mt hwrap.mp (not_not.mpr hroom)), if_pos ⟨hch, hroom⟩]
      exact Prod.ext (by ring) rfl
    · rw [if_pos (hwrap.mpr hroom), if_neg fun h => hroom h.2]
      exact Prod.ext (by ring) (by ring)

theorem layout_first {next : ℤ} {offset : ℤ × ℤ} (hrow : ¬offset.2 + CHARACTER_HEIGHT > height) :
    (layout width height (text ++ [next]) offset)[0]?.map Prod.snd = some offset := by
  cases text with
  | nil =>
    rw [List.nil_append, layout, if_neg hrow]
    rfl
  | cons ch text =>
    rw [List.cons_append, layout, if_neg hrow]
    rfl

theorem forall_le_succ_iff {P : ℕ → Prop} {m : ℕ} (h0 : P 0) :
    (∀ p ≤ m + 1, P p) ↔ ∀ p ≤ m, P (p + 1) := by
  constructor
  · intro h p hp
    exact h (p + 1) (by omega)
  · intro h p hp
    cases p with
    | zero => exact h0
    | succ p => exact h p (by omega)

/-- Both loops from the same cell: they come apart at the first line that fills the widget. -/
theorem cells_iff_short (next : ℤ) (hc : 0 ≤ c ∧ c < width / CHARACTER_WIDTH)
    (hheight : (r + text.length + 1) * CHARACTER_HEIGHT ≤ height) :
    (∀ p ≤ text.length,
      (layout width height (text ++ [next])
          (c * CHARACTER_WIDTH, r * CHARACTER_HEIGHT))[p]?.map Prod.snd =
        some (cursorFrom width height (text.take p)
          (c * CHARACTER_WIDTH, r * CHARACTER_HEIGHT))) ↔
      Short (width / CHARACTER_WIDTH) c text := by
  induction text generalizing c r with
  | nil =>
    refine iff_of_true (fun p hp => ?_) trivial
    obtain rfl : p = 0 := Nat.le_zero.mp hp
    refine layout_first ?_
    simp only [List.length_nil, CHARACTER_HEIGHT] at hheight ⊢
    push_cast at hheight
    omega
  | cons ch text ih =>
    rw [List.length_cons, Nat.cast_add, Nat.cast_one] at hheight
    have hrow : ¬r * CHARACTER_HEIGHT + CHARACTER_HEIGHT > height := by
      simp only [CHARACTER_HEIGHT] at hheight ⊢
      omega
    have hbreak : ¬r * CHARACTER_HEIGHT > height := by
      simp only [CHARACTER_HEIGHT] at hrow ⊢
      omega
    have hheight' : (r + 1 + text.length + 1) * CHARACTER_HEIGHT ≤ height := by
      rw [show r + 1 + (text.length : ℤ) + 1 = r + (text.length + 1) + 1 by ring]
      exact hheight
    -- the first character is at the common cell, and the others follow it
    refine (forall_le_succ_iff (layout_first hrow)).trans ?_
    rw [List.cons_append, layout, if_neg hrow]
    simp only [List.getElem?_cons_succ, List.take_succ_cons, cursorFrom, if_neg hbreak, Short]
    rw [advance_eq hc.2]
    have hnewline : ((0, r * CHARACTER_HEIGHT + CHARACTER_HEIGHT) : ℤ × ℤ) =
        (0 * CHARACTER_WIDTH, (r + 1) * CHARACTER_HEIGHT) := Prod.ext (by ring) (by ring)
    by_cases hch : ch = newline
    · rw [if_neg fun h => h.1 hch, if_neg (not_not.mpr hch), if_pos hch, hnewline]
      exact ih ⟨le_rfl, by omega⟩ hheight'
    · have hfit : ¬c * CHARACTER_WIDTH + CHARACTER_WIDTH > width := by
        simp only [CHARACTER_WIDTH] at hc ⊢
        omega
      rw [if_pos hch, if_neg hfit, if_neg hch,
        show c * CHARACTER_WIDTH + CHARACTER_WIDTH = (c + 1) * CHARACTER_WIDTH by ring]
      by_cases hroom : c + 1 < width / CHARACTER_WIDTH
      · rw [if_pos ⟨hch, hroom⟩, ih ⟨by omega, hroom⟩
          (by simp only [CHARACTER_HEIGHT] at hheight ⊢; omega)]
        exact ⟨fun h => ⟨hroom, h⟩, fun h => h.2⟩
      · -- drawString is in the next row already, the cursor behind the last column
        rw [if_neg fun h => hroom h.2]
        refine iff_of_false (fun h => ?_) fun h => hroom h.1
        have hfirst := h 0 (Nat.zero_le _)
        rw [layout_first (by simp only [CHARACTER_HEIGHT] at hheight ⊢; omega)] at hfirst
        have hcol := congrArg Prod.fst (Option.some.inj hfirst)
        simp only [List.take_zero, cursorFrom, CHARACTER_WIDTH] at hcol
        omega

theorem le_mouseFrom : r ≤ (mouseFrom n text (c, r)).2 := by
  induction text generalizing c r with
  | nil => exact le_rfl
  | cons ch text ih =>
    unfold mouseFrom nextCell
    split_ifs
    · exact (by omega : r ≤ r + 1).trans ih
    · exact ih
    · exact (by omega : r ≤ r + 1).trans ih

/-- In the rows that the mouse counts, a text of short lines is shown as a whole. -/
theorem shown_of_short (hc : 0 ≤ c ∧ c < width / CHARACTER_WIDTH)
    (hshort : Short (width / CHARACTER_WIDTH) c text)
    (hheight : ((mouseFrom (width / CHARACTER_WIDTH) text (c, r)).2 + 1) * CHARACTER_HEIGHT ≤
      height) :
    ∀ p, ∀ hp : p < text.length, ∃ offset,
      (layout width height text (c * CHARACTER_WIDTH, r * CHARACTER_HEIGHT))[p]? =
          some (text[p], offset) ∧
        offset.1 + CHARACTER_WIDTH ≤ width := by
  induction text generalizing c r with
  | nil =>
    intro p hp
    cases hp
  | cons ch text ih =>
    have hlast : r ≤ (mouseFrom (width / CHARACTER_WIDTH) (ch :: text) (c, r)).2 := le_mouseFrom
    have hrow : ¬r * CHARACTER_HEIGHT + CHARACTER_HEIGHT > height := by
      simp only [CHARACTER_HEIGHT] at hheight ⊢
      omega
    intro p hp
    rw [layout, if_neg hrow]
    cases p with
    | zero =>
      refine ⟨_, rfl, ?_⟩
      simp only [CHARACTER_WIDTH] at hc ⊢
      omega
    | succ p =>
      simp only [List.getElem?_cons_succ, List.getElem_cons_succ]
      rw [advance_eq hc.2]
      unfold Short at hshort
      unfold mouseFrom nextCell at hheight
      by_cases hch : ch = newline
      · rw [if_pos hch] at hshort
        rw [if_neg (not_not.mpr hch)] at hheight
        rw [if_neg fun h => h.1 hch]
        exact ih ⟨le_rfl, by omega⟩ hshort hheight p (Nat.lt_of_succ_lt_succ hp)
      · rw [if_neg hch] at hshort
        rw [if_pos hch, if_neg (by simp only; omega)] at hheight
        rw [if_pos ⟨hch, hshort.1⟩]
        exact ih ⟨by omega, hshort.1⟩ hshort.2 hheight p (Nat.lt_of_succ_lt_succ hp)

end Wrapping

/-- The layouts of a text agree exactly if every line leaves a character's room. -/
theorem layouts_agree_iff (text : List ℤ) (width : ℤ) (hwidth : CHARACTER_WIDTH ≤ width) :
    LayoutsAgree text width ↔
      ∀ line ∈ text.splitOn newline, (line.length : ℤ) < width / CHARACTER_WIDTH := by
  have hcol : (0 : ℤ) ≤ 0 ∧ 0 < width / CHARACTER_WIDTH := by
    simp only [CHARACTER_WIDTH] at hwidth ⊢
    omega
  have hwide : 0 ≤ width := by
    simp only [CHARACTER_WIDTH] at hwidth
    omega
  have hlines : Short (width / CHARACTER_WIDTH) (List.length ([] : List ℤ)) text ↔ _ :=
    short_iff_lines hcol.2
  have htall : ∀ {height : ℤ}, (text.length + 1) * CHARACTER_HEIGHT ≤ height →
      (0 + text.length + 1) * CHARACTER_HEIGHT ≤ height := by
    intro height h
    rwa [zero_add]
  refine Iff.trans ⟨fun h => ?_, fun hshort => ⟨fun p hp height hheight next => ⟨?_, ?_⟩, ?_⟩⟩
    hlines
  · refine (cells_iff_short newline (r := 0) hcol (htall le_rfl)).mp fun p hp => ?_
    exact (h.cells p hp _ le_rfl newline).1
  · exact (cells_iff_short next (r := 0) hcol (htall hheight)).mpr hshort p hp
  · have hdiv : width.tdiv CHARACTER_WIDTH = width / CHARACTER_WIDTH :=
      Int.tdiv_eq_ediv_of_nonneg hwide
    have hrows : ((0 : ℤ) + (text.take p).length) * CHARACTER_HEIGHT ≤ height := by
      have hlen : (text.take p).length ≤ text.length := List.length_take_le' ..
      simp only [CHARACTER_HEIGHT] at hheight ⊢
      omega
    unfold getMouseXFromOffset getMouseYFromOffset
    rw [hdiv]
    exact cursorFrom_eq_mouseFrom (c := 0) hrows
  · refine shown_of_short (r := 0) hcol hshort ?_
    unfold historyHeight getMouseYFromOffset
    rw [List.take_length, Int.tdiv_eq_ediv_of_nonneg hwide]

/-- A command of two characters in the terminal. -/
theorem layouts_agree_iff_command :
    LayoutsAgree [108, 115] 550 ↔
      ∀ line ∈ [(108 : ℤ), 115].splitOn newline, (line.length : ℤ) < 550 / CHARACTER_WIDTH :=
  layouts_agree_iff [108, 115] 550 (by decide)

/-- A line that fills the widget: drawString is in the next row, the cursor is not. -/
theorem not_always_agree :
    ¬∀ (text : List ℤ) (width : ℤ), CHARACTER_WIDTH ≤ width → LayoutsAgree text width := by
  intro h
  have hagree := h [97, 98] 20 (by decide)
  have hcell := (hagree.cells 2 (by decide) (3 * CHARACTER_HEIGHT) (by decide) newline).1
  revert hcell
  decide

end NorthOS.UserGui
