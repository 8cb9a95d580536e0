import NorthOS.TextCopies
import NorthOS.TextRows

/-!
From positions of a text to cells and back. getMouseXFromOffset and getMouseYFromOffset give the
cell of a position, getInputOffsetFromMousePosition looks for the position of a cell. Its loop
ends before it has compared the end of the text, and position 0 counts as no position found.
-/
namespace NorthOS.MousePositions

open UserGui (CHARACTER_WIDTH newline nextCell mouseFrom getMouseXFromOffset getMouseYFromOffset)
open TextCopies (inputOffsetFrom getInputOffsetFromMousePosition)
open TextRows

/-- The column and the row of a position. -/
def cell (text : List ℤ) (width : ℤ) (p : ℕ) : ℤ × ℤ :=
  (getMouseXFromOffset text width p, getMouseYFromOffset text width p)

def charPerLine (width : ℤ) : ℤ := width.tdiv CHARACTER_WIDTH

/-- The number of characters behind the last newline. -/
def lastLine (text : List ℤ) : ℕ := (text.reverse.takeWhile (· ≠ newline)).length

/-- The column of the end of the text. -/
def lastColumn (text : List ℤ) (width : ℤ) : ℤ :=
  if charPerLine width ≤ 0 then 0 else (lastLine text : ℤ) % (charPerLine width + 1)

/-- The first row has only position 0. -/
def BreaksFirst (text : List ℤ) (width : ℤ) : Prop :=
  ∃ c rest, text = c :: rest ∧ (c = newline ∨ charPerLine width ≤ 0)

variable {text s : List ℤ} {width n x y c : ℤ} {o : ℤ × ℤ} {p cur mark : ℕ}

section Cells

theorem cell_eq : cell text width p = mouseFrom (charPerLine width) (text.take p) (0, 0) := rfl

theorem mouseFrom_append : mouseFrom n (s ++ [c]) o = nextCell n c (mouseFrom n s o) := by
  induction s generalizing o with
  | nil => rfl
  | cons d s ih => exact ih

theorem nextCell_cases : nextCell n c o = (o.1 + 1, o.2) ∨ nextCell n c o = (0, o.2 + 1) := by
  unfold nextCell
  split
  · split
    · exact .inr rfl
    · exact .inl rfl
  · exact .inr rfl

theorem cell_succ (hp : p < text.length) :
    cell text width (p + 1) = nextCell (charPerLine width) text[p] (cell text width p) := by
  rw [cell_eq, cell_eq, List.take_succ_eq_append_getElem hp, mouseFrom_append]

theorem cell_path : RowCells (cell text width) text.length where
  start := rfl
  next p hp := by
    rw [cell_succ hp]
    exact nextCell_cases

end Cells

section Loop

/-- The position to fall back to: the last one on row y before cur, or 0. -/
def Marked (cell : ℕ → ℤ × ℤ) (y : ℤ) (cur mark : ℕ) : Prop :=
  (mark = 0 ∧ ∀ p, 0 < p → p < cur → (cell p).2 ≠ y) ∨
    (0 < mark ∧ mark < cur ∧ (cell mark).2 = y ∧ ∀ p, mark < p → p < cur → (cell p).2 ≠ y)

theorem Marked.next {f : ℕ → ℤ × ℤ} (h : Marked f y cur mark) :
    Marked f y (cur + 1) (if y = (f cur).2 then cur else mark) := by
  split
  next hrow =>
    by_cases hcur : cur = 0
    · exact .inl ⟨hcur, fun p hpos hp => by omega⟩
    · exact .inr ⟨by omega, by omega, hrow.symm, fun p hlo hp => by omega⟩
  next hrow =>
    have hlast : ∀ p, p = cur → (f p).2 ≠ y := by
      rintro p rfl
      exact fun heq => hrow heq.symm
    rcases h with ⟨hzero, hnone⟩ | ⟨hpos, hlt, hmark, hnone⟩
    · refine .inl ⟨hzero, fun p hpos hp => ?_⟩
      by_cases hpc : p = cur
      · exact hlast p hpc
      · exact hnone p hpos (by omega)
    · refine .inr ⟨hpos, by omega, hmark, fun p hlo hp => ?_⟩
      by_cases hpc : p = cur
      · exact hlast p hpc
      · exact hnone p hlo (by omega)

/-- What is left of the loop, once it has come to position cur without finding the cell. -/
theorem inputOffsetFrom_search (hcur : cur ≤ text.length)
    (hmiss : ∀ p < cur, cell text width p ≠ (x, y)) (hmark : Marked (cell text width) y cur mark) :
    Search (cell text width) text.length x y
      (inputOffsetFrom (charPerLine width) x y (text.drop cur) (cell text width cur) cur mark) := by
  induction hk : text.length - cur generalizing cur mark with
  | zero =>
    obtain rfl : cur = text.length := by omega
    rw [List.drop_length, inputOffsetFrom]
    rcases hmark with ⟨hzero, hnone⟩ | ⟨hpos, hlt, hrow, hnone⟩
    · rw [if_neg (by omega)]
      exact .miss hmiss hnone
    · rw [if_pos hpos]
      exact .row hmiss hpos hlt hrow hnone
  | succ k ih =>
    have hlt : cur < text.length := by omega
    rw [List.drop_eq_getElem_cons hlt, inputOffsetFrom]
    split
    next hhit => exact .hit hlt (Prod.ext hhit.2.symm hhit.1.symm)
    next hhit =>
      rw [← cell_succ hlt]
      refine ih hlt (fun p hp => ?_) hmark.next (by omega)
      by_cases hpc : p = cur
      · rw [hpc]
        exact fun hcell => hhit ⟨by rw [hcell], by rw [hcell]⟩
      · exact hmiss p (by omega)

theorem getInputOffset_search (hy : 0 ≤ y) :
    Search (cell text width) text.length x y (getInputOffsetFromMousePosition text width x y) := by
  rw [getInputOffsetFromMousePosition, if_neg (not_lt.mpr hy)]
  exact inputOffsetFrom_search (Nat.zero_le _) (fun p hp => absurd hp (Nat.not_lt_zero p))
    (.inl ⟨rfl, fun p _ hp => absurd hp (Nat.not_lt_zero p)⟩)

end Loop

section Ends

theorem lastLine_append : lastLine (s ++ [c]) = if c = newline then 0 else lastLine s + 1 := by
  unfold lastLine
  rw [List.reverse_append, List.reverse_singleton, List.singleton_append, List.takeWhile_cons]
  split
  next h => rw [if_neg (by simpa using h)]; rfl
  next h => rw [if_pos (by simpa using h)]; rfl

/-- One more character on a line. -/
theorem emod_succ {k m : ℤ} (hk : 0 < k) :
    (m + 1) % k = if m % k + 1 > k - 1 then 0 else m % k + 1 := by
  have hnonneg := Int.emod_nonneg m hk.ne'
  have hlt := Int.emod_lt_of_pos m hk
  rw [← Int.emod_add_emod]
  split
  next h =>
    have hfull : m % k + 1 = k := by omega
    rw [hfull, Int.emod_self]
  next h => exact Int.emod_eq_of_lt (by omega) (by omega)

theorem column_end : (cell text width text.length).1 = lastColumn text width := by
  rw [cell_eq, List.take_length]
  induction text using List.reverseRecOn with
  | nil =>
    unfold lastColumn
    split
    · rfl
    · exact (Int.zero_emod _).symm
  | append_singleton s c ih =>
    rw [mouseFrom_append, nextCell, ih]
    unfold lastColumn
    rw [lastLine_append]
    by_cases hwide : charPerLine width ≤ 0
    · have hover : (0 : ℤ) + 1 > charPerLine width := by omega
      rw [if_pos hwide, if_pos hwide, if_pos hover, ite_self]
    · rw [if_neg hwide, if_neg hwide]
      by_cases hc : c = newline
      · rw [if_neg (not_not.mpr hc), if_pos hc]
        exact (Int.zero_emod _).symm
      · rw [if_pos hc, if_neg hc]
        push_cast
        rw [emod_succ (by omega), Int.add_sub_cancel]
        split <;> rfl

theorem row_one : 0 < text.length ∧ 0 < (cell text width 1).2 ↔ BreaksFirst text width := by
  cases text with
  | nil => simp [BreaksFirst]
  | cons c rest =>
    have hcell : cell (c :: rest) width 1 = nextCell (charPerLine width) c (0, 0) := rfl
    have hbreaks : BreaksFirst (c :: rest) width ↔ c = newline ∨ charPerLine width ≤ 0 := by
      constructor
      · rintro ⟨_, _, heq, h⟩
        injection heq with hc
        exact hc ▸ h
      · exact fun h => ⟨c, rest, rfl, h⟩
    rw [hcell, hbreaks, nextCell]
    by_cases hc : c = newline
    · simp [hc]
    · rw [if_pos hc]
      by_cases hwide : charPerLine width ≤ 0
      · have hover : charPerLine width < 1 := by omega
        simp [hover, hwide]
      · have hfits : ¬ charPerLine width < 1 := by omega
        simp [hc, hfits, hwide]

end Ends

/-- The position of a cell: a position of the text is found again from its cell, and for a cell the
nearest position is found, each exactly outside the cases named. -/
theorem mouse_positions_iff (text : List ℤ) (width : ℤ) :
    (∀ p ≤ text.length,
      (getInputOffsetFromMousePosition text width (getMouseXFromOffset text width p)
          (getMouseYFromOffset text width p) = p ↔
        p < text.length ∨ text.length ≤ 1 ∨ lastColumn text width = 0)) ∧
    ∀ x y, 0 ≤ x → 0 ≤ y → y ≤ getMouseYFromOffset text width text.length →
      (Nearest (cell text width) text.length x y (getInputOffsetFromMousePosition text width x y) ↔
        ¬ (y = 0 ∧ 0 < x ∧ BreaksFirst text width) ∧
        ¬ (y = getMouseYFromOffset text width text.length ∧ 2 ≤ text.length ∧
          0 < lastColumn text width ∧ lastColumn text width ≤ x)) := by
  have hpath : RowCells (cell text width) text.length := cell_path
  have hend : ∀ hlen : 0 < text.length,
      ((cell text width (text.length - 1)).2 = (cell text width text.length).2 ↔
        0 < lastColumn text width) := by
    intro hlen
    rw [hpath.end_iff hlen, column_end]
  have hnonneg : 0 ≤ lastColumn text width := by
    rw [← column_end]
    exact hpath.column_nonneg le_rfl
  constructor
  · intro p hp
    have hsearch : Search (cell text width) text.length (cell text width p).1 (cell text width p).2
        (getInputOffsetFromMousePosition text width (getMouseXFromOffset text width p)
          (getMouseYFromOffset text width p)) :=
      getInputOffset_search (hpath.row_le (Nat.zero_le p) hp)
    rw [hsearch.eq_iff hpath hp]
    by_cases hlen : 0 < text.length
    · rw [ne_eq, hend hlen]
      omega
    · omega
  · intro x y hx hy hle
    rw [(getInputOffset_search hy).nearest_iff hpath hx hy hle, ← row_one]
    by_cases hlen : 2 ≤ text.length
    · rw [BehindFirst, FromEnd, hend (by omega), column_end]
      rfl
    · rw [BehindFirst, FromEnd, column_end]
      simp [hlen]

/-- In "ab" the position before b is found again, and so is its cell. -/
theorem mouse_positions_ab :
    getInputOffsetFromMousePosition [97, 98] 80 (getMouseXFromOffset [97, 98] 80 1)
        (getMouseYFromOffset [97, 98] 80 1) = 1 ∧
      Nearest (cell [97, 98] 80) 2 1 0 (getInputOffsetFromMousePosition [97, 98] 80 1 0) := by
  obtain ⟨hposition, hcell⟩ := mouse_positions_iff [97, 98] 80
  refine ⟨(hposition 1 (by decide)).mpr (.inl (by decide)),
    (hcell 1 0 (by decide) (by decide) (by decide)).mpr ⟨?_, by decide⟩⟩
  rintro ⟨-, -, c, rest, heq, h⟩
  injection heq with hc
  rcases h with h | h
  · rw [h] at hc
    exact absurd hc (by decide)
  · exact absurd h (by decide)

/-- The end of "ab" is not found again, the position before b is found in its place. -/
theorem not_found_again :
    ¬ ∀ (text : List ℤ) (width : ℤ),
      (∀ p ≤ text.length,
        getInputOffsetFromMousePosition text width (getMouseXFromOffset text width p)
          (getMouseYFromOffset text width p) = p) ∧
      ∀ x y, 0 ≤ x → 0 ≤ y → y ≤ getMouseYFromOffset text width text.length →
        Nearest (cell text width) text.length x y
          (getInputOffsetFromMousePosition text width x y) := by
  intro h
  have hend : getInputOffsetFromMousePosition [97, 98] 80 (getMouseXFromOffset [97, 98] 80 2)
      (getMouseYFromOffset [97, 98] 80 2) = 2 := (h [97, 98] 80).1 2 (by decide)
  exact absurd hend (by decide)

end NorthOS.MousePositions
