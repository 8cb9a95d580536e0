import Mathlib.Algebra.Order.Ring.Int
import Mathlib.Tactic.Common

/-!
The cells of a text that is laid out in rows: each position stands in the next column of the row,
or at the beginning of the next row. So the cells come in the order of reading, no two positions
share one, and each row is filled from its first column up to its last position.
-/
namespace NorthOS.TextRows

/-- The cells, by column and row, of the positions 0, ..., len. -/
structure RowCells (cell : ℕ → ℤ × ℤ) (len : ℕ) : Prop where
  start : cell 0 = (0, 0)
  next : ∀ p < len, cell (p + 1) = ((cell p).1 + 1, (cell p).2) ∨
    cell (p + 1) = (0, (cell p).2 + 1)

/-- What a search for the cell finds that does not look at the end of the text, and takes the last
position of the row when the row is too short; but it does not take position 0 for that. -/
inductive Search (cell : ℕ → ℤ × ℤ) (len : ℕ) (x y : ℤ) : ℕ → Prop
  | hit {r : ℕ} (hr : r < len) (h : cell r = (x, y)) : Search cell len x y r
  | row {r : ℕ} (hmiss : ∀ p < len, cell p ≠ (x, y)) (hpos : 0 < r) (hr : r < len)
      (h : (cell r).2 = y) (hlast : ∀ p, r < p → p < len → (cell p).2 ≠ y) : Search cell len x y r
  | miss (hmiss : ∀ p < len, cell p ≠ (x, y)) (hnone : ∀ p, 0 < p → p < len → (cell p).2 ≠ y) :
      Search cell len x y len

/-- A position of row y, in column x or at the end of the row when the row is shorter. -/
def Nearest (cell : ℕ → ℤ × ℤ) (len : ℕ) (x y : ℤ) (r : ℕ) : Prop :=
  r ≤ len ∧ (cell r).2 = y ∧
    ((cell r).1 = x ∨ (cell r).1 < x ∧ ∀ p ≤ len, (cell p).2 = y → p ≤ r)

variable {cell : ℕ → ℤ × ℤ} {len p q r : ℕ} {x y : ℤ}

section Order

theorem RowCells.column_nonneg (h : RowCells cell len) (hp : p ≤ len) : 0 ≤ (cell p).1 := by
  induction p with
  | zero => rw [h.start]
  | succ p ih =>
    have hcolumn := ih (by omega)
    rcases h.next p hp with hnext | hnext
    · rw [hnext]
      omega
    · rw [hnext]

theorem RowCells.row_le (h : RowCells cell len) (hpq : p ≤ q) (hq : q ≤ len) :
    (cell p).2 ≤ (cell q).2 := by
  induction q with
  | zero =>
    obtain rfl : p = 0 := by omega
    rfl
  | succ q ih =>
    by_cases heq : p = q + 1
    · rw [heq]
    · have hle := ih (by omega) (by omega)
      rcases h.next q hq with hnext | hnext
      · rwa [hnext]
      · rw [hnext]
        omega

/-- On one row the columns are consecutive. -/
theorem RowCells.column_eq (h : RowCells cell len) (hpq : p ≤ q) (hq : q ≤ len)
    (hrow : (cell p).2 = (cell q).2) : (cell q).1 = (cell p).1 + (q - p) := by
  induction q with
  | zero =>
    obtain rfl : p = 0 := by omega
    simp
  | succ q ih =>
    by_cases heq : p = q + 1
    · rw [heq]
      simp
    · have hle := h.row_le (p := p) (q := q) (by omega) (by omega)
      rcases h.next q hq with hnext | hnext
      · rw [hnext] at hrow ⊢
        have hcolumn := ih (by omega) (by omega) hrow
        push_cast
        omega
      · rw [hnext] at hrow
        dsimp only at hrow
        omega

theorem RowCells.lt_of_row (h : RowCells cell len) (hpq : p < q) (hq : q ≤ len)
    (hrow : (cell p).2 = (cell q).2) : (cell p).1 < (cell q).1 := by
  have hcolumn := h.column_eq hpq.le hq hrow
  omega

theorem RowCells.injective (h : RowCells cell len) (hp : p ≤ len) (hq : q ≤ len)
    (heq : cell p = cell q) : p = q := by
  rcases Nat.lt_trichotomy p q with hlt | hpq | hlt
  · have hcolumn := h.lt_of_row hlt hq (by rw [heq])
    rw [heq] at hcolumn
    omega
  · exact hpq
  · have hcolumn := h.lt_of_row hlt hp (by rw [heq])
    rw [heq] at hcolumn
    omega

/-- A row has a position in each column before one of its positions. -/
theorem RowCells.exists_cell (h : RowCells cell len) (hq : q ≤ len) (hx : 0 ≤ x)
    (hle : x ≤ (cell q).1) : ∃ p ≤ q, cell p = (x, (cell q).2) := by
  induction q with
  | zero =>
    rw [h.start] at hle
    dsimp only at hle
    obtain rfl : x = 0 := by omega
    exact ⟨0, le_rfl, by rw [h.start]⟩
  | succ q ih =>
    by_cases heq : x = (cell (q + 1)).1
    · exact ⟨q + 1, le_rfl, by rw [heq]⟩
    · rcases h.next q hq with hnext | hnext
      · rw [hnext] at hle heq ⊢
        dsimp only at hle heq
        obtain ⟨p, hp, hcell⟩ := ih (by omega) (by omega)
        exact ⟨p, by omega, hcell⟩
      · rw [hnext] at hle heq
        dsimp only at hle heq
        omega

/-- Every row up to the one of the end has a last position. -/
theorem RowCells.exists_last (h : RowCells cell len) (hy : 0 ≤ y) (hle : y ≤ (cell len).2) :
    ∃ q ≤ len, (cell q).2 = y ∧ ∀ p, q < p → p ≤ len → (cell p).2 ≠ y := by
  induction len with
  | zero =>
    rw [h.start] at hle
    dsimp only at hle
    refine ⟨0, le_rfl, ?_, fun p hp hp' => by omega⟩
    rw [h.start]
    dsimp only
    omega
  | succ len ih =>
    by_cases heq : y = (cell (len + 1)).2
    · exact ⟨len + 1, le_rfl, heq.symm, fun p hp hp' => by omega⟩
    · have hprev : y ≤ (cell len).2 := by
        rcases h.next len (by omega) with hnext | hnext
        · rw [hnext] at hle
          exact hle
        · rw [hnext] at hle heq
          dsimp only at hle heq
          omega
      obtain ⟨q, hq, hrow, hlast⟩ := ih ⟨h.start, fun p hp => h.next p (by omega)⟩ hprev
      refine ⟨q, by omega, hrow, fun p hqp hp => ?_⟩
      by_cases hend : p = len + 1
      · rw [hend]
        exact fun hrow' => heq hrow'.symm
      · exact hlast p hqp (by omega)

/-- The end stands on the row of the position before it unless it begins a row. -/
theorem RowCells.end_iff (h : RowCells cell len) (hlen : 0 < len) :
    (cell (len - 1)).2 = (cell len).2 ↔ 0 < (cell len).1 := by
  obtain ⟨k, rfl⟩ : ∃ k, len = k + 1 := ⟨len - 1, by omega⟩
  have hcolumn := h.column_nonneg (p := k) (by omega)
  rw [Nat.add_sub_cancel]
  rcases h.next k (by omega) with hnext | hnext
  · rw [hnext]
    exact iff_of_true rfl (by dsimp only; omega)
  · rw [hnext]
    exact iff_of_false (by dsimp only; omega) (by dsimp only; omega)

/-- A row before the last one where the search finds nothing is the first, with position 0 alone. -/
theorem RowCells.only_start (h : RowCells cell len) (hy : 0 ≤ y) (hlt : y < (cell len).2)
    (hmiss : ∀ p < len, cell p ≠ (x, y)) (hnone : ∀ p, 0 < p → p < len → (cell p).2 ≠ y) :
    y = 0 ∧ x ≠ 0 ∧ 0 < len ∧ 0 < (cell 1).2 := by
  obtain ⟨q, hq, hrow, hlast⟩ := h.exists_last hy hlt.le
  have hql : q < len := lt_of_le_of_ne hq fun heq => by
    rw [heq] at hrow
    omega
  obtain rfl : q = 0 := by
    by_contra hne
    exact hnone q (by omega) hql hrow
  have hnext := hlast 1 one_pos hql
  have hrow1 := h.row_le (p := 0) (q := 1) (by omega) hql
  rw [h.start] at hrow hrow1
  dsimp only at hrow hrow1
  refine ⟨hrow.symm, ?_, hql, by omega⟩
  rintro rfl
  exact hmiss 0 hql (by rw [h.start, hrow])

end Order

section Searching

/-- The end of the text is found from its row when it alone is there, or when position 0 is all
that is there besides. -/
theorem Search.len_iff (h : RowCells cell len) (hmiss : ∀ p < len, cell p ≠ (x, (cell len).2))
    (hr : Search cell len x (cell len).2 r) :
    r = len ↔ len ≤ 1 ∨ (cell (len - 1)).2 ≠ (cell len).2 := by
  cases hr with
  | hit hr hcell => exact absurd hcell (hmiss r hr)
  | row _ hpos hr hrow _ =>
    have hlo := h.row_le (p := r) (q := len - 1) (by omega) (by omega)
    have hhi := h.row_le (p := len - 1) (q := len) (by omega) le_rfl
    refine iff_of_false hr.ne ?_
    omega
  | miss _ hnone =>
    refine iff_of_true rfl ?_
    by_cases hlen : len ≤ 1
    · exact .inl hlen
    · exact .inr (hnone (len - 1) (by omega) (by omega))

/-- The search finds a position again, except the end of the text behind another position of its
row. -/
theorem Search.eq_iff (h : RowCells cell len) (hp : p ≤ len)
    (hr : Search cell len (cell p).1 (cell p).2 r) :
    r = p ↔ p < len ∨ len ≤ 1 ∨ (cell (len - 1)).2 ≠ (cell len).2 := by
  by_cases hlt : p < len
  · refine iff_of_true ?_ (.inl hlt)
    cases hr with
    | hit hr hcell => exact h.injective hr.le hp hcell
    | row hmiss => exact absurd rfl (hmiss p hlt)
    | miss hmiss => exact absurd rfl (hmiss p hlt)
  · obtain rfl : p = len := by omega
    rw [hr.len_iff h fun q hq hcell => hq.ne (h.injective hq.le le_rfl hcell),
      or_iff_right (lt_irrefl p)]

/-- On the row below a position there is none up to it. -/
theorem Search.below_iff (h : RowCells cell len) (hq : q ≤ len)
    (hr : Search cell len x ((cell q).2 + 1) r) : r = q ↔ q = len := by
  cases hr with
  | hit hr hcell =>
    have hrow : (cell r).2 = (cell q).2 + 1 := by rw [hcell]
    refine iff_of_false ?_ ?_
    · rintro rfl
      omega
    · rintro rfl
      have hle := h.row_le hr.le le_rfl
      omega
  | row _ _ hr hrow _ =>
    refine iff_of_false ?_ ?_
    · rintro rfl
      omega
    · rintro rfl
      have hle := h.row_le hr.le le_rfl
      omega
  | miss => exact eq_comm

/-- From the row above, the search comes back only to the end of the text, when the first row has
nothing but position 0. -/
theorem Search.above_iff (h : RowCells cell len) (hq : q ≤ len) (hy : 0 ≤ (cell q).2 - 1)
    (hr : Search cell len (cell q).1 ((cell q).2 - 1) r) :
    r = q ↔ q = len ∧ (cell q).2 = 1 ∧ 0 < (cell q).1 ∧ (cell 1).2 = 1 := by
  have hcolumn := h.column_nonneg hq
  cases hr with
  | hit hr hcell =>
    have hrow : (cell r).2 = (cell q).2 - 1 := by rw [hcell]
    refine iff_of_false ?_ ?_
    · rintro rfl
      omega
    · rintro ⟨-, hone, hpos, hfirst⟩
      by_cases hzero : r = 0
      · rw [hzero, h.start] at hcell
        injection hcell
        omega
      · have hle := h.row_le (p := 1) (q := r) (by omega) hr.le
        omega
  | row _ hpos hr hrow _ =>
    refine iff_of_false ?_ ?_
    · rintro rfl
      omega
    · rintro ⟨-, hone, -, hfirst⟩
      have hle := h.row_le (p := 1) (q := r) hpos hr.le
      omega
  | miss hmiss hnone =>
    refine ⟨?_, fun hend => hend.1.symm⟩
    rintro rfl
    obtain ⟨hzero, hx0, hlen, hrow1⟩ := h.only_start hy (by omega) hmiss hnone
    have hhi := h.row_le (p := 1) (q := len) hlen le_rfl
    exact ⟨rfl, by omega, by omega, by omega⟩

/-- The first column of its row is where a position is only when it begins the row. -/
theorem Search.first_iff (h : RowCells cell len) (hq : q ≤ len)
    (hr : Search cell len 0 (cell q).2 r) : r = q ↔ (cell q).1 = 0 := by
  obtain ⟨p, hp, hfirst⟩ := h.exists_cell hq le_rfl (h.column_nonneg hq)
  cases hr with
  | hit hr hcell =>
    refine ⟨?_, fun hzero => h.injective hr.le hq (hcell.trans (Prod.ext hzero.symm rfl))⟩
    rintro rfl
    rw [hcell]
  | row hmiss _ hr hrow _ =>
    have hpl : p = len := by
      by_contra hne
      exact hmiss p (by omega) hfirst
    obtain rfl : q = len := by omega
    refine iff_of_false hr.ne fun hzero => ?_
    have hlt := h.lt_of_row hr le_rfl hrow
    have hcolumn := h.column_nonneg hr.le
    omega
  | miss hmiss =>
    have hpl : p = len := by
      by_contra hne
      exact hmiss p (by omega) hfirst
    obtain rfl : q = len := by omega
    rw [← hpl, hfirst]
    exact iff_of_true rfl rfl

/-- The last column is not on the row of the end before the end. -/
theorem RowCells.last_miss (h : RowCells cell len)
    (hlast : ∀ p < len, cell p = (x, (cell len).2) → (cell (p + 1)).2 ≠ (cell len).2) :
    ∀ p < len, cell p ≠ (x, (cell len).2) := by
  intro p hp hcell
  have hlo := h.row_le (p := p) (q := p + 1) (by omega) hp
  have hhi := h.row_le (p := p + 1) (q := len) hp le_rfl
  rw [hcell] at hlo
  exact hlast p hp hcell (le_antisymm hhi hlo)

/-- Behind the last column of its row, a position before the end of the text is found when it is
the last one that the search looks at. -/
theorem Search.last_iff (h : RowCells cell len) (hpos : 0 < q) (hq : q < len)
    (hlast : ∀ p < len, cell p = (x, (cell q).2) → (cell (p + 1)).2 ≠ (cell q).2)
    (hr : Search cell len x (cell q).2 r) :
    r = q ↔ q + 1 = len ∨ (cell (q + 1)).2 ≠ (cell q).2 := by
  have hnext := h.row_le (p := q) (q := q + 1) (by omega) hq
  have hrow : r < len → (cell r).2 = (cell q).2 →
      (∀ p, r < p → p < len → (cell p).2 ≠ (cell q).2) →
        (r = q ↔ q + 1 = len ∨ (cell (q + 1)).2 ≠ (cell q).2) := by
    intro hr hrow hnone
    have hle : q ≤ r := by
      by_contra hlt
      exact hnone q (by omega) hq rfl
    constructor
    · rintro rfl
      by_cases hend : r + 1 = len
      · exact .inl hend
      · exact .inr (hnone (r + 1) (by omega) (by omega))
    · rintro (hend | hne)
      · omega
      · by_contra hrq
        have hlo := h.row_le (p := q + 1) (q := r) (by omega) hr.le
        omega
  cases hr with
  | hit hr hcell =>
    have hover := hlast r hr hcell
    have hlo := h.row_le (p := r) (q := r + 1) (by omega) hr
    rw [hcell] at hlo
    dsimp only at hlo
    refine hrow hr (by rw [hcell]) fun p hp hpl => ?_
    have hle := h.row_le (p := r + 1) (q := p) hp hpl.le
    omega
  | row _ _ hr hsame hnone => exact hrow hr hsame hnone
  | miss _ hnone => exact absurd rfl (hnone q hpos hq)

/-- The first row has only position 0, and the cell is behind it. -/
def BehindFirst (cell : ℕ → ℤ × ℤ) (len : ℕ) (x y : ℤ) : Prop :=
  y = 0 ∧ 0 < x ∧ 0 < len ∧ 0 < (cell 1).2

/-- The end of the text is behind another position of its row, and the cell is there or later. -/
def FromEnd (cell : ℕ → ℤ × ℤ) (len : ℕ) (x y : ℤ) : Prop :=
  y = (cell len).2 ∧ 2 ≤ len ∧ (cell (len - 1)).2 = (cell len).2 ∧ (cell len).1 ≤ x

theorem nearest_hit (h : RowCells cell len) (hr : r < len) (hcell : cell r = (x, y)) :
    Nearest cell len x y r ∧ ¬ BehindFirst cell len x y ∧ ¬ FromEnd cell len x y := by
  refine ⟨⟨hr.le, by rw [hcell], .inl (by rw [hcell])⟩, ?_, ?_⟩
  · rintro ⟨rfl, hx, hlen, hrow⟩
    have hzero : r = 0 := by
      by_contra hne
      have hle := h.row_le (p := 1) (q := r) (by omega) hr.le
      rw [hcell] at hle
      dsimp only at hle
      omega
    rw [hzero, h.start] at hcell
    injection hcell
    omega
  · rintro ⟨hrow, -, -, hle⟩
    have hcolumn := h.lt_of_row hr le_rfl (by rw [hcell]; exact hrow)
    rw [hcell] at hcolumn
    exact absurd hle (not_le.mpr hcolumn)

theorem nearest_row (h : RowCells cell len) (hx : 0 ≤ x) (hmiss : ∀ p < len, cell p ≠ (x, y))
    (hpos : 0 < r) (hr : r < len) (hrow : (cell r).2 = y)
    (hlast : ∀ p, r < p → p < len → (cell p).2 ≠ y) :
    (Nearest cell len x y r ↔ y ≠ (cell len).2) ∧ ¬ BehindFirst cell len x y ∧
      (FromEnd cell len x y ↔ y = (cell len).2) := by
  have hshort : (cell r).1 < x := by
    by_contra hle
    obtain ⟨p, hp, hcell⟩ := h.exists_cell hr.le hx (not_lt.mp hle)
    exact hmiss p (by omega) (hrow ▸ hcell)
  refine ⟨⟨?_, ?_⟩, ?_, ⟨fun hend => hend.1, ?_⟩⟩
  · rintro ⟨-, -, hcolumn | ⟨-, hend⟩⟩
    · omega
    · exact fun heq => absurd (hend len le_rfl heq.symm) (by omega)
  · refine fun hne => ⟨hr.le, hrow, .inr ⟨hshort, fun p hp hprow => ?_⟩⟩
    by_contra hlt
    by_cases hpl : p = len
    · exact hne (hpl ▸ hprow.symm)
    · exact hlast p (by omega) (by omega) hprow
  · rintro ⟨hy, -, -, hrow1⟩
    have hle := h.row_le (p := 1) (q := r) hpos hr.le
    omega
  · intro heq
    have hlo := h.row_le (p := r) (q := len - 1) (by omega) (by omega)
    have hhi := h.row_le (p := len - 1) (q := len) (by omega) le_rfl
    have hprev : r = len - 1 := by
      by_contra hne
      exact hlast (len - 1) (by omega) (by omega) (by omega)
    have hcolumn := h.column_eq hr.le le_rfl (hrow.trans heq)
    refine ⟨heq, by omega, by omega, ?_⟩
    omega

theorem nearest_miss (h : RowCells cell len) (hx : 0 ≤ x) (hy : 0 ≤ y) (hle : y ≤ (cell len).2)
    (hmiss : ∀ p < len, cell p ≠ (x, y)) (hnone : ∀ p, 0 < p → p < len → (cell p).2 ≠ y) :
    (Nearest cell len x y len ↔ y = (cell len).2) ∧
      (BehindFirst cell len x y ↔ y ≠ (cell len).2) ∧ ¬ FromEnd cell len x y := by
  refine ⟨⟨fun hnear => hnear.2.1.symm, ?_⟩, ⟨?_, ?_⟩, ?_⟩
  · intro heq
    refine ⟨le_rfl, heq.symm, ?_⟩
    rcases Int.lt_trichotomy (cell len).1 x with hlt | hcolumn | hlt
    · exact .inr ⟨hlt, fun p hp _ => hp⟩
    · exact .inl hcolumn
    · obtain ⟨p, hp, hcell⟩ := h.exists_cell le_rfl hx hlt.le
      have hpl : p ≠ len := by
        rintro rfl
        rw [hcell] at hlt
        exact absurd hlt (lt_irrefl _)
      exact absurd (heq ▸ hcell) (hmiss p (by omega))
  · rintro ⟨hy0, -, hlen, hrow1⟩ heq
    have hrow := h.row_le (p := 1) (q := len) hlen le_rfl
    omega
  · intro hne
    obtain ⟨hzero, hx0, hlen, hrow1⟩ := h.only_start hy (lt_of_le_of_ne hle hne) hmiss hnone
    exact ⟨hzero, lt_of_le_of_ne hx hx0.symm, hlen, hrow1⟩
  · rintro ⟨heq, hlen, hprev, -⟩
    exact hnone (len - 1) (by omega) (by omega) (hprev.trans heq.symm)

/-- The search finds the nearest position, except behind the only position of the first row, and
from the end of the text on when that is behind another position of its row. -/
theorem Search.nearest_iff (h : RowCells cell len) (hx : 0 ≤ x) (hy : 0 ≤ y)
    (hle : y ≤ (cell len).2) (hr : Search cell len x y r) :
    Nearest cell len x y r ↔ ¬ BehindFirst cell len x y ∧ ¬ FromEnd cell len x y := by
  cases hr with
  | hit hr hcell =>
    obtain ⟨hnear, hfirst, hend⟩ := nearest_hit h hr hcell
    exact iff_of_true hnear ⟨hfirst, hend⟩
  | row hmiss hpos hr hrow hlast =>
    obtain ⟨hnear, hfirst, hend⟩ := nearest_row h hx hmiss hpos hr hrow hlast
    rw [hnear, hend, and_iff_right hfirst]
  | miss hmiss hnone =>
    obtain ⟨hnear, hfirst, hend⟩ := nearest_miss h hx hy hle hmiss hnone
    rw [hnear, hfirst, and_iff_left hend, not_not]

end Searching

end NorthOS.TextRows
