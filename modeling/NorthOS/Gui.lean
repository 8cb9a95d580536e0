import Mathlib.Data.List.Basic
import Mathlib.Data.Int.Notation
import Mathlib.Tactic.Common
import Mathlib.Tactic.Ring
import Mathlib.Tactic.Linarith

/-!
The drawing of gui.c. A drawing is the list of the pixels it stores, each with its
offset in the buffer and what becomes of the colour there; the rows of the buffer are
SCREEN_WIDTH pixels apart. Every store of these functions is on the screen, so a
pixel of the screen is drawn exactly if it lies in the clipped rectangle.
-/
namespace NorthOS.Gui

structure RGB where
  R : ℕ
  G : ℕ
  B : ℕ

structure RGBA where
  R : ℕ
  G : ℕ
  B : ℕ
  A : ℕ

/-- `buf[offset] = f(buf[offset])` -/
abbrev Stroke := ℤ × (RGB → RGB)

def drawPointAlpha (color : RGB) (origin : RGBA) : RGB :=
  if origin.A = 255 then ⟨origin.R, origin.G, origin.B⟩
  else if origin.A = 0 then color
  else
    ⟨(color.R * (255 - origin.A) + origin.R * origin.A) >>> 8,
      (color.G * (255 - origin.A) + origin.G * origin.A) >>> 8,
      (color.B * (255 - origin.A) + origin.B * origin.A) >>> 8⟩

/-- `for (i = a; i < b; i++)` -/
def loop (a b : ℤ) : List ℤ := (List.range (b - a).toNat).map fun i : ℕ => a + i

section Drawing

variable (SCREEN_WIDTH SCREEN_HEIGHT : ℤ)

/-- The rows below the screen, where the loop breaks, draw nothing. -/
def draw24ImagePart (img : ℤ → RGB) (x y width subx suby subw subh : ℤ) : List Stroke :=
  if x ≥ SCREEN_WIDTH ∨ y ≥ SCREEN_HEIGHT then []
  else
    let minj := if x < 0 then -x else 0
    let maxj := if x + subw > SCREEN_WIDTH then SCREEN_WIDTH - x else subw
    if minj ≥ maxj then []
    else
      (loop 0 subh).flatMap fun i =>
        if y + i < 0 then []
        else if y + i ≥ SCREEN_HEIGHT then []
        else (loop 0 (maxj - minj)).map fun j =>
          ((y + i) * SCREEN_WIDTH + minj + x + j,
            fun _ => img ((i + suby) * width + subx + minj + j))

def drawRectBound (x y width height : ℤ) (fill : RGBA) (max_x max_y : ℤ) : List Stroke :=
  if x ≥ max_x ∨ y ≥ max_y ∨ x + width ≤ 0 ∨ y + height ≤ 0 then []
  else
    let start_x := if x < 0 then 0 else x
    let start_y := if y < 0 then 0 else y
    let end_x := if x + width > max_x then max_x else x + width
    let end_y := if y + height > max_y then max_y else y + height
    if fill.A = 255 then
      (loop start_y end_y).flatMap fun i => (loop start_x end_x).map fun j =>
        (i * SCREEN_WIDTH + j, fun _ => ⟨fill.R, fill.G, fill.B⟩)
    else
      (loop start_y end_y).flatMap fun i => (loop start_x end_x).map fun j =>
        (i * SCREEN_WIDTH + j, fun color => drawPointAlpha color fill)

def drawRect (x y width height : ℤ) (fill : RGBA) : List Stroke :=
  drawRectBound SCREEN_WIDTH x y width height fill SCREEN_WIDTH SCREEN_HEIGHT

def drawRectByCoord (xmin ymin xmax ymax : ℤ) (fill : RGBA) : List Stroke :=
  drawRect SCREEN_WIDTH SCREEN_HEIGHT xmin ymin (xmax - xmin) (ymax - ymin) fill

def drawRectBorder (color : RGB) (x y width height : ℤ) : List Stroke :=
  if x ≥ SCREEN_WIDTH ∨ x + width < 0 ∨ y ≥ SCREEN_HEIGHT ∨ y + height < 0 ∨ width < 0 ∨
      height < 0 then []
  else
    let t := y * SCREEN_WIDTH + x
    (if y > 0 then
        (loop 0 width).flatMap fun i =>
          if x + i > 0 ∧ x + i < SCREEN_WIDTH then [(t + i, fun _ => color)] else []
      else []) ++
    (if y + height < SCREEN_HEIGHT then
        let o := t + height * SCREEN_WIDTH
        (loop 0 width).flatMap fun i =>
          if y > 0 ∧ x + i > 0 ∧ x + i < SCREEN_WIDTH then [(o + i, fun _ => color)] else []
      else []) ++
    (if x > 0 then
        (loop 0 height).flatMap fun i =>
          if y + i > 0 ∧ y + i < SCREEN_HEIGHT then
            [(t + i * SCREEN_WIDTH, fun _ => color)] else []
      else []) ++
    (if x + width < SCREEN_WIDTH then
        let o := t + width
        (loop 0 height).flatMap fun i =>
          if y + i > 0 ∧ y + i < SCREEN_HEIGHT then
            [(o + i * SCREEN_WIDTH, fun _ => color)] else []
      else [])

end Drawing

/-- The drawing stores to the pixel in column `x` of row `y`. -/
def covers (SCREEN_WIDTH : ℤ) (drawing : List Stroke) (x y : ℤ) : Bool :=
  drawing.any fun stroke => stroke.1 == y * SCREEN_WIDTH + x

section Covering

variable {W H : ℤ} {x y : ℤ} {a b : ℤ}

theorem mem_loop {i : ℤ} : i ∈ loop a b ↔ a ≤ i ∧ i < b := by
  simp only [loop, List.mem_map, List.mem_range]
  constructor
  · rintro ⟨k, hk, rfl⟩
    omega
  · intro h
    exact ⟨(i - a).toNat, by omega, by omega⟩

/-- An offset tells the row and the column. -/
theorem offset_inj {x' y' : ℤ} (hx : 0 ≤ x ∧ x < W) (hx' : 0 ≤ x' ∧ x' < W)
    (h : y * W + x = y' * W + x') : y = y' ∧ x = x' := by
  have hW : 0 < W := by omega
  have hrow : y = y' := by
    rcases lt_trichotomy y y' with hlt | heq | hgt
    · have : (y + 1) * W ≤ y' * W := Int.mul_le_mul_of_nonneg_right (by omega) hW.le
      linarith
    · exact heq
    · have : (y' + 1) * W ≤ y * W := Int.mul_le_mul_of_nonneg_right (by omega) hW.le
      linarith
  subst hrow
  exact ⟨rfl, by omega⟩

theorem covers_iff {drawing : List Stroke} :
    covers W drawing x y = true ↔ ∃ f, (y * W + x, f) ∈ drawing := by
  simp only [covers, List.any_eq_true, beq_iff_eq]
  constructor
  · rintro ⟨⟨o, f⟩, hmem, rfl⟩
    exact ⟨f, hmem⟩
  · rintro ⟨f, hmem⟩
    exact ⟨_, hmem, rfl⟩

theorem covers_nil : covers W [] x y = false := rfl

theorem covers_append (d e : List Stroke) :
    covers W (d ++ e) x y = (covers W d x y || covers W e x y) :=
  List.any_append

/-- A block of pixels on the screen. -/
theorem covers_block {f : ℤ → ℤ → RGB → RGB} {c d : ℤ} (ha : 0 ≤ a) (hb : b ≤ W)
    (hx : 0 ≤ x ∧ x < W) :
    covers W ((loop c d).flatMap fun i => (loop a b).map fun j => (i * W + j, f i j)) x y = true ↔
      (a ≤ x ∧ x < b) ∧ c ≤ y ∧ y < d := by
  rw [covers_iff]
  simp only [List.mem_flatMap, List.mem_map, mem_loop, Prod.mk.injEq]
  constructor
  · rintro ⟨g, i, hi, j, hj, hoff, _⟩
    obtain ⟨rfl, rfl⟩ := offset_inj (y := i) (x := j) ⟨by omega, by omega⟩ hx hoff
    exact ⟨hj, hi⟩
  · rintro ⟨hj, hi⟩
    exact ⟨_, y, hi, x, hj, rfl, rfl⟩

theorem covers_drawRectByCoord {xmin ymin xmax ymax : ℤ} (fill : RGBA) (hx : 0 ≤ x ∧ x < W)
    (hy : 0 ≤ y ∧ y < H) :
    covers W (drawRectByCoord W H xmin ymin xmax ymax fill) x y = true ↔
      (xmin ≤ x ∧ x < xmax) ∧ ymin ≤ y ∧ y < ymax := by
  unfold drawRectByCoord drawRect drawRectBound
  split
  · rw [covers_nil]
    constructor
    · intro h
      cases h
    · intro h
      omega
  have hleft : 0 ≤ (if xmin < 0 then 0 else xmin) := by split <;> omega
  have hright : (if xmin + (xmax - xmin) > W then W else xmin + (xmax - xmin)) ≤ W := by
    split <;> omega
  simp only
  split
  · rw [covers_block hleft hright hx]
    split_ifs <;> omega
  · rw [covers_block hleft hright hx]
    split_ifs <;> omega

theorem covers_draw24ImagePart (img : ℤ → RGB) {xmin ymin width subx suby subw subh : ℤ}
    (hx : 0 ≤ x ∧ x < W) (hy : 0 ≤ y ∧ y < H) :
    covers W (draw24ImagePart W H img xmin ymin width subx suby subw subh) x y = true ↔
      (xmin ≤ x ∧ x < xmin + subw) ∧ ymin ≤ y ∧ y < ymin + subh := by
  unfold draw24ImagePart
  split
  · rw [covers_nil]
    constructor
    · intro h
      cases h
    · intro h
      omega
  simp only
  generalize hminj : (if xmin < 0 then -xmin else 0) = minj
  generalize hmaxj : (if xmin + subw > W then W - xmin else subw) = maxj
  have hmin : 0 ≤ xmin + minj ∧ (x < xmin + minj → x < xmin) := by
    split at hminj <;> omega
  have hmax : xmin + maxj ≤ W ∧ (xmin + maxj ≤ x → xmin + subw ≤ x) ∧ maxj ≤ subw := by
    split at hmaxj <;> omega
  have hnonneg : 0 ≤ minj := by
    split at hminj <;> omega
  split
  · rw [covers_nil]
    constructor
    · intro h
      cases h
    · intro h
      omega
  rw [covers_iff]
  constructor
  · rintro ⟨g, hmem⟩
    obtain ⟨i, hi, hrow⟩ := List.mem_flatMap.mp hmem
    have hi' := mem_loop.mp hi
    split at hrow
    · cases hrow
    split at hrow
    · cases hrow
    obtain ⟨j, hj, heq⟩ := List.mem_map.mp hrow
    have hj' := mem_loop.mp hj
    obtain ⟨hoff, _⟩ := Prod.mk.inj heq
    have hcol : (ymin + i) * W + (minj + xmin + j) = y * W + x := by rw [← hoff]; ring
    obtain ⟨hrow', hcol'⟩ := offset_inj (y := ymin + i) (x := minj + xmin + j)
      ⟨by omega, by omega⟩ hx hcol
    omega
  · rintro ⟨hcol, hrow⟩
    refine ⟨fun _ => img ((y - ymin + suby) * width + subx + minj + (x - xmin - minj)),
      List.mem_flatMap.mpr ⟨y - ymin, mem_loop.mpr (by omega), ?_⟩⟩
    rw [if_neg (by omega), if_neg (by omega)]
    refine List.mem_map.mpr ⟨x - xmin - minj, mem_loop.mpr (by omega), ?_⟩
    refine Prod.ext ?_ rfl
    show (ymin + (y - ymin)) * W + minj + xmin + (x - xmin - minj) = y * W + x
    ring

/-- One edge of a border: pixels at a distance along a row or a column. -/
theorem covers_edge {n o d : ℤ} {c : ℤ → Prop} [DecidablePred c] {f : RGB → RGB} :
    covers W ((loop 0 n).flatMap fun i => if c i then [(o + i * d, f)] else []) x y = true ↔
      ∃ i, (0 ≤ i ∧ i < n) ∧ c i ∧ o + i * d = y * W + x := by
  rw [covers_iff]
  constructor
  · rintro ⟨g, hmem⟩
    obtain ⟨i, hi, hone⟩ := List.mem_flatMap.mp hmem
    split at hone
    · rename_i hok
      obtain ⟨hoff, _⟩ := Prod.mk.inj (List.mem_singleton.mp hone)
      exact ⟨i, mem_loop.mp hi, hok, hoff.symm⟩
    · cases hone
  · rintro ⟨i, hi, hok, hoff⟩
    refine ⟨f, List.mem_flatMap.mpr ⟨i, mem_loop.mpr hi, ?_⟩⟩
    rw [if_pos hok, hoff]
    exact List.mem_singleton.mpr rfl

theorem covers_ite {c : Prop} [Decidable c] {d : List Stroke} :
    covers W (if c then d else []) x y = true ↔ c ∧ covers W d x y = true := by
  split
  · rename_i hc
    exact ⟨fun h => ⟨hc, h⟩, fun h => h.2⟩
  · rename_i hc
    rw [covers_nil]
    exact ⟨fun h => (nomatch h), fun h => absurd h.1 hc⟩

/-- The border of a rectangle, which misses the lower right corner, and the edges that
touch the left or the upper rim of the screen. -/
theorem covers_drawRectBorder (color : RGB) {xmin ymin width height : ℤ} (hx : 0 ≤ x ∧ x < W)
    (hy : 0 ≤ y ∧ y < H) :
    covers W (drawRectBorder W H color xmin ymin width height) x y = true ↔
      0 ≤ width ∧ 0 ≤ height ∧
        ((0 < ymin ∧ 0 < x ∧ (xmin ≤ x ∧ x < xmin + width) ∧ (y = ymin ∨ y = ymin + height)) ∨
          (0 < y ∧ (ymin ≤ y ∧ y < ymin + height) ∧ (0 < xmin ∧ x = xmin ∨ x = xmin + width))) := by
  unfold drawRectBorder
  split
  · rw [covers_nil]
    constructor
    · intro h
      cases h
    · intro h
      omega
  -- a pixel of a row, given by its distance from the left end
  have along : ∀ {o k : ℤ} {ok : ℤ → Prop} [DecidablePred ok],
      (∀ i, ok i → 0 ≤ xmin + i ∧ xmin + i < W) → o = k * W + xmin →
      (covers W ((loop 0 width).flatMap fun i =>
        if ok i then [(o + i, fun _ => color)] else []) x y = true ↔
        (xmin ≤ x ∧ x < xmin + width) ∧ ok (x - xmin) ∧ y = k) := by
    intro o k ok _ hok ho
    have hstep := covers_edge (W := W) (x := x) (y := y) (n := width) (o := o) (d := 1)
      (c := ok) (f := fun _ => color)
    simp only [mul_one] at hstep
    rw [hstep]
    constructor
    · rintro ⟨i, hi, hc, hoff⟩
      have hcol : k * W + (xmin + i) = y * W + x := by rw [← hoff, ho]; ring
      obtain ⟨hk, hxi⟩ := offset_inj (y := k) (x := xmin + i) (hok i hc) hx hcol
      have hi' : x - xmin = i := by omega
      exact ⟨by omega, hi' ▸ hc, hk.symm⟩
    · rintro ⟨hi, hc, hk⟩
      refine ⟨x - xmin, by omega, hc, ?_⟩
      rw [ho, hk]
      ring
  -- a pixel of a column, given by its distance from the upper end
  have down : ∀ {o k : ℤ}, 0 ≤ k ∧ k < W → o = ymin * W + k →
      (covers W ((loop 0 height).flatMap fun i =>
        if ymin + i > 0 ∧ ymin + i < H then [(o + i * W, fun _ => color)] else []) x y = true ↔
        (ymin ≤ y ∧ y < ymin + height) ∧ 0 < y ∧ x = k) := by
    intro o k hk ho
    rw [covers_edge]
    constructor
    · rintro ⟨i, hi, hc, hoff⟩
      have hcol : (ymin + i) * W + k = y * W + x := by rw [← hoff, ho]; ring
      obtain ⟨hyi, hxk⟩ := offset_inj (y := ymin + i) (x := k) hk hx hcol
      omega
    · rintro ⟨hi, hc, hxk⟩
      refine ⟨y - ymin, by omega, by omega, ?_⟩
      rw [ho, hxk]
      ring
  simp only [covers_append, Bool.or_eq_true, covers_ite]
  refine (or_congr (or_congr (or_congr
    (and_congr_right fun _ => along (k := ymin) (fun i hi => by omega) rfl)
    (and_congr_right fun _ => along (k := ymin + height) (fun i hi => by omega) (by ring)))
    (and_congr_right fun _ => down (k := xmin) (by omega) rfl))
    (and_congr_right fun _ => down (k := xmin + width) (by omega) (by ring))).trans ?_
  omega

end Covering

end NorthOS.Gui
