import NorthOS.Pixels

/-!
The drawing of gui.c on the screen, with the pixels each function reads of its source. A
function draws within its part of the screen if every pixel written is on the screen, in a
row and a column that were asked for, and every one read is in the source. Windows are
dragged over all four edges, so no position is excluded.
-/
namespace NorthOS.ScreenDrawing

open Gui Pixels

def CHARACTER_WIDTH : ℤ := 10
def CHARACTER_HEIGHT : ℤ := 18
def CHARACTER_NUMBER : ℤ := 96
def ICON_SIZE : ℤ := 30
def ICON_NUMBER : ℤ := 5
def ICON_TRANSPARENT : ℕ := 0
def MOUSE_MODE : ℤ := 2
def MOUSE_HEIGHT : ℤ := 18
def MOUSE_WIDTH : ℤ := 15

/-- What is drawn: the arrays of the sources by the offset of an element, the images and
the colours handed over. -/
structure Contents where
  character : ℤ → ℕ
  icons_data : ℤ → ℕ
  mouse_pointer : ℤ → ℕ
  mouse_color : ℤ → RGB
  img : ℤ → RGBA
  img24 : ℤ → RGB
  color : RGBA
  border : RGB

/-- `memmove` of string.c, where the number of bytes is unsigned. -/
def memmove (img : ℤ → RGB) (t o n : ℤ) : List Access := copyBytes img t o (n % 2 ^ 32)

section Functions

variable (SCREEN_WIDTH SCREEN_HEIGHT : ℤ) (data : Contents)

/-- The accesses, and the value returned. -/
def drawCharacter (x y ch : ℤ) : List Access × ℤ :=
  let ord := ch - 0x20
  if ord < 0 ∨ ord ≥ CHARACTER_NUMBER - 1 then ([], -1)
  else
    ((loop 0 CHARACTER_HEIGHT).flatMap fun i =>
      if y + i ≥ SCREEN_HEIGHT ∨ y + i < 0 then []
      else (loop 0 CHARACTER_WIDTH).flatMap fun j =>
        let glyph := (ord * CHARACTER_HEIGHT + i) * CHARACTER_WIDTH + j
        let font_alpha := data.character glyph
        .read glyph ::
          if font_alpha > 0 then
            if x + j ≥ SCREEN_WIDTH ∨ x + j < 0 then []
            else pointAlpha ((y + i) * SCREEN_WIDTH + x + j)
              { data.color with A := (data.color.A * font_alpha) >>> 8 }
          else [],
      CHARACTER_WIDTH)

/-- The accesses, and the value returned. -/
def drawIcon (x y icon : ℤ) : List Access × ℤ :=
  if icon < 0 ∨ icon ≥ ICON_NUMBER then ([], -1)
  else
    ((loop 0 ICON_SIZE).flatMap fun i =>
      if y + i ≥ SCREEN_HEIGHT ∨ y + i < 0 then []
      else (loop 0 ICON_SIZE).flatMap fun j =>
        if x + j ≥ SCREEN_WIDTH ∨ x + j < 0 then []
        else
          let o := icon * (ICON_SIZE * ICON_SIZE) + (i * ICON_SIZE + j)
          let raw_color := data.icons_data o
          .read o ::
            if raw_color = 0xFF000000 ∨ raw_color = 0 ∨ raw_color = ICON_TRANSPARENT then []
            else pointAlpha ((y + i) * SCREEN_WIDTH + (x + j))
              ⟨(raw_color >>> 16) &&& 0xFF, (raw_color >>> 8) &&& 0xFF, raw_color &&& 0xFF, 255⟩,
      ICON_SIZE)

/-- Row `i` is drawn from row `height - i` of the image. -/
def drawImage (x y width height max_x max_y : ℤ) : List Access :=
  (loopUntil 0 height fun i => y + i ≥ max_y).flatMap fun i =>
    if y + i < 0 then []
    else (loopUntil 0 width fun j => x + j ≥ max_x).flatMap fun j =>
      if x + j < 0 then []
      else
        let t := (y + i) * SCREEN_WIDTH + x + j
        let o := (height - i) * width + j
        .read o :: pointAlpha t (data.img o)

def draw24Image (x y width height max_x max_y : ℤ) : List Access :=
  let max_line := if max_x - x < width then max_x - x else width
  (loopUntil 0 height fun i => y + i ≥ max_y).flatMap fun i =>
    if y + i < 0 then []
    else
      let t := (y + i) * SCREEN_WIDTH + x
      let o := (height - i) * width
      memmove data.img24 t o (max_line * 3)

def draw24ImagePart (x y width subx suby subw subh : ℤ) : List Access :=
  if x ≥ SCREEN_WIDTH ∨ y ≥ SCREEN_HEIGHT then []
  else
    let minj := if x < 0 then -x else 0
    let maxj := if x + subw > SCREEN_WIDTH then SCREEN_WIDTH - x else subw
    if minj ≥ maxj then []
    else
      (loop 0 subh).flatMap fun i =>
        if y + i < 0 then []
        else if y + i ≥ SCREEN_HEIGHT then []
        else
          let t := (y + i) * SCREEN_WIDTH + minj + x
          let o := (i + suby) * width + subx + minj
          memmove data.img24 t o ((maxj - minj) * 3)

/-- A transparent colour stores nothing. -/
def drawRectBound (x y width height max_x max_y : ℤ) : List Access :=
  if data.color.A = 0 then []
  else (Gui.drawRectBound SCREEN_WIDTH x y width height data.color max_x max_y).map
    fun stroke => .store stroke.1 stroke.2

def drawRectBorder (x y width height : ℤ) : List Access :=
  (Gui.drawRectBorder SCREEN_WIDTH SCREEN_HEIGHT data.border x y width height).map
    fun stroke => .store stroke.1 stroke.2

/-- `start_x` is never negative where it is tested. -/
def clearRect (x y width height : ℤ) : List Access :=
  if x ≥ SCREEN_WIDTH ∨ y ≥ SCREEN_HEIGHT ∨ x + width ≤ 0 ∨ y + height ≤ 0 then []
  else
    let start_y := if y < 0 then 0 else y
    let end_y := if y + height > SCREEN_HEIGHT then SCREEN_HEIGHT else y + height
    let start_x := if x < 0 then 0 else x
    let copy_width := if x + width > SCREEN_WIDTH then SCREEN_WIDTH - x else width
    let (copy_width, start_x) :=
      if start_x < 0 then (copy_width + start_x, 0) else (copy_width, start_x)
    if copy_width ≤ 0 then []
    else
      let bytes_to_copy := copy_width * 3
      (loop start_y end_y).flatMap fun i =>
        let t := i * SCREEN_WIDTH + start_x
        memmove data.img24 t t bytes_to_copy

def drawMouse (mode x y : ℤ) : List Access :=
  (loopUntil 0 MOUSE_HEIGHT fun i => y + i ≥ SCREEN_HEIGHT).flatMap fun i =>
    if y + i < 0 then []
    else (loopUntil 0 MOUSE_WIDTH fun j => x + j ≥ SCREEN_WIDTH).flatMap fun j =>
      if x + j < 0 then []
      else
        let o := (mode * MOUSE_HEIGHT + i) * MOUSE_WIDTH + j
        let temp := data.mouse_pointer o
        .read o ::
          if temp ≠ 0 then
            [.store ((y + i) * SCREEN_WIDTH + x + j) fun _ => data.mouse_color (temp - 1)]
          else []

def clearMouse (x y : ℤ) : List Access :=
  clearRect SCREEN_WIDTH SCREEN_HEIGHT data x y MOUSE_WIDTH MOUSE_HEIGHT

end Functions

/-- A call with the place and the sizes it is given. -/
inductive Call
  | drawCharacter (x y ch : ℤ)
  | drawIcon (x y icon : ℤ)
  | drawImage (x y width height max_x max_y : ℤ)
  | draw24Image (x y width height max_x max_y : ℤ)
  | draw24ImagePart (x y width height subx suby subw subh : ℤ)
  | drawRectBound (x y width height max_x max_y : ℤ)
  | drawRectBorder (x y width height : ℤ)
  | clearRect (x y width height : ℤ)
  | drawMouse (mode x y : ℤ)
  | clearMouse (x y : ℤ)

section Calls

variable (W H : ℤ)

def Call.accesses (data : Contents) : Call → List Access
  | .drawCharacter x y ch => (ScreenDrawing.drawCharacter W H data x y ch).1
  | .drawIcon x y icon => (ScreenDrawing.drawIcon W H data x y icon).1
  | .drawImage x y width height max_x max_y =>
    ScreenDrawing.drawImage W data x y width height max_x max_y
  | .draw24Image x y width height max_x max_y =>
    ScreenDrawing.draw24Image W data x y width height max_x max_y
  | .draw24ImagePart x y width _ subx suby subw subh =>
    ScreenDrawing.draw24ImagePart W H data x y width subx suby subw subh
  | .drawRectBound x y width height max_x max_y =>
    ScreenDrawing.drawRectBound W data x y width height max_x max_y
  | .drawRectBorder x y width height => ScreenDrawing.drawRectBorder W H data x y width height
  | .clearRect x y width height => ScreenDrawing.clearRect W H data x y width height
  | .drawMouse mode x y => ScreenDrawing.drawMouse W H data mode x y
  | .clearMouse x y => ScreenDrawing.clearMouse W H data x y

/-- A rectangle, up to the bounds the caller sets. -/
def Area (x y width height max_x max_y r c : ℤ) : Prop :=
  (y ≤ r ∧ r < y + height ∧ r < max_y) ∧ x ≤ c ∧ c < x + width ∧ c < max_x

/-- The rows and columns asked for. A border includes its far edges. -/
def Call.Asked : Call → ℤ → ℤ → Prop
  | .drawCharacter x y _ => Area x y CHARACTER_WIDTH CHARACTER_HEIGHT W H
  | .drawIcon x y _ => Area x y ICON_SIZE ICON_SIZE W H
  | .drawImage x y width height max_x max_y | .draw24Image x y width height max_x max_y
  | .drawRectBound x y width height max_x max_y => Area x y width height max_x max_y
  | .draw24ImagePart x y _ _ _ _ subw subh => Area x y subw subh W H
  | .drawRectBorder x y width height => Area x y (width + 1) (height + 1) W H
  | .clearRect x y width height => Area x y width height W H
  | .drawMouse _ x y | .clearMouse x y => Area x y MOUSE_WIDTH MOUSE_HEIGHT W H

/-- The pixels of the source: glyphs, icons, an image, pointers or the other buffer. -/
def Call.Source : Call → ℤ → Prop
  | .drawCharacter .. => Inside CHARACTER_WIDTH ((CHARACTER_NUMBER - 1) * CHARACTER_HEIGHT)
  | .drawIcon .. => Inside (ICON_SIZE * ICON_SIZE) ICON_NUMBER
  | .drawImage _ _ width height _ _ | .draw24Image _ _ width height _ _
  | .draw24ImagePart _ _ width height _ _ _ _ => Inside width height
  | .drawRectBound .. | .drawRectBorder .. => fun _ => False
  | .clearRect .. | .clearMouse .. => Inside W H
  | .drawMouse .. => Inside MOUSE_WIDTH (MOUSE_MODE * MOUSE_HEIGHT)

/-- An offset on the screen whose row and column were asked for. -/
def Pixel (asked : ℤ → ℤ → Prop) (o : ℤ) : Prop :=
  Inside W H o ∧ asked (o / W) (o % W)

/-- Whatever is drawn, the pixels written are on the screen and in the rows and columns asked
for, and the pixels read are in the source. -/
def Call.Confined (c : Call) : Prop :=
  ∀ data : Contents, Within (Pixel W H (c.Asked W H)) (c.Source W H) (c.accesses W H data)

/-- Some of the `n` indices from `x` on lie in `[0, bound)`. -/
def Visible (x n bound : ℤ) : Prop :=
  0 < n ∧ 0 < x + n ∧ x < bound ∧ 0 < bound

/-- The bytes of a row fit in an `int`. -/
def Call.NoOverflow : Call → Prop
  | .draw24Image x _ width _ max_x _ =>
    -2 ^ 31 ≤ min (max_x - x) width * 3 ∧ min (max_x - x) width * 3 < 2 ^ 31
  | .draw24ImagePart x _ _ _ _ _ subw _ => (min subw (W - x) - max (-x) 0) * 3 < 2 ^ 31
  | .clearRect x _ width _ => min width (W - x) * 3 < 2 ^ 31
  | .clearMouse x _ => min MOUSE_WIDTH (W - x) * 3 < 2 ^ 31
  | _ => True

def Call.Fits : Call → Prop
  | .drawCharacter .. | .drawIcon .. | .drawRectBorder .. => True
  -- the image starts above the screen, as its first row is read behind its last, and the
  -- bounds are no further than the screen where they matter
  | .drawImage x y width height max_x max_y =>
    Visible x width max_x → Visible y height max_y →
      y < 0 ∧ min (x + width) max_x ≤ W ∧ min (y + height) max_y ≤ H
  -- as above, and from a column of the screen on
  | .draw24Image x y width height max_x max_y =>
    Visible y height max_y → min (x + width) max_x ≠ x →
      x < min (x + width) max_x ∧ 0 ≤ x ∧
        y < 0 ∧ min (x + width) max_x ≤ W ∧ min (y + height) max_y ≤ H
  -- the first and the last row drawn begin and end in the image
  | .draw24ImagePart x y width height subx suby subw subh =>
    Visible x subw W → Visible y subh H →
      ∀ i ∈ [max (-y) 0, min subh (H - y) - 1], ∀ j ∈ [max (-x) 0, min subw (W - x) - 1],
        Inside width height ((i + suby) * width + subx + j)
  | .drawRectBound x y width height max_x max_y =>
    Visible x width max_x → Visible y height max_y →
      min (x + width) max_x ≤ W ∧ min (y + height) max_y ≤ H
  -- nothing is cut off at the left
  | .clearRect x y width height => x < 0 → 0 < x + width → ¬Visible y height H
  | .clearMouse x y => x < 0 → 0 < x + MOUSE_WIDTH → ¬Visible y MOUSE_HEIGHT H
  | .drawMouse mode x y =>
    Visible x MOUSE_WIDTH W → Visible y MOUSE_HEIGHT H → 0 ≤ mode ∧ mode < MOUSE_MODE

end Calls

section Placement

variable {W H : ℤ} {asked : ℤ → ℤ → Prop} {r c : ℤ}

theorem pixel_row (hc : 0 ≤ c ∧ c < W) :
    Pixel W H asked (r * W + c) ↔ (0 ≤ r ∧ r < H) ∧ asked r c := by
  have hrow : (r * W + c) / W = r := by
    rw [add_comm, Int.add_mul_ediv_right _ _ (by omega), Int.ediv_eq_zero_of_lt hc.1 hc.2, zero_add]
  have hcol : (r * W + c) % W = c := by
    rw [add_comm, Int.add_mul_emod_self_right, Int.emod_eq_of_lt hc.1 hc.2]
  unfold Pixel
  rw [inside_row hc, hrow, hcol]

theorem pixel_of_eq {o : ℤ} (ho : o = r * W + c) (hr : 0 ≤ r ∧ r < H) (hc : 0 ≤ c ∧ c < W)
    (hasked : asked r c) : Pixel W H asked o :=
  ho ▸ (pixel_row hc).mpr ⟨hr, hasked⟩

/-- A column behind the last of the screen is in a later row. -/
theorem not_pixel_beyond (hW : 0 ≤ W) (hc : W ≤ c) (hlast : ∀ r' c', asked r' c' → r' ≤ r) :
    ¬Pixel W H asked (r * W + c) := by
  rintro ⟨hin, hasked⟩
  rcases eq_or_lt_of_le hW with rfl | hpos
  · have hnone := hin.2
    have h0 := hin.1
    rw [zero_mul] at hnone
    omega
  · have hle := hlast _ _ hasked
    rw [add_comm, Int.add_mul_ediv_right _ _ (by omega)] at hle
    have hdiv : 1 ≤ c / W := (Int.le_ediv_iff_mul_le hpos).mpr (by omega)
    omega

/-- Nothing in the rows before the first is on the screen. -/
theorem not_pixel_before (hc : c < 0) : ¬Pixel W H asked (0 * W + c) := by
  rintro ⟨⟨h0, _⟩, _⟩
  rw [zero_mul] at h0
  omega

end Placement

section Clipping

variable {W H : ℕ} {x y width height max_x max_y : ℤ}

theorem confined_drawCharacter {ch : ℤ} : (Call.drawCharacter x y ch).Confined W H := by
  intro data
  show Within _ _ (drawCharacter W H data x y ch).1
  unfold drawCharacter
  simp only
  split
  · exact within_nil
  rename_i hord
  simp only [within_loop, within_ite, within_nil, within_cons, within_pointAlpha, Access.Within,
    implies_true, true_and, and_true]
  intro i hi hrow j hj
  constructor
  · refine inside_of_eq (r := (ch - 0x20) * CHARACTER_HEIGHT + i) (c := j) rfl ?_ hj
    simp only [CHARACTER_HEIGHT, CHARACTER_NUMBER] at hord hi ⊢
    omega
  · intro _ hcol _
    refine pixel_of_eq (r := y + i) (c := x + j) (by ring) (by omega) (by omega) ?_
    show (_ ∧ _ ∧ _) ∧ _ ∧ _ ∧ _
    omega

theorem confined_drawIcon {icon : ℤ} : (Call.drawIcon x y icon).Confined W H := by
  intro data
  show Within _ _ (drawIcon W H data x y icon).1
  unfold drawIcon
  simp only
  split
  · exact within_nil
  rename_i hicon
  simp only [within_loop, within_ite, within_nil, within_cons, within_pointAlpha, Access.Within,
    implies_true, true_and]
  intro i hi hrow j hj hcol
  constructor
  · refine inside_of_eq (r := icon) (c := i * ICON_SIZE + j) rfl (by omega) ?_
    simp only [ICON_SIZE] at hi hj ⊢
    omega
  · intro _ _
    refine pixel_of_eq (r := y + i) (c := x + j) rfl (by omega) (by omega) ?_
    show (_ ∧ _ ∧ _) ∧ _ ∧ _ ∧ _
    omega

/-- Everything drawn has full alpha. -/
def solid : Contents :=
  ⟨fun _ => 0, fun _ => 0, fun _ => 0, fun _ => ⟨0, 0, 0⟩, fun _ => ⟨0, 0, 0, 255⟩,
    fun _ => ⟨0, 0, 0⟩, ⟨0, 0, 0, 255⟩, ⟨0, 0, 0⟩⟩

theorem confined_drawImage_iff :
    (Call.drawImage x y width height max_x max_y).Confined W H ↔
      (Call.drawImage x y width height max_x max_y).Fits W H := by
  unfold Call.Confined Call.accesses drawImage
  simp only [within_loopBelow, within_ite, within_nil, within_cons, within_pointAlpha,
    Access.Within, implies_true, true_and, Call.Fits, Visible]
  constructor
  · rintro hdraw ⟨_, _, _, _⟩ ⟨_, _, _, _⟩
    have hpixel := hdraw solid
    -- the lower right corner of what is drawn
    obtain ⟨hread, hwrite⟩ := hpixel (min height (max_y - y) - 1) (by omega) (by omega)
      (min width (max_x - x) - 1) (by omega) (by omega)
    have hcorner := hwrite (show (255 : ℕ) ≠ 0 by decide)
    rw [add_assoc ((_ : ℤ) * _)] at hcorner
    have hcol : min (x + width) max_x ≤ W := by
      by_contra hbeyond
      refine not_pixel_beyond (Int.natCast_nonneg W) (by omega) ?_ hcorner
      rintro r' c' ⟨hr', _⟩
      omega
    have hrow := ((pixel_row (by omega)).mp hcorner).1
    refine ⟨?_, hcol, by omega⟩
    by_contra hy
    have hfirst := (hpixel 0 (by omega) (by omega) (max (-x) 0) (by omega) (by omega)).1
    rw [show height - 0 = height by omega] at hfirst
    have hin := (inside_row (by omega)).mp hfirst
    omega
  · intro hfits data i hi hrow j hj hcol
    obtain ⟨hy, hx', hy'⟩ := hfits ⟨by omega, by omega, by omega, by omega⟩
      ⟨by omega, by omega, by omega, by omega⟩
    constructor
    · exact inside_of_eq (r := height - i) (c := j) rfl (by omega) (by omega)
    · intro _
      refine pixel_of_eq (r := y + i) (c := x + j) (by ring) (by omega) (by omega) ?_
      show (_ ∧ _ ∧ _) ∧ _ ∧ _ ∧ _
      omega

theorem memmove_size {n : ℤ} (h0 : 0 ≤ n) (h1 : n * 3 < 2 ^ 32) :
    (n * 3 % 2 ^ 32 + 2) / 3 = n := by
  rw [Int.emod_eq_of_lt (by omega) h1]
  omega

/-- A count that is negative as an int is large as an unsigned one. -/
theorem memmove_size_neg {n : ℤ} (h0 : n < 0) (h1 : -2 ^ 31 ≤ n * 3) :
    0 < (n * 3 % 2 ^ 32 + 2) / 3 := by
  rw [Int.emod_eq_add_self_emod, Int.emod_eq_of_lt (by omega) (by omega)]
  omega

theorem confined_draw24Image_iff
    (hsize : (Call.draw24Image x y width height max_x max_y).NoOverflow W) :
    (Call.draw24Image x y width height max_x max_y).Confined W H ↔
      (Call.draw24Image x y width height max_x max_y).Fits W H := by
  obtain ⟨hlow, hhigh⟩ := hsize
  have hline : (if max_x - x < width then max_x - x else width) = min (max_x - x) width := by
    split <;> omega
  unfold Call.Confined Call.accesses draw24Image
  simp only [hline, memmove, within_loopBelow, within_ite, within_nil, within_copyBytes,
    implies_true, true_and, Call.Fits, Visible]
  generalize hm : min (max_x - x) width = m at *
  constructor
  · rintro hdraw ⟨_, _, _, _⟩ hne
    have hrows := hdraw solid
    have hm0 : 0 < m := by
      by_contra hneg
      have hk := memmove_size_neg (n := m) (by omega) hlow
      obtain ⟨_, _, hasked⟩ := hrows (max (-y) 0) (by omega) (by omega) 0 (by omega)
      obtain ⟨_, hcol⟩ := hasked
      omega
    rw [memmove_size hm0.le (by omega)] at hrows
    -- the end of the last row that is drawn, and the begin of the first
    obtain ⟨_, hend⟩ := hrows (min height (max_y - y) - 1) (by omega) (by omega) (m - 1) (by omega)
    obtain ⟨hread, hbegin⟩ := hrows (max (-y) 0) (by omega) (by omega) 0 (by omega)
    rw [add_assoc ((_ : ℤ) * _)] at hend
    have hcol : x + m ≤ W := by
      by_contra hbeyond
      refine not_pixel_beyond (Int.natCast_nonneg W) (by omega) ?_ hend
      rintro r' c' ⟨hr', _⟩
      omega
    have hy : y < 0 := by
      by_contra hy
      rw [show max (-y) 0 = 0 by omega, show height - 0 = height by omega] at hread
      have hin := (inside_row (c := 0) (by omega)).mp hread
      omega
    have hx : 0 ≤ x := by
      by_contra hx
      rw [show y + max (-y) 0 = 0 by omega, add_zero] at hbegin
      exact not_pixel_before (by omega) hbegin
    have hrow := ((pixel_row (by omega)).mp hend).1
    exact ⟨by omega, hx, hy, by omega, by omega⟩
  · intro hfits data i hi hrow k hk
    have hne : min (x + width) max_x ≠ x := by
      intro heq
      have hm0 : m = 0 := by omega
      subst hm0
      omega
    obtain ⟨hx, hx0, hy, hx', hy'⟩ := hfits ⟨by omega, by omega, by omega, by omega⟩ hne
    rw [memmove_size (by omega) (by omega)] at hk
    constructor
    · exact inside_of_eq (r := height - i) (c := k) rfl (by omega) (by omega)
    · refine pixel_of_eq (r := y + i) (c := x + k) (by ring) (by omega) (by omega) ?_
      show (_ ∧ _ ∧ _) ∧ _ ∧ _ ∧ _
      omega

/-- The pixels a drawing stores to, as the window manager's model lists them. -/
def strokes (d : List Access) : List Stroke :=
  d.filterMap fun
    | .store offset f => some (offset, f)
    | _ => none

theorem strokes_memmove {img : ℤ → RGB} {t o n : ℤ} (h0 : 0 ≤ n) (h1 : n * 3 < 2 ^ 32) :
    strokes (memmove img t o (n * 3)) = (loop 0 n).map fun k => (t + k, fun _ => img (o + k)) := by
  unfold memmove copyBytes strokes
  rw [memmove_size h0 h1, Int.emod_eq_of_lt (by omega) h1, List.filterMap_flatMap,
    ← List.flatMap_singleton' (List.map _ _), List.flatMap_map]
  refine List.flatMap_congr fun k hk => ?_
  have hk' := mem_loop.mp hk
  have hwhole : ∀ color, overwrite (n * 3 - 3 * k) color (img (o + k)) = img (o + k) := by
    intro color
    unfold overwrite
    rw [if_pos (by omega), if_pos (by omega), if_pos (by omega)]
  simp only [hwhole]
  rfl

theorem strokes_draw24ImagePart {data : Contents} {subx suby subw subh : ℤ}
    (hsize : (Call.draw24ImagePart x y width height subx suby subw subh).NoOverflow W) :
    strokes (draw24ImagePart W H data x y width subx suby subw subh) =
      Gui.draw24ImagePart W H data.img24 x y width subx suby subw subh := by
  have hsize' : (min subw (W - x) - max (-x) 0) * 3 < 2 ^ 31 := hsize
  have hmin : (if x < 0 then -x else 0) = max (-x) 0 := by split <;> omega
  have hmax : (if x + subw > W then W - x else subw) = min subw (W - x) := by split <;> omega
  unfold draw24ImagePart Gui.draw24ImagePart
  simp only [hmin, hmax]
  split
  · rfl
  split
  · rfl
  unfold strokes
  rw [List.filterMap_flatMap]
  refine List.flatMap_congr fun i _ => ?_
  split
  · rfl
  split
  · rfl
  exact strokes_memmove (by omega) (by omega)

/-- Between two rows of an image the offsets of a column are between theirs. -/
theorem inside_between {i i₀ i₁ c n : ℤ} (hi : i₀ ≤ i ∧ i ≤ i₁)
    (h₀ : Inside width n (i₀ * width + c)) (h₁ : Inside width n (i₁ * width + c)) :
    Inside width n (i * width + c) := by
  obtain ⟨h₀low, h₀high⟩ := h₀
  obtain ⟨h₁low, h₁high⟩ := h₁
  rcases le_total 0 width with hw | hw
  · have hup : i * width ≤ i₁ * width := Int.mul_le_mul_of_nonneg_right hi.2 hw
    have hdown : i₀ * width ≤ i * width := Int.mul_le_mul_of_nonneg_right hi.1 hw
    exact ⟨by omega, by omega⟩
  · have hup : i₁ * width ≤ i * width := Int.mul_le_mul_of_nonpos_right hi.2 hw
    have hdown : i * width ≤ i₀ * width := Int.mul_le_mul_of_nonpos_right hi.1 hw
    exact ⟨by omega, by omega⟩

theorem confined_draw24ImagePart_iff {subx suby subw subh : ℤ}
    (hsize : (Call.draw24ImagePart x y width height subx suby subw subh).NoOverflow W) :
    (Call.draw24ImagePart x y width height subx suby subw subh).Confined W H ↔
      (Call.draw24ImagePart x y width height subx suby subw subh).Fits W H := by
  have hsize' : (min subw (W - x) - max (-x) 0) * 3 < 2 ^ 31 := hsize
  have hmin : (if x < 0 then -x else 0) = max (-x) 0 := by split <;> omega
  have hmax : (if x + subw > W then W - x else subw) = min subw (W - x) := by split <;> omega
  unfold Call.Confined Call.accesses draw24ImagePart
  simp only [hmin, hmax, memmove, within_loop, within_ite, within_nil, within_copyBytes,
    implies_true, true_and, Call.Fits, Visible, List.forall_mem_cons, List.not_mem_nil,
    false_implies, and_true]
  constructor
  · rintro hdraw ⟨_, _, _, _⟩ ⟨_, _, _, _⟩
    have hrows := hdraw solid (by omega) (by omega)
    rw [memmove_size (by omega) (by omega)] at hrows
    have hcorner : ∀ i, 0 ≤ i ∧ i < subh → 0 ≤ y + i ∧ y + i < H →
        ∀ j, max (-x) 0 ≤ j ∧ j < min subw (W - x) →
          Inside width height ((i + suby) * width + subx + j) := by
      intro i hi hrow j hj
      have hin := (hrows i hi (by omega) (by omega) (j - max (-x) 0) (by omega)).1
      rwa [show (i + suby) * width + subx + max (-x) 0 + (j - max (-x) 0) =
        (i + suby) * width + subx + j by ring] at hin
    exact ⟨⟨hcorner _ (by omega) (by omega) _ (by omega), hcorner _ (by omega)
      (by omega) _ (by omega)⟩,
      hcorner _ (by omega) (by omega) _ (by omega), hcorner _ (by omega) (by omega) _ (by omega)⟩
  · intro hfits data hclip hcols i hi habove hbelow k hk
    obtain ⟨⟨h₀₀, h₀₁⟩, h₁₀, h₁₁⟩ := hfits ⟨by omega, by omega, by omega, by omega⟩
      ⟨by omega, by omega, by omega, by omega⟩
    rw [memmove_size (by omega) (by omega)] at hk
    simp only [add_assoc] at h₀₀ h₀₁ h₁₀ h₁₁ ⊢
    constructor
    · -- left and right ends of the row are between those of the first and the last one
      have hleft := inside_between (i := i + suby) ⟨by omega, by omega⟩ h₀₀ h₁₀
      have hright := inside_between (i := i + suby) ⟨by omega, by omega⟩ h₀₁ h₁₁
      exact ⟨by have := hleft.1; omega, by have := hright.2; omega⟩
    · refine pixel_of_eq (r := y + i) (c := x + (max (-x) 0 + k)) (by ring) (by omega) (by omega) ?_
      show (_ ∧ _ ∧ _) ∧ _ ∧ _ ∧ _
      omega

theorem confined_drawRectBound_iff :
    (Call.drawRectBound x y width height max_x max_y).Confined W H ↔
      (Call.drawRectBound x y width height max_x max_y).Fits W H := by
  have hblock : ∀ fill : RGBA, ∀ stroke ∈ Gui.drawRectBound W x y width height fill max_x max_y,
      ∃ i j, (max y 0 ≤ i ∧ i < min (y + height) max_y) ∧
        (max x 0 ≤ j ∧ j < min (x + width) max_x) ∧ stroke.1 = i * W + j := by
    intro fill stroke hmem
    unfold Gui.drawRectBound at hmem
    split at hmem
    · cases hmem
    simp only at hmem
    split at hmem
    all_goals
      obtain ⟨i, hi, hrow⟩ := List.mem_flatMap.mp hmem
      obtain ⟨j, hj, rfl⟩ := List.mem_map.mp hrow
      rw [mem_loop] at hi hj
      refine ⟨i, j, ?_, ?_, rfl⟩ <;> split_ifs at hi hj <;> omega
  unfold Call.Confined Call.accesses drawRectBound
  simp only [Call.Fits, Visible]
  constructor
  · rintro hdraw ⟨_, _, _, _⟩ ⟨_, _, _, _⟩
    have hcorner : Pixel W H (Area x y width height max_x max_y)
        ((min (y + height) max_y - 1) * W + (min (x + width) max_x - 1)) := by
      refine hdraw solid (.store _ fun _ => ⟨0, 0, 0⟩) ?_
      rw [if_neg (show ¬solid.color.A = 0 by decide)]
      refine List.mem_map.mpr ⟨(_, fun _ => ⟨0, 0, 0⟩), ?_, rfl⟩
      unfold Gui.drawRectBound
      rw [if_neg (by omega)]
      simp only
      rw [if_pos (show solid.color.A = 255 from rfl)]
      refine List.mem_flatMap.mpr ⟨min (y + height) max_y - 1, mem_loop.mpr ?_,
        List.mem_map.mpr ⟨min (x + width) max_x - 1, mem_loop.mpr ?_, rfl⟩⟩
      · split_ifs <;> omega
      · split_ifs <;> omega
    have hcol : min (x + width) max_x ≤ W := by
      by_contra hbeyond
      refine not_pixel_beyond (Int.natCast_nonneg W) (by omega) ?_ hcorner
      rintro r' c' ⟨hr', _⟩
      omega
    have hrow := ((pixel_row (by omega)).mp hcorner).1
    exact ⟨hcol, by omega⟩
  · intro hfits data a ha
    split at ha
    · cases ha
    obtain ⟨stroke, hmem, rfl⟩ := List.mem_map.mp ha
    obtain ⟨i, j, hi, hj, ho⟩ := hblock data.color stroke hmem
    obtain ⟨hx, hy⟩ := hfits ⟨by omega, by omega, by omega, by omega⟩
      ⟨by omega, by omega, by omega, by omega⟩
    refine pixel_of_eq (r := i) (c := j) ho (by omega) (by omega) ?_
    show (_ ∧ _ ∧ _) ∧ _ ∧ _ ∧ _
    omega

theorem mem_edge {b : Prop} [Decidable b] {n : ℤ} {p : ℤ → Prop} [DecidablePred p] {o : ℤ → ℤ}
    {f : RGB → RGB} {stroke : Stroke}
    (h : stroke ∈ if b then (loop 0 n).flatMap fun i => if p i then [(o i, f)] else [] else []) :
    b ∧ ∃ i, (0 ≤ i ∧ i < n) ∧ p i ∧ stroke.1 = o i := by
  split at h
  · rename_i hb
    obtain ⟨i, hi, hone⟩ := List.mem_flatMap.mp h
    split at hone
    · rename_i hp
      exact ⟨hb, i, mem_loop.mp hi, hp, congrArg Prod.fst (List.mem_singleton.mp hone)⟩
    · cases hone
  · cases h

theorem confined_drawRectBorder : (Call.drawRectBorder x y width height).Confined W H := by
  intro data a ha
  obtain ⟨stroke, hmem, rfl⟩ := List.mem_map.mp ha
  have hplace : ∃ r c, stroke.1 = r * W + c ∧ (0 ≤ r ∧ r < H) ∧ (0 ≤ c ∧ c < W) ∧
      (y ≤ r ∧ r ≤ y + height) ∧ x ≤ c ∧ c ≤ x + width := by
    unfold Gui.drawRectBorder at hmem
    split at hmem
    · cases hmem
    simp only [List.mem_append] at hmem
    rcases hmem with ((hupper | hlower) | hleft) | hright
    · obtain ⟨hy, i, hi, hcol, ho⟩ := mem_edge hupper
      exact ⟨y, x + i, by rw [ho]; ring, by omega, by omega, by omega, by omega⟩
    · obtain ⟨hy, i, hi, hcol, ho⟩ := mem_edge hlower
      exact ⟨y + height, x + i, by rw [ho]; ring, by omega, by omega, by omega, by omega⟩
    · obtain ⟨hx, i, hi, hrow, ho⟩ := mem_edge hleft
      exact ⟨y + i, x, by rw [ho]; ring, by omega, by omega, by omega, by omega⟩
    · obtain ⟨hx, i, hi, hrow, ho⟩ := mem_edge hright
      exact ⟨y + i, x + width, by rw [ho]; ring, by omega, by omega, by omega, by omega⟩
  obtain ⟨r, c, ho, hr, hc, hy, hx⟩ := hplace
  refine pixel_of_eq (r := r) (c := c) ho hr hc ?_
  show (_ ∧ _ ∧ _) ∧ _ ∧ _ ∧ _
  omega

/-- Copying starts in column 0 where `x` is negative, but the columns left of the screen are
copied to the right of the rectangle. -/
theorem confined_clearRect_iff (hsize : (Call.clearRect x y width height).NoOverflow W) :
    (Call.clearRect x y width height).Confined W H ↔
      (Call.clearRect x y width height).Fits W H := by
  have hsize' : min width (W - x) * 3 < 2 ^ 31 := hsize
  have hwidth : (if x + width > W then W - x else width) = min width (W - x) := by split <;> omega
  have hstart : (if x < 0 then 0 else x) = max x 0 := by split <;> omega
  have htop : (if y < 0 then 0 else y) = max y 0 := by split <;> omega
  have hbottom : (if y + height > H then (H : ℤ) else y + height) = min (y + height) H := by
    split <;> omega
  unfold Call.Confined Call.accesses clearRect
  simp only [hwidth, hstart, htop, hbottom, if_neg (show ¬max x 0 < 0 by omega), memmove,
    within_loop, within_ite, within_nil, within_copyBytes, implies_true, true_and, Call.Fits,
    Visible]
  constructor
  · rintro hdraw hx hin ⟨_, _, _, _⟩
    have hrows := hdraw solid (by omega) (by omega)
    rw [memmove_size (by omega) (by omega)] at hrows
    have hlast := hrows (min (y + height) H - 1) (by omega)
    simp only [show max x 0 = 0 by omega, add_zero] at hlast
    by_cases hright : x + width < W
    · -- the column behind the rectangle
      obtain ⟨_, hcol⟩ := ((pixel_row (by omega)).mp (hlast (x + width) (by omega)).2).2
      omega
    · refine not_pixel_beyond (Int.natCast_nonneg W) le_rfl ?_ (hlast W (by omega)).2
      rintro r' c' ⟨hr', _⟩
      omega
  · intro hfits data hclip hcopy i hi k hk
    have hx : 0 ≤ x := by
      by_contra hx
      exact hfits (by omega) (by omega) ⟨by omega, by omega, by omega, by omega⟩
    rw [memmove_size (by omega) (by omega)] at hk
    have ho : i * (W : ℤ) + max x 0 + k = i * W + (x + k) := by
      rw [max_eq_left hx]
      ring
    constructor
    · exact inside_of_eq ho (by omega) (by omega)
    · refine pixel_of_eq ho (by omega) (by omega) ?_
      show (_ ∧ _ ∧ _) ∧ _ ∧ _ ∧ _
      omega

theorem confined_drawMouse_iff {mode : ℤ} :
    (Call.drawMouse mode x y).Confined W H ↔ (Call.drawMouse mode x y).Fits W H := by
  unfold Call.Confined Call.accesses drawMouse
  simp only [within_loopBelow, within_ite, within_nil, within_cons, Access.Within, implies_true,
    true_and, and_true, Call.Fits, Visible]
  constructor
  · rintro hdraw ⟨_, _, _, _⟩ ⟨_, _, _, _⟩
    have hread := (hdraw solid (max (-y) 0) (by omega) (by omega) (max (-x) 0) (by omega)
      (by omega)).1
    have hin := (inside_row (by omega)).mp hread
    simp only [MOUSE_HEIGHT, MOUSE_MODE] at *
    omega
  · intro hfits data i hi hrow j hj hcol
    obtain ⟨hm0, hm1⟩ := hfits ⟨by omega, by omega, by omega, by omega⟩
      ⟨by omega, by omega, by omega, by omega⟩
    constructor
    · refine inside_of_eq (r := mode * MOUSE_HEIGHT + i) (c := j) rfl ?_ (by omega)
      simp only [MOUSE_HEIGHT, MOUSE_MODE] at *
      omega
    · intro _
      refine pixel_of_eq (r := y + i) (c := x + j) (by ring) (by omega) (by omega) ?_
      show (_ ∧ _ ∧ _) ∧ _ ∧ _ ∧ _
      omega

end Clipping

/-- A call draws within its part of the screen, whatever it draws, exactly if it fits. -/
theorem confined_iff_fits (W H : ℕ) (c : Call) (hsize : c.NoOverflow W) :
    c.Confined W H ↔ c.Fits W H := by
  cases c with
  | drawCharacter x y ch => exact iff_of_true confined_drawCharacter trivial
  | drawIcon x y icon => exact iff_of_true confined_drawIcon trivial
  | drawImage x y width height max_x max_y => exact confined_drawImage_iff
  | draw24Image x y width height max_x max_y => exact confined_draw24Image_iff hsize
  | draw24ImagePart x y width height subx suby subw subh =>
    exact confined_draw24ImagePart_iff hsize
  | drawRectBound x y width height max_x max_y => exact confined_drawRectBound_iff
  | drawRectBorder x y width height => exact iff_of_true confined_drawRectBorder trivial
  | clearRect x y width height => exact confined_clearRect_iff hsize
  | drawMouse mode x y => exact confined_drawMouse_iff
  | clearMouse x y => exact confined_clearRect_iff hsize

/-- The rectangle of a window half off the left edge. -/
theorem confined_iff_fits_clearRect :
    (Call.clearRect (-50) 10 100 20).NoOverflow (800 : ℕ) ∧
      ((Call.clearRect (-50) 10 100 20).Confined (800 : ℕ) (600 : ℕ) ↔
        (Call.clearRect (-50) 10 100 20).Fits (800 : ℕ) (600 : ℕ)) :=
  ⟨by unfold Call.NoOverflow; decide,
    confined_iff_fits 800 600 (.clearRect (-50) 10 100 20) (by unfold Call.NoOverflow; decide)⟩

/-- Clearing it copies 50 columns right of it as well. -/
theorem not_always_on_screen :
    ¬∀ (W H : ℕ) (c : Call), c.NoOverflow W → c.Confined W H := by
  intro h
  have hconfined := h 800 600 (.clearRect (-50) 10 100 20) (by unfold Call.NoOverflow; decide)
  have hfits : (Call.clearRect (-50) 10 100 20).Fits (800 : ℕ) (600 : ℕ) :=
    (confined_clearRect_iff (by unfold Call.NoOverflow; decide)).mp hconfined
  refine hfits (by decide) (by decide) ?_
  unfold Visible
  decide

end NorthOS.ScreenDrawing
