import NorthOS.Pixels

/-!
The drawing of user_gui.c into the buffer of a window. Each function clips on its own.
All of them stay in the buffer and in their image but drawRect: the lower edge is drawn
up to row `height` of the window and the right edge up to column `width`.
-/
namespace NorthOS.UserGui

open Gui Pixels

def CHARACTER_WIDTH : ℤ := 10
def CHARACTER_HEIGHT : ℤ := 18
def CHARACTER_NUMBER : ℤ := 96
def ICON_SIZE : ℤ := 30
def ICON_NUMBER : ℤ := 5

/-- What the drawing reads of a `window`; `window_buf` has `width * height` pixels. -/
structure Window where
  width : ℤ
  height : ℤ
  width_pos : 0 < width
  height_pos : 0 < height

/-- The arrays `character` and `icons_data`, by the offset of an element. -/
structure Tables where
  character : ℤ → ℕ
  icons_data : ℤ → ℕ

def glyphOffset (ord i j : ℤ) : ℤ := (ord * CHARACTER_HEIGHT + i) * CHARACTER_WIDTH + j
def iconOffset (icon i j : ℤ) : ℤ := icon * (ICON_SIZE * ICON_SIZE) + (i * ICON_SIZE + j)

/-- `memmove` of ulib.c copies nothing if `n` is not positive. -/
def memmove (img : ℤ → RGB) (t o n : ℤ) : List Access := copyBytes img t o n

/-- `memmove` inside the buffer, of `n` bytes that make whole pixels. -/
def memmoveRow (t o n : ℤ) : List Access :=
  (loop 0 ((n + 2) / 3)).map fun k => .move (o + k) (t + k)

def fillRect (x y width height max_x max_y : ℤ) (fill : RGBA) : List Access :=
  if x ≥ max_x ∨ y ≥ max_y ∨ x + width ≤ 0 ∨ y + height ≤ 0 then []
  else
    let start_x := if x < 0 then 0 else x
    let start_y := if y < 0 then 0 else y
    let end_x := if x + width > max_x then max_x else x + width
    let end_y := if y + height > max_y then max_y else y + height
    if fill.A = 255 then
      (loop start_y end_y).flatMap fun i =>
        let t := i * max_x + start_x
        (loop start_x end_x).map fun j =>
          .store (t + (j - start_x)) fun _ => ⟨fill.R, fill.G, fill.B⟩
    else
      (loop start_y end_y).flatMap fun i => (loop start_x end_x).flatMap fun j =>
        pointAlpha (i * max_x + j) fill

/-- The accesses, and the value returned. -/
def drawCharacter (tab : Tables) (x y ch : ℤ) (color : RGBA) (win_width win_height : ℤ) :
    List Access × ℤ :=
  let ord := ch - 0x20
  if ord < 0 ∨ ord ≥ CHARACTER_NUMBER - 1 then ([], -1)
  else if x ≥ win_width ∨ y ≥ win_height ∨ x + CHARACTER_WIDTH ≤ 0 ∨
      y + CHARACTER_HEIGHT ≤ 0 then ([], CHARACTER_WIDTH)
  else
    ((loop 0 CHARACTER_HEIGHT).flatMap fun i =>
      if y + i ≥ win_height ∨ y + i < 0 then []
      else (loop 0 CHARACTER_WIDTH).flatMap fun j =>
        if x + j ≥ win_width ∨ x + j < 0 then []
        else
          let font_alpha := tab.character (glyphOffset ord i j)
          .read (glyphOffset ord i j) ::
            if font_alpha > 0 then
              pointAlpha ((y + i) * win_width + (x + j))
                { color with A := (color.A * font_alpha) >>> 8 }
            else [],
      CHARACTER_WIDTH)

def newline : ℤ := 10

/-- Where `drawString` is after a character: the cell of the next one. -/
def advance (width ch : ℤ) (offset : ℤ × ℤ) : ℤ × ℤ :=
  if ch ≠ newline then
    if offset.1 + CHARACTER_WIDTH + CHARACTER_WIDTH > width then (0, offset.2 + CHARACTER_HEIGHT)
    else (offset.1 + CHARACTER_WIDTH, offset.2)
  else (0, offset.2 + CHARACTER_HEIGHT)

/-- The loop of `drawString`, from a cell on. -/
def drawStringFrom (tab : Tables) (win : Window) (color : RGBA) (x y width height : ℤ) :
    List ℤ → ℤ × ℤ → List Access
  | [], _ => []
  | ch :: str, offset =>
    if offset.2 + CHARACTER_HEIGHT > height then []
    else
      (if ch ≠ newline ∧ offset.1 + CHARACTER_WIDTH ≤ width then
          (drawCharacter tab (x + offset.1) (y + offset.2) ch color win.width win.height).1
        else []) ++
        drawStringFrom tab win color x y width height str (advance width ch offset)

def drawString (tab : Tables) (win : Window) (str : List ℤ) (color : RGBA)
    (x y width height : ℤ) : List Access :=
  drawStringFrom tab win color x y width height str (0, 0)

def drawImage (win : Window) (img : ℤ → RGBA) (x y width height : ℤ) : List Access :=
  if x ≥ win.width ∨ y ≥ win.height ∨ x + width ≤ 0 ∨ y + height ≤ 0 then []
  else
    let start_y := if y < 0 then -y else 0
    let start_x := if x < 0 then -x else 0
    let end_y := if y + height > win.height then win.height - y else height
    let end_x := if x + width > win.width then win.width - x else width
    (loop start_y end_y).flatMap fun i => (loop start_x end_x).flatMap fun j =>
      let t := (y + i) * win.width + (x + j)
      let o := (height - i - 1) * width + j
      .read o :: pointAlpha t (img o)

def draw24Image (win : Window) (img : ℤ → RGB) (x y width height : ℤ) : List Access :=
  if x ≥ win.width ∨ y ≥ win.height ∨ x < 0 ∨ y < 0 then []
  else
    let max_line := if win.width - x < width then win.width - x else width
    (loopUntil 0 height fun i => y + i ≥ win.height).flatMap fun i =>
      if y + i < 0 then []
      else
        let t := (y + i) * win.width + x
        let o := (height - i - 1) * width
        memmove img t o (max_line * 3)

def drawRect (win : Window) (color : RGB) (x y width height : ℤ) : List Access :=
  let screen_width := win.width
  let screen_height := win.height
  if x ≥ screen_width ∨ x + width < 0 ∨ y ≥ screen_height ∨ y + height < 0 ∨ width < 0 ∨
      height < 0 then []
  else
    let t := y * screen_width + x
    (if y ≥ 0 then
        (loop 0 width).flatMap fun i =>
          if x + i ≥ 0 ∧ x + i < screen_width then [.store (t + i) fun _ => color] else []
      else []) ++
    (if y + height ≤ screen_height then
        let o := t + height * screen_width
        (loop 0 width).flatMap fun i =>
          if y ≥ 0 ∧ x + i > 0 ∧ x + i < screen_width then
            [.store (o + i) fun _ => color] else []
      else []) ++
    (if x ≥ 0 then
        (loop 0 height).flatMap fun i =>
          if y + i ≥ 0 ∧ y + i < screen_height then
            [.store (t + i * screen_width) fun _ => color] else []
      else []) ++
    (if x + width ≤ screen_width then
        let o := t + width
        (loop 0 height).flatMap fun i =>
          if y + i ≥ 0 ∧ y + i < screen_height then
            [.store (o + i * screen_width) fun _ => color] else []
      else [])

def drawFillRect (win : Window) (color : RGBA) (x y width height : ℤ) : List Access :=
  let screen_width := win.width
  let screen_height := win.height
  if x ≥ screen_width ∨ x + width < 0 ∨ y ≥ screen_height ∨ y + height < 0 ∨ width < 0 ∨
      height < 0 then []
  else
    let (x, width) := if x < 0 then (0, width + x) else (x, width)
    let (y, height) := if y < 0 then (0, height + y) else (y, height)
    let width := if x + width > screen_width then screen_width - x else width
    let height := if y + height > screen_height then screen_height - y else height
    if color.A = 255 then
      (loop 0 height).flatMap fun i =>
        let t := (y + i) * win.width + x
        (loop 0 width).map fun j => .store (t + j) fun _ => ⟨color.R, color.G, color.B⟩
    else
      (loop 0 height).flatMap fun i => (loop 0 width).flatMap fun j =>
        if x + j > 0 ∧ x + j < screen_width ∧ y + i > 0 ∧ y + i < screen_height then
          pointAlpha ((y + i) * win.width + (x + j)) color
        else []

/-- The rows below the first are copies of it. -/
def draw24FillRect (win : Window) (color : RGB) (x y width height : ℤ) : List Access :=
  if x ≥ win.width ∨ x + width < 0 ∨ y ≥ win.height ∨ y + height < 0 ∨ x < 0 ∨ y < 0 ∨
      width < 0 ∨ height < 0 then []
  else
    let max_line := if win.width - x < width then win.width - x else width
    let t := y * win.width + x
    (loopUntil 0 height fun i => y + i ≥ win.height).flatMap fun i =>
      if y + i < 0 then []
      else if i = 0 then (loop 0 max_line).map fun j => .store (t + j) fun _ => color
      else
        let o := (y + i) * win.width + x
        memmoveRow o t (max_line * 3)

/-- Unlike the glyphs, an icon ends at the first row or column outside the window. -/
def drawIcon (tab : Tables) (win : Window) (icon x y : ℤ) : List Access :=
  if icon < 0 ∨ icon ≥ ICON_NUMBER then []
  else
    (loopUntil 0 ICON_SIZE fun i => y + i ≥ win.height ∨ y + i < 0).flatMap fun i =>
      (loopUntil 0 ICON_SIZE fun j => x + j ≥ win.width ∨ x + j < 0).flatMap fun j =>
        let p := tab.icons_data (iconOffset icon i j)
        .read (iconOffset icon i j) ::
          if p = 0 then []
          else pointAlpha ((y + i) * win.width + (x + j))
            ⟨(p >>> 16) &&& 0xFF, (p >>> 8) &&& 0xFF, p &&& 0xFF, 255⟩

/-- The widget at its place in the window, the scroll offset already subtracted. -/
def drawButtonWidget (tab : Tables) (win : Window) (text : List ℤ) (color bg_color : RGBA)
    (xmin ymin width height : ℤ) : List Access :=
  let textYOffset := (height - CHARACTER_HEIGHT).tdiv 2
  -- the length is unsigned, and the comparison and the division with it
  let length : ℤ := text.length * CHARACTER_WIDTH
  let textXOffset := if width % 2 ^ 32 > length % 2 ^ 32 then (width - length) % 2 ^ 32 / 2 else 2
  drawFillRect win bg_color xmin ymin width height ++
    drawRect win ⟨0, 0, 0⟩ xmin ymin width height ++
    drawString tab win text color (xmin + textXOffset) (ymin + textYOffset) width height

inductive Call
  | fillRect (x y width height : ℤ) (fill : RGBA)
  | drawCharacter (x y ch : ℤ) (color : RGBA)
  | drawString (str : List ℤ) (color : RGBA) (x y width height : ℤ)
  | draw24Image (img : ℤ → RGB) (x y width height : ℤ)
  | drawRect (color : RGB) (x y width height : ℤ)
  | drawFillRect (color : RGBA) (x y width height : ℤ)
  | draw24FillRect (color : RGB) (x y width height : ℤ)
  | drawImage (img : ℤ → RGBA) (x y width height : ℤ)
  | drawIcon (icon x y : ℤ)
  | drawButtonWidget (text : List ℤ) (color bg_color : RGBA) (xmin ymin width height : ℤ)

def Call.accesses (tab : Tables) (win : Window) : Call → List Access
  | .fillRect x y width height fill => UserGui.fillRect x y width height win.width win.height fill
  | .drawCharacter x y ch color =>
    (UserGui.drawCharacter tab x y ch color win.width win.height).1
  | .drawString str color x y width height =>
    UserGui.drawString tab win str color x y width height
  | .draw24Image img x y width height => UserGui.draw24Image win img x y width height
  | .drawRect color x y width height => UserGui.drawRect win color x y width height
  | .drawFillRect color x y width height => UserGui.drawFillRect win color x y width height
  | .draw24FillRect color x y width height => UserGui.draw24FillRect win color x y width height
  | .drawImage img x y width height => UserGui.drawImage win img x y width height
  | .drawIcon icon x y => UserGui.drawIcon tab win icon x y
  | .drawButtonWidget text color bg_color xmin ymin width height =>
    UserGui.drawButtonWidget tab win text color bg_color xmin ymin width height

/-- The pixels the call may read: those of its image, glyphs or icons. -/
def Call.Source : Call → ℤ → Prop
  | .draw24Image _ _ _ width height | .drawImage _ _ _ width height => Inside width height
  | .drawCharacter .. | .drawString .. | .drawButtonWidget .. =>
    Inside CHARACTER_WIDTH ((CHARACTER_NUMBER - 1) * CHARACTER_HEIGHT)
  | .drawIcon .. => Inside (ICON_SIZE * ICON_SIZE) ICON_NUMBER
  | .fillRect .. | .drawRect .. | .drawFillRect .. | .draw24FillRect .. => fun _ => False

/-- Every pixel written is in the buffer of the window, every one read in the image. -/
def Call.Safe (tab : Tables) (win : Window) (c : Call) : Prop :=
  Within (Inside win.width win.height) c.Source (c.accesses tab win)

/-- A rectangle that drawRect draws, and that ends on the lower edge of the window with
more than a pixel of that edge, or on the right edge with a row at the lower one. -/
def Overruns (win : Window) (x y width height : ℤ) : Prop :=
  (x < win.width ∧ 0 ≤ x + width ∧ y < win.height ∧ 0 ≤ y + height ∧ 0 ≤ width ∧ 0 ≤ height) ∧
    ((0 ≤ y ∧ y + height = win.height ∧ 0 < width ∧ 1 < x + width ∧ 1 < win.width) ∨
      (x + width = win.width ∧ 0 < height ∧ win.height ≤ y + height))

def Call.Overruns (win : Window) : Call → Prop
  | .drawRect _ x y width height | .drawButtonWidget _ _ _ x y width height =>
    UserGui.Overruns win x y width height
  | _ => False

instance (win : Window) (x y width height : ℤ) :
    Decidable (UserGui.Overruns win x y width height) := by
  unfold UserGui.Overruns
  infer_instance

section Clipping

variable {tab : Tables} {win : Window} {source : ℤ → Prop} {x y width height : ℤ}

theorem within_fillRect {fill : RGBA} :
    Within (Inside win.width win.height) source
      (fillRect x y width height win.width win.height fill) := by
  simp only [fillRect, within_ite, within_nil, within_loop, within_map_loop, within_pointAlpha,
    Access.Within, implies_true, true_and]
  intro hclip
  constructor
  · intro _ i hi j hj
    refine inside_of_eq (r := i) (c := j) (by ring) ?_ ?_ <;> split_ifs at hi hj <;> omega
  · intro _ i hi j hj _
    refine inside_of_eq (r := i) (c := j) rfl ?_ ?_ <;> split_ifs at hi hj <;> omega

theorem within_drawCharacter {ch : ℤ} {color : RGBA} :
    Within (Inside win.width win.height)
      (Inside CHARACTER_WIDTH ((CHARACTER_NUMBER - 1) * CHARACTER_HEIGHT))
      (drawCharacter tab x y ch color win.width win.height).1 := by
  unfold drawCharacter
  simp only
  split
  · exact within_nil
  rename_i hord
  split
  · exact within_nil
  simp only [within_loop, within_ite, within_nil, within_cons, within_pointAlpha, Access.Within,
    implies_true, true_and, and_true]
  intro i hi hrow j hj hcol
  constructor
  · refine inside_of_eq (r := (ch - 0x20) * CHARACTER_HEIGHT + i) (c := j) rfl ?_ hj
    simp only [CHARACTER_HEIGHT, CHARACTER_NUMBER] at hord hi ⊢
    omega
  · intro _ _
    exact inside_of_eq (r := y + i) (c := x + j) rfl (by omega) (by omega)

theorem within_drawStringFrom {color : RGBA} {str : List ℤ} : ∀ {offset : ℤ × ℤ},
    Within (Inside win.width win.height)
      (Inside CHARACTER_WIDTH ((CHARACTER_NUMBER - 1) * CHARACTER_HEIGHT))
      (drawStringFrom tab win color x y width height str offset) := by
  induction str with
  | nil =>
    intro offset
    exact within_nil
  | cons ch str ih =>
    intro offset
    unfold drawStringFrom
    split
    · exact within_nil
    refine within_append.mpr ⟨?_, ih⟩
    split
    · exact within_drawCharacter
    · exact within_nil

theorem within_draw24Image {img : ℤ → RGB} :
    Within (Inside win.width win.height) (Inside width height)
      (draw24Image win img x y width height) := by
  simp only [draw24Image, memmove, within_ite, within_nil, within_loopBelow, within_copyBytes,
    implies_true, true_and]
  intro hclip i hi hrow k hk
  constructor
  · refine inside_of_eq (r := height - i - 1) (c := k) rfl (by omega) ?_
    split_ifs at hk <;> omega
  · refine inside_of_eq (r := y + i) (c := x + k) (by ring) (by omega) ?_
    split_ifs at hk <;> omega

theorem within_drawFillRect {color : RGBA} :
    Within (Inside win.width win.height) source (drawFillRect win color x y width height) := by
  unfold drawFillRect
  simp only
  split
  · exact within_nil
  rename_i hclip
  generalize hx : (if x < 0 then ((0 : ℤ), width + x) else (x, width)) = px
  generalize hy : (if y < 0 then ((0 : ℤ), height + y) else (y, height)) = py
  have hW := win.width_pos
  have hH := win.height_pos
  obtain ⟨x', width'⟩ := px
  obtain ⟨y', height'⟩ := py
  have hx' : 0 ≤ x' ∧ x' ≤ win.width := by
    split at hx <;> obtain ⟨rfl, rfl⟩ := Prod.mk.inj hx <;> omega
  have hy' : 0 ≤ y' ∧ y' ≤ win.height := by
    split at hy <;> obtain ⟨rfl, rfl⟩ := Prod.mk.inj hy <;> omega
  simp only [within_ite, within_nil, within_loop, within_map_loop, within_pointAlpha,
    Access.Within, implies_true, and_true]
  constructor
  · intro _ i hi j hj
    refine inside_of_eq (r := y' + i) (c := x' + j) (by ring) ?_ ?_ <;>
      split_ifs at hi hj <;> omega
  · intro _ i hi j hj hin _
    exact inside_of_eq (r := y' + i) (c := x' + j) rfl (by omega) (by omega)

theorem within_draw24FillRect {color : RGB} :
    Within (Inside win.width win.height) source
      (draw24FillRect win color x y width height) := by
  simp only [draw24FillRect, memmoveRow, within_ite, within_nil, within_loopBelow,
    within_map_loop, Access.Within, implies_true, true_and]
  intro hclip i hi hrow
  constructor
  · intro _ j hj
    refine inside_of_eq (r := y) (c := x + j) (by ring) (by omega) ?_
    split_ifs at hj <;> omega
  · intro _ k hk
    have hcol : 0 ≤ x + k ∧ x + k < win.width := by
      split_ifs at hk <;> omega
    exact ⟨inside_of_eq (r := y) (by ring) (by omega) hcol,
      inside_of_eq (r := y + i) (by ring) (by omega) hcol⟩

theorem within_drawImage {img : ℤ → RGBA} :
    Within (Inside win.width win.height) (Inside width height)
      (drawImage win img x y width height) := by
  simp only [drawImage, within_ite, within_nil, within_loop, within_cons, within_pointAlpha,
    Access.Within, implies_true, true_and]
  intro hclip i hi j hj
  constructor
  · refine inside_of_eq (r := height - i - 1) (c := j) rfl ?_ ?_ <;>
      split_ifs at hi hj <;> omega
  · intro _
    refine inside_of_eq (r := y + i) (c := x + j) rfl ?_ ?_ <;>
      split_ifs at hi hj <;> omega

theorem within_drawIcon {icon : ℤ} :
    Within (Inside win.width win.height) (Inside (ICON_SIZE * ICON_SIZE) ICON_NUMBER)
      (drawIcon tab win icon x y) := by
  simp only [drawIcon, within_ite, within_nil, within_loopUntil, within_cons, within_pointAlpha,
    Access.Within, implies_true, true_and]
  intro hicon i hi j hj
  have hrow := hi.2 i hi.1.1 le_rfl
  have hcol := hj.2 j hj.1.1 le_rfl
  rw [decide_eq_false_iff_not] at hrow hcol
  constructor
  · refine inside_of_eq (r := icon) (c := i * ICON_SIZE + j) rfl (by omega) ?_
    simp only [ICON_SIZE] at hi hj ⊢
    omega
  · intro _ _
    exact inside_of_eq (r := y + i) (c := x + j) rfl (by omega) (by omega)

/-- The edges of drawRect: the upper and the left one are always in the buffer. -/
theorem within_drawRect {color : RGB} :
    Within (Inside win.width win.height) source (drawRect win color x y width height) ↔
      ¬Overruns win x y width height := by
  have hW := win.width_pos
  have hH := win.height_pos
  simp only [drawRect, within_ite, within_append, within_nil, within_loop, within_cons,
    Access.Within, implies_true, true_and, and_true]
  constructor
  · rintro hdraw ⟨hclip, hlower | hright⟩
    · obtain ⟨⟨⟨_, hlow⟩, _⟩, _⟩ := hdraw (by omega)
      -- the first column of the lower edge that is drawn
      have hin := hlow (by omega) (if x < 1 then 1 - x else 0) (by split <;> omega)
        (by split <;> omega)
      rw [show y * win.width + x + height * win.width + (if x < 1 then 1 - x else 0) =
        (y + height) * win.width + (x + if x < 1 then 1 - x else 0) by ring,
        inside_row (by split <;> omega)] at hin
      omega
    · obtain ⟨_, hedge⟩ := hdraw (by omega)
      have hin := hedge (by omega) (win.height - 1 - y) (by omega) (by omega)
      rw [show y * win.width + x + width + (win.height - 1 - y) * win.width =
        win.height * win.width + 0 by rw [← hright.1]; ring,
        inside_row (by omega)] at hin
      omega
  · intro hok hclip
    have hclip' : x < win.width ∧ 0 ≤ x + width ∧ y < win.height ∧ 0 ≤ y + height ∧
        0 ≤ width ∧ 0 ≤ height := by omega
    have hfree := not_or.mp fun h => hok ⟨hclip', h⟩
    refine ⟨⟨⟨fun hy i hi hcol => ?_, fun hy i hi hcol => ?_⟩, fun hx i hi hrow => ?_⟩,
      fun hx i hi hrow => ?_⟩
    · exact inside_of_eq (r := y) (c := x + i) (by ring) (by omega) (by omega)
    · exact inside_of_eq (r := y + height) (c := x + i) (by ring) (by omega) (by omega)
    · exact inside_of_eq (r := y + i) (c := x) (by ring) (by omega) (by omega)
    · by_cases hend : x + width = win.width
      · -- the column right of the window is the first of the next row
        refine inside_of_eq (r := y + i + 1) (c := 0) ?_ (by omega) (by omega)
        rw [add_assoc (y * win.width), hend]
        ring
      · exact inside_of_eq (r := y + i) (c := x + width) (by ring) (by omega) (by omega)

end Clipping

theorem Call.within_iff {tab : Tables} {win : Window} (c : Call) :
    Within (Inside win.width win.height) c.Source (c.accesses tab win) ↔ ¬c.Overruns win := by
  cases c with
  | fillRect x y width height fill => exact iff_of_true within_fillRect not_false
  | drawCharacter x y ch color => exact iff_of_true within_drawCharacter not_false
  | drawString str color x y width height => exact iff_of_true within_drawStringFrom not_false
  | draw24Image img x y width height => exact iff_of_true within_draw24Image not_false
  | drawRect color x y width height => exact within_drawRect
  | drawFillRect color x y width height => exact iff_of_true within_drawFillRect not_false
  | draw24FillRect color x y width height => exact iff_of_true within_draw24FillRect not_false
  | drawImage img x y width height => exact iff_of_true within_drawImage not_false
  | drawIcon icon x y => exact iff_of_true within_drawIcon not_false
  | drawButtonWidget text color bg_color xmin ymin width height =>
    unfold Call.accesses UserGui.drawButtonWidget
    rw [within_append, within_append, within_drawRect]
    exact ⟨fun h => h.1.2, fun h => ⟨⟨within_drawFillRect, h⟩, within_drawStringFrom⟩⟩

/-- The heap around the buffer is as it was. -/
theorem Call.paint_outside {tab : Tables} {win : Window} {c : Call} (hc : ¬c.Overruns win)
    {mem : ℤ → RGB} {o : ℤ} (ho : ¬Inside win.width win.height o) :
    paint mem (c.accesses tab win) o = mem o :=
  Pixels.paint_outside ho (c.within_iff.mpr hc)

/-- A drawing call stays in the buffer of the window and in its image exactly if it does not
draw a rectangle that ends on the lower or the right edge. -/
theorem drawing_safe_iff (tab : Tables) (win : Window) (c : Call) :
    c.Safe tab win ↔ ¬c.Overruns win :=
  c.within_iff

/-- A border as large as the window is drawn below it. -/
theorem not_every_drawing_safe :
    ¬∀ (tab : Tables) (win : Window) (c : Call), c.Safe tab win := by
  intro h
  have hfree := (Call.within_iff _).mp <| h ⟨fun _ => 0, fun _ => 0⟩ ⟨20, 20, by decide, by decide⟩
    (.drawRect ⟨0, 0, 0⟩ 0 0 20 20)
  have hover : Overruns ⟨20, 20, by decide, by decide⟩ 0 0 20 20 := by decide
  exact hfree hover

end NorthOS.UserGui
