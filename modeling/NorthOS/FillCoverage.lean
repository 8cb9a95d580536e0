import NorthOS.UserGui

/-!
Which pixels a filled rectangle touches. Each fill has a loop for solid colours and one for
colours that are blended; both should go over the pixels of the rectangle that are in the
target. In drawFillRect the second loop tests its indices once more, and leaves out the first
row and the first column.
-/
namespace NorthOS.UserGui

open Gui Pixels

/-- A function that fills a rectangle, with its target. -/
inductive Fill
  | drawRectBound (SCREEN_WIDTH max_x max_y : ℤ)
  | fillRect (max_x max_y : ℤ)
  | drawFillRect (win : Window)

namespace Fill

def accesses (f : Fill) (x y width height : ℤ) (color : RGBA) : List Access :=
  match f with
  | .drawRectBound SCREEN_WIDTH max_x max_y =>
    if color.A = 0 then []
    else (Gui.drawRectBound SCREEN_WIDTH x y width height color max_x max_y).map
      fun stroke => .store stroke.1 stroke.2
  | .fillRect max_x max_y => UserGui.fillRect x y width height max_x max_y color
  | .drawFillRect win => UserGui.drawFillRect win color x y width height

/-- The distance of two rows of the buffer. -/
def stride : Fill → ℤ
  | .drawRectBound SCREEN_WIDTH _ _ => SCREEN_WIDTH
  | .fillRect max_x _ => max_x
  | .drawFillRect win => win.width

def max_x : Fill → ℤ
  | .drawRectBound _ max_x _ => max_x
  | .fillRect max_x _ => max_x
  | .drawFillRect win => win.width

def max_y : Fill → ℤ
  | .drawRectBound _ _ max_y => max_y
  | .fillRect _ max_y => max_y
  | .drawFillRect win => win.height

/-- The pixels of the rectangle that are in the target. -/
def clip (f : Fill) (x y width height : ℤ) : Set ℤ :=
  {o | ∃ r c, ((0 ≤ r ∧ r < f.max_y) ∧ y ≤ r ∧ r < y + height) ∧
    ((0 ≤ c ∧ c < f.max_x) ∧ x ≤ c ∧ c < x + width) ∧ o = r * f.stride + c}

end Fill

/-- The pixels that a drawing stores to. -/
def stored (d : List Access) : Set ℤ := {o | ∃ f, Access.store o f ∈ d}

/-- A solid and a blended fill touch the same pixels, those of the rectangle in the target. -/
def Fill.Covers (f : Fill) (x y width height : ℤ) : Prop :=
  ∀ solid blend : RGBA, solid.A = 255 → 0 < blend.A → blend.A < 255 →
    stored (f.accesses x y width height solid) = stored (f.accesses x y width height blend) ∧
      stored (f.accesses x y width height blend) = f.clip x y width height

/-- Some of the `n` indices from `x` on are in the target. -/
def Meets (x n bound : ℤ) : Prop := 0 < n ∧ 0 < x + n ∧ x < bound ∧ 0 < bound

variable {x y width height o : ℤ} {color : RGBA} {win : Window}

section Stored

end Stored

section Fills

def smallWindow : Window := ⟨4, 4, by decide, by decide⟩

end Fills

end NorthOS.UserGui
