import NorthOS.HitTest

/-!
The rectangles that createWindow and createPopupWindow store. drawWindow takes the row
stride and the row count of the client's pixels from them. A rectangle that is accepted
has the client's sizes; one that createWindow centres has them if both are even, and one
that createPopupWindow rejects is the rectangle of an earlier popup.
-/
namespace NorthOS.WindowManager

open Gui

/-- The rectangle has the client's width and height. -/
def Sized (r : WinRect) (window : Window) : Prop :=
  r.xmax - r.xmin = window.width ∧ r.ymax - r.ymin = window.height

/-- What drawWindow draws from the pixels of the client. -/
def drawContent (W H : ℤ) (img : ℤ → RGB) (r : WinRect) : List Stroke :=
  draw24ImagePart W H img r.xmin r.ymin (r.xmax - r.xmin) 0 0 (r.xmax - r.xmin) (r.ymax - r.ymin)

/-- On the screen the drawing shows the client's pixels, each in its row and column, and
reads no others. -/
def ShowsPixels (W H : ℤ) (r : WinRect) (window : Window) : Prop :=
  ∀ (img : ℤ → RGB) (stroke : Stroke), stroke ∈ drawContent W H img r ↔
    ∃ i j, (0 ≤ i ∧ i < window.height) ∧ (0 ≤ j ∧ j < window.width) ∧
      (0 ≤ r.ymin + i ∧ r.ymin + i < H) ∧ (0 ≤ r.xmin + j ∧ r.xmin + j < W) ∧
      stroke = ((r.ymin + i) * W + (r.xmin + j), fun _ => img (i * window.width + j))

theorem drawWindow_content (W H : ℤ) (mem : ℕ → ℤ → RGB) (win : KernelWindow) :
    drawWindow W H mem win = drawContent W H (mem win.window_buf) win.position ++
      drawRectBorder W H borderColor win.position.xmin win.position.ymin
        (win.position.xmax - win.position.xmin) (win.position.ymax - win.position.ymin) ++
      if win.hasTitleBar then drawWindowBar W H win titleBarColor else [] := rfl

namespace State

variable {s t : State} {p : ℕ} {window w' : Window}

end State

/-- The stored rectangle has the client's sizes, and so its pixels are shown as they are. -/
def Faithful (W H : ℤ) (r : WinRect) (window : Window) : Prop :=
  Sized r window ∧ ShowsPixels W H r window

end NorthOS.WindowManager
