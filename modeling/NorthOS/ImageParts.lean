import NorthOS.ScreenDrawing

/-!
What draw24ImagePart puts on the screen: the part of the image, shifted to its position and
cut at the sides of the screen. Every pixel is stored to at most once, with the colour that
the two strides give.
-/
namespace NorthOS.ScreenDrawing

open Gui Pixels

/-- The screen pixel in column `X` of row `Y` lies in the part. -/
def InPart (x y subw subh X Y : ℤ) : Prop := (0 ≤ X - x ∧ X - x < subw) ∧ 0 ≤ Y - y ∧ Y - y < subh

instance (x y subw subh X Y : ℤ) : Decidable (InPart x y subw subh X Y) := by
  unfold InPart
  infer_instance

/-- The part lies in an image of `width` by `height` pixels. -/
structure PartOf (width height subx suby subw subh : ℤ) : Prop where
  left : 0 ≤ subx
  right : subx + subw ≤ width
  top : 0 ≤ suby
  bottom : suby + subh ≤ height

variable {buf : ℤ → RGB} {d : List Access} {o : ℤ} {v : RGB} {W H : ℤ}

section Painting

/-- Everything that is stored to the pixel is this colour. -/
def Stores (o : ℤ) (v : RGB) : Access → Prop
  | .read _ => True
  | .store t f => t = o → ∀ color, f color = v
  | .move _ dst => dst ≠ o

/-- Nothing is stored to the pixel. -/
def Spares (o : ℤ) : Access → Prop
  | .read _ => True
  | .store t _ => t ≠ o
  | .move _ dst => dst ≠ o

theorem paint_spared (h : ∀ a ∈ d, Spares o a) : paint buf d o = buf o := by
  induction d generalizing buf with
  | nil => rfl
  | cons a d ih =>
    have hrest : ∀ a ∈ d, Spares o a := fun a ha => h a (List.mem_cons_of_mem _ ha)
    have ha : Spares o a := h a List.mem_cons_self
    cases a with
    | read _ => exact ih hrest
    | store t f => exact (ih hrest).trans (if_neg fun ho => ha ho.symm)
    | move src dst => exact (ih hrest).trans (if_neg fun ho => ha ho.symm)

theorem paint_stored (hall : ∀ a ∈ d, Stores o v a) (hone : ∃ f, Access.store o f ∈ d) :
    paint buf d o = v := by
  induction d generalizing buf with
  | nil =>
    obtain ⟨f, hf⟩ := hone
    cases hf
  | cons a d ih =>
    have hrest : ∀ a ∈ d, Stores o v a := fun a ha => hall a (List.mem_cons_of_mem _ ha)
    by_cases hlater : ∃ f, Access.store o f ∈ d
    · cases a with
      | read _ => exact ih hrest hlater
      | store t g => exact ih hrest hlater
      | move src dst => exact ih hrest hlater
    · obtain ⟨f, hf⟩ := hone
      obtain rfl := (List.mem_cons.mp hf).resolve_right fun h => hlater ⟨f, h⟩
      have hspared : ∀ a ∈ d, Spares o a := by
        intro a ha
        cases a with
        | read _ => trivial
        | store t g =>
          rintro rfl
          exact hlater ⟨g, ha⟩
        | move src dst => exact hrest _ ha
      refine (paint_spared hspared).trans ?_
      rw [if_pos rfl]
      exact hall _ List.mem_cons_self rfl _

/-- A drawing that copies nothing within the buffer, by its strokes. -/
theorem paint_strokes {buf : ℤ → RGB} (hmove : ∀ src dst, Access.move src dst ∉ d)
    (hall : ∀ f, (o, f) ∈ strokes d → ∀ color, f color = v) :
    ((∃ f, (o, f) ∈ strokes d) → paint buf d o = v) ∧
      ((¬ ∃ f, (o, f) ∈ strokes d) → paint buf d o = buf o) := by
  have hmem : ∀ f, (o, f) ∈ strokes d ↔ Access.store o f ∈ d := by
    intro f
    unfold strokes
    rw [List.mem_filterMap]
    constructor
    · rintro ⟨a, ha, hf⟩
      cases a with
      | store t g =>
        obtain ⟨rfl, rfl⟩ := Prod.mk.inj (Option.some.inj hf)
        exact ha
      | read _ => cases hf
      | move _ _ => cases hf
    · intro h
      exact ⟨_, h, rfl⟩
  simp only [hmem] at hall ⊢
  constructor
  · intro hone
    refine paint_stored (fun a ha => ?_) hone
    cases a with
    | read _ => trivial
    | store t g =>
      rintro rfl
      exact hall g ha
    | move src dst => exact absurd ha (hmove src dst)
  · intro hnone
    refine paint_spared fun a ha => ?_
    cases a with
    | read _ => trivial
    | store t g =>
      rintro rfl
      exact hnone ⟨g, ha⟩
    | move src dst => exact absurd ha (hmove src dst)

end Painting

section Part

variable {x y width height subx suby subw subh X Y : ℤ} {data : Contents}

/-- The colour of a stroke of the part. -/
theorem stroke_draw24ImagePart {img : ℤ → RGB} {f : RGB → RGB} (hX : 0 ≤ X ∧ X < W)
    (h : (Y * W + X, f) ∈ Gui.draw24ImagePart W H img x y width subx suby subw subh) (color : RGB) :
    f color = img ((suby + Y - y) * width + (subx + X - x)) := by
  unfold Gui.draw24ImagePart at h
  split at h
  · cases h
  dsimp only at h
  generalize hminj : (if x < 0 then -x else 0) = minj at h
  generalize hmaxj : (if x + subw > W then W - x else subw) = maxj at h
  have hmin : 0 ≤ x + minj := by
    split at hminj <;> omega
  have hmax : x + maxj ≤ W := by
    split at hmaxj <;> omega
  split at h
  · cases h
  obtain ⟨i, hi, hrow⟩ := List.mem_flatMap.mp h
  split at hrow
  · cases hrow
  split at hrow
  · cases hrow
  obtain ⟨j, hj, heq⟩ := List.mem_map.mp hrow
  have hj' := mem_loop.mp hj
  obtain ⟨hoff, rfl⟩ := Prod.mk.inj heq
  have hplace : (y + i) * W + (minj + x + j) = Y * W + X := by
    rw [← hoff]
    ring
  obtain ⟨hY, hcol⟩ := offset_inj (y := y + i) (x := minj + x + j) ⟨by omega, by omega⟩ hX hplace
  have hsrc : (i + suby) * width + subx + minj + j =
      (suby + Y - y) * width + (subx + X - x) := by
    rw [← hY, ← hcol]
    ring
  show img ((i + suby) * width + subx + minj + j) = _
  rw [hsrc]

theorem moves_draw24ImagePart (src dst : ℤ) :
    Access.move src dst ∉ draw24ImagePart W H data x y width subx suby subw subh := by
  unfold draw24ImagePart memmove copyBytes
  dsimp only
  generalize (if x < 0 then -x else 0) = minj
  generalize (if x + subw > W then W - x else subw) = maxj
  intro h
  split at h
  · cases h
  split at h
  · cases h
  obtain ⟨i, _, hi⟩ := List.mem_flatMap.mp h
  split at hi
  · cases hi
  split at hi
  · cases hi
  obtain ⟨k, _, hk⟩ := List.mem_flatMap.mp hi
  simp at hk

/-- A part of the image is read inside of the image. -/
theorem PartOf.fits (h : PartOf width height subx suby subw subh) :
    (Call.draw24ImagePart x y width height subx suby subw subh).Fits W H := by
  have hleft := h.left
  have hright := h.right
  have htop := h.top
  have hbottom := h.bottom
  intro hx hy i hi j hj
  obtain ⟨hx₀, hx₁, hx₂, hx₃⟩ := hx
  obtain ⟨hy₀, hy₁, hy₂, hy₃⟩ := hy
  simp only [List.mem_cons, List.not_mem_nil, or_false] at hi hj
  refine inside_of_eq (r := i + suby) (c := subx + j) (by ring) ?_ ?_
  · omega
  · omega

/-- draw24ImagePart reads the image and writes the screen only, and after it a pixel of the
screen is that of the image that lies on it, or what it was. -/
theorem draw24ImagePart_shifts (W H : UInt16) (data : Contents) (buf : ℤ → RGB)
    {x y width height subx suby subw subh : ℤ} (hpart : PartOf width height subx suby subw subh) :
    Within (Inside W.toNat H.toNat) (Inside width height)
        (draw24ImagePart W.toNat H.toNat data x y width subx suby subw subh) ∧
      ∀ X Y : ℤ, 0 ≤ X ∧ X < W.toNat → 0 ≤ Y ∧ Y < H.toNat →
        paint buf (draw24ImagePart W.toNat H.toNat data x y width subx suby subw subh)
            (Y * W.toNat + X) =
          if InPart x y subw subh X Y then data.img24 ((suby + Y - y) * width + (subx + X - x))
          else buf (Y * W.toNat + X) := by
  have hW : W.toNat < 2 ^ 16 := W.toNat_lt
  have hsize : (Call.draw24ImagePart x y width height subx suby subw subh).NoOverflow W.toNat := by
    show (min subw (W.toNat - x) - max (-x) 0) * 3 < 2 ^ 31
    omega
  constructor
  · intro a ha
    have hconfined := (confined_draw24ImagePart_iff (H := H.toNat) hsize).mpr hpart.fits data a ha
    cases a with
    | read _ => exact hconfined
    | store _ _ => exact hconfined.1
    | move src dst => exact absurd ha (moves_draw24ImagePart src dst)
  · intro X Y hX hY
    have hstrokes : strokes (draw24ImagePart W.toNat H.toNat data x y width subx suby subw subh) =
        Gui.draw24ImagePart W.toNat H.toNat data.img24 x y width subx suby subw subh :=
      strokes_draw24ImagePart hsize
    have hcover : covers W.toNat
        (Gui.draw24ImagePart W.toNat H.toNat data.img24 x y width subx suby subw subh) X Y = true ↔
        (x ≤ X ∧ X < x + subw) ∧ y ≤ Y ∧ Y < y + subh := covers_draw24ImagePart data.img24 hX hY
    rw [covers_iff, ← hstrokes] at hcover
    have hcolour : ∀ f, (Y * W.toNat + X, f) ∈
        strokes (draw24ImagePart W.toNat H.toNat data x y width subx suby subw subh) →
        ∀ color, f color = data.img24 ((suby + Y - y) * width + (subx + X - x)) := by
      intro f hf
      rw [hstrokes] at hf
      exact stroke_draw24ImagePart hX hf
    obtain ⟨hin, hout⟩ := paint_strokes
      (d := draw24ImagePart W.toNat H.toNat data x y width subx suby subw subh)
      moves_draw24ImagePart hcolour
    have hpart : InPart x y subw subh X Y ↔
        (x ≤ X ∧ X < x + subw) ∧ y ≤ Y ∧ Y < y + subh := by
      unfold InPart
      omega
    split
    · rename_i hp
      exact hin (hcover.mpr (hpart.mp hp))
    · rename_i hp
      exact hout fun h => hp (hpart.mpr (hcover.mp h))

/-- An image of two by two pixels, half of it to the left of the screen. -/
theorem draw24ImagePart_shifts_left :
    PartOf 2 2 0 0 2 2 ∧ paint (fun _ => ⟨0, 0, 0⟩) (draw24ImagePart 2 1 solid (-1) 0 2 0 0 2 2) 0 =
      solid.img24 1 :=
  have hpart : PartOf 2 2 0 0 2 2 := ⟨by decide, by decide, by decide, by decide⟩
  ⟨hpart, (draw24ImagePart_shifts 2 1 solid (fun _ => ⟨0, 0, 0⟩) hpart).2 0 0 (by decide)
  (by decide)⟩

end Part

end NorthOS.ScreenDrawing
