import NorthOS.Gui

/-!
What a drawing touches. A drawing is the list of its accesses in the order of the code:
pixels of the source image that are read, pixels of the buffer that are stored to or
copied. A drawing is within bounds if each access is, and the bounds of a nest of loops
are those of its body at every index.
-/
namespace NorthOS.Pixels

open Gui

inductive Access
  | read (offset : ℤ)
  | store (offset : ℤ) (f : RGB → RGB)
  | move (src dst : ℤ)

/-- The buffer after a drawing. -/
def paint (buf : ℤ → RGB) : List Access → ℤ → RGB
  | [] => buf
  | .read _ :: d => paint buf d
  | .store offset f :: d => paint (fun o => if o = offset then f (buf o) else buf o) d
  | .move src dst :: d => paint (fun o => if o = dst then buf src else buf o) d

/-- `for (i = a; i < b; i++) { if (stop(i)) break; }` -/
def loopUntil (a b : ℤ) (stop : ℤ → Bool) : List ℤ :=
  (loop a b).takeWhile fun i => !stop i

/-- A store of `drawPointAlpha(buf + t, origin)`; a transparent colour stores nothing. -/
def pointAlpha (t : ℤ) (origin : RGBA) : List Access :=
  if origin.A = 0 then [] else [.store t fun color => drawPointAlpha color origin]

/-- The colour after its first `m` bytes, in the order B, G, R, are overwritten. -/
def overwrite (m : ℤ) (color origin : RGB) : RGB :=
  ⟨if 2 < m then origin.R else color.R, if 1 < m then origin.G else color.G,
    if 0 < m then origin.B else color.B⟩

/-- `n` bytes of the image, from pixel `o` on, copied to pixel `t` of the buffer. -/
def copyBytes (img : ℤ → RGB) (t o n : ℤ) : List Access :=
  (loop 0 ((n + 2) / 3)).flatMap fun k =>
    [.read (o + k), .store (t + k) fun color => overwrite (n - 3 * k) color (img (o + k))]

section Bounds

variable {pixel source : ℤ → Prop}

def Access.Within (pixel source : ℤ → Prop) : Access → Prop
  | .read offset => source offset
  | .store offset _ => pixel offset
  | .move src dst => pixel src ∧ pixel dst

def Within (pixel source : ℤ → Prop) (d : List Access) : Prop :=
  ∀ a ∈ d, a.Within pixel source

@[simp] theorem within_nil : Within pixel source [] :=
  fun _ h => nomatch h

@[simp] theorem within_cons {a : Access} {d : List Access} :
    Within pixel source (a :: d) ↔ a.Within pixel source ∧ Within pixel source d :=
  List.forall_mem_cons

@[simp] theorem within_append {d e : List Access} :
    Within pixel source (d ++ e) ↔ Within pixel source d ∧ Within pixel source e :=
  List.forall_mem_append

@[simp] theorem within_ite {c : Prop} [Decidable c] {d e : List Access} :
    Within pixel source (if c then d else e) ↔
      (c → Within pixel source d) ∧ (¬c → Within pixel source e) := by
  split
  · rename_i hc
    exact ⟨fun h => ⟨fun _ => h, fun hn => absurd hc hn⟩, fun h => h.1 hc⟩
  · rename_i hc
    exact ⟨fun h => ⟨fun hy => absurd hy hc, fun _ => h⟩, fun h => h.2 hc⟩

theorem within_flatMap {α : Type} {l : List α} {f : α → List Access} :
    Within pixel source (l.flatMap f) ↔ ∀ i ∈ l, Within pixel source (f i) := by
  constructor
  · intro h i hi a ha
    exact h a (List.mem_flatMap.mpr ⟨i, hi, ha⟩)
  · intro h a ha
    obtain ⟨i, hi, ha'⟩ := List.mem_flatMap.mp ha
    exact h i hi a ha'

@[simp] theorem within_loop {a b : ℤ} {f : ℤ → List Access} :
    Within pixel source ((loop a b).flatMap f) ↔
      ∀ i, a ≤ i ∧ i < b → Within pixel source (f i) := by
  simp only [within_flatMap, mem_loop]

@[simp] theorem within_map_loop {a b : ℤ} {f : ℤ → Access} :
    Within pixel source ((loop a b).map f) ↔
      ∀ i, a ≤ i ∧ i < b → (f i).Within pixel source := by
  simp only [Within, List.forall_mem_map, mem_loop]

/-- A loop that is left early covers the indices up to the first that leaves it. -/
theorem mem_loopUntil {a b i : ℤ} {stop : ℤ → Bool} :
    i ∈ loopUntil a b stop ↔ (a ≤ i ∧ i < b) ∧ ∀ k, a ≤ k → k ≤ i → stop k = false := by
  obtain ⟨n, hn⟩ : ∃ n, (b - a).toNat = n := ⟨_, rfl⟩
  unfold loopUntil
  induction n generalizing a with
  | zero =>
    have hnil : loop a b = [] := by simp [loop, hn]
    rw [hnil]
    constructor
    · intro h
      cases h
    · intro h
      omega
  | succ n ih =>
    have hcons : loop a b = a :: loop (a + 1) b := by
      have hpred : (b - (a + 1)).toNat = n := by omega
      simp only [loop, hn, hpred, List.range_succ_eq_map, List.map_cons, List.map_map]
      refine List.cons_eq_cons.mpr ⟨by simp, List.map_congr_left fun k _ => ?_⟩
      simp only [Function.comp_apply, Nat.succ_eq_add_one]
      push_cast
      ring
    rw [hcons, List.takeWhile_cons]
    cases hstop : stop a with
    | true =>
      constructor
      · intro h
        cases h
      · rintro ⟨hi, hk⟩
        rw [hk a le_rfl hi.1] at hstop
        cases hstop
    | false =>
      simp only [Bool.not_false, if_true, List.mem_cons, ih (a := a + 1) (by omega)]
      constructor
      · rintro (rfl | ⟨hi, hk⟩)
        · exact ⟨by omega, fun k hak hka => (show k = i by omega) ▸ hstop⟩
        · refine ⟨by omega, fun k hak hki => ?_⟩
          rcases eq_or_lt_of_le hak with rfl | hlt
          · exact hstop
          · exact hk k (by omega) hki
      · rintro ⟨hi, hk⟩
        rcases eq_or_lt_of_le hi.1 with rfl | hlt
        · exact .inl rfl
        · exact .inr ⟨by omega, fun k hak hki => hk k (by omega) hki⟩

@[simp] theorem within_loopUntil {a b : ℤ} {stop : ℤ → Bool} {f : ℤ → List Access} :
    Within pixel source ((loopUntil a b stop).flatMap f) ↔
      ∀ i, (a ≤ i ∧ i < b) ∧ (∀ k, a ≤ k → k ≤ i → stop k = false) →
        Within pixel source (f i) := by
  simp only [within_flatMap, mem_loopUntil]

/-- The loop over the rows or columns before `bound`, from `y` on. -/
theorem within_loopBelow {a b y bound : ℤ} {f : ℤ → List Access} :
    Within pixel source ((loopUntil a b fun i => y + i ≥ bound).flatMap f) ↔
      ∀ i, (a ≤ i ∧ i < b) ∧ y + i < bound → Within pixel source (f i) := by
  simp only [within_loopUntil, decide_eq_false_iff_not, not_le]
  constructor
  · intro h i hi
    exact h i ⟨hi.1, fun k _ hki => by omega⟩
  · intro h i hi
    exact h i ⟨hi.1, hi.2 i hi.1.1 le_rfl⟩

@[simp] theorem within_pointAlpha {t : ℤ} {origin : RGBA} :
    Within pixel source (pointAlpha t origin) ↔ (origin.A ≠ 0 → pixel t) := by
  unfold pointAlpha
  simp [Access.Within]

/-- Copied bytes touch whole pixels on both sides. -/
@[simp] theorem within_copyBytes {img : ℤ → RGB} {t o n : ℤ} :
    Within pixel source (copyBytes img t o n) ↔
      ∀ k, 0 ≤ k ∧ k < (n + 2) / 3 → source (o + k) ∧ pixel (t + k) := by
  simp [copyBytes, Access.Within]

/-- A drawing within bounds leaves everything else in memory as it was. -/
theorem paint_outside {d : List Access} {o : ℤ} (ho : ¬pixel o) :
    ∀ {buf : ℤ → RGB}, Within pixel source d → paint buf d o = buf o := by
  induction d with
  | nil =>
    intro buf _
    rfl
  | cons a d ih =>
    intro buf h
    obtain ⟨ha, hd⟩ := within_cons.mp h
    cases a with
    | read offset => exact ih hd
    | store offset f =>
      have hne : o ≠ offset := fun he => ho (he ▸ ha)
      exact (ih hd).trans (if_neg hne)
    | move src dst =>
      have hne : o ≠ dst := fun he => ho (he ▸ ha.2)
      exact (ih hd).trans (if_neg hne)

end Bounds

/-- The offsets of a buffer of `height` rows of `width` pixels. -/
def Inside (width height o : ℤ) : Prop :=
  0 ≤ o ∧ o < width * height

/-- The offset of row `r` and column `c`. -/
theorem inside_row {W H r c : ℤ} (hc : 0 ≤ c ∧ c < W) :
    Inside W H (r * W + c) ↔ 0 ≤ r ∧ r < H := by
  have hW : 0 ≤ W := by omega
  unfold Inside
  constructor
  · rintro ⟨h0, h1⟩
    constructor
    · by_contra hneg
      have : (r + 1) * W ≤ 0 := Int.mul_nonpos_of_nonpos_of_nonneg (by omega) hW
      linarith
    · by_contra hge
      have : H * W ≤ r * W := Int.mul_le_mul_of_nonneg_right (by omega) hW
      linarith [mul_comm W H]
  · rintro ⟨h0, h1⟩
    have hlow : 0 ≤ r * W := Int.mul_nonneg h0 hW
    have hhigh : (r + 1) * W ≤ H * W := Int.mul_le_mul_of_nonneg_right (by omega) hW
    constructor <;> linarith [mul_comm W H]

theorem inside_of_eq {W H o r c : ℤ} (ho : o = r * W + c) (hr : 0 ≤ r ∧ r < H)
    (hc : 0 ≤ c ∧ c < W) : Inside W H o :=
  ho ▸ (inside_row hc).mpr hr

end NorthOS.Pixels
