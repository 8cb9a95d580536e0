import Mathlib.Data.List.Basic
import Mathlib.Tactic.Common

/-!
The lines of a text. A line ends at a separator; what stands behind the last separator is the
tail, which is not a line yet. More text at the end completes the tail and leaves the lines
before it alone.
-/
namespace NorthOS.Lines

variable {α : Type*} [DecidableEq α] {sep c : α} {l s s' d : List α} {ls : List (List α)}

/-- The ended lines of the text, and its tail. -/
def split (sep : α) : List α → List (List α) × List α
  | [] => ([], [])
  | c :: s =>
    if c = sep then ([] :: (split sep s).1, (split sep s).2)
    else match (split sep s).1 with
      | [] => ([], c :: (split sep s).2)
      | l :: ls => ((c :: l) :: ls, (split sep s).2)

def lines (sep : α) (s : List α) : List (List α) := (split sep s).1

def tail (sep : α) (s : List α) : List α := (split sep s).2

/-- The text of some lines. -/
def unlines (sep : α) (ls : List (List α)) : List α := ls.flatMap fun l => l ++ [sep]

@[simp] theorem lines_nil : lines sep [] = [] := rfl

@[simp] theorem tail_nil : tail sep [] = [] := rfl

@[simp] theorem lines_sep : lines sep (sep :: s) = [] :: lines sep s := by simp [lines, split]

@[simp] theorem tail_sep : tail sep (sep :: s) = tail sep s := by simp [tail, split]

theorem lines_cons (hc : c ≠ sep) :
    lines sep (c :: s) = match lines sep s with
      | [] => []
      | l :: ls => (c :: l) :: ls := by
  simp only [lines, split, if_neg hc]
  split <;> rfl

theorem tail_cons (hc : c ≠ sep) :
    tail sep (c :: s) = if lines sep s = [] then c :: tail sep s else tail sep s := by
  unfold lines tail
  rw [split, if_neg hc]
  split
  next h => rw [if_pos h]
  next l ls h => rw [if_neg (h ▸ List.cons_ne_nil l ls)]

theorem lines_eq_nil_iff : lines sep s = [] ↔ sep ∉ s := by
  induction s with
  | nil => simp
  | cons c s ih =>
    by_cases hc : c = sep
    · subst c
      simp
    · rw [lines_cons hc, List.mem_cons, not_or, ← ih]
      have hne : sep ≠ c := Ne.symm hc
      split <;> simp_all

theorem tail_of_not_mem (hs : sep ∉ s) : tail sep s = s := by
  induction s with
  | nil => rfl
  | cons c s ih =>
    rw [List.mem_cons, not_or] at hs
    rw [tail_cons (Ne.symm hs.1), if_pos (lines_eq_nil_iff.mpr hs.2), ih hs.2]

theorem not_mem_tail (sep : α) (s : List α) : sep ∉ tail sep s := by
  induction s with
  | nil => simp
  | cons c s ih =>
    by_cases hc : c = sep
    · subst c
      rwa [tail_sep]
    · rw [tail_cons hc]
      split
      · rw [List.mem_cons, not_or]
        exact ⟨Ne.symm hc, ih⟩
      · exact ih

/-- The first line and the lines behind it. -/
theorem lines_line (hl : sep ∉ l) : lines sep (l ++ sep :: s) = l :: lines sep s := by
  induction l with
  | nil => exact lines_sep
  | cons c l ih =>
    rw [List.mem_cons, not_or] at hl
    rw [List.cons_append, lines_cons (Ne.symm hl.1), ih hl.2]

theorem tail_line (hl : sep ∉ l) : tail sep (l ++ sep :: s) = tail sep s := by
  induction l with
  | nil => exact tail_sep
  | cons c l ih =>
    rw [List.mem_cons, not_or] at hl
    rw [List.cons_append, tail_cons (Ne.symm hl.1), if_neg, ih hl.2]
    rw [lines_line hl.2]
    exact List.cons_ne_nil _ _

theorem not_mem_of_mem_lines (hl : l ∈ lines sep s) : sep ∉ l := by
  induction s generalizing l with
  | nil => simp at hl
  | cons c s ih =>
    by_cases hc : c = sep
    · subst c
      rw [lines_sep, List.mem_cons] at hl
      rcases hl with rfl | hl
      · exact List.not_mem_nil
      · exact ih hl
    · rw [lines_cons hc] at hl
      split at hl
      next => simp at hl
      next l' ls heq =>
        rw [List.mem_cons] at hl
        rcases hl with rfl | hl
        · rw [List.mem_cons, not_or]
          exact ⟨Ne.symm hc, ih (heq ▸ List.mem_cons_self)⟩
        · exact ih (heq ▸ List.mem_cons_of_mem _ hl)

/-- Splitting loses nothing. -/
theorem unlines_append_tail (sep : α) (s : List α) :
    unlines sep (lines sep s) ++ tail sep s = s := by
  induction s with
  | nil => rfl
  | cons c s ih =>
    by_cases hc : c = sep
    · subst c
      rw [lines_sep, tail_sep]
      simpa [unlines] using ih
    · rw [lines_cons hc, tail_cons hc]
      split
      next heq =>
        rw [heq] at ih
        simpa [heq, unlines] using ih
      next l ls heq =>
        rw [heq] at ih
        simpa [heq, unlines] using ih

theorem tail_suffix : tail sep s <:+ s := ⟨_, unlines_append_tail sep s⟩

theorem length_tail_lt (hs : sep ∈ s) : (tail sep s).length < s.length := by
  refine Nat.lt_of_le_of_ne tail_suffix.length_le fun hlen => not_mem_tail sep s ?_
  rwa [tail_suffix.eq_of_length hlen]

theorem length_lt_of_mem_lines (hl : l ∈ lines sep s) : l.length < s.length := by
  have hle : (l ++ [sep]).length ≤ (unlines sep (lines sep s)).length :=
    (List.sublist_flatten_of_mem (List.mem_map_of_mem (f := fun l => l ++ [sep]) hl)).length_le
  have hlen : (unlines sep (lines sep s) ++ tail sep s).length = s.length := by
    rw [unlines_append_tail]
  simp only [List.length_append, List.length_singleton] at hle hlen
  omega

theorem exists_eq_of_mem_lines (hl : l ∈ lines sep s) :
    ∃ pre post, s = pre ++ (l ++ sep :: post) := by
  obtain ⟨ls, ls', hls⟩ := List.append_of_mem hl
  refine ⟨unlines sep ls, unlines sep ls' ++ tail sep s, ?_⟩
  conv_lhs => rw [← unlines_append_tail sep s, hls]
  simp [unlines]

/-- Text behind some lines is split by itself. -/
theorem lines_unlines (hls : ∀ l ∈ ls, sep ∉ l) :
    lines sep (unlines sep ls ++ s) = ls ++ lines sep s := by
  induction ls with
  | nil => rfl
  | cons l ls ih =>
    have hl : sep ∉ l := hls l List.mem_cons_self
    have hrest := ih fun l hl => hls l (List.mem_cons_of_mem _ hl)
    calc lines sep (unlines sep (l :: ls) ++ s)
        = lines sep (l ++ sep :: (unlines sep ls ++ s)) := by simp [unlines]
      _ = l :: (ls ++ lines sep s) := by rw [lines_line hl, hrest]

/-- The ends of the lines alone. -/
theorem lines_filter : lines sep (s.filter (· = sep)) = (lines sep s).map fun _ => [] := by
  induction s with
  | nil => rfl
  | cons c s ih =>
    by_cases hc : c = sep
    · subst c
      rw [List.filter_cons_of_pos (by simp), lines_sep, lines_sep, ih]
      rfl
    · rw [List.filter_cons_of_neg (by simpa using hc), ih, lines_cons hc]
      split
      next heq => rw [heq]
      next heq => rw [heq]; rfl

/-- A text in two parts: the tail of the first goes on in the second. -/
theorem lines_append : lines sep (s ++ s') = lines sep s ++ lines sep (tail sep s ++ s') := by
  conv_lhs => rw [← unlines_append_tail sep s, List.append_assoc]
  exact lines_unlines fun _ => not_mem_of_mem_lines

/-- A text that begins later has no other lines, but the first may have lost its beginning. -/
theorem exists_line_of_suffix (hl : l ∈ lines sep s) : ∃ l' ∈ lines sep (d ++ s), l <:+ l' := by
  induction d with
  | nil => exact ⟨l, hl, List.suffix_rfl⟩
  | cons c d ih =>
    obtain ⟨l', hl', hsuffix⟩ := ih
    by_cases hc : c = sep
    · subst c
      exact ⟨l', by rw [List.cons_append, lines_sep]; exact List.mem_cons_of_mem _ hl', hsuffix⟩
    · rw [List.cons_append, lines_cons hc]
      split
      next heq => simp [heq] at hl'
      next first ls heq =>
        rw [heq, List.mem_cons] at hl'
        rcases hl' with rfl | hl'
        · exact ⟨c :: l', List.mem_cons_self, hsuffix.trans (List.suffix_cons c l')⟩
        · exact ⟨l', List.mem_cons_of_mem _ hl', hsuffix⟩

end NorthOS.Lines
