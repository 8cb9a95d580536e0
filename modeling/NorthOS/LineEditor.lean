import NorthOS.UserGui

/-!
A line editor on lists. The cursor splits the text into the lines above, the line it is in
and the lines below, so that each key is a change at the cursor and vertical motion needs no
search for the ends of lines.
-/
namespace NorthOS

open UserGui (newline)

/-- The nearest line above comes first, and so does the nearest character before the cursor;
the lines below and the rest of the line of the cursor are in reading order. -/
structure LineEditor where
  above : List (List ℤ)
  left : List ℤ
  right : List ℤ
  below : List (List ℤ)

namespace LineEditor

/-- The lines above a line, each ended by a newline. -/
def textAbove : List (List ℤ) → List ℤ
  | [] => []
  | line :: above => textAbove above ++ (line ++ [newline])

/-- The lines below a line, each begun by a newline. -/
def textBelow (below : List (List ℤ)) : List ℤ := below.flatMap (newline :: ·)

def before (e : LineEditor) : List ℤ := textAbove e.above ++ e.left.reverse

def after (e : LineEditor) : List ℤ := e.right ++ textBelow e.below

def text (e : LineEditor) : List ℤ := e.before ++ e.after

def cursor (e : LineEditor) : ℕ := e.before.length

/-- No line has a newline in it. -/
structure Lined (e : LineEditor) : Prop where
  above : ∀ line ∈ e.above, newline ∉ line
  left : newline ∉ e.left
  right : newline ∉ e.right
  below : ∀ line ∈ e.below, newline ∉ line

section Keys

variable (e : LineEditor)

def line : List ℤ := e.left.reverse ++ e.right

def insert (limit : ℕ) (c : ℤ) : LineEditor :=
  if e.text.length = limit then e
  else if c = newline then ⟨e.left.reverse :: e.above, [], e.right, e.below⟩
  else ⟨e.above, c :: e.left, e.right, e.below⟩

def backspace : LineEditor :=
  match e.left, e.above with
  | _ :: left, _ => ⟨e.above, left, e.right, e.below⟩
  | [], line :: above => ⟨above, line.reverse, e.right, e.below⟩
  | [], [] => e

def delete : LineEditor :=
  match e.right, e.below with
  | _ :: right, _ => ⟨e.above, e.left, right, e.below⟩
  | [], line :: below => ⟨e.above, e.left, line, below⟩
  | [], [] => e

def moveLeft : LineEditor :=
  match e.left, e.above with
  | c :: left, _ => ⟨e.above, left, c :: e.right, e.below⟩
  | [], line :: above => ⟨above, line.reverse, [], e.right :: e.below⟩
  | [], [] => e

def moveRight : LineEditor :=
  match e.right, e.below with
  | c :: right, _ => ⟨e.above, c :: e.left, right, e.below⟩
  | [], line :: below => ⟨e.left.reverse :: e.above, [], line, below⟩
  | [], [] => e

def home : LineEditor := ⟨e.above, [], e.line, e.below⟩

def goToEnd : LineEditor := ⟨e.above, e.line.reverse, [], e.below⟩

/-- To the same column of the line above, or to its end where it is shorter. -/
def up : LineEditor :=
  match e.above with
  | line :: above =>
    ⟨above, (line.take e.left.length).reverse, line.drop e.left.length, e.line :: e.below⟩
  | [] => e.home

def down : LineEditor :=
  match e.below with
  | line :: below =>
    ⟨e.line :: e.above, (line.take e.left.length).reverse, line.drop e.left.length, below⟩
  | [] => e.goToEnd

end Keys

/-- The lines of a text, the first apart. -/
def splitLines : List ℤ → List ℤ × List (List ℤ)
  | [] => ([], [])
  | c :: l =>
    if c = newline then ([], (splitLines l).1 :: (splitLines l).2)
    else (c :: (splitLines l).1, (splitLines l).2)

/-- The editor whose text is given, with the cursor at that offset. -/
def ofText (l : List ℤ) (pos : ℕ) : LineEditor :=
  ⟨(splitLines (l.take pos).reverse).2.map List.reverse, (splitLines (l.take pos).reverse).1,
    (splitLines (l.drop pos)).1, (splitLines (l.drop pos)).2⟩

section Texts

variable {e : LineEditor} {l : List ℤ} {pos : ℕ}

theorem splitLines_text (l : List ℤ) :
    (splitLines l).1 ++ textBelow (splitLines l).2 = l := by
  induction l with
  | nil => rfl
  | cons c l ih =>
    unfold splitLines
    split
    · rename_i hc
      subst hc
      exact congrArg (newline :: ·) ih
    · exact congrArg (c :: ·) ih

theorem splitLines_reversed (l : List ℤ) :
    textAbove ((splitLines l).2.map List.reverse) ++ (splitLines l).1.reverse = l.reverse := by
  induction l with
  | nil => rfl
  | cons c l ih =>
    rw [List.reverse_cons, ← ih, splitLines]
    split
    · rename_i hc
      subst hc
      simp only [List.map_cons, textAbove, List.reverse_nil, List.append_nil, List.append_assoc]
    · simp only [List.reverse_cons, List.append_assoc]

theorem splitLines_lined (l : List ℤ) :
    newline ∉ (splitLines l).1 ∧ ∀ line ∈ (splitLines l).2, newline ∉ line := by
  induction l with
  | nil => exact ⟨List.not_mem_nil, fun _ h => nomatch h⟩
  | cons c l ih =>
    unfold splitLines
    split
    · exact ⟨List.not_mem_nil, List.forall_mem_cons.mpr ih⟩
    · rename_i hc
      exact ⟨List.not_mem_cons_of_ne_of_not_mem (Ne.symm hc) ih.1, ih.2⟩

theorem before_ofText : (ofText l pos).before = l.take pos := by
  have h := splitLines_reversed (l.take pos).reverse
  rwa [List.reverse_reverse] at h

theorem after_ofText : (ofText l pos).after = l.drop pos := splitLines_text _

theorem text_ofText : (ofText l pos).text = l := by
  rw [text, before_ofText, after_ofText]
  exact List.take_append_drop pos l

theorem cursor_ofText (hpos : pos ≤ l.length) : (ofText l pos).cursor = pos := by
  rw [cursor, before_ofText]
  exact List.length_take_of_le hpos

theorem lined_ofText : (ofText l pos).Lined := by
  have hbefore := splitLines_lined (l.take pos).reverse
  have hafter := splitLines_lined (l.drop pos)
  refine ⟨?_, hbefore.1, hafter.1, hafter.2⟩
  refine List.forall_mem_map.mpr fun line hline hmem => hbefore.2 line hline ?_
  exact List.mem_reverse.mp hmem

theorem Lined.line (h : e.Lined) : newline ∉ e.line := by
  unfold LineEditor.line
  rw [List.mem_append, List.mem_reverse, not_or]
  exact ⟨h.left, h.right⟩

end Texts

section Steps

variable {e : LineEditor} {c : ℤ} {limit : ℕ}

/-- What a key does to the text, told by the text before and behind the cursor. -/
theorem insert_spec (hroom : e.text.length ≠ limit) :
    (e.insert limit c).before = e.before ++ [c] ∧ (e.insert limit c).after = e.after := by
  unfold insert
  rw [if_neg hroom]
  split
  · rename_i hc
    subst hc
    refine ⟨?_, rfl⟩
    simp only [before, textAbove, List.reverse_nil, List.append_nil, List.append_assoc]
  · refine ⟨?_, rfl⟩
    simp only [before, List.reverse_cons, List.append_assoc]

theorem insert_full (hfull : e.text.length = limit) : e.insert limit c = e := if_pos hfull

theorem before_cases (e : LineEditor) :
    (e.before = [] ∧ e.left = [] ∧ e.above = []) ∨
      ∃ c, e.before = e.backspace.before ++ [c] ∧ e.backspace.after = e.after ∧
        e.moveLeft.before = e.backspace.before ∧ e.moveLeft.after = c :: e.after := by
  rcases e with ⟨above, left, right, below⟩
  cases left with
  | cons c left =>
    refine .inr ⟨c, ?_, rfl, rfl, rfl⟩
    simp only [before, backspace, List.reverse_cons, List.append_assoc]
  | nil =>
    cases above with
    | nil => exact .inl ⟨rfl, rfl, rfl⟩
    | cons line above =>
      refine .inr ⟨newline, ?_, rfl, rfl, rfl⟩
      simp only [before, backspace, textAbove, List.reverse_nil, List.reverse_reverse,
        List.append_nil, List.append_assoc]

theorem after_cases (e : LineEditor) :
    (e.after = [] ∧ e.right = [] ∧ e.below = []) ∨
      ∃ c, e.after = c :: e.delete.after ∧ e.delete.before = e.before ∧
        e.moveRight.before = e.before ++ [c] ∧ e.moveRight.after = e.delete.after := by
  rcases e with ⟨above, left, right, below⟩
  cases right with
  | cons c right =>
    refine .inr ⟨c, rfl, rfl, ?_, rfl⟩
    simp only [before, moveRight, List.reverse_cons, List.append_assoc]
  | nil =>
    cases below with
    | nil => exact .inl ⟨rfl, rfl, rfl⟩
    | cons line below =>
      refine .inr ⟨newline, rfl, rfl, ?_, rfl⟩
      simp only [before, moveRight, textAbove, List.reverse_nil, List.append_nil, List.append_assoc]

theorem text_home : e.home.text = e.text := by
  simp only [text, before, after, home, line, List.reverse_nil, List.append_nil, List.append_assoc]

theorem text_goToEnd : e.goToEnd.text = e.text := by
  simp only [text, before, after, goToEnd, line, List.reverse_reverse, List.nil_append,
    List.append_assoc]

theorem text_up : e.up.text = e.text := by
  unfold up
  split
  · rename_i line above habove
    have hline := List.take_append_drop e.left.length line
    calc
      _ = textAbove above ++ ((line.take e.left.length ++ line.drop e.left.length) ++
            (newline :: (e.left.reverse ++ (e.right ++ textBelow e.below)))) := by
        simp only [text, before, after, LineEditor.line, textBelow, List.flatMap_cons,
          List.reverse_reverse, List.append_assoc, List.cons_append]
      _ = e.text := by
        simp only [hline, text, before, after, habove, textAbove, List.append_assoc,
          List.cons_append, List.nil_append]
  · exact text_home

theorem text_down : e.down.text = e.text := by
  unfold down
  split
  · rename_i line below hbelow
    have hline := List.take_append_drop e.left.length line
    calc
      _ = textAbove e.above ++ (e.left.reverse ++ (e.right ++ (newline ::
            ((line.take e.left.length ++ line.drop e.left.length) ++ textBelow below)))) := by
        simp only [text, before, after, LineEditor.line, textAbove, List.reverse_reverse,
          List.append_assoc, List.cons_append, List.nil_append]
      _ = e.text := by
        simp only [hline, text, before, after, hbelow, textBelow, List.flatMap_cons,
          List.append_assoc, List.cons_append]
  · exact text_goToEnd

end Steps

section LinedSteps

variable {e : LineEditor} {c : ℤ} {limit : ℕ}

theorem Lined.insert (h : e.Lined) : (e.insert limit c).Lined := by
  unfold LineEditor.insert
  split
  · exact h
  · split
    · refine ⟨List.forall_mem_cons.mpr ⟨?_, h.above⟩, List.not_mem_nil, h.right, h.below⟩
      exact fun hmem => h.left (List.mem_reverse.mp hmem)
    · rename_i hc
      exact ⟨h.above, List.not_mem_cons_of_ne_of_not_mem (Ne.symm hc) h.left, h.right, h.below⟩

theorem Lined.takeBefore (h : e.Lined) : e.backspace.Lined ∧ e.moveLeft.Lined := by
  rcases e with ⟨above, left, right, below⟩
  cases left with
  | cons c left =>
    have hc := List.ne_of_not_mem_cons h.left
    have hleft := List.not_mem_of_not_mem_cons h.left
    exact ⟨⟨h.above, hleft, h.right, h.below⟩,
      ⟨h.above, hleft, List.not_mem_cons_of_ne_of_not_mem hc h.right, h.below⟩⟩
  | nil =>
    cases above with
    | nil => exact ⟨h, h⟩
    | cons line above =>
      have habove := List.forall_mem_cons.mp h.above
      have hline : newline ∉ line.reverse := fun hmem => habove.1 (List.mem_reverse.mp hmem)
      exact ⟨⟨habove.2, hline, h.right, h.below⟩,
        ⟨habove.2, hline, List.not_mem_nil, List.forall_mem_cons.mpr ⟨h.right, h.below⟩⟩⟩

theorem Lined.takeAfter (h : e.Lined) : e.delete.Lined ∧ e.moveRight.Lined := by
  rcases e with ⟨above, left, right, below⟩
  cases right with
  | cons c right =>
    have hc := List.ne_of_not_mem_cons h.right
    have hright := List.not_mem_of_not_mem_cons h.right
    exact ⟨⟨h.above, h.left, hright, h.below⟩,
      ⟨h.above, List.not_mem_cons_of_ne_of_not_mem hc h.left, hright, h.below⟩⟩
  | nil =>
    cases below with
    | nil => exact ⟨h, h⟩
    | cons line below =>
      have hbelow := List.forall_mem_cons.mp h.below
      have hleft : newline ∉ left.reverse := fun hmem => h.left (List.mem_reverse.mp hmem)
      exact ⟨⟨h.above, h.left, hbelow.1, hbelow.2⟩,
        ⟨List.forall_mem_cons.mpr ⟨hleft, h.above⟩, List.not_mem_nil, hbelow.1, hbelow.2⟩⟩

theorem Lined.home (h : e.Lined) : e.home.Lined := ⟨h.above, List.not_mem_nil, h.line, h.below⟩

theorem Lined.goToEnd (h : e.Lined) : e.goToEnd.Lined where
  above := h.above
  left := fun hmem => h.line (List.mem_reverse.mp hmem)
  right := List.not_mem_nil
  below := h.below

theorem not_mem_split {line : List ℤ} (hline : newline ∉ line) (n : ℕ) :
    newline ∉ (line.take n).reverse ∧ newline ∉ line.drop n :=
  ⟨fun hmem => hline (List.mem_of_mem_take (List.mem_reverse.mp hmem)),
    fun hmem => hline (List.mem_of_mem_drop hmem)⟩

theorem Lined.up (h : e.Lined) : e.up.Lined := by
  unfold LineEditor.up
  split
  · rename_i line above habove
    have hlines := List.forall_mem_cons.mp (habove ▸ h.above)
    have hsplit := not_mem_split hlines.1 e.left.length
    exact ⟨hlines.2, hsplit.1, hsplit.2, List.forall_mem_cons.mpr ⟨h.line, h.below⟩⟩
  · exact h.home

theorem Lined.down (h : e.Lined) : e.down.Lined := by
  unfold LineEditor.down
  split
  · rename_i line below hbelow
    have hlines := List.forall_mem_cons.mp (hbelow ▸ h.below)
    have hsplit := not_mem_split hlines.1 e.left.length
    exact ⟨List.forall_mem_cons.mpr ⟨h.line, h.above⟩, hsplit.1, hsplit.2, hlines.2⟩
  · exact h.goToEnd

end LinedSteps

end LineEditor

end NorthOS
