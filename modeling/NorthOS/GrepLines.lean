import Mathlib.Data.List.TakeWhile
import Mathlib.Data.PNat.Basic
import NorthOS.GrepMatch
import NorthOS.Lines

/-!
grep reads its input piece by piece and writes the lines that match. A line that a piece leaves
open should stay in the buffer until it is complete; but when a piece ends no line at all, what
is in the buffer is thrown away. So what grep writes depends on where the pieces end.
-/
namespace NorthOS.Grep

open Lines

/-- `sizeof(buf)` -/
def bufSize : ℕ := 1024

/-- The inner loop, over the lines from p on: what it writes, and p after it. -/
def scan (pattern p : List Byte) : List Byte × List Byte :=
  match _h : p.dropWhile (· ≠ newline) with
  | [] => ([], p)
  | _ :: rest =>
    let line := p.takeWhile (· ≠ newline)
    let (out, p') := scan pattern rest
    (if matchRe pattern line then line ++ newline :: out else out, p')
termination_by p.length
decreasing_by
  have hle : (p.dropWhile (· ≠ newline)).length ≤ p.length := (List.dropWhile_suffix _).length_le
  rw [_h, List.length_cons] at hle
  omega

/-- What is in the buffer after the inner loop has stopped at p: nothing when p is still at the
front, and otherwise what stands from p on. -/
def kept (buf p : List Byte) : List Byte := if p.length = buf.length then [] else p

/-- What the k-th call of `read` returns: the chunk that is there, if the buffer has the room and
the stream still has the bytes. -/
def readCount (chunk : ℕ → ℕ+) (k : ℕ) (buf stream : List Byte) : ℕ :=
  min (chunk k : ℕ) (min (bufSize - buf.length - 1) stream.length)

/-- `grep`, with buf in the buffer and the stream still to be read by the k-th call on. -/
def grepFrom (pattern : List Byte) (chunk : ℕ → ℕ+) (k : ℕ) (buf stream : List Byte) : List Byte :=
  let n := readCount chunk k buf stream
  if n = 0 then []
  else
    let content := buf ++ stream.take n
    let (out, p) := scan pattern content
    out ++ grepFrom pattern chunk (k + 1) (kept content p) (stream.drop n)
termination_by stream.length
decreasing_by
  have hle : readCount chunk k buf stream ≤ stream.length := by unfold readCount; omega
  simp only [List.length_drop]
  omega

def grep (pattern : List Byte) (chunk : ℕ → ℕ+) (stream : List Byte) : List Byte :=
  grepFrom pattern chunk 0 [] stream

/-- The ended lines that match, in order. -/
def matching (pattern s : List Byte) : List Byte :=
  unlines newline ((lines newline s).filter (matchRe pattern))

variable {pattern s buf stream p pre u post : List Byte} {chunk : ℕ → ℕ+} {k n : ℕ}

/-- What is kept of a buffer: its tail, if it has a line. -/
def left (buf : List Byte) : List Byte := if newline ∈ buf then tail newline buf else []

/-- Between two reads the buffer has no ended line, and room for another byte. -/
structure Waiting (buf : List Byte) : Prop where
  line : newline ∉ buf
  room : buf.length + 1 < bufSize

section Scan

theorem scan_eq : scan pattern p = (matching pattern p, tail newline p) := by
  induction hn : p.length using Nat.strong_induction_on generalizing p with
  | _ n ih =>
    rw [scan.eq_def]
    have hsplit := List.takeWhile_append_dropWhile (p := (· ≠ newline)) (l := p)
    have hline : newline ∉ p.takeWhile (· ≠ newline) := by
      intro hmem
      simpa using List.mem_takeWhile_imp hmem
    split
    next heq =>
      have hp : newline ∉ p := by
        rw [heq, List.append_nil] at hsplit
        rwa [hsplit] at hline
      rw [matching, lines_eq_nil_iff.mpr hp, tail_of_not_mem hp]
      rfl
    next c rest heq =>
      have hc : c = newline := by
        have hhead := List.head_dropWhile_not (· ≠ newline) (l := p) (by rw [heq]; simp)
        simp only [heq, List.head_cons] at hhead
        simpa using hhead
      subst c
      rw [heq] at hsplit
      have hlines : lines newline p = p.takeWhile (· ≠ newline) :: lines newline rest := by
        conv_lhs => rw [← hsplit, lines_line hline]
      have htail : tail newline p = tail newline rest := by
        conv_lhs => rw [← hsplit, tail_line hline]
      have hlen : rest.length < p.length := by
        have := congrArg List.length hsplit
        simp at this
        omega
      rw [ih rest.length (hn ▸ hlen) rfl, htail]
      simp only [matching, hlines, List.filter_cons]
      split <;> simp [unlines]

theorem kept_eq : kept buf (tail newline buf) = left buf := by
  unfold kept left
  by_cases hbuf : newline ∈ buf
  · rw [if_pos hbuf, if_neg (length_tail_lt hbuf).ne]
  · rw [if_neg hbuf, tail_of_not_mem hbuf, if_pos rfl]

theorem left_suffix : left buf <:+ buf := by
  unfold left
  split
  · exact tail_suffix
  · exact List.nil_suffix

end Scan

section Reads

theorem Waiting.nil : Waiting [] := ⟨List.not_mem_nil, by decide⟩

/-- A full buffer is waiting again after its lines have been written. -/
theorem Waiting.left (hlen : buf.length < bufSize) : Waiting (left buf) := by
  unfold Grep.left
  split
  next hbuf =>
    have hlt := length_tail_lt hbuf
    exact ⟨not_mem_tail _ _, by omega⟩
  next => exact .nil

theorem Waiting.readCount (hbuf : Waiting buf) (hstream : stream ≠ []) (chunk : ℕ → ℕ+) (k : ℕ) :
    0 < readCount chunk k buf stream ∧
      (buf ++ stream.take (readCount chunk k buf stream)).length < bufSize := by
  have hpos := List.length_pos_iff.mpr hstream
  have hroom := hbuf.room
  have hchunk := (chunk k).pos
  rw [List.length_append, List.length_take]
  unfold Grep.readCount
  omega

theorem grepFrom_nil : grepFrom pattern chunk k buf [] = [] := by
  rw [grepFrom, if_pos]
  simp [readCount]

/-- One round: the buffer's lines are written if they match, and its tail is kept if it had one. -/
theorem grepFrom_step (hbuf : Waiting buf) (hstream : stream ≠ [])
    (hn : n = readCount chunk k buf stream) :
    grepFrom pattern chunk k buf stream = matching pattern (buf ++ stream.take n) ++
      grepFrom pattern chunk (k + 1) (left (buf ++ stream.take n)) (stream.drop n) := by
  subst n
  rw [grepFrom, if_neg (hbuf.readCount hstream chunk k).1.ne']
  simp only [scan_eq, kept_eq]

end Reads

section Matching

theorem matching_append :
    matching pattern (s ++ post) = matching pattern s ++
      matching pattern (tail newline s ++ post) := by
  simp [matching, lines_append (s := s), unlines]

theorem matching_of_not_mem (hs : newline ∉ s) : matching pattern s = [] := by
  rw [matching, lines_eq_nil_iff.mpr hs]
  rfl

theorem matching_eq_nil_iff :
    matching pattern s = [] ↔ ∀ l ∈ lines newline s, ¬ matchRe pattern l := by
  simp [matching, unlines]

/-- The lines that are written out are the lines that match. -/
theorem lines_matching :
    lines newline (matching pattern s) = (lines newline s).filter (matchRe pattern) := by
  have hwhole : ∀ l ∈ (lines newline s).filter (matchRe pattern), newline ∉ l := fun l hl =>
    not_mem_of_mem_lines (List.mem_of_mem_filter hl)
  simpa [matching] using lines_unlines (s := []) hwhole

end Matching

section Runs

/-- No ended line has an end that matches and that fits into the buffer. -/
def Quiet (pattern s : List Byte) : Prop :=
  ∀ l ∈ lines newline s, ∀ u, u <:+ l → u.length + 1 < bufSize → ¬ matchRe pattern u

theorem Quiet.suffix (h : Quiet pattern s) (hp : p <:+ s) : Quiet pattern p := by
  obtain ⟨pre, rfl⟩ := hp
  intro l hl u hu hlen
  obtain ⟨l', hl', hsuffix⟩ := exists_line_of_suffix (d := pre) hl
  exact h l' hl' u (hu.trans hsuffix) hlen

/-- The lines that are seen are ends of lines of the stream. -/
theorem grepFrom_quiet (hbuf : Waiting buf) (h : Quiet pattern (buf ++ stream)) :
    grepFrom pattern chunk k buf stream = [] := by
  induction hlen : stream.length using Nat.strong_induction_on generalizing k buf stream with
  | _ m ih =>
    by_cases hstream : stream = []
    · rw [hstream, grepFrom_nil]
    · obtain ⟨hpos, hroom⟩ := hbuf.readCount hstream chunk k
      obtain ⟨n, hn⟩ : ∃ n, n = readCount chunk k buf stream := ⟨_, rfl⟩
      rw [← hn] at hpos hroom
      rw [grepFrom_step hbuf hstream hn]
      have hcut : buf ++ stream = buf ++ stream.take n ++ stream.drop n := by
        rw [List.append_assoc, List.take_append_drop]
      rw [hcut] at h
      have hwritten : matching pattern (buf ++ stream.take n) = [] := by
        rw [matching_eq_nil_iff]
        intro l hl
        refine h l ?_ l List.suffix_rfl ?_
        · rw [lines_append]
          exact List.mem_append_left _ hl
        · have := length_lt_of_mem_lines hl
          omega
      have hrest : left (buf ++ stream.take n) ++ stream.drop n <:+
          buf ++ stream.take n ++ stream.drop n := by
        obtain ⟨pre, hpre⟩ : left (buf ++ stream.take n) <:+ buf ++ stream.take n := left_suffix
        exact ⟨pre, by rw [← List.append_assoc, hpre]⟩
      have hpos' := List.length_pos_iff.mpr hstream
      rw [hwritten, ih _ (by rw [List.length_drop]; omega) (.left hroom) (h.suffix hrest) rfl]
      rfl

/-- Where no line has a byte, what a round throws away is not the beginning of a line. -/
theorem left_append (pattern : List Byte) (hbuf : buf ≠ [])
    (h : ∀ l ∈ lines newline (buf ++ stream), l = []) :
    (∀ l ∈ lines newline (left buf ++ stream), l = []) ∧
      matching pattern buf ++ matching pattern (left buf ++ stream) =
        matching pattern (buf ++ stream) := by
  unfold left
  split
  next hline =>
    refine ⟨fun l hl => h l ?_, matching_append.symm⟩
    rw [lines_append]
    exact List.mem_append_right _ hl
  next hline =>
    have hstream : newline ∉ stream := by
      intro hmem
      obtain ⟨l, post, rfl, hl⟩ := List.eq_append_cons_of_mem hmem
      have hfirst : newline ∉ buf ++ l := by simp [hline, hl]
      rw [← List.append_assoc, lines_line hfirst] at h
      exact hbuf (List.append_eq_nil_iff.mp (h _ List.mem_cons_self)).1
    rw [List.nil_append, lines_eq_nil_iff.mpr hstream, matching_of_not_mem hline,
      matching_of_not_mem hstream, matching_of_not_mem (by simp [hline, hstream])]
    exact ⟨fun l hl => absurd hl List.not_mem_nil, rfl⟩

theorem grepFrom_empty (hbuf : Waiting buf) (h : ∀ l ∈ lines newline (buf ++ stream), l = []) :
    grepFrom pattern chunk k buf stream = matching pattern (buf ++ stream) := by
  induction hlen : stream.length using Nat.strong_induction_on generalizing k buf stream with
  | _ m ih =>
    by_cases hstream : stream = []
    · rw [hstream, grepFrom_nil, List.append_nil, matching_of_not_mem hbuf.line]
    · obtain ⟨hpos, hroom⟩ := hbuf.readCount hstream chunk k
      obtain ⟨n, hn⟩ : ∃ n, n = readCount chunk k buf stream := ⟨_, rfl⟩
      rw [← hn] at hpos hroom
      rw [grepFrom_step hbuf hstream hn]
      have hcut : buf ++ stream = buf ++ stream.take n ++ stream.drop n := by
        rw [List.append_assoc, List.take_append_drop]
      have hpos' := List.length_pos_iff.mpr hstream
      have hcontent : buf ++ stream.take n ≠ [] := by
        simp only [ne_eq, List.append_eq_nil_iff, List.take_eq_nil_iff, not_and, not_or]
        exact fun _ => ⟨hpos.ne', hstream⟩
      rw [hcut] at h ⊢
      have hround := left_append pattern hcontent h
      rw [ih _ (by rw [List.length_drop]; omega) (.left hroom) hround.1 rfl]
      exact hround.2

/-- What one-byte reads leave of a text: the ends of its lines, and no byte of a line. -/
def ends (pattern s : List Byte) : List Byte :=
  if matchRe pattern [] then s.filter (· = newline) else []

theorem matching_singleton (c : Byte) : matching pattern [c] = ends pattern [c] := by
  by_cases hc : c = newline
  · subst c
    by_cases hm : matchRe pattern []
    · simp [matching, ends, hm, unlines]
    · simp [matching, ends, hm, unlines]
  · rw [matching_of_not_mem (by simpa using Ne.symm hc)]
    simp [ends, hc]

theorem left_singleton (c : Byte) : left [c] = [] := by
  unfold left
  split
  next hc =>
    rw [List.mem_singleton] at hc
    rw [← hc]
    rfl
  next => rfl

/-- Reads of one byte go over a part of the stream. -/
theorem grepFrom_ones (hones : ∀ i < pre.length, chunk (k + i) = 1) :
    grepFrom pattern chunk k [] (pre ++ s) =
      ends pattern pre ++ grepFrom pattern chunk (k + pre.length) [] s := by
  induction pre generalizing k with
  | nil => simp [ends]
  | cons c pre ih =>
    have hone : 1 = readCount chunk k [] (c :: pre ++ s) := by
      have hk : chunk k = 1 := hones 0 (by simp)
      simp [readCount, hk, bufSize]
    have hrest := ih (k := k + 1) fun i hi => by
      rw [Nat.add_assoc, Nat.add_comm 1]
      exact hones (i + 1) (by simpa using hi)
    have hends : ends pattern (c :: pre) = ends pattern [c] ++ ends pattern pre := by
      unfold ends
      split
      · rw [← List.filter_append]
        rfl
      · rfl
    rw [grepFrom_step .nil (by simp) hone]
    simp only [List.cons_append, List.take_succ_cons, List.take_zero, List.nil_append,
      List.drop_succ_cons, List.drop_zero]
    rw [matching_singleton, left_singleton, hrest, hends, List.append_assoc, List.length_cons,
      Nat.add_assoc k 1, Nat.add_comm 1]

end Runs

section Splitting

theorem grep_ones : grep pattern (fun _ => 1) s = ends pattern s := by
  have h : grepFrom pattern (fun _ => 1) 0 [] (s ++ []) =
      ends pattern s ++ grepFrom pattern (fun _ => 1) (0 + s.length) [] [] :=
    grepFrom_ones fun _ _ => rfl
  rw [List.append_nil] at h
  rw [grep, h, grepFrom_nil, List.append_nil]

/-- If the ends of the lines are all there is to write, then no line has a byte. -/
theorem eq_nil_of_ends (hmatch : matchRe pattern []) (h : ends pattern s = matching pattern s) :
    ∀ l ∈ lines newline s, l = [] := by
  have hlines : (lines newline s).map (fun _ => []) =
      (lines newline s).filter (matchRe pattern) := by
    rw [← lines_matching, ← h, ends, if_pos hmatch, lines_filter]
  have hall : (lines newline s).filter (matchRe pattern) = lines newline s := by
    have hlen := congrArg List.length hlines
    rw [List.length_map] at hlen
    exact List.filter_eq_self.mpr (List.length_filter_eq_length_iff.mp hlen.symm)
  intro l hl
  rw [← hall, ← hlines] at hl
  obtain ⟨-, -, rfl⟩ := List.mem_map.mp hl
  rfl

/-- One-byte reads up to the middle of a line, and then the rest of the line in one read. -/
theorem exists_split_at (hline : newline ∉ u) (hlen : u.length + 1 < bufSize)
    (hmatch : matchRe pattern u) :
    ∃ chunk, grep pattern chunk (pre ++ (u ++ newline :: post)) ≠ [] := by
  let chunk : ℕ → ℕ+ := fun k => if k = pre.length then u.length.succPNat else 1
  refine ⟨chunk, ?_⟩
  have hones : ∀ i < pre.length, chunk (0 + i) = 1 := by
    intro i hi
    exact if_neg (by omega)
  have hcount : u.length + 1 = readCount chunk pre.length [] (u ++ newline :: post) := by
    have hchunk : (chunk pre.length : ℕ) = u.length + 1 := by simp [chunk]
    have hroom : u.length + 1 ≤ bufSize - 1 := by omega
    simp only [readCount, hchunk, List.length_nil, List.length_append, List.length_cons]
    omega
  have htake : (u ++ newline :: post).take (u.length + 1) = u ++ newline :: [] := by
    simp [List.take_append]
  rw [grep, grepFrom_ones hones, Nat.zero_add, grepFrom_step .nil (by simp) hcount,
    List.nil_append, htake]
  simp [matching, lines_line hline, hmatch, unlines]

end Splitting

/-- grep writes the matching lines, whatever the pieces are in which its input comes, if and only
if no ended line has a byte, or no ended line matches and no end of one does that fits into the
buffer. -/
theorem grep_eq_iff (pattern s : List Byte) :
    (∀ chunk chunk', grep pattern chunk s = grep pattern chunk' s ∧
        grep pattern chunk s = matching pattern s) ↔
      (∀ l ∈ lines newline s, l = []) ∨
        (∀ l ∈ lines newline s, ¬ matchRe pattern l) ∧ Quiet pattern s := by
  constructor
  · intro h
    by_cases hempty : ∀ l ∈ lines newline s, l = []
    · exact .inl hempty
    right
    have hones : ends pattern s = matching pattern s := by
      rw [← grep_ones]
      exact (h (fun _ => 1) (fun _ => 1)).2
    have hmatch : ¬ matchRe pattern [] := fun hmatch => hempty (eq_nil_of_ends hmatch hones)
    have hnone : matching pattern s = [] := by rw [← hones, ends, if_neg hmatch]
    refine ⟨matching_eq_nil_iff.mp hnone, fun l hl u hu hlen humatch => ?_⟩
    have hl' := not_mem_of_mem_lines hl
    obtain ⟨v, rfl⟩ := hu
    obtain ⟨pre, post, rfl⟩ := exists_eq_of_mem_lines hl
    have hline : newline ∉ u := fun hmem => hl' (List.mem_append_right _ hmem)
    obtain ⟨chunk, hchunk⟩ : ∃ chunk,
        grep pattern chunk (pre ++ v ++ (u ++ newline :: post)) ≠ [] :=
      exists_split_at hline hlen humatch
    apply hchunk
    rw [← hnone, ← (h chunk chunk).2]
    simp
  · rintro (hempty | ⟨hnone, hquiet⟩)
    · have hright : ∀ chunk, grep pattern chunk s = matching pattern s := fun chunk =>
        grepFrom_empty .nil hempty
      exact fun chunk chunk' => ⟨by rw [hright, hright], hright chunk⟩
    · have hnothing : ∀ chunk, grep pattern chunk s = [] := fun chunk =>
        grepFrom_quiet .nil hquiet
      refine fun chunk chunk' => ⟨by rw [hnothing, hnothing], ?_⟩
      rw [hnothing, matching_eq_nil_iff.mpr hnone]

/-- The pattern a, and the line a in two pieces. -/
theorem grep_ne_pieces :
    ¬ ∀ pattern s : List Byte, (∀ l ∈ lines newline s, l.length < bufSize) →
      ∀ chunk chunk', grep pattern chunk s = grep pattern chunk' s ∧
        grep pattern chunk s = matching pattern s := by
  intro h
  let a : Byte := ⟨'a'.toUInt8, by decide⟩
  have hlines : lines newline [a, newline] = [[a]] := by decide
  have hnil : matchRe [a] [] = false := by
    have hcaret : a ≠ caret := by decide
    have hdollar : a ≠ dollar := by decide
    simp [matchRe, matchFrom, matchhere, hcaret, hdollar]
  have hself : matchRe [a] [a] = true := by
    have hcaret : a ≠ caret := by decide
    have hdollar : a ≠ dollar := by decide
    simp [matchRe, matchFrom, matchhere, hcaret, hdollar]
  have hpieces := (h [a] [a, newline] (by simp [hlines, bufSize]) (fun _ => 1) fun _ => 1).2
  rw [grep_ones, ends, hnil, if_neg (by simp), matching, hlines] at hpieces
  simp [hself, unlines] at hpieces

end NorthOS.Grep
