import Mathlib.Algebra.Group.Nat.Defs
import Mathlib.Data.List.GetD
import Mathlib.Tactic.Common

/-!
The text screen of console.c. cgaputc keeps the cursor in two registers of the controller, and
moves the memory of the screen up by one row when the cursor leaves row 23. The screen is a
window of 24 rows on a paper without an end, and the cursor is the end of what is written.
-/
namespace NorthOS.TextScreen

def BACKSPACE : BitVec 32 := 0x100

def newline : BitVec 32 := 10

/-- A blank, black on white. -/
def blankCell : BitVec 16 := 0x0720

/-- The screen and the registers 14 and 15. -/
structure Cga where
  crt : ℕ → BitVec 16
  high : UInt8
  low : UInt8

namespace Cga

def pos (s : Cga) : ℕ := s.high.toNat <<< 8 ||| s.low.toNat

end Cga

/-- The cursor and the screen after the character, before the screen moves. -/
def write (c : BitVec 32) (pos : ℕ) (crt : ℕ → BitVec 16) : ℕ × (ℕ → BitVec 16) :=
  if c = newline then (pos + (80 - pos % 80), crt)
  else if c = BACKSPACE then (if pos > 0 then pos - 1 else pos, crt)
  else (pos + 1, Function.update crt pos ((c &&& 0xFF ||| 0x0700).setWidth 16))

/-- Scroll up: the rows 1 to 23 move, and what follows the cursor is cleared. -/
def scroll (pos : ℕ) (crt : ℕ → BitVec 16) : ℕ → BitVec 16 :=
  let moved := fun k => if k < 23 * 80 then crt (k + 80) else crt k
  fun k => if pos ≤ k ∧ k < 24 * 80 then 0 else moved k

/-- `cgaputc`, without a result when it panics. -/
def cgaputc (s : Cga) (c : BitVec 32) : Option Cga :=
  let (pos, crt) := write c s.pos s.crt
  if pos > 25 * 80 then none
  else
    let (pos, crt) := if pos / 80 ≥ 24 then (pos - 80, scroll (pos - 80) crt) else (pos, crt)
    some ⟨Function.update crt pos blankCell, UInt8.ofNat (pos >>> 8), UInt8.ofNat pos⟩

/-- What is seen of a byte: NUL looks like a blank. -/
def glyph (b : BitVec 8) : BitVec 8 := if b = 0 then 32 else b

def shown (cell : BitVec 16) : BitVec 8 := glyph (cell.setWidth 8)

/-- The paper: all that is written, in rows of 80, and the number of rows above the screen. -/
structure Paper where
  text : List (BitVec 8)
  top : ℕ

namespace Paper

/-- A character on paper. What is above the screen cannot be taken back. -/
def put (p : Paper) (c : BitVec 32) : Paper :=
  let text :=
    if c = newline then p.text ++ List.replicate (80 - p.text.length % 80) 32
    else if c = BACKSPACE then if 80 * p.top < p.text.length then p.text.dropLast else p.text
    else p.text ++ [glyph (c.setWidth 8)]
  ⟨text, if 80 * (p.top + 24) ≤ text.length then p.top + 1 else p.top⟩

/-- The byte at a position; what is not written is blank. -/
def byteAt (p : Paper) (k : ℕ) : BitVec 8 := p.text.getD k 32

end Paper

/-- The screen shows the paper from row `top` on, and the cursor is at the end of the text. -/
structure Shows (s : Cga) (p : Paper) : Prop where
  cursor : 80 * p.top + s.pos = p.text.length
  inside : s.pos < 24 * 80
  cells : ∀ k, k < 24 * 80 → shown (s.crt k) = p.byteAt (80 * p.top + k)

variable {s : Cga} {p : Paper} {c : BitVec 32} {k pos : ℕ}

theorem pos_registers {crt : ℕ → BitVec 16} (h : pos < 24 * 80) :
    Cga.pos ⟨crt, UInt8.ofNat (pos >>> 8), UInt8.ofNat pos⟩ = pos := by
  have hlow : (UInt8.ofNat pos).toNat = pos % 256 := UInt8.toNat_ofNat'
  have hhigh : (UInt8.ofNat (pos >>> 8)).toNat = pos / 256 := by
    rw [UInt8.toNat_ofNat', Nat.shiftRight_eq_div_pow]
    omega
  unfold Cga.pos
  dsimp only
  rw [hlow, hhigh, ← Nat.shiftLeft_add_eq_or_of_lt (Nat.mod_lt _ (by decide)), Nat.shiftLeft_eq]
  omega

theorem shown_cell (c : BitVec 32) : shown ((c &&& 0xFF ||| 0x0700).setWidth 16) = glyph (c.setWidth 8) := by
  have hones : (0xFF : BitVec 32).setWidth 8 = BitVec.allOnes 8 := by decide
  have hzero : (0x0700 : BitVec 32).setWidth 8 = 0#8 := by decide
  unfold shown
  rw [BitVec.setWidth_setWidth_of_le _ (by decide), BitVec.setWidth_or, BitVec.setWidth_and, hones, hzero,
    BitVec.and_allOnes, BitVec.or_zero]

theorem shown_blank : shown blankCell = 32 := by decide

theorem shown_zero : shown 0 = 32 := by decide

/-- A position at or behind the end of the text is blank. -/
theorem Paper.byteAt_end (h : p.text.length ≤ k) : p.byteAt k = 32 := List.getD_eq_default _ _ h

theorem getD_blanks (text : List (BitVec 8)) (n k : ℕ) :
    (text ++ List.replicate n 32).getD k 32 = text.getD k 32 := by
  by_cases hk : k < text.length
  · exact List.getD_append _ _ _ _ hk
  · rw [List.getD_append_right _ _ _ _ (Nat.le_of_not_lt hk), List.getD_eq_default _ _ (Nat.le_of_not_lt hk)]
    by_cases hn : k - text.length < n
    · rw [List.getD_replicate]
      exact hn
    · rw [List.getD_eq_default _ _ (by rw [List.length_replicate]; omega)]

/-- Before the screen moves, the text ends at the cursor, and the memory shows it but for what
is under the cursor. -/
theorem Shows.written (h : Shows s p) (c : BitVec 32) :
    80 * p.top + (write c s.pos s.crt).1 = (p.put c).text.length ∧ (write c s.pos s.crt).1 ≤ 24 * 80 ∧
      ∀ k, k < 24 * 80 → k ≠ (write c s.pos s.crt).1 →
        shown ((write c s.pos s.crt).2 k) = (p.put c).byteAt (80 * p.top + k) := by
  have hcursor := h.cursor
  have hinside := h.inside
  unfold write Paper.put Paper.byteAt
  by_cases hnewline : c = newline
  · rw [if_pos hnewline, if_pos hnewline]
    refine ⟨?_, ?_, fun k hk _ => ?_⟩
    · rw [List.length_append, List.length_replicate]
      omega
    · dsimp only
      omega
    · exact (h.cells k hk).trans (getD_blanks _ _ _).symm
  rw [if_neg hnewline, if_neg hnewline]
  by_cases hback : c = BACKSPACE
  · rw [if_pos hback, if_pos hback]
    dsimp only
    by_cases hpos : 0 < s.pos
    · rw [if_pos hpos, if_pos (by omega)]
      refine ⟨?_, by omega, fun k hk hne => ?_⟩
      · rw [List.length_dropLast]
        omega
      · rw [h.cells k hk, Paper.byteAt]
        by_cases hlt : k < s.pos
        · rw [List.getD_eq_getElem?_getD, List.getD_eq_getElem?_getD, List.getElem?_dropLast, if_pos (by omega)]
        · rw [List.getD_eq_default _ _ (by omega), List.getD_eq_default _ _ (by rw [List.length_dropLast]; omega)]
    · rw [if_neg hpos, if_neg (by omega)]
      exact ⟨hcursor, by omega, fun k hk _ => h.cells k hk⟩
  · rw [if_neg hback, if_neg hback]
    refine ⟨?_, hinside, fun k hk hne => ?_⟩
    · rw [List.length_append, List.length_singleton]
      dsimp only
      omega
    · dsimp only at hne ⊢
      by_cases heq : k = s.pos
      · subst heq
        rw [Function.update_self, shown_cell, List.getD_append_right _ _ _ _ (by omega), hcursor, Nat.sub_self]
        rfl
      · rw [Function.update_of_ne heq, h.cells k hk, Paper.byteAt]
        by_cases hlt : k < s.pos
        · rw [List.getD_append _ _ _ _ (by omega)]
        · rw [List.getD_eq_default _ _ (by omega),
            List.getD_eq_default _ _ (by rw [List.length_append, List.length_singleton]; omega)]

/-- The registers take the cursor, and a blank stands under it. -/
theorem Shows.blank {crt : ℕ → BitVec 16} (hpos : pos < 24 * 80) (hcursor : 80 * p.top + pos = p.text.length)
    (hcells : ∀ k, k < 24 * 80 → k ≠ pos → shown (crt k) = p.byteAt (80 * p.top + k)) :
    Shows ⟨Function.update crt pos blankCell, UInt8.ofNat (pos >>> 8), UInt8.ofNat pos⟩ p := by
  refine ⟨?_, ?_, fun k hk => ?_⟩
  · rw [pos_registers hpos]
    exact hcursor
  · rw [pos_registers hpos]
    exact hpos
  · dsimp only
    by_cases heq : k = pos
    · rw [heq, Function.update_self, shown_blank, Paper.byteAt_end (by omega)]
    · rw [Function.update_of_ne heq]
      exact hcells k hk heq

/-- One character: cgaputc does not panic, and the screen shows the paper with the character. -/
theorem Shows.put (h : Shows s p) (c : BitVec 32) : ∃ s', cgaputc s c = some s' ∧ Shows s' (p.put c) := by
  obtain ⟨hcursor, hinside, hcells⟩ := h.written c
  unfold cgaputc
  obtain ⟨pos, crt, hwrite⟩ : ∃ pos crt, write c s.pos s.crt = (pos, crt) := ⟨_, _, rfl⟩
  rw [hwrite] at hcursor hinside hcells ⊢
  dsimp only at hcursor hinside hcells ⊢
  rw [if_neg (by omega)]
  have htop : (p.put c).top = if 80 * (p.top + 24) ≤ (p.put c).text.length then p.top + 1 else p.top := rfl
  refine ⟨_, rfl, ?_⟩
  by_cases hscroll : pos / 80 ≥ 24
  · -- the cursor left row 23
    have hpos : pos = 24 * 80 := by omega
    subst hpos
    rw [if_pos (by omega)] at htop
    have hcleared : ∀ k, k < 24 * 80 → k ≠ 23 * 80 →
        shown (scroll (23 * 80) crt k) = (p.put c).byteAt (80 * (p.put c).top + k) := by
      intro k hk _
      rw [htop]
      unfold scroll
      by_cases hlast : 23 * 80 ≤ k
      · rw [if_pos ⟨hlast, hk⟩, shown_zero, Paper.byteAt_end (by omega)]
      · have hmove := hcells (k + 80) (by omega) (by omega)
        have hindex : 80 * p.top + (k + 80) = 80 * (p.top + 1) + k := by omega
        dsimp only
        rw [if_neg (fun hc => hlast hc.1), if_pos (by omega), hmove, hindex]
    rw [if_pos hscroll]
    exact Shows.blank (show 23 * 80 < 24 * 80 by decide) (by rw [htop]; omega) hcleared
  · rw [if_neg (by omega)] at htop
    rw [if_neg hscroll]
    refine Shows.blank (by omega) (by rw [htop]; exact hcursor) fun k hk hne => ?_
    rw [htop]
    exact hcells k hk hne

/-- What the screen shows in front of the cursor, on paper. -/
def paperOf (s : Cga) : Paper := ⟨(List.range s.pos).map fun k => shown (s.crt k), 0⟩

theorem paperOf_shows (hpos : s.pos < 24 * 80) (hblank : ∀ k, s.pos ≤ k → k < 24 * 80 → shown (s.crt k) = 32) :
    Shows s (paperOf s) := by
  refine ⟨?_, hpos, fun k hk => ?_⟩
  · show 80 * 0 + s.pos = _
    rw [paperOf, List.length_map, List.length_range]
    omega
  · show _ = List.getD ((List.range s.pos).map fun k => shown (s.crt k)) (80 * 0 + k) 32
    rw [Nat.mul_zero, Nat.zero_add]
    by_cases hlt : k < s.pos
    · rw [List.getD_eq_getElem _ _ (by simpa using hlt), List.getElem_map, List.getElem_range]
    · rw [List.getD_eq_default _ _ (by simpa using hlt)]
      exact hblank k (Nat.le_of_not_lt hlt) hk

/-- Without a character that takes something back, the rows above the screen are all but the last
24, of which the last is not full. -/
theorem Paper.put_top (hc : c ≠ BACKSPACE) (h : p.top = p.text.length / 80 - 23) :
    (p.put c).top = (p.put c).text.length / 80 - 23 := by
  have hlen : (p.put c).text.length / 80 ≤ p.text.length / 80 + 1 ∧ p.text.length ≤ (p.put c).text.length := by
    unfold put
    rw [if_neg hc]
    split
    · rw [List.length_append, List.length_replicate]
      omega
    · rw [List.length_append, List.length_singleton]
      omega
  have htop : (p.put c).top = if 80 * (p.top + 24) ≤ (p.put c).text.length then p.top + 1 else p.top := rfl
  rw [htop]
  split
  · omega
  · omega

/-- All characters of an output, one after the other. -/
theorem Shows.puts (h : Shows s p) (cs : List (BitVec 32)) :
    ∃ s', cs.foldlM cgaputc s = some s' ∧ Shows s' (cs.foldl Paper.put p) := by
  induction cs generalizing s p with
  | nil => exact ⟨s, rfl, h⟩
  | cons c cs ih =>
    obtain ⟨s₁, hstep, hshows⟩ := h.put c
    obtain ⟨s', hrest, hshows'⟩ := ih hshows
    refine ⟨s', ?_, hshows'⟩
    rw [List.foldlM_cons, hstep]
    exact hrest

theorem Paper.puts_top {cs : List (BitVec 32)} (hcs : BACKSPACE ∉ cs) (h : p.top = p.text.length / 80 - 23) :
    (cs.foldl put p).top = (cs.foldl put p).text.length / 80 - 23 := by
  induction cs generalizing p with
  | nil => exact h
  | cons c cs ih =>
    have hc : c ≠ BACKSPACE := fun heq => hcs (heq ▸ List.mem_cons_self)
    exact ih (fun hmem => hcs (List.mem_cons_of_mem c hmem)) (put_top hc h)

/-- Any output on a screen that is blank behind the cursor: cgaputc never panics, and the screen
shows the window of 24 rows; without BACKSPACE these are the last rows of what was written. -/
theorem screen_shows (hpos : s.pos < 24 * 80) (hblank : ∀ k, s.pos ≤ k → k < 24 * 80 → shown (s.crt k) = 32)
    (cs : List (BitVec 32)) : ∃ s', cs.foldlM cgaputc s = some s' ∧ Shows s' (cs.foldl Paper.put (paperOf s)) ∧
      (BACKSPACE ∉ cs → (cs.foldl Paper.put (paperOf s)).top = (cs.foldl Paper.put (paperOf s)).text.length / 80 - 23) := by
  obtain ⟨s', hrun, hshows⟩ := (paperOf_shows hpos hblank).puts cs
  refine ⟨s', hrun, hshows, fun hcs => Paper.puts_top hcs ?_⟩
  show 0 = (paperOf s).text.length / 80 - 23
  rw [paperOf, List.length_map, List.length_range]
  omega

/-- The screen after it is cleared. -/
def clear : Cga := ⟨fun _ => blankCell, 0, 0⟩

theorem screen_shows_clear : ∃ s', ([104, 10, 105] : List (BitVec 32)).foldlM cgaputc clear = some s' ∧
    s'.pos = 81 ∧ shown (s'.crt 0) = 104 ∧ shown (s'.crt 80) = 105 ∧ shown (s'.crt 81) = 32 := by
  obtain ⟨s', hrun, hshows, -⟩ := screen_shows (s := clear) (by decide) (fun _ _ _ => shown_blank) [104, 10, 105]
  have hpaper : ([104, 10, 105] : List (BitVec 32)).foldl Paper.put (paperOf clear) =
      ⟨104 :: (List.replicate 79 32 ++ [105]), 0⟩ := rfl
  rw [hpaper] at hshows
  have hcursor : 80 * 0 + s'.pos = 81 := hshows.cursor
  refine ⟨s', hrun, by omega, ?_, ?_, ?_⟩
  · exact hshows.cells 0 (by decide)
  · exact hshows.cells 80 (by decide)
  · exact hshows.cells 81 (by decide)

end NorthOS.TextScreen
