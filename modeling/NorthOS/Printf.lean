import Mathlib.Data.Nat.Digits.Lemmas
import Mathlib.Tactic.Common

/-!
printf.c, and cprintf of console.c. One walks over the format with a state, the other looks
ahead; both print what the format says, so that they differ in %c and in the letters of
hexadecimal numbers alone. atoi reads a number again that %d printed.
-/
namespace NorthOS.Printf

abbrev Text := List UInt8

def percent : UInt8 := 37
def minus : UInt8 := 45

/-- `digits` of printf.c. -/
def upperDigits : Text := [48, 49, 50, 51, 52, 53, 54, 55, 56, 57, 65, 66, 67, 68, 69, 70]

/-- `digits` of console.c. -/
def lowerDigits : Text := [48, 49, 50, 51, 52, 53, 54, 55, 56, 57, 97, 98, 99, 100, 101, 102]

/-- The loop `do buf[i++] = digits[x % base]; while ((x /= base) != 0)`: what is stored. -/
def storeDigits (digits : Text) (base : ℕ) : ℕ → ℕ → Text
  | 0, _ => []
  | fuel + 1, x => digits.getD (x % base) 0 :: if x / base = 0 then [] else storeDigits digits base fuel (x / base)

/-- What printint stores in its buffer. -/
def printintBuf (digits : Text) (xx : BitVec 32) (base : ℕ) (sgn : Bool) : Text :=
  let neg := sgn && xx.msb
  let x := if neg then (-xx).toNat else xx.toNat
  storeDigits digits base 32 x ++ if neg then [minus] else []

/-- The buffer is printed from its end. -/
def printint (digits : Text) (xx : BitVec 32) (base : ℕ) (sgn : Bool) : Text :=
  (printintBuf digits xx base sgn).reverse

/-- `"(null)"` -/
def null : Text := [40, 110, 117, 108, 108, 41]

/-- The string at an address. -/
def string (mem : BitVec 32 → Text) (s : BitVec 32) : Text := if s = 0 then null else mem s

variable (mem : BitVec 32 → Text) (ap : ℕ → BitVec 32)

/-- The loop of printf from argument `k` on; `state` says that a `%` was read. -/
def printfLoop (digits : Text) (state : Bool) (k : ℕ) : Text → Text
  | [] => []
  | c :: fmt =>
    if state = false then
      if c = percent then printfLoop digits true k fmt else c :: printfLoop digits false k fmt
    else if c = 100 then printint digits (ap k) 10 true ++ printfLoop digits false (k + 1) fmt
    else if c = 120 ∨ c = 112 then printint digits (ap k) 16 false ++ printfLoop digits false (k + 1) fmt
    else if c = 115 then string mem (ap k) ++ printfLoop digits false (k + 1) fmt
    else if c = 99 then UInt8.ofBitVec ((ap k).setWidth 8) :: printfLoop digits false (k + 1) fmt
    else if c = percent then c :: printfLoop digits false k fmt
    else percent :: c :: printfLoop digits false k fmt

def printf (fmt : Text) : Text := printfLoop mem ap upperDigits false 0 fmt

/-- The loop of cprintf from argument `k` on. -/
def cprintfLoop (k : ℕ) : Text → Text
  | [] => []
  | c :: fmt =>
    if c ≠ percent then c :: cprintfLoop k fmt
    else match fmt with
      | [] => []
      | c :: fmt =>
        if c = 100 then printint lowerDigits (ap k) 10 true ++ cprintfLoop (k + 1) fmt
        else if c = 120 ∨ c = 112 then printint lowerDigits (ap k) 16 false ++ cprintfLoop (k + 1) fmt
        else if c = 115 then string mem (ap k) ++ cprintfLoop (k + 1) fmt
        else if c = percent then percent :: cprintfLoop k fmt
        else percent :: c :: cprintfLoop k fmt

def cprintf (fmt : Text) : Text := cprintfLoop mem ap 0 fmt

/-- The loop of atoi, with the arithmetic of ints. -/
def atoiLoop (n : BitVec 32) : Text → BitVec 32
  | [] => n
  | c :: s => if 48 ≤ c ∧ c ≤ 57 then atoiLoop (n * 10 + BitVec.ofNat 32 c.toNat - 48) s else n

def atoi (s : Text) : BitVec 32 := atoiLoop 0 s

/-- What a format asks for. -/
inductive Piece
  | letter (c : UInt8)
  | number
  | hex
  | string
  | byte
  deriving DecidableEq

/-- The pieces of a format. A `%` at the end is none, and a `%` in front of another character
is one letter for itself. -/
def pieces : Text → List Piece
  | [] => []
  | c :: fmt =>
    if c ≠ percent then .letter c :: pieces fmt
    else match fmt with
      | [] => []
      | c :: fmt =>
        if c = 100 then .number :: pieces fmt
        else if c = 120 ∨ c = 112 then .hex :: pieces fmt
        else if c = 115 then .string :: pieces fmt
        else if c = 99 then .byte :: pieces fmt
        else if c = percent then .letter percent :: pieces fmt
        else .letter percent :: .letter c :: pieces fmt

/-- The pieces printed, with the arguments from `k` on for those that take one. -/
def printPieces (digits : Text) (k : ℕ) : List Piece → Text
  | [] => []
  | .letter c :: ps => c :: printPieces digits k ps
  | .number :: ps => printint digits (ap k) 10 true ++ printPieces digits (k + 1) ps
  | .hex :: ps => printint digits (ap k) 16 false ++ printPieces digits (k + 1) ps
  | .string :: ps => string mem (ap k) ++ printPieces digits (k + 1) ps
  | .byte :: ps => UInt8.ofBitVec ((ap k).setWidth 8) :: printPieces digits (k + 1) ps

variable {mem : BitVec 32 → Text} {ap : ℕ → BitVec 32} {digits fmt rest : Text} {base fuel k x : ℕ}
  {xx : BitVec 32}

section Formats

/-- The state of printf lasts for one character. -/
theorem printfLoop_directive (c : UInt8) : printfLoop mem ap digits false k (percent :: c :: fmt) =
    if c = 100 then printint digits (ap k) 10 true ++ printfLoop mem ap digits false (k + 1) fmt
    else if c = 120 ∨ c = 112 then printint digits (ap k) 16 false ++ printfLoop mem ap digits false (k + 1) fmt
    else if c = 115 then string mem (ap k) ++ printfLoop mem ap digits false (k + 1) fmt
    else if c = 99 then UInt8.ofBitVec ((ap k).setWidth 8) :: printfLoop mem ap digits false (k + 1) fmt
    else if c = percent then c :: printfLoop mem ap digits false k fmt
    else percent :: c :: printfLoop mem ap digits false k fmt := rfl

/-- printf prints the pieces of its format. -/
theorem printfLoop_eq : printfLoop mem ap digits false k fmt = printPieces mem ap digits k (pieces fmt) := by
  fun_induction pieces fmt generalizing k with
  | case1 => rfl
  | case2 c fmt hc ih => rw [printfLoop, if_pos rfl, if_neg hc, printPieces, ih]
  | case3 c hc =>
    obtain rfl := not_not.mp hc
    rfl
  | case4 c hc fmt ih =>
    obtain rfl := not_not.mp hc
    rw [printfLoop_directive, if_pos rfl, printPieces, ih]
  | case5 c hc d fmt hd hx ih =>
    obtain rfl := not_not.mp hc
    rw [printfLoop_directive, if_neg hd, if_pos hx, printPieces, ih]
  | case6 c hc fmt hd hx ih =>
    obtain rfl := not_not.mp hc
    rw [printfLoop_directive, if_neg hd, if_neg hx, if_pos rfl, printPieces, ih]
  | case7 c hc fmt hd hx hs ih =>
    obtain rfl := not_not.mp hc
    rw [printfLoop_directive, if_neg hd, if_neg hx, if_neg hs, if_pos rfl, printPieces, ih]
  | case8 c hc fmt hd hx hs hb ih =>
    obtain rfl := not_not.mp hc
    rw [printfLoop_directive, if_neg hd, if_neg hx, if_neg hs, if_neg hb, if_pos rfl, printPieces, ih]
  | case9 c hc d fmt hd hx hs hb hp ih =>
    obtain rfl := not_not.mp hc
    rw [printfLoop_directive, if_neg hd, if_neg hx, if_neg hs, if_neg hb, if_neg hp, printPieces, printPieces, ih]

theorem cprintfLoop_letter {c : UInt8} (hc : c ≠ percent) :
    cprintfLoop mem ap k (c :: fmt) = c :: cprintfLoop mem ap k fmt := by
  rw [cprintfLoop.eq_def]
  exact if_pos hc

/-- cprintf looks at the next character. -/
theorem cprintfLoop_directive (c : UInt8) : cprintfLoop mem ap k (percent :: c :: fmt) =
    if c = 100 then printint lowerDigits (ap k) 10 true ++ cprintfLoop mem ap (k + 1) fmt
    else if c = 120 ∨ c = 112 then printint lowerDigits (ap k) 16 false ++ cprintfLoop mem ap (k + 1) fmt
    else if c = 115 then string mem (ap k) ++ cprintfLoop mem ap (k + 1) fmt
    else if c = percent then percent :: cprintfLoop mem ap k fmt
    else percent :: c :: cprintfLoop mem ap k fmt := by
  rw [cprintfLoop.eq_def]
  exact if_neg (not_not_intro rfl)

/-- cprintf prints the pieces with small letters, if none of them is a %c, which it does not know. -/
theorem cprintfLoop_eq (hbyte : .byte ∉ pieces fmt) :
    cprintfLoop mem ap k fmt = printPieces mem ap lowerDigits k (pieces fmt) := by
  fun_induction pieces fmt generalizing k with
  | case1 => rfl
  | case2 c fmt hc ih =>
    rw [cprintfLoop_letter hc, printPieces, ih fun h => hbyte (List.mem_cons_of_mem _ h)]
  | case3 c hc =>
    obtain rfl := not_not.mp hc
    rfl
  | case4 c hc fmt ih =>
    obtain rfl := not_not.mp hc
    rw [cprintfLoop_directive, if_pos rfl, printPieces, ih fun h => hbyte (List.mem_cons_of_mem _ h)]
  | case5 c hc d fmt hd hx ih =>
    obtain rfl := not_not.mp hc
    rw [cprintfLoop_directive, if_neg hd, if_pos hx, printPieces, ih fun h => hbyte (List.mem_cons_of_mem _ h)]
  | case6 c hc fmt hd hx ih =>
    obtain rfl := not_not.mp hc
    rw [cprintfLoop_directive, if_neg hd, if_neg hx, if_pos rfl, printPieces,
      ih fun h => hbyte (List.mem_cons_of_mem _ h)]
  | case7 c hc fmt hd hx hs ih => exact absurd List.mem_cons_self hbyte
  | case8 c hc fmt hd hx hs hb ih =>
    obtain rfl := not_not.mp hc
    rw [cprintfLoop_directive, if_neg hd, if_neg hx, if_neg hs, if_pos rfl, printPieces,
      ih fun h => hbyte (List.mem_cons_of_mem _ h)]
  | case9 c hc d fmt hd hx hs hb hp ih =>
    obtain rfl := not_not.mp hc
    rw [cprintfLoop_directive, if_neg hd, if_neg hx, if_neg hs, if_neg hp, printPieces, printPieces,
      ih fun h => hbyte (List.mem_cons_of_mem _ (List.mem_cons_of_mem _ h))]

/-- printf and cprintf print the pieces of a format, in their own letters. -/
theorem print_formats (mem : BitVec 32 → Text) (ap : ℕ → BitVec 32) (fmt : Text) :
    printf mem ap fmt = printPieces mem ap upperDigits 0 (pieces fmt) ∧
      (.byte ∉ pieces fmt → cprintf mem ap fmt = printPieces mem ap lowerDigits 0 (pieces fmt)) :=
  ⟨printfLoop_eq, cprintfLoop_eq⟩

end Formats

section Numbers

theorem storeDigits_eq (hb : 1 < base) (hx : x < base ^ fuel) (hfuel : 0 < fuel) : storeDigits digits base fuel x =
    (if x = 0 then [0] else Nat.digits base x).map fun d => digits.getD d 0 := by
  induction fuel generalizing x with
  | zero => exact absurd hfuel (Nat.lt_irrefl 0)
  | succ fuel ih =>
    unfold storeDigits
    by_cases hlast : x / base = 0
    · have hlt : x < base := (Nat.div_eq_zero_iff.mp hlast).resolve_left (by omega)
      rw [if_pos hlast, Nat.mod_eq_of_lt hlt]
      by_cases hzero : x = 0
      · rw [if_pos hzero, hzero]
        rfl
      · rw [if_neg hzero, Nat.digits_of_lt base x hzero hlt]
        rfl
    · have hzero : x ≠ 0 := by
        rintro rfl
        exact hlast (Nat.zero_div base)
      have hdiv : x / base < base ^ fuel := by
        rw [Nat.div_lt_iff_lt_mul (by omega)]
        exact hx
      have hpos : 0 < fuel := by
        rcases Nat.eq_zero_or_pos fuel with rfl | hpos
        · exact absurd (Nat.lt_one_iff.mp hdiv) hlast
        · exact hpos
      rw [if_neg hlast, if_neg hzero, ih hdiv hpos, if_neg hlast, Nat.digits_def' hb (Nat.pos_of_ne_zero hzero)]
      rfl

theorem storeDigits_word {w : ℕ} (hb : 1 < base) (hw : w < 2 ^ 32) : storeDigits digits base 32 w =
    (if w = 0 then [0] else Nat.digits base w).map fun d => digits.getD d 0 :=
  storeDigits_eq hb (Nat.lt_of_lt_of_le hw (Nat.pow_le_pow_left hb 32)) (by decide)

/-- printint stays in its buffer of 16 bytes. -/
theorem printintBuf_length (hb : base = 10 ∨ base = 16) (sgn : Bool) :
    (printintBuf digits xx base sgn).length ≤ 16 := by
  have hbase : 10 ≤ base := by omega
  have hstore : ∀ w : ℕ, w < 2 ^ 32 → (storeDigits digits base 32 w).length ≤ 10 := by
    intro w hw
    rw [storeDigits_word (by omega) hw, List.length_map]
    split
    · decide
    · rw [Nat.digits_length_le_iff (by omega)]
      exact Nat.lt_of_lt_of_le (show w < 10 ^ 10 by omega) (Nat.pow_le_pow_left hbase 10)
  unfold printintBuf
  rw [List.length_append]
  have hlen : (storeDigits digits base 32
      (if (sgn && xx.msb) = true then (-xx).toNat else xx.toNat)).length ≤ 10 := by
    apply hstore
    split <;> exact BitVec.isLt _
  have hsign : (if (sgn && xx.msb) = true then [minus] else []).length ≤ 1 := by
    split <;> decide
  exact Nat.le_trans (Nat.add_le_add hlen hsign) (by decide)

theorem digit_facts : ∀ d, d < 10 → upperDigits.getD d 0 = UInt8.ofNat (48 + d) ∧
    lowerDigits.getD d 0 = UInt8.ofNat (48 + d) ∧ 48 ≤ UInt8.ofNat (48 + d) ∧ UInt8.ofNat (48 + d) ≤ 57 ∧
      (UInt8.ofNat (48 + d)).toNat = 48 + d := by decide

theorem atoiLoop_digit {d : ℕ} (hd : d < 10) (n : ℕ) :
    atoiLoop (BitVec.ofNat 32 n) (UInt8.ofNat (48 + d) :: rest) = atoiLoop (BitVec.ofNat 32 (n * 10 + d)) rest := by
  obtain ⟨_, _, hlo, hhi, hval⟩ := digit_facts d hd
  have hsum : BitVec.ofNat 32 n * 10 + BitVec.ofNat 32 (48 + d) - 48 = BitVec.ofNat 32 (n * 10 + d) := by
    rw [BitVec.ofNat_add, BitVec.ofNat_add, BitVec.ofNat_mul, BitVec.add_comm (BitVec.ofNat 32 48),
      ← BitVec.add_assoc]
    exact BitVec.add_sub_cancel _ _
  rw [atoiLoop, if_pos ⟨hlo, hhi⟩, hval, hsum]

/-- A number read in decimal, from its most significant digit on. -/
theorem atoiLoop_digits {ds : List ℕ} (rest : Text) (hds : ∀ d ∈ ds, d < 10) (n : ℕ) :
    atoiLoop (BitVec.ofNat 32 n) ((ds.map fun d => UInt8.ofNat (48 + d)).reverse ++ rest) =
      atoiLoop (BitVec.ofNat 32 (n * 10 ^ ds.length + Nat.ofDigits 10 ds)) rest := by
  induction ds generalizing rest with
  | nil => simp
  | cons d ds ih =>
    rw [List.map_cons, List.reverse_cons, List.append_assoc, ih _ fun d' hd' => hds d' (List.mem_cons_of_mem d hd')]
    refine (atoiLoop_digit (hds d List.mem_cons_self) _).trans ?_
    have hvalue : (n * 10 ^ ds.length + Nat.ofDigits 10 ds) * 10 + d =
        n * 10 ^ (d :: ds).length + Nat.ofDigits 10 (d :: ds) := by
      rw [Nat.ofDigits_cons, List.length_cons, Nat.pow_succ]
      ring
    rw [hvalue]
    rfl

/-- A number in decimal. -/
def decimal (n : ℕ) : Text := ((if n = 0 then [0] else Nat.digits 10 n).map fun d => UInt8.ofNat (48 + d)).reverse

theorem decimal_digits {n : ℕ} : ∀ d ∈ (if n = 0 then [0] else Nat.digits 10 n), d < 10 := by
  split
  · decide
  · exact fun d hd => Nat.digits_lt_base (by decide) hd

/-- Both alphabets have the same digits for base 10. -/
theorem storeDigits_decimal (hdigits : digits = upperDigits ∨ digits = lowerDigits) {w : ℕ} (hw : w < 2 ^ 32) :
    (storeDigits digits 10 32 w).reverse = decimal w := by
  unfold decimal
  rw [storeDigits_word (by decide) hw]
  refine congrArg List.reverse (List.map_congr_left fun d hd => ?_)
  obtain ⟨hupper, hlower, _⟩ := digit_facts d (decimal_digits d hd)
  rcases hdigits with rfl | rfl
  · exact hupper
  · exact hlower

/-- A number that is not negative has no sign. -/
theorem printint_store (h : xx.msb = false) :
    printint digits xx base true = (storeDigits digits base 32 xx.toNat).reverse := by
  unfold printint printintBuf
  rw [h]
  exact congrArg List.reverse (List.append_nil _)

/-- %d prints a number that fits in an int in decimal. -/
theorem printint_decimal {n : ℕ} (hn : n < 2 ^ 31) :
    printint upperDigits (BitVec.ofNat 32 n) 10 true = decimal n := by
  have hval : (BitVec.ofNat 32 n).toNat = n := by
    rw [BitVec.toNat_ofNat]
    exact Nat.mod_eq_of_lt (by omega)
  have hmsb : (BitVec.ofNat 32 n).msb = false := by
    rw [BitVec.msb_eq_false_iff_two_mul_lt, hval]
    omega
  rw [printint_store hmsb, hval, storeDigits_decimal (Or.inl rfl) (by omega)]

/-- A number in decimal is read again, up to the size of a word. -/
theorem atoi_decimal (n : ℕ) (hrest : ∀ c ∈ rest.head?, ¬ (48 ≤ c ∧ c ≤ 57)) :
    atoi (decimal n ++ rest) = BitVec.ofNat 32 n := by
  have hvalue : Nat.ofDigits 10 (if n = 0 then [0] else Nat.digits 10 n) = n := by
    split
    · rename_i hzero
      rw [hzero]
      rfl
    · exact Nat.ofDigits_digits 10 _
  have hloop := atoiLoop_digits rest (decimal_digits (n := n)) 0
  rw [Nat.zero_mul, Nat.zero_add, hvalue] at hloop
  refine hloop.trans ?_
  cases rest with
  | nil => rfl
  | cons c s => rw [atoiLoop, if_neg (hrest c rfl)]

/-- The decimal digits of a word are read again. -/
theorem atoi_store (hdigits : digits = upperDigits ∨ digits = lowerDigits) (w : BitVec 32)
    (hrest : ∀ c ∈ rest.head?, ¬ (48 ≤ c ∧ c ≤ 57)) :
    atoi ((storeDigits digits 10 32 w.toNat).reverse ++ rest) = w := by
  rw [storeDigits_decimal hdigits w.isLt, atoi_decimal _ hrest, BitVec.ofNat_toNat, BitVec.setWidth_eq]

/-- A number in the buffer of printint, and what atoi makes of it when %d printed it: atoi gives
a number that is not negative back, and for a negative one its opposite behind the sign. -/
theorem printed_numbers (hdigits : digits = upperDigits ∨ digits = lowerDigits) (xx : BitVec 32)
    (hrest : ∀ c ∈ rest.head?, ¬ (48 ≤ c ∧ c ≤ 57)) :
    (∀ base sgn, base = 10 ∨ base = 16 → (printintBuf digits xx base sgn).length ≤ 16) ∧
    (xx.msb = false → atoi (printint digits xx 10 true ++ rest) = xx) ∧
    (xx.msb = true → ∃ text, printint digits xx 10 true = minus :: text ∧ atoi (text ++ rest) = -xx) := by
  refine ⟨fun base sgn hb => printintBuf_length hb sgn, fun hpos => ?_, fun hneg => ?_⟩
  · rw [printint_store hpos]
    exact atoi_store hdigits xx hrest
  · refine ⟨(storeDigits digits 10 32 (-xx).toNat).reverse, ?_, atoi_store hdigits (-xx) hrest⟩
    unfold printint printintBuf
    rw [hneg]
    exact List.reverse_append

theorem printed_numbers_line : atoi (printint upperDigits 2040 10 true ++ [10]) = 2040 ∧
    ∃ text, printint upperDigits (-2040) 10 true = minus :: text ∧ atoi (text ++ [10]) = 2040 := by
  have hrest : ∀ c ∈ ([10] : Text).head?, ¬ (48 ≤ c ∧ c ≤ 57) := by
    intro c hc
    rw [← Option.some.inj hc]
    decide
  refine ⟨(printed_numbers (Or.inl rfl) 2040 hrest).2.1 (by decide), ?_⟩
  obtain ⟨text, htext, hback⟩ := (printed_numbers (Or.inl rfl) (-2040) hrest).2.2 (by decide)
  exact ⟨text, htext, hback.trans (BitVec.neg_neg)⟩

end Numbers

end NorthOS.Printf
