import NorthOS.FoldedSums
import Mathlib.Data.List.Infix

/-!
The checksum of the file system. Two running sums are folded down to 16 bits after every 360
words, by a single addition that may leave a 17th bit; and after the last fold the sums are put
together as if there were no such bit.
-/
namespace NorthOS.Fletcher

open FoldedSums

/-- The inner loop, over the words of a block. -/
def addWords : List UInt16 → UInt32 → UInt32 → UInt32 × UInt32
  | [], sum1, sum2 => (sum1, sum2)
  | w :: data, sum1, sum2 =>
    let sum1 := sum1 + w.toUInt32
    addWords data sum1 (sum2 + sum1)

def foldSum (sum : UInt32) : UInt32 := (sum &&& (0xffff : UInt32)) + (sum >>> (16 : UInt32))

/-- The outer loop, a block of at most 360 words each time. -/
def addBlocks (data : List UInt16) (sum1 sum2 : UInt32) : UInt32 × UInt32 :=
  if 0 < data.length then
    let tlen := if 360 < data.length then 360 else data.length
    let sums := addWords (data.take tlen) sum1 sum2
    addBlocks (data.drop tlen) (foldSum sums.1) (foldSum sums.2)
  else (sum1, sum2)
termination_by data.length
decreasing_by
  rw [List.length_drop]
  split <;> omega

def fletcher32 (data : List UInt16) : UInt32 :=
  let sums := addBlocks data 0xffff 0xffff
  (sums.2 <<< (16 : UInt32)) ||| sums.1

section Exact

/-- The exact values of the additions that the inner loop makes. -/
def wordAdditions : List UInt16 → UInt32 → UInt32 → List ℕ
  | [], _, _ => []
  | w :: data, sum1, sum2 =>
    let next := sum1 + w.toUInt32
    (sum1.toNat + w.toNat) :: (sum2.toNat + next.toNat) :: wordAdditions data next (sum2 + next)

def foldAddition (sum : UInt32) : ℕ := (sum &&& (0xffff : UInt32)).toNat + (sum >>> (16 : UInt32)).toNat

/-- The exact values of all additions to the accumulators. -/
def additions (data : List UInt16) (sum1 sum2 : UInt32) : List ℕ :=
  if 0 < data.length then
    let tlen := if 360 < data.length then 360 else data.length
    let sums := addWords (data.take tlen) sum1 sum2
    wordAdditions (data.take tlen) sum1 sum2 ++ [foldAddition sums.1, foldAddition sums.2] ++
      additions (data.drop tlen) (foldSum sums.1) (foldSum sums.2)
  else []
termination_by data.length
decreasing_by
  rw [List.length_drop]
  split <;> omega

end Exact

section Sums

/-- The sum of the words. -/
def total (data : List UInt16) : ℕ := (data.map UInt16.toNat).sum

/-- What the first sum should be, and what the second should be: the sum of the first ones for
the nonempty beginnings of the data. -/
def sum1 (data : List UInt16) : ℕ := 0xffff + total data

def prefixSums (start : ℕ) (data : List UInt16) : ℕ :=
  ((data.inits.tail).map fun front => start + total front).sum

def sum2 (data : List UInt16) : ℕ := 0xffff + prefixSums 0xffff data

/-- The words of block i, and the words before it. -/
def block (data : List UInt16) (i : ℕ) : List UInt16 := (data.drop (360 * i)).take 360

def front (data : List UInt16) (i : ℕ) : List UInt16 := data.take (360 * i)

/-- How many blocks there are. -/
def blocks (data : List UInt16) : ℕ := (data.length + 359) / 360

/-- The first sum at the end of block i, when it began as the residue of the words before. -/
def blockSum1 (data : List UInt16) (i : ℕ) : ℕ :=
  residue 0xffff (sum1 (front data i)) + total (block data i)

/-- The first sum at the beginning of block i. -/
def start1 (data : List UInt16) (i : ℕ) : ℕ :=
  residue 0xffff (sum1 (front data i)) + if Carried 0xffff (blockSum1 data) i then 0xffff else 0

/-- The second sum at the end of block i, when it began as the residue. -/
def blockSum2 (data : List UInt16) (i : ℕ) : ℕ :=
  residue 0xffff (sum2 (front data i)) + prefixSums (start1 data i) (block data i)

/-- The accumulators after i blocks. -/
def state (data : List UInt16) : ℕ → UInt32 × UInt32
  | 0 => (0xffff, 0xffff)
  | i + 1 =>
    let sums := addWords (block data i) (state data i).1 (state data i).2
    (foldSum sums.1, foldSum sums.2)

end Sums

variable {data rest : List UInt16} {w : UInt16} {a b i : ℕ} {s1 s2 s : UInt32}

section Prefixes

@[simp] theorem total_nil : total [] = 0 := rfl

@[simp] theorem total_cons : total (w :: data) = w.toNat + total data := List.sum_cons

@[simp] theorem prefixSums_nil : prefixSums a [] = 0 := rfl

theorem prefixSums_cons :
    prefixSums a (w :: data) = a + w.toNat + prefixSums (a + w.toNat) data := by
  cases data with
  | nil => simp [prefixSums]
  | cons v data =>
    simp [prefixSums, Function.comp_def, Nat.add_assoc]

theorem total_append : total (data ++ rest) = total data + total rest := by simp [total]

theorem prefixSums_append :
    prefixSums a (data ++ rest) = prefixSums a data + prefixSums (a + total data) rest := by
  induction data generalizing a with
  | nil => simp
  | cons w data ih =>
    rw [List.cons_append, prefixSums_cons, prefixSums_cons, ih, total_cons,
      ← Nat.add_assoc a w.toNat (total data)]
    omega

/-- The prefix sums depend on the residue of the start only. -/
theorem prefixSums_congr {M : ℕ} (h : a ≡ b [MOD M]) :
    prefixSums a data ≡ prefixSums b data [MOD M] := by
  induction data generalizing a b with
  | nil => rfl
  | cons w data ih =>
    rw [prefixSums_cons, prefixSums_cons]
    have hw : a + w.toNat ≡ b + w.toNat [MOD M] := h.add_right _
    exact hw.add (ih hw)

theorem total_le (data : List UInt16) : total data ≤ 0xffff * data.length := by
  induction data with
  | nil => simp
  | cons w data ih =>
    have hw := w.toNat_lt
    rw [total_cons, List.length_cons]
    omega

theorem prefixSums_le :
    2 * prefixSums a data ≤ data.length * (2 * a + 0xffff * (data.length + 1)) := by
  induction data generalizing a with
  | nil => simp
  | cons w data ih =>
    have hw : w.toNat ≤ 0xffff := by
      have := w.toNat_lt
      omega
    rw [prefixSums_cons, List.length_cons]
    calc 2 * (a + w.toNat + prefixSums (a + w.toNat) data)
        = 2 * (a + w.toNat) + 2 * prefixSums (a + w.toNat) data := by ring
      _ ≤ 2 * (a + w.toNat) +
          data.length * (2 * (a + w.toNat) + 0xffff * (data.length + 1)) :=
            Nat.add_le_add_left ih _
      _ = (data.length + 1) * (2 * (a + w.toNat) + 0xffff * data.length) := by ring
      _ ≤ (data.length + 1) * (2 * (a + 0xffff) + 0xffff * data.length) := by gcongr
      _ = (data.length + 1) * (2 * a + 0xffff * (data.length + 1 + 1)) := by ring

end Prefixes

section Machine

/-- As long as the sums fit, the inner loop computes them. -/
theorem addWords_spec (data : List UInt16) (s1 s2 : UInt32) (h1 : s1.toNat + total data < 2 ^ 32)
    (h2 : s2.toNat + prefixSums s1.toNat data < 2 ^ 32) :
    (addWords data s1 s2).1.toNat = s1.toNat + total data ∧
      (addWords data s1 s2).2.toNat = s2.toNat + prefixSums s1.toNat data ∧
        ∀ x ∈ wordAdditions data s1 s2, x < 2 ^ 32 := by
  induction data generalizing s1 s2 with
  | nil => simp [addWords, wordAdditions]
  | cons w data ih =>
    rw [total_cons] at h1 ⊢
    rw [prefixSums_cons] at h2 ⊢
    have hnext1 : (s1 + w.toUInt32).toNat = s1.toNat + w.toNat := by
      rw [UInt32.toNat_add, UInt16.toNat_toUInt32, Nat.mod_eq_of_lt (by omega)]
    have hnext2 : (s2 + (s1 + w.toUInt32)).toNat = s2.toNat + (s1.toNat + w.toNat) := by
      rw [UInt32.toNat_add, hnext1, Nat.mod_eq_of_lt (by omega)]
    obtain ⟨hsum1, hsum2, hadd⟩ := ih (s1 + w.toUInt32) (s2 + (s1 + w.toUInt32))
      (by omega) (by rw [hnext1, hnext2]; omega)
    simp only [addWords, wordAdditions, List.mem_cons]
    refine ⟨by omega, by rw [hsum2, hnext1, hnext2]; omega, ?_⟩
    rintro x (rfl | rfl | hx)
    · omega
    · rw [hnext1]
      omega
    · exact hadd x hx

theorem foldSum_spec : (foldSum s).toNat = fold 0xffff s.toNat ∧ foldAddition s < 2 ^ 32 := by
  have hlow : (s &&& (0xffff : UInt32)).toNat = s.toNat % 65536 := by
    rw [UInt32.toNat_and]
    exact Nat.and_two_pow_sub_one_eq_mod s.toNat 16
  have hhigh : (s >>> (16 : UInt32)).toNat = s.toNat / 65536 := by
    rw [UInt32.toNat_shiftRight]
    exact Nat.shiftRight_eq_div_pow s.toNat 16
  have hs := s.toNat_lt
  unfold foldSum foldAddition
  rw [UInt32.toNat_add, hlow, hhigh, fold]
  omega

/-- Between blocks the sums are small enough for the next 360 words. -/
structure Small (s1 s2 : UInt32) : Prop where
  sum1 : s1.toNat ≤ 65895
  sum2 : s2.toNat ≤ 131070

theorem Small.room (h : Small s1 s2) (data : List UInt16) (hlen : data.length ≤ 360) :
    s1.toNat + total data ≤ 65895 + 0xffff * 360 ∧
      s2.toNat + prefixSums s1.toNat data < 2 ^ 32 := by
  have h1 := h.sum1
  have h2 := h.sum2
  have htotal := total_le data
  have hprefix : 2 * prefixSums s1.toNat data ≤ 360 * (2 * 65895 + 0xffff * (360 + 1)) :=
    calc 2 * prefixSums s1.toNat data
        ≤ data.length * (2 * s1.toNat + 0xffff * (data.length + 1)) := prefixSums_le
      _ ≤ 360 * (2 * 65895 + 0xffff * (360 + 1)) := by gcongr
  omega

theorem Small.fold (h : Small s1 s2) (hlen : data.length ≤ 360) :
    Small (foldSum (addWords data s1 s2).1) (foldSum (addWords data s1 s2).2) := by
  obtain ⟨hroom1, hroom2⟩ := h.room data hlen
  obtain ⟨hsum1, hsum2, -⟩ := addWords_spec data s1 s2 (by omega) hroom2
  constructor
  · rw [foldSum_spec.1, FoldedSums.fold]
    omega
  · rw [foldSum_spec.1, FoldedSums.fold]
    omega

theorem block_length_le (data : List UInt16) (i : ℕ) :
    (block data i).length ≤ 360 := List.length_take_le _ _

theorem state_small (data : List UInt16) (i : ℕ) : Small (state data i).1 (state data i).2 := by
  induction i with
  | zero => exact ⟨by simp [state], by simp [state]⟩
  | succ i ih => exact ih.fold (block_length_le data i)

/-- What is left of the data when there is another block. -/
theorem next_block (hi : 360 * i < data.length) :
    0 < (data.drop (360 * i)).length ∧
      (data.drop (360 * i)).take
          (if 360 < (data.drop (360 * i)).length then 360 else (data.drop (360 * i)).length) =
        block data i ∧
      (data.drop (360 * i)).drop
          (if 360 < (data.drop (360 * i)).length then 360 else (data.drop (360 * i)).length) =
        data.drop (360 * (i + 1)) := by
  have hlen : (data.drop (360 * i)).length = data.length - 360 * i := List.length_drop
  refine ⟨by omega, ?_, ?_⟩
  · split
    · rfl
    · rw [List.take_length, block, List.take_of_length_le (by omega)]
  · split
    · rw [List.drop_drop, Nat.mul_add]
    · rw [List.drop_length, List.drop_of_length_le (by omega)]

/-- The outer loop goes through the states, and no addition overflows. -/
theorem addBlocks_spec (hi : i ≤ blocks data) :
    addBlocks (data.drop (360 * i)) (state data i).1 (state data i).2 = state data (blocks data) ∧
      ∀ x ∈ additions (data.drop (360 * i)) (state data i).1 (state data i).2, x < 2 ^ 32 := by
  induction hk : blocks data - i generalizing i with
  | zero =>
    have hend : i = blocks data := by omega
    have hlen : (data.drop (360 * i)).length = 0 := by
      rw [List.length_drop, hend, blocks]
      omega
    rw [addBlocks, additions, if_neg (by omega), if_neg (by omega), hend]
    exact ⟨rfl, fun x hx => absurd hx List.not_mem_nil⟩
  | succ k ih =>
    have hlt : 360 * i < data.length := by
      unfold blocks at hk
      omega
    obtain ⟨hpos, htake, hdrop⟩ := next_block hlt
    obtain ⟨hrun, hadd⟩ := ih (i := i + 1) (by omega) (by omega)
    rw [addBlocks, additions, if_pos hpos, if_pos hpos]
    simp only [htake, hdrop]
    refine ⟨hrun, fun x hx => ?_⟩
    simp only [List.mem_append, List.mem_cons, List.not_mem_nil, or_false] at hx
    rcases hx with (hx | rfl | rfl) | hx
    · have hroom := (state_small data i).room (block data i) (block_length_le data i)
      exact (addWords_spec _ _ _ (by omega) hroom.2).2.2 x hx
    · exact foldSum_spec.2
    · exact foldSum_spec.2
    · exact hadd x hx

end Machine

section Residues

theorem front_succ : front data (i + 1) = front data i ++ block data i := by
  rw [front, front, block, Nat.mul_add, List.take_add]

theorem sum1_front_succ :
    sum1 (front data (i + 1)) = sum1 (front data i) + total (block data i) := by
  rw [sum1, sum1, front_succ, total_append]
  omega

theorem sum2_front_succ :
    sum2 (front data (i + 1)) =
      sum2 (front data i) + prefixSums (sum1 (front data i)) (block data i) := by
  rw [sum2, sum2, front_succ, prefixSums_append, sum1]
  omega

theorem sum1_pos (data : List UInt16) : 0 < sum1 data := by
  unfold sum1
  omega

theorem sum2_pos (data : List UInt16) : 0 < sum2 data := by
  unfold sum2
  omega

/-- One block: each sum grows by what the block adds to it, and is folded. -/
theorem state_succ :
    (state data (i + 1)).1.toNat =
        fold 0xffff ((state data i).1.toNat + total (block data i)) ∧
      (state data (i + 1)).2.toNat =
        fold 0xffff ((state data i).2.toNat +
          prefixSums (state data i).1.toNat (block data i)) ∧
      (state data i).1.toNat + total (block data i) < (0xffff + 1) * (0xffff + 1) ∧
      (state data i).2.toNat + prefixSums (state data i).1.toNat (block data i) <
        (0xffff + 1) * (0xffff + 1) := by
  have hroom := (state_small data i).room (block data i) (block_length_le data i)
  obtain ⟨hsum1, hsum2, -⟩ := addWords_spec (block data i) (state data i).1 (state data i).2
    (by omega) hroom.2
  refine ⟨?_, ?_, by omega, by omega⟩
  · rw [state, foldSum_spec.1, hsum1]
  · rw [state, foldSum_spec.1, hsum2]

/-- The first sum between two blocks: it is the residue, and 65535 more when a 17th bit is left. -/
theorem state_sum1 : (state data i).1.toNat = start1 data i := by
  have hres : ∀ i, residue 0xffff (sum1 (front data (i + 1))) =
      residue 0xffff (residue 0xffff (sum1 (front data i)) + total (block data i)) := by
    intro i
    apply residue_congr (by decide) (sum1_pos _) (Nat.add_pos_left residue_pos _)
    rw [sum1_front_succ]
    exact (residue_modEq (sum1_pos _)).symm.add_right _
  exact folded_eq (a := fun i => (state data i).1.toNat)
    (r := fun i => residue 0xffff (sum1 (front data i))) (b := fun i => total (block data i))
    (by decide) (by simp [state, front, residue, sum1]) (fun _ => residue_pos)
    (fun _ _ => state_succ.1) (fun i _ => hres i) (fun _ _ => state_succ.2.2.1) (le_refl i)

theorem state_sum2 :
    (state data i).2.toNat = residue 0xffff (sum2 (front data i)) +
      if Carried 0xffff (blockSum2 data) i then 0xffff else 0 := by
  have hstart : ∀ i, start1 data i ≡ sum1 (front data i) [MOD 0xffff] := by
    intro i
    have hmod := residue_modEq (M := 0xffff) (sum1_pos (front data i))
    unfold start1
    split
    · exact Nat.add_modEq_right.trans hmod
    · exact hmod
  have hres : ∀ i, residue 0xffff (sum2 (front data (i + 1))) =
      residue 0xffff (residue 0xffff (sum2 (front data i)) +
        prefixSums (start1 data i) (block data i)) := by
    intro i
    apply residue_congr (by decide) (sum2_pos _) (Nat.add_pos_left residue_pos _)
    rw [sum2_front_succ]
    exact (residue_modEq (sum2_pos _)).symm.add (prefixSums_congr (hstart i).symm)
  exact folded_eq (a := fun i => (state data i).2.toNat)
    (r := fun i => residue 0xffff (sum2 (front data i)))
    (b := fun i => prefixSums (start1 data i) (block data i))
    (by decide) (by simp [state, front, residue, sum2]) (fun _ => residue_pos)
    (fun _ _ => state_sum1 ▸ state_succ.2.1) (fun i _ => hres i)
    (fun _ _ => state_sum1 ▸ state_succ.2.2.2) (le_refl i)

end Residues

section Halves

theorem front_blocks : front data (blocks data) = data := by
  apply List.take_of_length_le
  unfold blocks
  omega

/-- The two halves of the value: the upper half gets the 17th bit of the first sum. -/
theorem halves (s1 s2 : UInt32) :
    ((s2 <<< (16 : UInt32)) ||| s1).toNat % 65536 = s1.toNat % 65536 ∧
      ((s2 <<< (16 : UInt32)) ||| s1).toNat / 65536 =
        s2.toNat % 65536 ||| s1.toNat / 65536 := by
  have hs2 := s2.toNat_lt
  have hshift : (s2 <<< (16 : UInt32)).toNat = s2.toNat % 65536 * 65536 := by
    have hval : s2.toNat <<< ((16 : UInt32).toNat % 32) = s2.toNat * 65536 :=
      Nat.shiftLeft_eq s2.toNat 16
    rw [UInt32.toNat_shiftLeft, hval]
    omega
  rw [UInt32.toNat_or, hshift]
  constructor
  · calc (s2.toNat % 65536 * 65536 ||| s1.toNat) % 2 ^ 16
        = s2.toNat % 65536 * 65536 % 2 ^ 16 ||| s1.toNat % 2 ^ 16 := Nat.or_mod_two_pow
      _ = s1.toNat % 65536 := by rw [Nat.mul_mod_left, Nat.zero_or]
  · calc (s2.toNat % 65536 * 65536 ||| s1.toNat) / 2 ^ 16
        = s2.toNat % 65536 * 65536 / 2 ^ 16 ||| s1.toNat / 2 ^ 16 := Nat.or_div_two_pow
      _ = s2.toNat % 65536 ||| s1.toNat / 65536 := by rw [Nat.mul_div_cancel _ (by decide)]

/-- The low 16 bits of a sum have its residue if and only if there is no 17th bit. -/
theorem low_modEq_iff {c : Prop} [Decidable c] {r x : ℕ} (hpos : 0 < r) (hle : r ≤ 0xffff)
    (hx : r ≡ x [MOD 0xffff]) :
    (r + if c then 0xffff else 0) % 65536 ≡ x [MOD 0xffff] ↔ ¬ c := by
  have hiff : (r + if c then 0xffff else 0) % 65536 ≡ r [MOD 0xffff] ↔ ¬ c := by
    unfold Nat.ModEq
    split
    next hc =>
      refine iff_of_false ?_ (not_not.mpr hc)
      omega
    next hc =>
      refine iff_of_true ?_ hc
      omega
  exact ⟨fun h => hiff.mp (h.trans hx.symm), fun h => (hiff.mpr h).trans hx⟩

end Halves

/-- No addition overflows, and the halves of the value have the residues of the two sums. -/
def Correct (data : List UInt16) : Prop :=
  (∀ x ∈ additions data 0xffff 0xffff, x < 2 ^ 32) ∧
    (fletcher32 data).toNat % 65536 ≡ sum1 data [MOD 65535] ∧
    (fletcher32 data).toNat / 65536 ≡ sum2 data [MOD 65535]

theorem additions_lt (data : List UInt16) : ∀ x ∈ additions data 0xffff 0xffff, x < 2 ^ 32 :=
  (addBlocks_spec (Nat.zero_le (blocks data))).2

theorem fletcher32_eq (data : List UInt16) :
    fletcher32 data =
      ((state data (blocks data)).2 <<< (16 : UInt32)) ||| (state data (blocks data)).1 := by
  have hrun : addBlocks data 0xffff 0xffff = state data (blocks data) :=
    (addBlocks_spec (Nat.zero_le (blocks data))).1
  rw [fletcher32, hrun]

/-- The value is right if and only if neither sum is left with a 17th bit after the last block. -/
theorem fletcher32_correct_iff (data : List UInt16) :
    Correct data ↔
      ¬ Carried 0xffff (blockSum1 data) (blocks data) ∧
        ¬ Carried 0xffff (blockSum2 data) (blocks data) := by
  have hfront1 : residue 0xffff (sum1 (front data (blocks data))) ≡ sum1 data [MOD 0xffff] := by
    rw [front_blocks]
    exact residue_modEq (sum1_pos data)
  have hfront2 : residue 0xffff (sum2 (front data (blocks data))) ≡ sum2 data [MOD 0xffff] := by
    rw [front_blocks]
    exact residue_modEq (sum2_pos data)
  obtain ⟨hlow, hhigh⟩ := halves (state data (blocks data)).1 (state data (blocks data)).2
  have hhalf1 : (fletcher32 data).toNat % 65536 ≡ sum1 data [MOD 65535] ↔
      ¬ Carried 0xffff (blockSum1 data) (blocks data) := by
    rw [fletcher32_eq, hlow, state_sum1, start1]
    exact low_modEq_iff residue_pos (residue_le (by decide)) hfront1
  have hhalf2 : ¬ Carried 0xffff (blockSum1 data) (blocks data) →
      ((fletcher32 data).toNat / 65536 ≡ sum2 data [MOD 65535] ↔
        ¬ Carried 0xffff (blockSum2 data) (blocks data)) := by
    intro hcarried
    have hle : residue 0xffff (sum1 (front data (blocks data))) ≤ 0xffff := residue_le (by decide)
    have hzero : (state data (blocks data)).1.toNat / 65536 = 0 := by
      rw [state_sum1, start1, if_neg hcarried]
      omega
    rw [fletcher32_eq, hhigh, hzero, Nat.or_zero, state_sum2]
    exact low_modEq_iff residue_pos (residue_le (by decide)) hfront2
  constructor
  · rintro ⟨-, h1, h2⟩
    have hcarried := hhalf1.mp h1
    exact ⟨hcarried, (hhalf2 hcarried).mp h2⟩
  · rintro ⟨h1, h2⟩
    exact ⟨additions_lt data, hhalf1.mpr h1, (hhalf2 h1).mpr h2⟩

/-- The words 0xffff and 1: the value is 0x10000, whose low half should be 1 modulo 65535. -/
theorem not_correct_two : ¬ ∀ data : List UInt16, Correct data := by
  intro h
  have hlow := (h [0xffff, 1]).2.1
  rw [fletcher32_eq] at hlow
  revert hlow
  decide

end NorthOS.Fletcher
