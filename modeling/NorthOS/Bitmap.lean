import NorthOS.LittleEndian

/-!
Bits of a memory of bytes, numbered from the low bit of the first byte.
-/
namespace NorthOS.Bitmap

open LittleEndian

def test (b : Bytes) (i : ℕ) : Bool := (b (i / 8)).toNat.testBit (i % 8)

def set (b : Bytes) (i : ℕ) : Bytes :=
  Function.update b (i / 8) (UInt8.ofNat ((b (i / 8)).toNat ||| 2 ^ (i % 8)))

def clear (b : Bytes) (i : ℕ) : Bytes :=
  Function.update b (i / 8) (UInt8.ofNat ((b (i / 8)).toNat &&& (255 ^^^ 2 ^ (i % 8))))

variable {b : Bytes} {i j : ℕ}

theorem testBit_ofNat (n k : ℕ) (hk : k < 8) : (UInt8.ofNat n).toNat.testBit k = n.testBit k := by
  rw [UInt8.toNat_ofNat', Nat.testBit_mod_two_pow]
  simp [hk]

theorem test_set (b : Bytes) (i j : ℕ) : test (set b i) j = (decide (j = i) || test b j) := by
  have hj : j % 8 < 8 := Nat.mod_lt _ (by omega)
  unfold test set
  by_cases hbyte : j / 8 = i / 8
  · rw [hbyte, Function.update_self, testBit_ofNat _ _ hj, Nat.testBit_or, Nat.testBit_two_pow,
      Bool.or_comm]
    congr 1
    rw [decide_eq_decide]
    omega
  · have hji : j ≠ i := by
      rintro rfl
      exact hbyte rfl
    rw [Function.update_of_ne hbyte]
    simp [hji]

theorem test_clear (b : Bytes) (i j : ℕ) :
    test (clear b i) j = (!decide (j = i) && test b j) := by
  have hj : j % 8 < 8 := Nat.mod_lt _ (by omega)
  unfold test clear
  by_cases hbyte : j / 8 = i / 8
  · have hmask : (255 ^^^ 2 ^ (i % 8)).testBit (j % 8) = !decide (j = i) := by
      rw [Nat.testBit_xor, show 255 = 2 ^ 8 - 1 from rfl, Nat.testBit_two_pow_sub_one,
        Nat.testBit_two_pow, decide_eq_true hj, Bool.true_xor]
      congr 1
      rw [decide_eq_decide]
      omega
    rw [hbyte, Function.update_self, testBit_ofNat _ _ hj, Nat.testBit_and, hmask, Bool.and_comm]
  · have hji : j ≠ i := by
      rintro rfl
      exact hbyte rfl
    rw [Function.update_of_ne hbyte]
    simp [hji]

end NorthOS.Bitmap
