import Mathlib.Algebra.Group.Nat.Defs
import Mathlib.Data.Nat.Notation
import Mathlib.Logic.Function.Basic
import Mathlib.Tactic.Common

/-!
Little-endian numbers inside a memory of bytes: reading back what was written,
and independence of what was written elsewhere.
-/
namespace NorthOS.LittleEndian

abbrev Bytes := ℕ → UInt8

/-- The number in the `len` bytes from offset `o`. -/
def get (b : Bytes) (o : ℕ) : ℕ → ℕ
  | 0 => 0
  | len + 1 => (b o).toNat + 256 * get b (o + 1) len

/-- The memory with `v` in the `len` bytes from offset `o`; digits that do not fit are
dropped. -/
def put (b : Bytes) (o len v : ℕ) : Bytes := fun i =>
  if o ≤ i ∧ i < o + len then UInt8.ofNat (v / 256 ^ (i - o)) else b i

variable {b c : Bytes} {o len v : ℕ}

theorem get_congr (h : ∀ i, o ≤ i → i < o + len → b i = c i) : get b o len = get c o len := by
  induction len generalizing o with
  | zero => rfl
  | succ len ih =>
    rw [get, get, h o (by omega) (by omega), ih fun i hlo hhi => h i (by omega) (by omega)]

theorem get_shift {k : ℕ} : get (fun i => b (o + i)) k len = get b (o + k) len := by
  induction len generalizing k with
  | zero => rfl
  | succ len ih => rw [get, get, ih, Nat.add_assoc]

theorem get_lt (b : Bytes) (o len : ℕ) : get b o len < 256 ^ len := by
  induction len generalizing o with
  | zero => simp [get]
  | succ len ih =>
    have hbyte : (b o).toNat < 256 := UInt8.toNat_lt (b o)
    have hrest := ih (o + 1)
    rw [get, Nat.pow_succ]
    omega

theorem get_zero (h : ∀ i, o ≤ i → i < o + len → b i = 0) : get b o len = 0 := by
  induction len generalizing o with
  | zero => rfl
  | succ len ih =>
    rw [get, h o (by omega) (by omega), ih fun i hlo hhi => h i (by omega) (by omega)]
    rfl

theorem put_other {i : ℕ} (h : i < o ∨ o + len ≤ i) : put b o len v i = b i := by
  unfold put
  rw [if_neg (by omega)]

theorem get_put_other {o' len' : ℕ} (h : o' + len' ≤ o ∨ o + len ≤ o') :
    get (put b o len v) o' len' = get b o' len' := by
  apply get_congr
  intro i hlo hhi
  exact put_other (by omega)

theorem get_put (b : Bytes) (o len v : ℕ) : get (put b o len v) o len = v % 256 ^ len := by
  induction len generalizing o v with
  | zero => simp [get, Nat.mod_one]
  | succ len ih =>
    have hfirst : (put b o (len + 1) v o).toNat = v % 256 := by
      unfold put
      rw [if_pos (by omega)]
      simp
    have hrest : get (put b o (len + 1) v) (o + 1) len =
        get (put b (o + 1) len (v / 256)) (o + 1) len := by
      apply get_congr
      intro i hlo hhi
      unfold put
      rw [if_pos (by omega), if_pos (by omega), Nat.div_div_eq_div_mul, ← Nat.pow_succ',
        show i - o = i - (o + 1) + 1 by omega]
    rw [get, hfirst, hrest, ih, Nat.pow_succ', Nat.mod_mul]

theorem get_put_of_lt (h : v < 256 ^ len) : get (put b o len v) o len = v := by
  rw [get_put, Nat.mod_eq_of_lt h]

/-- The bytes of a number determine it and are determined by it. -/
theorem put_get (b : Bytes) (o len : ℕ) : put b o len (get b o len) = b := by
  funext i
  unfold put
  split
  · rename_i hi
    induction len generalizing o with
    | zero => omega
    | succ len ih =>
      have hbyte : (b o).toNat < 256 := UInt8.toNat_lt (b o)
      by_cases hio : i = o
      · subst hio
        rw [Nat.sub_self, Nat.pow_zero, Nat.div_one, get]
        apply UInt8.toNat_inj.mp
        rw [UInt8.toNat_ofNat']
        omega
      · rw [get, show i - o = i - (o + 1) + 1 by omega, Nat.pow_succ', ← Nat.div_div_eq_div_mul,
          show ((b o).toNat + 256 * get b (o + 1) len) / 256 = get b (o + 1) len by omega]
        exact ih (o + 1) (by omega)
  · rfl

end NorthOS.LittleEndian
