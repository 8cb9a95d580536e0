import Mathlib.Algebra.Order.Ring.Int
import Mathlib.Data.Option.Basic
import Mathlib.Data.List.Basic
import Mathlib.Data.List.GetD
import Mathlib.Logic.Function.Basic
import Mathlib.Tactic.Common

/-!
Strings of C in arrays. An array of n cells is the function of its cells, and every access is
checked against n, so that `none` is an access out of bounds. The string in an array ends at
the first 0.
-/
namespace NorthOS.CString

/-- The content of an array, whatever lies behind its last cell. -/
abbrev Cells := ℕ → ℤ

variable {n m i j k len : ℕ} {a b : Cells} {l : List ℤ} {c : ℤ}

def load (n i : ℕ) (a : Cells) : Option ℤ := if i < n then some (a i) else none

def store (n i : ℕ) (c : ℤ) (a : Cells) : Option Cells :=
  if i < n then some (Function.update a i c) else none

/-- `a[i] = a[j]` -/
def assign (n i j : ℕ) (a : Cells) : Option Cells := (load n j a).bind fun c => store n i c a

/-- The first 0 from cell i on, among at most k cells. -/
def scan (n : ℕ) (a : Cells) : ℕ → ℕ → Option ℕ
  | 0, _ => none
  | k + 1, i => (load n i a).bind fun c => if c = 0 then some i else scan n a k (i + 1)

def strlen (n : ℕ) (a : Cells) : Option ℕ := scan n a n 0

/-- Copies from cell j of the one array to cell i of the other, to the first 0. -/
def copyFrom (n m : ℕ) (b : Cells) : ℕ → ℕ → ℕ → Cells → Option Cells
  | 0, _, _, _ => none
  | k + 1, i, j, a => (load m j b).bind fun c => (store n i c a).bind fun a =>
      if c = 0 then some a else copyFrom n m b k (i + 1) (j + 1) a

/-- `strcpy(a + i, b + j)` -/
def strcpy (n i : ℕ) (a : Cells) (m j : ℕ) (b : Cells) : Option Cells := copyFrom n m b m i j a

/-- Copies k cells from cell i on to the same cells of the other array. -/
def copyCells (n m : ℕ) (b : Cells) : ℕ → ℕ → Cells → Option Cells
  | 0, _, a => some a
  | k + 1, i, a => (load m i b).bind fun c => (store n i c a).bind (copyCells n m b k (i + 1))

/-- `memmove(a, b, len)`, which copies nothing where the length is negative. -/
def memmove (n : ℕ) (a : Cells) (m : ℕ) (b : Cells) (len : ℤ) : Option Cells :=
  copyCells n m b len.toNat 0 a

/-- Moves k cells from i on up by one, the last of them first. -/
def shiftUp (n i : ℕ) : ℕ → Cells → Option Cells
  | 0, a => some a
  | k + 1, a => (assign n (i + k + 1) (i + k) a).bind (shiftUp n i k)

/-- Moves the k cells behind i down by one, the first of them first. -/
def shiftDown (n : ℕ) : ℕ → ℕ → Cells → Option Cells
  | 0, _, a => some a
  | k + 1, i, a => (assign n i (i + 1) a).bind (shiftDown n k (i + 1))

/-- The string in the array: its cells are those of the list and then 0. -/
structure Holds (n : ℕ) (a : Cells) (l : List ℤ) : Prop where
  room : l.length < n
  nonzero : 0 ∉ l
  cells : ∀ i ≤ l.length, a i = l.getD i 0

section Loops

theorem load_eq (hi : i < n) : load n i a = some (a i) := if_pos hi

theorem store_eq (hi : i < n) : store n i c a = some (Function.update a i c) := if_pos hi

theorem assign_eq (hi : i < n) (hj : j < n) :
    assign n i j a = some (Function.update a i (a j)) := by
  rw [assign, load_eq hj]
  exact store_eq hi

theorem scan_eq (hlen : len < n) (hzero : a len = 0) (hi : i ≤ len) (hk : len < i + k)
    (hnonzero : ∀ j, i ≤ j → j < len → a j ≠ 0) : scan n a k i = some len := by
  induction k generalizing i with
  | zero => omega
  | succ k ih =>
    rw [scan, load_eq (by omega), Option.bind_some]
    rcases hi.eq_or_lt with rfl | hlt
    · exact if_pos hzero
    · rw [if_neg (hnonzero i le_rfl hlt)]
      exact ih hlt (by omega) fun j hj => hnonzero j (by omega)

theorem shiftUp_eq (hk : i + k < n) :
    shiftUp n i k a = some fun j => if i < j ∧ j ≤ i + k then a (j - 1) else a j := by
  induction k generalizing a with
  | zero =>
    refine congrArg some (funext fun j => ?_)
    rw [if_neg (by omega)]
  | succ k ih =>
    rw [shiftUp, assign_eq (by omega) (by omega), Option.bind_some, ih (by omega)]
    refine congrArg some (funext fun j => ?_)
    by_cases hlast : j = i + k + 1
    · subst hlast
      rw [if_neg (by omega), if_pos (by omega), Function.update_self]
      rfl
    · rw [Function.update_of_ne hlast]
      by_cases hmoved : i < j ∧ j ≤ i + k
      · rw [if_pos hmoved, if_pos (by omega), Function.update_of_ne (by omega)]
      · rw [if_neg hmoved, if_neg (by omega)]

theorem shiftDown_eq (hk : i + k < n) :
    shiftDown n k i a = some fun j => if i ≤ j ∧ j < i + k then a (j + 1) else a j := by
  induction k generalizing i a with
  | zero =>
    refine congrArg some (funext fun j => ?_)
    rw [if_neg (by omega)]
  | succ k ih =>
    rw [shiftDown, assign_eq (by omega) (by omega), Option.bind_some, ih (by omega)]
    refine congrArg some (funext fun j => ?_)
    by_cases hfirst : j = i
    · subst hfirst
      rw [if_neg (by omega), if_pos (by omega), Function.update_self]
    · by_cases hmoved : i ≤ j ∧ j < i + (k + 1)
      · rw [if_pos (by omega), if_pos hmoved, Function.update_of_ne (by omega)]
      · rw [if_neg (by omega), if_neg hmoved, Function.update_of_ne hfirst]

theorem copyCells_eq (hn : i + k ≤ n) (hm : i + k ≤ m) :
    copyCells n m b k i a = some fun j => if i ≤ j ∧ j < i + k then b j else a j := by
  induction k generalizing i a with
  | zero =>
    refine congrArg some (funext fun j => ?_)
    rw [if_neg (by omega)]
  | succ k ih =>
    rw [copyCells, load_eq (by omega), Option.bind_some, store_eq (by omega), Option.bind_some,
      ih (by omega) (by omega)]
    refine congrArg some (funext fun j => ?_)
    by_cases hfirst : j = i
    · subst hfirst
      rw [if_neg (by omega), if_pos (by omega), Function.update_self]
    · rw [Function.update_of_ne hfirst]
      by_cases hcopied : i ≤ j ∧ j < i + (k + 1)
      · rw [if_pos (by omega), if_pos hcopied]
      · rw [if_neg (by omega), if_neg hcopied]

end Loops

section Strings

theorem Holds.zero (h : Holds n a l) : a l.length = 0 := by
  rw [h.cells _ le_rfl, List.getD_eq_default _ _ le_rfl]

theorem Holds.cell (h : Holds n a l) (hi : i < l.length) : a i = l[i] := by
  rw [h.cells i hi.le, List.getD_eq_getElem _ _ hi]

theorem Holds.cell_nonzero (h : Holds n a l) (hi : i < l.length) : a i ≠ 0 := by
  rw [h.cell hi]
  exact fun hzero => h.nonzero (hzero ▸ List.getElem_mem hi)

theorem Holds.cell_mem {u w v : List ℤ} (h : Holds n a (u ++ (w ++ v))) (hi : u.length ≤ i)
    (hi' : i < u.length + w.length) : a i ∈ w := by
  have hlen : u.length + w.length ≤ (u ++ (w ++ v)).length := by
    simp only [List.length_append]
    omega
  rw [h.cells i (by omega), List.getD_append_right _ _ _ _ hi, List.getD_append _ _ _ _ (by omega),
    List.getD_eq_getElem _ _ (by omega)]
  exact List.getElem_mem _

theorem Holds.cell_between {u v : List ℤ} (h : Holds n a (u ++ c :: v)) : a u.length = c := by
  have hmem : a u.length ∈ [c] := Holds.cell_mem (w := [c]) (v := v) h le_rfl (Nat.lt_succ_self _)
  exact List.mem_singleton.mp hmem

theorem Holds.strlen (h : Holds n a l) : strlen n a = some l.length :=
  scan_eq h.room h.zero (Nat.zero_le _) (by have := h.room; omega) fun _ _ hj => h.cell_nonzero hj

/-- An array holds at most one string. -/
theorem Holds.unique {l' : List ℤ} (h : Holds n a l) (h' : Holds n a l') : l = l' := by
  have hlen : l.length = l'.length := Option.some_injective _ (h.strlen.symm.trans h'.strlen)
  refine List.ext_getElem hlen fun i hi hi' => ?_
  rw [← h.cell hi, h'.cell hi']

theorem holds_nil (hn : 0 < n) (hzero : a 0 = 0) : Holds n a [] where
  room := hn
  nonzero := List.not_mem_nil
  cells := by
    intro i hi
    obtain rfl := Nat.le_zero.mp hi
    exact hzero

/-- A character is put into a string that has room for it. -/
theorem Holds.insert {u v : List ℤ} (h : Holds n a (u ++ v)) (hroom : (u ++ v).length + 1 < n)
    (hc : c ≠ 0) :
    ∃ b, (shiftUp n u.length ((u ++ v).length + 1 - u.length) a).bind (store n u.length c) =
      some b ∧ Holds n b (u ++ c :: v) := by
  have hlen : (u ++ c :: v).length = (u ++ v).length + 1 := by
    simp only [List.length_append, List.length_cons, Nat.add_assoc]
  have hu : u.length ≤ (u ++ v).length := by
    rw [List.length_append]
    exact Nat.le_add_right _ _
  rw [shiftUp_eq (by omega), Option.bind_some, store_eq (by omega)]
  refine ⟨_, rfl, hlen ▸ hroom, ?_, ?_⟩
  · have hold := h.nonzero
    rw [List.mem_append, not_or] at hold
    rw [List.mem_append, List.mem_cons, not_or, not_or]
    exact ⟨hold.1, hc.symm, hold.2⟩
  · intro j hj
    rw [hlen] at hj
    rcases lt_trichotomy j u.length with hlt | rfl | hgt
    · rw [Function.update_of_ne hlt.ne, if_neg (by omega), h.cells j (by omega),
        List.getD_append _ _ _ _ hlt, List.getD_append _ _ _ _ hlt]
    · rw [Function.update_self, List.getD_append_right _ _ _ _ le_rfl, Nat.sub_self]
      rfl
    · rw [Function.update_of_ne hgt.ne', if_pos (by omega), h.cells (j - 1) (by omega),
        List.getD_append_right _ _ _ _ (by omega), List.getD_append_right _ _ _ _ hgt.le]
      have hbehind : j - u.length = j - 1 - u.length + 1 := by omega
      rw [hbehind]
      rfl

/-- A character is taken out of a string. -/
theorem Holds.erase {u v : List ℤ} (h : Holds n a (u ++ c :: v)) :
    ∃ b, shiftDown n ((u ++ c :: v).length - u.length) u.length a = some b ∧
      Holds n b (u ++ v) := by
  have hlen : (u ++ c :: v).length = (u ++ v).length + 1 := by
    simp only [List.length_append, List.length_cons, Nat.add_assoc]
  have hu : u.length ≤ (u ++ v).length := by
    rw [List.length_append]
    exact Nat.le_add_right _ _
  have hroom := h.room
  rw [shiftDown_eq (by omega)]
  refine ⟨_, rfl, by omega, ?_, ?_⟩
  · have hold := h.nonzero
    rw [List.mem_append, List.mem_cons, not_or, not_or] at hold
    rw [List.mem_append, not_or]
    exact ⟨hold.1, hold.2.2⟩
  · intro j hj
    by_cases hlt : j < u.length
    · rw [if_neg (by omega), h.cells j (by omega), List.getD_append _ _ _ _ hlt,
        List.getD_append _ _ _ _ hlt]
    · have hbehind : j + 1 - u.length = j - u.length + 1 := by omega
      rw [if_pos (by omega), h.cells (j + 1) (by omega),
        List.getD_append_right _ _ _ _ (by omega), List.getD_append_right _ _ _ _ (by omega),
        hbehind]
      rfl

theorem copyFrom_eq (hlen : len < m) (hzero : b len = 0) (hj : j ≤ len) (hk : len < j + k)
    (hnonzero : ∀ p, j ≤ p → p < len → b p ≠ 0) :
    copyFrom n m b k i j a =
      if i + (len - j) < n then
        some fun p => if i ≤ p ∧ p ≤ i + (len - j) then b (j + (p - i)) else a p
      else none := by
  induction k generalizing i j a with
  | zero => omega
  | succ k ih =>
    rw [copyFrom, load_eq (by omega), Option.bind_some]
    by_cases hi : i < n
    swap
    · rw [if_neg (by omega), store, if_neg hi]
      rfl
    rw [store_eq hi, Option.bind_some]
    rcases hj.eq_or_lt with rfl | hlt
    · rw [if_pos hzero, if_pos (by omega)]
      refine congrArg some (funext fun p => ?_)
      by_cases hp : p = i
      · subst hp
        rw [Function.update_self, if_pos (by omega), Nat.sub_self, Nat.add_zero]
      · rw [Function.update_of_ne hp, if_neg (by omega)]
    · rw [if_neg (hnonzero j le_rfl hlt), ih hlt (by omega) fun p hp => hnonzero p (by omega)]
      have hlast : i + 1 + (len - (j + 1)) = i + (len - j) := by omega
      rw [hlast]
      by_cases hroom : i + (len - j) < n
      swap
      · rw [if_neg hroom, if_neg hroom]
      rw [if_pos hroom, if_pos hroom]
      refine congrArg some (funext fun p => ?_)
      by_cases hp : p = i
      · subst hp
        rw [if_neg (by omega), if_pos (by omega), Function.update_self, Nat.sub_self, Nat.add_zero]
      · rw [Function.update_of_ne hp]
        by_cases hcopied : i ≤ p ∧ p ≤ i + (len - j)
        · rw [if_pos (by omega), if_pos hcopied]
          exact congrArg b (by omega)
        · rw [if_neg (by omega), if_neg hcopied]

/-- The array begins with these characters. -/
def Begins (a : Cells) (u : List ℤ) : Prop := ∀ i < u.length, a i = u.getD i 0

theorem Holds.begins {u v : List ℤ} (h : Holds n a (u ++ v)) : Begins a u := by
  intro i hi
  rw [h.cells i (by rw [List.length_append]; omega), List.getD_append _ _ _ _ hi]

theorem Begins.update {u : List ℤ} (h : Begins a u) :
    Begins (Function.update a u.length c) (u ++ [c]) := by
  intro i hi
  rw [List.length_append, List.length_singleton] at hi
  by_cases hlast : i = u.length
  · subst hlast
    rw [Function.update_self, List.getD_append_right _ _ _ _ le_rfl, Nat.sub_self]
    rfl
  · rw [Function.update_of_ne hlast, h i (by omega), List.getD_append _ _ _ _ (by omega)]

/-- The rest of a string is copied behind the beginning of an array, if there is room. -/
theorem Holds.strcpy {u v w : List ℤ} (hb : Holds m b (v ++ w)) (ha : Begins a u) (hu : 0 ∉ u)
    (hroom : u.length + w.length < n) :
    ∃ c, strcpy n u.length a m v.length b = some c ∧ Holds n c (u ++ w) := by
  have hlen : (v ++ w).length - v.length = w.length := by
    rw [List.length_append, Nat.add_sub_cancel_left]
  have hv : v.length ≤ (v ++ w).length := List.length_append ▸ Nat.le_add_right _ _
  unfold CString.strcpy
  rw [copyFrom_eq hb.room hb.zero hv (by have := hb.room; omega) fun p _ hp => hb.cell_nonzero hp,
    hlen, if_pos hroom]
  refine ⟨_, rfl, List.length_append ▸ hroom, ?_, ?_⟩
  · have hold := hb.nonzero
    rw [List.mem_append, not_or] at hold ⊢
    exact ⟨hu, hold.2⟩
  · intro i hi
    rw [List.length_append] at hi
    by_cases hbegun : i < u.length
    · rw [if_neg (by omega), ha i hbegun, List.getD_append _ _ _ _ hbegun]
    · rw [if_pos (by omega), hb.cells _ (by omega), List.getD_append_right _ _ _ _ (by omega),
        List.getD_append_right _ _ _ _ (by omega), Nat.add_sub_cancel_left]

theorem strcpy_none {v w : List ℤ} (hb : Holds m b (v ++ w)) (hroom : ¬i + w.length < n) :
    strcpy n i a m v.length b = none := by
  have hlen : (v ++ w).length - v.length = w.length := by
    rw [List.length_append, Nat.add_sub_cancel_left]
  have hv : v.length ≤ (v ++ w).length := List.length_append ▸ Nat.le_add_right _ _
  unfold CString.strcpy
  rw [copyFrom_eq hb.room hb.zero hv (by have := hb.room; omega) fun p _ hp => hb.cell_nonzero hp,
    hlen, if_neg hroom]

/-- The rest of a string is copied to the beginning of an array. -/
theorem Holds.strcpy_rest {v w : List ℤ} (hb : Holds m b (v ++ w)) (hroom : w.length < n) :
    ∃ c, CString.strcpy n 0 a m v.length b = some c ∧ Holds n c w :=
  Holds.strcpy (u := []) hb (fun i hi => absurd hi (Nat.not_lt_zero i)) List.not_mem_nil
    ((Nat.zero_add _).symm ▸ hroom)

/-- A whole string is copied behind the beginning of an array. -/
theorem Holds.strcpy_whole {u w : List ℤ} (hb : Holds m b w) (ha : Begins a u) (hu : 0 ∉ u)
    (hroom : u.length + w.length < n) :
    ∃ c, CString.strcpy n u.length a m 0 b = some c ∧ Holds n c (u ++ w) :=
  Holds.strcpy (v := []) hb ha hu hroom

/-- The beginning of a string is copied and ended. -/
theorem Holds.memmove_end {u v : List ℤ} (hb : Holds m b (u ++ v)) (hroom : u.length < n) :
    ∃ c, (CString.memmove n a m b u.length).bind (store n u.length 0) = some c ∧ Holds n c u := by
  have hlen : u.length ≤ (u ++ v).length := List.length_append ▸ Nat.le_add_right _ _
  have hsource := hb.room
  unfold CString.memmove
  rw [Int.toNat_natCast, copyCells_eq (by omega) (by omega), Option.bind_some, store_eq hroom]
  refine ⟨_, rfl, hroom, fun hmem => hb.nonzero (List.mem_append_left _ hmem), fun i hi => ?_⟩
  rcases hi.eq_or_lt with rfl | hlt
  · rw [Function.update_self, List.getD_eq_default _ _ le_rfl]
  · rw [Function.update_of_ne hlt.ne, if_pos (by omega), hb.begins i hlt]

/-- The characters before the first 0, read one after the other. -/
def string (n : ℕ) (a : Cells) : Option (List ℤ) :=
  (strlen n a).map fun len => (List.range len).map a

theorem Holds.string (h : Holds n a l) : string n a = some l := by
  unfold CString.string
  rw [h.strlen, Option.map_some]
  refine congrArg some (List.ext_getElem (by rw [List.length_map, List.length_range]) ?_)
  intro i hi hi'
  rw [List.getElem_map, List.getElem_range, h.cell hi']

end Strings

end NorthOS.CString
