import Mathlib.Algebra.GroupWithZero.Nat
import Mathlib.Data.List.Chain
import Mathlib.Algebra.Order.BigOperators.Group.List
import Mathlib.Tactic.Common

/-!
A stretch of memory divided into blocks, one after the other. A block is free,
or it has been handed out for so many bytes; its first unit is its header. The
division is a list of sizes, so that blocks of one list cannot overlap and
leave no gap: the address of a block is the sum of the sizes before it.
-/
namespace NorthOS.HeapBlocks

/-- The size counts units of eight bytes, the header's unit among them. -/
structure Block where
  size : ℕ
  owner : Option ℕ
deriving DecidableEq, Repr

def total (bs : List Block) : ℕ := (bs.map Block.size).sum

/-- The addresses of the free blocks, in order. -/
def free : ℕ → List Block → List ℕ
  | _, [] => []
  | a, ⟨n, none⟩ :: bs => a :: free (a + n) bs
  | a, ⟨n, some _⟩ :: bs => free (a + n) bs

/-- The blocks handed out: where the bytes begin, and how many were asked for. -/
def handed : ℕ → List Block → List (ℕ × ℕ)
  | _, [] => []
  | a, ⟨n, none⟩ :: bs => handed (a + n) bs
  | a, ⟨n, some k⟩ :: bs => (a + 1, k) :: handed (a + n) bs

/-- The sizes written at the blocks' headers are the sizes of the blocks. -/
def Sized (size : ℕ → ℕ) : ℕ → List Block → Prop
  | _, [] => True
  | a, b :: bs => size a = b.size ∧ Sized size (a + b.size) bs

/-- A block has its header, and room behind it for what was asked. -/
def Block.Roomy (b : Block) : Prop := 0 < b.size ∧ ∀ k ∈ b.owner, k ≤ 8 * (b.size - 1)

/-- Of two blocks that touch, one is handed out. -/
def Coalesced (bs : List Block) : Prop := (bs.map Block.owner).IsChain fun x y => x ≠ none ∨ y ≠ none

variable {a b m n k x : ℕ} {bs cs : List Block} {size size' : ℕ → ℕ} {o : Option ℕ}

@[simp] theorem total_nil : total [] = 0 := rfl

@[simp] theorem total_cons (c : Block) : total (c :: bs) = c.size + total bs := List.sum_cons

@[simp] theorem total_append : total (bs ++ cs) = total bs + total cs := by
  unfold total
  rw [List.map_append, List.sum_append]

theorem free_append : free a (bs ++ cs) = free a bs ++ free (a + total bs) cs := by
  induction bs generalizing a with
  | nil => rfl
  | cons c bs ih =>
    obtain ⟨n, _ | k⟩ := c
    · rw [List.cons_append, free, free, ih, total_cons, Nat.add_assoc, List.cons_append]
    · rw [List.cons_append, free, free, ih, total_cons, Nat.add_assoc]

theorem handed_append : handed a (bs ++ cs) = handed a bs ++ handed (a + total bs) cs := by
  induction bs generalizing a with
  | nil => rfl
  | cons c bs ih =>
    obtain ⟨n, _ | k⟩ := c
    · rw [List.cons_append, handed, handed, ih, total_cons, Nat.add_assoc]
    · rw [List.cons_append, handed, handed, ih, total_cons, Nat.add_assoc, List.cons_append]

theorem sized_append :
    Sized size a (bs ++ cs) ↔ Sized size a bs ∧ Sized size (a + total bs) cs := by
  induction bs generalizing a with
  | nil => simp [Sized]
  | cons c bs ih =>
    rw [List.cons_append, Sized, Sized, ih, total_cons, Nat.add_assoc, and_assoc]

theorem Sized.congr (h : Sized size a bs) (hpos : ∀ c ∈ bs, c.Roomy)
    (hsame : ∀ x, a ≤ x → x < a + total bs → size' x = size x) : Sized size' a bs := by
  induction bs generalizing a with
  | nil => trivial
  | cons c bs ih =>
    have hc : 0 < c.size := (hpos c List.mem_cons_self).1
    rw [total_cons] at hsame
    refine ⟨(hsame a (Nat.le_refl a) (by omega)).trans h.1, ?_⟩
    refine ih h.2 (fun d hd => hpos d (List.mem_cons_of_mem _ hd)) fun x hlow hhigh => ?_
    exact hsame x (by omega) (by omega)

theorem free_bounds (hpos : ∀ c ∈ bs, c.Roomy) (hx : x ∈ free a bs) : a ≤ x ∧ x < a + total bs := by
  induction bs generalizing a with
  | nil => cases hx
  | cons c bs ih =>
    have hc : 0 < c.size := (hpos c List.mem_cons_self).1
    have hrest : x ∈ free (a + c.size) bs → a + c.size ≤ x ∧ x < a + c.size + total bs :=
      ih fun d hd => hpos d (List.mem_cons_of_mem _ hd)
    rw [total_cons]
    obtain ⟨n, _ | k⟩ := c
    · rcases List.mem_cons.mp hx with rfl | hx
      · dsimp only at hc ⊢
        omega
      · have := hrest hx
        dsimp only at this ⊢
        omega
    · have := hrest hx
      dsimp only at this ⊢
      omega

theorem free_sorted (hpos : ∀ c ∈ bs, c.Roomy) : (free a bs).Pairwise (· < ·) := by
  induction bs generalizing a with
  | nil => exact List.Pairwise.nil
  | cons c bs ih =>
    have hc : 0 < c.size := (hpos c List.mem_cons_self).1
    have hpos' : ∀ d ∈ bs, d.Roomy := fun d hd => hpos d (List.mem_cons_of_mem _ hd)
    obtain ⟨n, _ | k⟩ := c
    · refine List.pairwise_cons.mpr ⟨fun x hx => ?_, ih hpos'⟩
      have := (free_bounds hpos' hx).1
      dsimp only at hc
      omega
    · exact ih hpos'

theorem free_length_le (hpos : ∀ c ∈ bs, c.Roomy) : (free a bs).length ≤ total bs := by
  induction bs generalizing a with
  | nil => exact Nat.zero_le _
  | cons c bs ih =>
    have hc : 0 < c.size := (hpos c List.mem_cons_self).1
    have hrest (a : ℕ) : (free a bs).length ≤ total bs :=
      ih fun d hd => hpos d (List.mem_cons_of_mem _ hd)
    obtain ⟨n, _ | k⟩ := c
    · rw [free, List.length_cons, total_cons]
      have := hrest (a + n)
      dsimp only at hc ⊢
      omega
    · rw [free, total_cons]
      exact (hrest _).trans (Nat.le_add_left _ _)

/-- A free block's address divides the list. -/
theorem mem_free (hx : x ∈ free a bs) :
    ∃ pre n post, bs = pre ++ ⟨n, none⟩ :: post ∧ x = a + total pre := by
  induction bs generalizing a with
  | nil => cases hx
  | cons c bs ih =>
    obtain ⟨n, _ | k⟩ := c
    · rcases List.mem_cons.mp hx with rfl | hx
      · exact ⟨[], n, bs, rfl, rfl⟩
      · obtain ⟨pre, m, post, rfl, rfl⟩ := ih hx
        exact ⟨⟨n, none⟩ :: pre, m, post, rfl, by rw [total_cons, Nat.add_assoc]⟩
    · obtain ⟨pre, m, post, rfl, rfl⟩ := ih hx
      exact ⟨⟨n, some k⟩ :: pre, m, post, rfl, by rw [total_cons, Nat.add_assoc]⟩

/-- So does the address of a block handed out. -/
theorem mem_handed {p : ℕ × ℕ} (hp : p ∈ handed a bs) :
    ∃ pre n post, bs = pre ++ ⟨n, some p.2⟩ :: post ∧ p.1 = a + total pre + 1 := by
  induction bs generalizing a with
  | nil => cases hp
  | cons c bs ih =>
    obtain ⟨n, _ | k⟩ := c
    · obtain ⟨pre, m, post, rfl, hpre⟩ := ih hp
      exact ⟨⟨n, none⟩ :: pre, m, post, rfl, by rw [hpre, total_cons, Nat.add_assoc a]⟩
    · rcases List.mem_cons.mp hp with rfl | hp
      · exact ⟨[], n, bs, rfl, rfl⟩
      · obtain ⟨pre, m, post, rfl, hpre⟩ := ih hp
        exact ⟨⟨n, some k⟩ :: pre, m, post, rfl, by rw [hpre, total_cons, Nat.add_assoc a]⟩

/-- A free block ends inside the memory. -/
theorem Sized.end_le (h : Sized size a bs) (hx : x ∈ free a bs) : x + size x ≤ a + total bs := by
  obtain ⟨pre, n, post, rfl, rfl⟩ := mem_free hx
  have hsize : size (a + total pre) = n := (sized_append.mp h).2.1
  rw [hsize, total_append, total_cons]
  dsimp only
  omega

section Handed

/-- The bytes of one end before the header of the other. -/
def Apart (p q : ℕ × ℕ) : Prop := 8 * p.1 + p.2 ≤ 8 * (q.1 - 1) ∨ 8 * q.1 + q.2 ≤ 8 * (p.1 - 1)

theorem handed_inside (hpos : ∀ c ∈ bs, c.Roomy) {p : ℕ × ℕ} (hp : p ∈ handed a bs) :
    a < p.1 ∧ 8 * p.1 + p.2 ≤ 8 * (a + total bs) := by
  obtain ⟨pre, n, post, rfl, hpre⟩ := mem_handed hp
  obtain ⟨hn, hroom⟩ := hpos ⟨n, some p.2⟩ (List.mem_append_right _ List.mem_cons_self)
  have hk := hroom p.2 rfl
  rw [total_append, total_cons]
  dsimp only at hn hk ⊢
  omega

theorem handed_apart (hpos : ∀ c ∈ bs, c.Roomy) : (handed a bs).Pairwise Apart := by
  induction bs generalizing a with
  | nil => exact List.Pairwise.nil
  | cons c bs ih =>
    have hpos' : ∀ d ∈ bs, d.Roomy := fun d hd => hpos d (List.mem_cons_of_mem _ hd)
    obtain ⟨hc, hroom⟩ := hpos c List.mem_cons_self
    obtain ⟨n, _ | k⟩ := c
    · exact ih hpos'
    · refine List.pairwise_cons.mpr ⟨fun p hp => .inl ?_, ih hpos'⟩
      have hk := hroom k rfl
      have := (handed_inside hpos' hp).1
      dsimp only at hc hk ⊢
      omega

end Handed

section Merging

theorem coalesced_split {c : Block} :
    Coalesced (bs ++ c :: cs) ↔ Coalesced (bs ++ [c]) ∧ Coalesced (c :: cs) := by
  unfold Coalesced
  simp only [List.map_append, List.map_cons, List.map_nil]
  exact List.isChain_split

theorem coalesced_cons_cons {c d : Block} :
    Coalesced (c :: d :: bs) ↔ (c.owner ≠ none ∨ d.owner ≠ none) ∧ Coalesced (d :: bs) :=
  List.isChain_cons_cons

/-- Only who owns a block matters, not its size. -/
theorem Coalesced.resize (h : Coalesced (bs ++ ⟨m, o⟩ :: cs)) : Coalesced (bs ++ ⟨n, o⟩ :: cs) := by
  unfold Coalesced at h ⊢
  rw [List.map_append, List.map_cons] at h ⊢
  exact h

theorem Coalesced.before (h : Coalesced (bs ++ cs)) : Coalesced bs := by
  unfold Coalesced at h ⊢
  rw [List.map_append] at h
  exact h.left_of_append

theorem Coalesced.after (h : Coalesced (bs ++ cs)) : Coalesced cs := by
  unfold Coalesced at h ⊢
  rw [List.map_append] at h
  exact h.right_of_append

/-- A block handed out may touch any block. -/
theorem Coalesced.handOut (h : Coalesced (bs ++ ⟨m, o⟩ :: cs)) :
    Coalesced (bs ++ ⟨n, some k⟩ :: cs) := by
  refine coalesced_split.mpr ⟨?_, ?_⟩
  · have hbefore := (coalesced_split.mp h).1
    unfold Coalesced at hbefore ⊢
    rw [List.map_append] at hbefore ⊢
    refine hbefore.left_of_append.append (List.isChain_singleton _) fun x _ y hy => .inr ?_
    obtain rfl := Option.some.inj hy
    exact Option.some_ne_none k
  · have hafter : Coalesced (⟨m, o⟩ :: cs) := h.after
    cases cs with
    | nil => exact List.isChain_singleton _
    | cons d cs => exact coalesced_cons_cons.mpr ⟨.inl (Option.some_ne_none k),
        (coalesced_cons_cons.mp hafter).2⟩

/-- Nothing free follows a free block. -/
theorem Coalesced.owned_next {d : Block} (h : Coalesced (⟨m, none⟩ :: d :: cs)) : d.owner ≠ none :=
  (coalesced_cons_cons.mp h).1.resolve_left fun hne => hne rfl

end Merging

end NorthOS.HeapBlocks
