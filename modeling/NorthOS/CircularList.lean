import Mathlib.Data.List.Chain
import Mathlib.Data.List.Nodup
import Mathlib.Tactic.Common

/-!
Singly linked circular lists over arbitrary nodes. The links are a function,
and a chain of nodes is a list in which each node's link is the node after it,
so that a circular list is a chain that comes back to its first node. A loop
over the links that stops at one node of the circle only finds that node, from
wherever it starts. The other rules put a node in, take one out, or leave a
part of the chain alone.
-/
namespace NorthOS.CircularList

variable {α : Type*}

def Linked (next : α → α) (l : List α) : Prop := l.IsChain fun x y => next x = y

/-- The loop `for (p = start; !stop(p); p = next(p))` for at most so many turns. -/
def seek (stop : α → Prop) [DecidablePred stop] (next : α → α) : ℕ → α → Option α
  | 0, _ => none
  | n + 1, p => if stop p then some p else seek stop next n (next p)

variable {next next' : α → α} {a b p q x y : α} {l l₁ l₂ : List α}

theorem linked_split : Linked next (l₁ ++ p :: l₂) ↔ Linked next (l₁ ++ [p]) ∧
      Linked next (p :: l₂) :=
  List.isChain_split

theorem linked_cons_cons : Linked next (x :: y :: l) ↔ next x = y ∧ Linked next (y :: l) :=
  List.isChain_cons_cons

theorem Linked.congr (h : Linked next (l ++ [b])) (hsame : ∀ x ∈ l, next' x = next x) :
    Linked next' (l ++ [b]) := by
  induction l with
  | nil => exact List.isChain_singleton _
  | cons x l ih =>
    have htail : Linked next (l ++ [b]) := List.IsChain.tail h
    have hrest : Linked next' (l ++ [b]) := ih htail fun y hy => hsame y (List.mem_cons_of_mem _ hy)
    refine List.isChain_cons.mpr ⟨fun y hy => ?_, hrest⟩
    rw [hsame x List.mem_cons_self]
    exact (List.isChain_cons.mp h).1 y hy

/-- A node that takes over the link of another stands before the same chain. -/
theorem Linked.redirect (h : Linked next (p :: l ++ [b])) (hq : next' q = next p)
    (hsame : ∀ x ∈ l, next' x = next x) : Linked next' (q :: l ++ [b]) := by
  have hlink : ∀ y ∈ (l ++ [b]).head?, next p = y := (List.isChain_cons.mp h).1
  have hrest : Linked next (l ++ [b]) := List.IsChain.tail h
  refine List.isChain_cons.mpr ⟨fun y hy => ?_, hrest.congr hsame⟩
  rw [hq]
  exact hlink y hy

/-- The links of a chain run through the rest of it. -/
theorem Linked.map_next (h : Linked next (a :: l ++ [b])) : (a :: l).map next = l ++ [b] := by
  induction l generalizing a with
  | nil => rw [List.map_singleton, (linked_cons_cons.mp h).1, List.nil_append]
  | cons x l ih =>
    obtain ⟨hlink, hrest⟩ := linked_cons_cons.mp h
    rw [List.map_cons, ih hrest, hlink, List.cons_append]

/-- Where the nodes ascend, a link leads up the chain or to its end. -/
theorem Linked.ascends [Preorder α] (h : Linked next (l ++ [b])) (hsorted : l.Pairwise (· < ·))
    (hx : x ∈ l) : next x = b ∨ (x < next x ∧ next x ∈ l) := by
  obtain ⟨l₁, l₂, rfl⟩ := List.append_of_mem hx
  rw [List.append_assoc, List.cons_append] at h
  have hright : Linked next (x :: (l₂ ++ [b])) := (linked_split.mp h).2
  cases l₂ with
  | nil => exact .inl (linked_cons_cons.mp hright).1
  | cons y l₂ =>
    have hlink : next x = y := (linked_cons_cons.mp hright).1
    have habove := (List.pairwise_cons.mp (List.pairwise_append.mp hsorted).2.1).1
    rw [hlink]
    exact .inr ⟨habove y List.mem_cons_self, by simp⟩

/-- A circle is a circle from each of its nodes. -/
theorem Linked.rotate (h : Linked next (a :: l ++ [a])) (hx : x ∈ a :: l) :
    ∃ l', Linked next (x :: l' ++ [x]) ∧ (x :: l').Perm (a :: l) := by
  rcases List.mem_cons.mp hx with rfl | hx
  · exact ⟨l, h, .refl _⟩
  obtain ⟨l₁, l₂, rfl⟩ := List.append_of_mem hx
  have hsplit : a :: (l₁ ++ x :: l₂) ++ [a] = (a :: l₁) ++ x :: (l₂ ++ [a]) := by
    rw [List.cons_append, List.cons_append, List.append_assoc, List.cons_append]
  rw [hsplit, linked_split] at h
  refine ⟨l₂ ++ a :: l₁, ?_, ?_⟩
  · have hjoin : x :: (l₂ ++ a :: l₁) ++ [x] = (x :: l₂) ++ a :: (l₁ ++ [x]) := by
      rw [List.cons_append, List.cons_append, List.append_assoc, List.cons_append]
    rw [hjoin, linked_split]
    exact ⟨h.2, h.1⟩
  · have hcomm : ((x :: l₂) ++ (a :: l₁)).Perm ((a :: l₁) ++ (x :: l₂)) := List.perm_append_comm
    exact hcomm

section Loops

variable {stop : α → Prop} [DecidablePred stop]

theorem seek_stop {n : ℕ} (h : stop p) : seek stop next (n + 1) p = some p := if_pos h

theorem seek_walk {n : ℕ} (h : Linked next (a :: l ++ [b])) (hno : ∀ x ∈ a :: l, ¬ stop x) :
    seek stop next (n + (a :: l).length) a = seek stop next n b := by
  induction l generalizing a with
  | nil =>
    have hlink : next a = b := (linked_cons_cons.mp h).1
    rw [List.length_singleton, seek, if_neg (hno a List.mem_cons_self), hlink]
  | cons x l ih =>
    obtain ⟨hlink, hrest⟩ := linked_cons_cons.mp h
    rw [List.length_cons, ← Nat.add_assoc, seek, if_neg (hno a List.mem_cons_self), hlink]
    exact ih hrest fun y hy => hno y (List.mem_cons_of_mem _ hy)

/-- The only node of a circle at which the loop stops is found from every other node,
in at most as many turns as there are nodes. -/
theorem seek_circle {n : ℕ} (h : Linked next (a :: l ++ [a])) (hp : p ∈ a :: l) (hx : x ∈ a :: l)
    (hstop : stop p) (honly : ∀ y ∈ a :: l, y ≠ p → ¬ stop y) (hnodup : (a :: l).Nodup)
    (hn : (a :: l).length ≤ n) : seek stop next n x = some p := by
  obtain ⟨l', hcircle, hperm⟩ := h.rotate hp
  have hfuel : l'.length + 1 ≤ n := by
    rw [← List.length_cons, hperm.length_eq]
    exact hn
  have hnodup' : (p :: l').Nodup := hperm.nodup_iff.mpr hnodup
  rcases List.mem_cons.mp (hperm.mem_iff.mpr hx) with rfl | hx'
  · obtain ⟨m, rfl⟩ := Nat.exists_eq_add_of_lt (Nat.lt_of_lt_of_le (Nat.succ_pos _) hfuel)
    rw [Nat.zero_add]
    exact seek_stop hstop
  obtain ⟨l₁, l₂, rfl⟩ := List.append_of_mem hx'
  have hsplit : p :: (l₁ ++ x :: l₂) ++ [p] = (p :: l₁) ++ x :: (l₂ ++ [p]) := by
    rw [List.cons_append, List.cons_append, List.append_assoc, List.cons_append]
  rw [hsplit, linked_split] at hcircle
  have hlength : (l₁ ++ x :: l₂).length = l₁.length + (l₂.length + 1) := by
    rw [List.length_append, List.length_cons]
  obtain ⟨m, rfl⟩ := Nat.exists_eq_add_of_le hfuel
  have hturns : (l₁ ++ x :: l₂).length + 1 + m = (m + l₁.length + 1) + (x :: l₂).length := by
    rw [hlength, List.length_cons]
    omega
  rw [hturns, seek_walk hcircle.2, seek_stop hstop]
  intro y hy
  have hin : y ∈ l₁ ++ x :: l₂ := List.mem_append_right _ hy
  refine honly y (hperm.mem_iff.mp (List.mem_cons_of_mem _ hin)) ?_
  rintro rfl
  exact (List.nodup_cons.mp hnodup').1 hin

end Loops

end NorthOS.CircularList
