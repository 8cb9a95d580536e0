import Mathlib.Data.List.Basic
import Mathlib.Data.List.Nodup
import Mathlib.Data.Int.Notation
import Mathlib.Logic.Function.Basic
import Mathlib.Tactic.Common

/-!
Doubly linked lists threaded through two index maps, with -1 as the null index.
A segment is a list of indices whose links run from an index before it to an
index behind it; a whole list is a segment between null and null. Removing an
index and appending one only move the ends of segments. Loops that follow a
map are fuelled; on a linked list the fuel of one more than its length suffices.
In a ring the index -1 stands for the head, which is linked like the others.
-/
namespace NorthOS.IndexList

/-- The links of `l` form a segment with `p` before it and `q` behind it. -/
def Seg (next prev : ℤ → ℤ) : ℤ → List ℤ → ℤ → Prop
  | _, [], _ => True
  | p, x :: l, q => prev x = p ∧ next x = l.headD q ∧ Seg next prev x l q

/-- The loop `for (i = p; i != -1; i = next[i])`: the indices it visits, or `none`
when the fuel runs out first. -/
def walk (next : ℤ → ℤ) : ℕ → ℤ → Option (List ℤ)
  | 0, _ => none
  | fuel + 1, p => if p = -1 then some [] else (walk next fuel (next p)).map (p :: ·)

/-- The same loop left at the first index that satisfies the test; -1 when it ends
without one. -/
def search (next : ℤ → ℤ) (found : ℤ → Bool) : ℕ → ℤ → Option ℤ
  | 0, _ => none
  | fuel + 1, p =>
    if p = -1 then some (-1)
    else if found p then some p
    else search next found fuel (next p)

variable {next prev next' prev' : ℤ → ℤ} {p q p' q' : ℤ} {l l₁ l₂ : List ℤ}

theorem headD_append (l₁ l₂ : List ℤ) (q : ℤ) :
    (l₁ ++ l₂).headD q = l₁.headD (l₂.headD q) := by
  cases l₁ <;> rfl

theorem getLastD_append (l₁ l₂ : List ℤ) (p : ℤ) :
    (l₁ ++ l₂).getLastD p = l₂.getLastD (l₁.getLastD p) := by
  induction l₁ generalizing p with
  | nil => rfl
  | cons x l₁ ih => rw [List.cons_append, List.getLastD_cons, ih, List.getLastD_cons]

theorem getLastD_mem (l : List ℤ) (p : ℤ) (h : l ≠ []) : l.getLastD p ∈ l := by
  induction l generalizing p with
  | nil => exact absurd rfl h
  | cons x l ih =>
    rw [List.getLastD_cons]
    cases l with
    | nil => simp
    | cons y l => exact List.mem_cons_of_mem x (ih x (by simp))

theorem headD_mem (l : List ℤ) (q : ℤ) (h : l ≠ []) : l.headD q ∈ l := by
  cases l with
  | nil => exact absurd rfl h
  | cons x l => simp

theorem seg_append : Seg next prev p (l₁ ++ l₂) q ↔
    Seg next prev p l₁ (l₂.headD q) ∧ Seg next prev (l₁.getLastD p) l₂ q := by
  induction l₁ generalizing p with
  | nil => simp [Seg]
  | cons x l₁ ih =>
    simp only [List.cons_append, Seg, ih, headD_append, List.getLastD_cons, and_assoc]

/-- Read backwards, a segment is linked by the other map. -/
theorem Seg.reverse (h : Seg next prev p l q) : Seg prev next q l.reverse p := by
  induction l generalizing p with
  | nil => trivial
  | cons x l ih =>
    obtain ⟨hp, hn, hl⟩ := h
    rw [List.reverse_cons, seg_append]
    refine ⟨ih hl, ?_, hp, trivial⟩
    rw [hn]
    cases l with
    | nil => rfl
    | cons y l => simp

theorem Seg.congr (h : Seg next prev p l q) (hn : ∀ y ∈ l, next' y = next y)
    (hp : ∀ y ∈ l, prev' y = prev y) : Seg next' prev' p l q := by
  induction l generalizing p with
  | nil => trivial
  | cons x l ih =>
    obtain ⟨hpx, hnx, hl⟩ := h
    refine ⟨(hp x (by simp)).trans hpx, (hn x (by simp)).trans hnx, ?_⟩
    exact ih hl (fun y hy => hn y (by simp [hy])) (fun y hy => hp y (by simp [hy]))

/-- Changing the link of the last index moves the end of a segment. -/
theorem Seg.retail (h : Seg next prev p l q) (hnd : l.Nodup)
    (hn : ∀ y ∈ l, y ≠ l.getLastD p → next' y = next y)
    (hlast : l ≠ [] → next' (l.getLastD p) = q')
    (hp : ∀ y ∈ l, prev' y = prev y) : Seg next' prev' p l q' := by
  induction l generalizing p with
  | nil => trivial
  | cons x l ih =>
    obtain ⟨hpx, hnx, hl⟩ := h
    obtain ⟨hx, hnd⟩ := List.nodup_cons.mp hnd
    rw [List.getLastD_cons] at hn hlast
    refine ⟨(hp x (by simp)).trans hpx, ?_, ?_⟩
    · cases l with
      | nil => exact hlast (by simp)
      | cons y l =>
        have hne : x ≠ (y :: l).getLastD x := fun e => hx (e ▸ getLastD_mem _ x (by simp))
        rw [hn x (by simp) hne, hnx]
        rfl
    · exact ih hl hnd (fun y hy => hn y (by simp [hy])) (fun _ => hlast (by simp))
        (fun y hy => hp y (by simp [hy]))

/-- Changing the link of the first index moves the start of a segment. -/
theorem Seg.rehead (h : Seg next prev p l q) (hnd : l.Nodup)
    (hp : ∀ y ∈ l, y ≠ l.headD q → prev' y = prev y)
    (hhead : l ≠ [] → prev' (l.headD q) = p')
    (hn : ∀ y ∈ l, next' y = next y) : Seg next' prev' p' l q := by
  cases l with
  | nil => trivial
  | cons x l =>
    obtain ⟨_, hnx, hl⟩ := h
    refine ⟨hhead (by simp), (hn x (by simp)).trans hnx, ?_⟩
    apply hl.congr (fun y hy => hn y (by simp [hy]))
    intro y hy
    refine hp y (by simp [hy]) ?_
    rintro rfl
    exact (List.nodup_cons.mp hnd).1 (by simpa using hy)

/-- Unlinking an index closes the gap between its neighbours. -/
theorem Seg.erase {x : ℤ} (h : Seg next prev p (l₁ ++ x :: l₂) q)
    (hnd : (l₁ ++ x :: l₂).Nodup)
    (hn : ∀ y ∈ l₁ ++ l₂, next' y = if y = l₁.getLastD p ∧ l₁ ≠ [] then l₂.headD q else next y)
    (hp : ∀ y ∈ l₁ ++ l₂, prev' y = if y = l₂.headD q ∧ l₂ ≠ [] then l₁.getLastD p else prev y) :
    Seg next' prev' p (l₁ ++ l₂) q := by
  obtain ⟨h₁, _, _, h₂⟩ := seg_append.mp h
  rw [List.nodup_append] at hnd
  obtain ⟨hnd₁, hnd₂, hdis⟩ := hnd
  obtain ⟨_, hnd₂⟩ := List.nodup_cons.mp hnd₂
  refine seg_append.mpr ⟨?_, ?_⟩
  · apply h₁.retail hnd₁
    · intro y hy hne
      rw [hn y (by simp [hy]), if_neg (fun e => hne e.1)]
    · intro hne
      rw [hn _ (List.mem_append_left _ (getLastD_mem l₁ p hne)), if_pos ⟨rfl, hne⟩]
    · intro y hy
      rw [hp y (by simp [hy]), if_neg]
      rintro ⟨e, hne⟩
      exact hdis y hy y (List.mem_cons_of_mem x (e ▸ headD_mem l₂ q hne)) rfl
  · apply h₂.rehead hnd₂
    · intro y hy hne
      rw [hp y (by simp [hy]), if_neg (fun e => hne e.1)]
    · intro hne
      rw [hp _ (List.mem_append_right _ (headD_mem l₂ q hne)), if_pos ⟨rfl, hne⟩]
    · intro y hy
      rw [hn y (by simp [hy]), if_neg]
      rintro ⟨e, hne⟩
      exact hdis y (e ▸ getLastD_mem l₁ p hne) y (by simp [hy]) rfl

/-- Linking a new index behind the last one. -/
theorem Seg.append {x : ℤ} (h : Seg next prev p l q) (hnd : l.Nodup)
    (hnx : next' x = q) (hpx : prev' x = l.getLastD p)
    (hn : ∀ y ∈ l, next' y = if y = l.getLastD p then x else next y)
    (hp : ∀ y ∈ l, prev' y = prev y) : Seg next' prev' p (l ++ [x]) q := by
  refine seg_append.mpr ⟨?_, hpx, hnx, trivial⟩
  apply h.retail hnd
  · intro y hy hne
    rw [hn y hy, if_neg hne]
  · intro hne
    rw [hn _ (getLastD_mem l p hne), if_pos rfl]
    rfl
  · exact hp

/-- On a linked list the loop visits the list and ends. -/
theorem Seg.walk (h : Seg next prev p l (-1)) (hl : ∀ x ∈ l, x ≠ -1) {fuel : ℕ}
    (hfuel : l.length < fuel) : walk next fuel (l.headD (-1)) = some l := by
  induction l generalizing p fuel with
  | nil =>
    cases fuel with
    | zero => simp at hfuel
    | succ fuel => rfl
  | cons x l ih =>
    cases fuel with
    | zero => simp at hfuel
    | succ fuel =>
      obtain ⟨_, hnx, hrest⟩ := h
      have hx : x ≠ -1 := hl x (by simp)
      have hrec := ih hrest (fun y hy => hl y (by simp [hy])) (Nat.lt_of_succ_lt_succ hfuel)
      simp only [List.headD_cons, IndexList.walk, hx, if_false, hnx, hrec, Option.map_some]

theorem Seg.search (h : Seg next prev p l (-1)) (hl : ∀ x ∈ l, x ≠ -1) (found : ℤ → Bool)
    {fuel : ℕ} (hfuel : l.length < fuel) :
    search next found fuel (l.headD (-1)) = some ((l.find? found).getD (-1)) := by
  induction l generalizing p fuel with
  | nil =>
    cases fuel with
    | zero => simp at hfuel
    | succ fuel => rfl
  | cons x l ih =>
    cases fuel with
    | zero => simp at hfuel
    | succ fuel =>
      obtain ⟨_, hnx, hrest⟩ := h
      have hx : x ≠ -1 := hl x (by simp)
      have hrec := ih hrest (fun y hy => hl y (by simp [hy])) (Nat.lt_of_succ_lt_succ hfuel)
      by_cases hf : found x = true
      · simp [IndexList.search, hx, hf]
      · simp [IndexList.search, hx, hf, hnx]
        simpa using hrec

/-- An index that is linked to itself is never left. -/
theorem walk_self {x : ℤ} (hx : x ≠ -1) (hself : next x = x) (fuel : ℕ) :
    walk next fuel x = none := by
  induction fuel with
  | zero => rfl
  | succ fuel ih => simp [walk, hx, hself, ih]

/-- Two searches of one list end alike exactly if the first element that either of them
finds satisfies both tests. -/
theorem find?_getD_eq_iff {α : Type*} (f g : α → Bool) {l : List α} {d : α}
    (hd : ∀ x ∈ l, f x = true ∨ g x = true → x ≠ d) :
    (l.find? f).getD d = (l.find? g).getD d ↔
      ∀ x, l.find? (fun x => f x || g x) = some x → f x = g x := by
  induction l with
  | nil => simp
  | cons x l ih =>
    have hrest := ih fun y hy => hd y (List.mem_cons_of_mem x hy)
    have hx := hd x List.mem_cons_self
    -- the other search goes past x and ends elsewhere
    have past : ∀ {h : α → Bool}, h x = false → (f x = true ∨ g x = true) →
        (l.find? h).getD d ≠ x := by
      intro h hfalse hone
      cases hfind : l.find? h with
      | none => exact (hx hone).symm
      | some y =>
        intro e
        have htrue := List.find?_some hfind
        rw [show y = x from e, hfalse] at htrue
        cases htrue
    cases hf : f x with
    | true =>
      cases hg : g x with
      | true => simp [hf, hg]
      | false =>
        have hne := past hg (Or.inl hf)
        simp only [List.find?_cons, hf, hg, Option.getD_some, Bool.or_false, Option.some.injEq]
        constructor
        · intro h
          exact absurd h.symm hne
        · intro h
          have hfg := h x rfl
          rw [hf, hg] at hfg
          cases hfg
    | false =>
      cases hg : g x with
      | true =>
        have hne := past hf (Or.inr hg)
        simp only [List.find?_cons, hf, hg, Option.getD_some, Bool.or_true, Option.some.injEq]
        constructor
        · intro h
          exact absurd h hne
        · intro h
          have hfg := h x rfl
          rw [hf, hg] at hfg
          cases hfg
      | false => simpa [List.find?_cons, hf, hg] using hrest

theorem getLastD_filter {α : Type*} (f : α → Bool) (l : List α) (d : α) :
    (l.filter f).getLastD d = (l.reverse.find? f).getD d := by
  rw [List.getLastD_eq_getLast?, List.getLast?_eq_head?_reverse, ← List.filter_reverse,
    List.head?_filter]

/-! Rings. -/

structure Links where
  next : ℤ → ℤ
  prev : ℤ → ℤ

/-- The list with nothing but the head. -/
def Links.alone : Links := ⟨fun _ => -1, fun _ => -1⟩

/-- `x->next->prev = x->prev` and `x->prev->next = x->next`. -/
def Links.unlink (k : Links) (x : ℤ) : Links :=
  let prev := Function.update k.prev (k.next x) (k.prev x)
  let next := Function.update k.next (prev x) (k.next x)
  ⟨next, prev⟩

/-- `x->next = head.next`, `x->prev = &head`, `head.next->prev = x` and `head.next = x`. -/
def Links.linkFirst (k : Links) (x : ℤ) : Links :=
  let next := Function.update k.next x (k.next (-1))
  let prev := Function.update k.prev x (-1)
  ⟨Function.update next (-1) x, Function.update prev (next (-1)) x⟩

/-- The links lead from the head through the list and back, in both directions. -/
structure Ring (k : Links) (l : List ℤ) : Prop where
  nodup : l.Nodup
  proper : -1 ∉ l
  seg : Seg k.next k.prev (-1) l (-1)
  first : k.next (-1) = l.headD (-1)
  last : k.prev (-1) = l.getLastD (-1)

namespace Ring

variable {k : Links} {x : ℤ}

theorem alone : Ring Links.alone [] := ⟨List.nodup_nil, List.not_mem_nil, trivial, rfl, rfl⟩

theorem headD_mem_of_ne (h : Ring k l) (hne : l.headD (-1) ≠ -1) : l.headD (-1) ∈ l := by
  apply headD_mem
  rintro rfl
  exact hne rfl

theorem linkFirst (h : Ring k l) (hx : x ∉ l) (hx1 : x ≠ -1) : Ring (k.linkFirst x) (x :: l) := by
  -- the link of the head is read after that of x has been set
  have hnext : Function.update k.next x (k.next (-1)) (-1) = l.headD (-1) := by
    rw [Function.update_of_ne hx1.symm, h.first]
  refine ⟨List.nodup_cons.mpr ⟨hx, h.nodup⟩, ?_, ⟨?_, ?_, ?_⟩, ?_, ?_⟩
  · exact fun hm => (List.mem_cons.mp hm).elim (fun e => hx1 e.symm) h.proper
  · simp only [Links.linkFirst, hnext]
    rw [Function.update_of_ne, Function.update_self]
    intro e
    exact hx (e ▸ h.headD_mem_of_ne (e ▸ hx1))
  · simp only [Links.linkFirst, hnext]
    rw [Function.update_of_ne hx1, Function.update_self, h.first]
  · refine h.seg.rehead h.nodup ?_ ?_ ?_
    · intro y hy hne
      simp only [Links.linkFirst, hnext]
      rw [Function.update_of_ne hne, Function.update_of_ne (ne_of_mem_of_not_mem hy hx)]
    · intro _
      simp only [Links.linkFirst, hnext, Function.update_self]
    · intro y hy
      simp only [Links.linkFirst]
      rw [Function.update_of_ne (ne_of_mem_of_not_mem hy h.proper),
        Function.update_of_ne (ne_of_mem_of_not_mem hy hx)]
  · simp [Links.linkFirst]
  · simp only [Links.linkFirst, hnext, List.getLastD_cons]
    cases l with
    | nil => simp
    | cons y l =>
      have hy : (-1 : ℤ) ≠ y := fun e => h.proper (e ▸ List.mem_cons_self)
      rw [List.headD_cons, Function.update_of_ne hy, Function.update_of_ne hx1.symm, h.last,
        List.getLastD_cons, List.getLastD_cons]

theorem unlink (h : Ring k (l₁ ++ x :: l₂)) : Ring (k.unlink x) (l₁ ++ l₂) := by
  have hproper : -1 ∉ l₁ ++ l₂ := fun hm =>
    h.proper (by
      rcases List.mem_append.mp hm with hm | hm
      · exact List.mem_append_left _ hm
      · exact List.mem_append_right _ (List.mem_cons_of_mem x hm))
  obtain ⟨_, hpx, hnx, _⟩ := seg_append.mp h.seg
  -- the link of x itself is left as it was
  have hself : Function.update k.prev (k.next x) (k.prev x) x = l₁.getLastD (-1) := by
    by_cases e : x = k.next x
    · rw [← e, Function.update_self, hpx]
    · rw [Function.update_of_ne e, hpx]
  have hnext : (k.unlink x).next = Function.update k.next (l₁.getLastD (-1)) (l₂.headD (-1)) := by
    rw [← hnx, ← hself]
    rfl
  have hprev : (k.unlink x).prev = Function.update k.prev (l₂.headD (-1)) (l₁.getLastD (-1)) := by
    simp only [Links.unlink, hpx, hnx]
  refine ⟨?_, hproper, ?_, ?_, ?_⟩
  · exact h.nodup.sublist ((List.sublist_cons_self x l₂).append_left l₁)
  · refine h.seg.erase h.nodup ?_ ?_
    · intro y hy
      rw [hnext, Function.update_apply]
      by_cases e : y = l₁.getLastD (-1)
      · have hne : l₁ ≠ [] := by
          intro hl
          rw [hl] at e
          exact ne_of_mem_of_not_mem hy hproper e
        rw [if_pos e, if_pos ⟨e, hne⟩]
      · rw [if_neg e, if_neg fun c => e c.1]
    · intro y hy
      rw [hprev, Function.update_apply]
      by_cases e : y = l₂.headD (-1)
      · have hne : l₂ ≠ [] := by
          intro hl
          rw [hl] at e
          exact ne_of_mem_of_not_mem hy hproper e
        rw [if_pos e, if_pos ⟨e, hne⟩]
      · rw [if_neg e, if_neg fun c => e c.1]
  · rw [hnext, headD_append]
    cases l₁ with
    | nil => exact Function.update_self ..
    | cons y l₁ =>
      have hy : (-1 : ℤ) ≠ (y :: l₁).getLastD (-1) := fun e =>
        hproper (e ▸ List.mem_append_left _ (getLastD_mem _ _ (by simp)))
      rw [Function.update_of_ne hy, h.first]
      rfl
  · rw [hprev, getLastD_append]
    cases l₂ with
    | nil => exact Function.update_self ..
    | cons y l₂ =>
      have hy : (-1 : ℤ) ≠ (y :: l₂).headD (-1) := fun e =>
        hproper (by rw [e]; simp)
      rw [Function.update_of_ne hy, h.last, getLastD_append, List.getLastD_cons,
        List.getLastD_cons, List.getLastD_cons]

/-- The walk from the head finds the first index of the list that passes the test, or is
back at the head. -/
theorem search_next (h : Ring k l) (found : ℤ → Bool) {fuel : ℕ} (hfuel : l.length < fuel) :
    search k.next found fuel (k.next (-1)) = some ((l.find? found).getD (-1)) := by
  rw [h.first]
  exact h.seg.search (fun y hy => ne_of_mem_of_not_mem hy h.proper) found hfuel

/-- Backwards, the same walk finds the last one. -/
theorem search_prev (h : Ring k l) (found : ℤ → Bool) {fuel : ℕ} (hfuel : l.length < fuel) :
    search k.prev found fuel (k.prev (-1)) = some ((l.reverse.find? found).getD (-1)) := by
  have hlast : k.prev (-1) = l.reverse.headD (-1) := by
    rw [h.last, List.getLastD_eq_getLast?, List.getLast?_eq_head?_reverse, List.headD_eq_head?_getD]
  rw [hlast]
  refine h.seg.reverse.search (fun y hy => ?_) found (by simpa using hfuel)
  exact ne_of_mem_of_not_mem (List.mem_reverse.mp hy) h.proper

end Ring

end NorthOS.IndexList
