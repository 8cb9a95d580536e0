import NorthOS.Umalloc

/-!
The memory that `malloc` obtained is divided into free blocks and blocks handed
out, and the free list is the circle of the free blocks in address order. Both
operations keep the division. `free` finds the header before its block and
joins it with the free neighbours; `malloc` takes the first free block that is
large enough, after at most one request for more memory, whose new block `free`
puts into the list.
-/
namespace NorthOS.Umalloc

open CircularList HeapBlocks

/-- `free` is the circle, `Coalesced` says that no two free blocks touch, and `whole` with
`sized` that the blocks fill the memory. -/
structure Tiled (lo : ℕ) (s : Heap) (bs : List Block) : Prop where
  whole : lo + total bs = s.brk
  sized : Sized s.size lo bs
  roomy : ∀ c ∈ bs, c.Roomy
  coalesced : Coalesced bs
  circle : Linked s.ptr (s.base :: free lo bs ++ [s.base])
  header : s.size s.base = 0
  start : ∃ f, s.freep = some f ∧ f ∈ s.base :: free lo bs
  below : s.base < lo
  addressable : 8 * s.brk < KERNBASE

namespace Heap

variable (s : Heap) (p v x : ℕ)

@[simp] theorem setPtr_self : (s.setPtr p v).ptr p = v := Function.update_self ..

@[simp] theorem setSize_self : (s.setSize p v).size p = v := Function.update_self ..

@[simp] theorem setPtr_size : (s.setPtr p v).size = s.size := rfl

@[simp] theorem setSize_ptr : (s.setSize p v).ptr = s.ptr := rfl

@[simp] theorem setPtr_base : (s.setPtr p v).base = s.base := rfl

@[simp] theorem setSize_base : (s.setSize p v).base = s.base := rfl

@[simp] theorem setPtr_brk : (s.setPtr p v).brk = s.brk := rfl

@[simp] theorem setSize_brk : (s.setSize p v).brk = s.brk := rfl

variable {s p v x}

theorem setPtr_ne (h : x ≠ p) : (s.setPtr p v).ptr x = s.ptr x := Function.update_of_ne h ..

theorem setSize_ne (h : x ≠ p) : (s.setSize p v).size x = s.size x := Function.update_of_ne h ..

end Heap

variable {lo l n m k p f : ℕ} {s t : Heap} {bs pre post : List Block} {b : Block}

theorem uint_eq (h : n < 2 ^ 32) : uint n = n := Nat.mod_eq_of_lt h

section Circle

theorem Tiled.ring_sorted (h : Tiled lo s bs) : (s.base :: free lo bs).Pairwise (· < ·) :=
  List.pairwise_cons.mpr
    ⟨fun _ hx => h.below.trans_le (free_bounds h.roomy hx).1, free_sorted h.roomy⟩

theorem Tiled.ring_length (h : Tiled lo s bs) : (s.base :: free lo bs).length ≤ s.brk := by
  have hfree : (free lo bs).length ≤ total bs := free_length_le h.roomy
  have := h.whole
  have := h.below
  rw [List.length_cons]
  omega

theorem free_owned : free lo (pre ++ ⟨n, some k⟩ :: post) =
    free lo pre ++ free (lo + total pre + n) post := by
  rw [free_append, free]

theorem free_free : free lo (pre ++ ⟨n, none⟩ :: post) =
    free lo pre ++ (lo + total pre) :: free (lo + total pre + n) post := by
  rw [free_append, free]

theorem circle_free {a : ℕ} : a :: free lo (pre ++ ⟨n, none⟩ :: post) ++ [a] =
    (a :: free lo pre) ++ (lo + total pre) :: (free (lo + total pre + n) post ++ [a]) := by
  rw [free_free, List.cons_append, List.cons_append, List.append_assoc, List.cons_append]

theorem roomy_parts (h : ∀ c ∈ pre ++ b :: post, c.Roomy) :
    (∀ c ∈ pre, c.Roomy) ∧ b.Roomy ∧ ∀ c ∈ post, c.Roomy := by
  rw [List.forall_mem_append, List.forall_mem_cons] at h
  exact h

theorem ring_low (hbelow : s.base < lo) (hroomy : ∀ c ∈ pre, c.Roomy) :
    ∀ x ∈ s.base :: free lo pre, x < lo + total pre := by
  intro x hx
  rcases List.mem_cons.mp hx with rfl | hx
  · exact hbelow.trans_le (Nat.le_add_right lo _)
  · exact (free_bounds hroomy hx).2

/-- The header before the block in address order is the only one where the search stops. -/
theorem Tiled.between (h : Tiled lo s (pre ++ ⟨n, some k⟩ :: post)) {A : List ℕ}
    (hA : s.base :: free lo pre = A ++ [p]) :
    s.Between (lo + total pre) p ∧
      ∀ y ∈ s.base :: free lo (pre ++ ⟨n, some k⟩ :: post), y ≠ p →
      ¬ s.Between (lo + total pre) y := by
  have hsorted := h.ring_sorted
  have hcircle := h.circle
  have hsplit : s.base :: (free lo pre ++ free (lo + total pre + n) post) =
      A ++ p :: free (lo + total pre + n) post := by
    rw [← List.cons_append, hA, List.append_assoc, List.singleton_append]
  rw [free_owned, hsplit] at hsorted hcircle ⊢
  rw [List.append_assoc, List.cons_append, linked_split] at hcircle
  obtain ⟨hleft, hright⟩ := hcircle
  obtain ⟨hpre, ⟨hn : 0 < n, _⟩, hpost⟩ := roomy_parts h.roomy
  have hlow : ∀ y ∈ A ++ [p], y < lo + total pre := hA ▸ ring_low h.below hpre
  have hhigh : ∀ y ∈ free (lo + total pre + n) post, lo + total pre < y := by
    intro y hy
    have := (free_bounds hpost hy).1
    omega
  have hp : p < lo + total pre := hlow p (by simp)
  have hbase : s.base ≤ p := by
    rcases List.mem_cons.mp (hA ▸ List.mem_append_right A List.mem_cons_self :
      p ∈ s.base :: free lo pre) with rfl | hin
    · exact Nat.le_refl _
    · exact (h.below.trans_le (free_bounds hpre hin).1).le
  constructor
  · cases hupper : free (lo + total pre + n) post with
    | nil =>
      rw [hupper] at hright
      have hlink : s.ptr p = s.base := (linked_cons_cons.mp hright).1
      exact .inr ⟨hlink ▸ hbase, .inl hp⟩
    | cons c rest =>
      rw [hupper] at hright
      have hlink : s.ptr p = c := (linked_cons_cons.mp hright).1
      have hc : lo + total pre < c := hhigh c (by rw [hupper]; exact List.mem_cons_self)
      exact .inl ⟨hp, hlink ▸ hc⟩
  · intro y hy hne hstop
    rcases List.mem_append.mp hy with hy | hy
    · -- the next header is still before the block
      have hnext : y < s.ptr y ∧ s.ptr y ∈ A ++ [p] := by
        rcases hleft.ascends (List.pairwise_append.mp hsorted).1 hy with hlast | ⟨hlt, hin⟩
        · rw [hlast]
          exact ⟨(List.pairwise_append.mp hsorted).2.2 y hy p List.mem_cons_self, by simp⟩
        · exact ⟨hlt, List.mem_append_left _ hin⟩
      have hbefore : s.ptr y < lo + total pre := hlow _ hnext.2
      have hlt := hnext.1
      unfold Heap.Between at hstop
      omega
    · -- this header and the next one are both beyond the block, unless it is the last
      have hin : y ∈ free (lo + total pre + n) post := (List.mem_cons.mp hy).resolve_left hne
      have hbeyond : lo + total pre < y := hhigh y hin
      have hrest : Linked s.ptr (free (lo + total pre + n) post ++ [s.base]) :=
        List.IsChain.tail hright
      have hnext := hrest.ascends (free_sorted hpost) hin
      unfold Heap.Between at hstop
      omega

/-- The loop of `free` ends, at the last header before the block. -/
theorem Tiled.seek_eq (h : Tiled lo s (pre ++ ⟨n, some k⟩ :: post)) {A : List ℕ}
    (hA : s.base :: free lo pre = A ++ [p])
    (hf : f ∈ s.base :: free lo (pre ++ ⟨n, some k⟩ :: post)) :
    seek (s.Between (lo + total pre)) s.ptr (s.brk + 1) f = some p := by
  obtain ⟨hstop, honly⟩ := h.between hA
  have hp : p ∈ s.base :: free lo (pre ++ ⟨n, some k⟩ :: post) := by
    have hin : p ∈ s.base :: free lo pre := by
      rw [hA]
      exact List.mem_append_right _ List.mem_cons_self
    rw [free_owned, ← List.cons_append]
    exact List.mem_append_left _ hin
  exact seek_circle h.circle hp hf hstop honly (h.ring_sorted.imp fun hlt => hlt.ne)
    (h.ring_length.trans (Nat.le_succ _))

end Circle

section Free

/-- The block of `m` units after the free neighbour above it, if there is one, has joined it;
`post` is what follows then. -/
structure Joined (s t : Heap) (bp n : ℕ) (before : List Block) (m : ℕ) (post : List Block) :
    Prop where
  size : t.size bp = m
  grown : n ≤ m
  whole : m + total post = n + total before
  chain : Linked t.ptr (bp :: free (bp + m) post ++ [s.base])
  sized : Sized t.size (bp + m) post
  roomy : ∀ c ∈ post, c.Roomy
  coalesced : Coalesced (⟨m, none⟩ :: post)
  handed : handed (bp + m) post = handed (bp + n) before
  ptr_ne : ∀ x, x ≠ bp → t.ptr x = s.ptr x
  size_ne : ∀ x, x ≠ bp → t.size x = s.size x
  same : t.base = s.base ∧ t.brk = s.brk

variable {bp : ℕ}

/-- Where no free block follows, the block takes over the link of the header before it. -/
theorem joinUpper_apart (hchain : Linked s.ptr (p :: free (bp + n) post ++ [s.base]))
    (hsize : s.size bp = n) (hsized : Sized s.size (bp + n) post) (hroomy : ∀ c ∈ post, c.Roomy)
    (hn : 0 < n) (hcoal : Coalesced (⟨n, none⟩ :: post)) (hne : bp + n ≠ s.ptr p) :
    Joined s (s.joinUpper bp p) bp n post n post := by
  have habove : ∀ x, bp + n ≤ x → x ≠ bp := fun x hx => by omega
  unfold Heap.joinUpper
  rw [hsize, if_neg hne]
  refine ⟨hsize, Nat.le_refl n, rfl, ?_, hsized, hroomy, hcoal, rfl, fun x hx => Heap.setPtr_ne hx,
    fun _ _ => rfl, rfl, rfl⟩
  refine hchain.redirect (Heap.setPtr_self ..) fun x hx => Heap.setPtr_ne ?_
  exact habove x (free_bounds hroomy hx).1

theorem joinUpper_joins (hchain : Linked s.ptr (p :: free (bp + n) post ++ [s.base]))
    (hsize : s.size bp = n) (hsized : Sized s.size (bp + n) post) (hroomy : ∀ c ∈ post, c.Roomy)
    (hn : 0 < n) (hcoal : Coalesced post) (hbase : s.base < bp)
    (hbound : bp + n + total post < 2 ^ 32) :
    ∃ m post', Joined s (s.joinUpper bp p) bp n post m post' := by
  cases post with
  | nil =>
    have hlink : s.ptr p = s.base := (linked_cons_cons.mp hchain).1
    refine ⟨n, [], joinUpper_apart hchain hsize hsized hroomy hn (List.isChain_singleton _) ?_⟩
    omega
  | cons c rest =>
    obtain ⟨l, _ | k⟩ := c
    · -- the block above is free: its header is the next one, and disappears
      have hl : 0 < l := (hroomy _ List.mem_cons_self).1
      have hroomy' : ∀ c ∈ rest, c.Roomy := fun c hc => hroomy c (List.mem_cons_of_mem _ hc)
      obtain ⟨hlink, hrest⟩ := linked_cons_cons.mp hchain
      have hupper : s.size (bp + n) = l := hsized.1
      rw [total_cons] at hbound
      dsimp only at hbound
      have habove : ∀ x, bp + n ≤ x → x ≠ bp := fun x hx => by omega
      unfold Heap.joinUpper
      rw [hsize, if_pos hlink.symm, hlink, hupper, uint_eq (by omega)]
      have hcoal' : Coalesced ([] ++ ⟨n + l, none⟩ :: rest) := Coalesced.resize hcoal
      refine ⟨n + l, rest, Heap.setSize_self .., Nat.le_add_right n l, ?_, ?_, ?_, hroomy',
        hcoal', ?_, fun x hx => Heap.setPtr_ne hx, fun x hx => Heap.setSize_ne hx, rfl, rfl⟩
      · rw [total_cons, Nat.add_assoc]
      · rw [← Nat.add_assoc]
        refine hrest.redirect ?_ fun x hx => Heap.setPtr_ne ?_
        · rw [Heap.setPtr_self, Heap.setSize_ptr, hlink]
        · exact habove x (by have := (free_bounds hroomy' hx).1; omega)
      · rw [← Nat.add_assoc]
        refine Sized.congr hsized.2 hroomy' fun x hx _ => Heap.setSize_ne ?_
        exact habove x (by omega)
      · rw [← Nat.add_assoc]
        rfl
    · -- the next header, if any, lies beyond the block above
      have hl : 0 < l := (hroomy _ List.mem_cons_self).1
      have hroomy' : ∀ c ∈ rest, c.Roomy := fun c hc => hroomy c (List.mem_cons_of_mem _ hc)
      have hcoal' : Coalesced (⟨n, none⟩ :: ⟨l, some k⟩ :: rest) :=
        coalesced_cons_cons.mpr ⟨.inr (Option.some_ne_none k), hcoal⟩
      refine ⟨n, _, joinUpper_apart hchain hsize hsized hroomy hn hcoal' ?_⟩
      have hnext : s.ptr p ∈ free (bp + n) (⟨l, some k⟩ :: rest) ++ [s.base] := by
        rw [← hchain.map_next, List.map_cons]
        exact List.mem_cons_self
      intro he
      rw [← he, free, List.mem_append, List.mem_singleton] at hnext
      rcases hnext with hin | hlast
      · have := (free_bounds hroomy' hin).1
        omega
      · omega

/-- The block joins the free block below it. -/
theorem Joined.lower (h : Joined s t (lo + total pre + l) n post m bs)
    (htiled : Tiled lo s (pre ++ ⟨l, none⟩ :: ⟨n, some k⟩ :: post)) :
    Tiled lo { t.joinLower (lo + total pre + l) (lo + total pre) with freep := some (lo + total pre) }
      (pre ++ ⟨l + m, none⟩ :: bs) := by
  obtain ⟨hpre, ⟨hl : 0 < l, _⟩, hrest⟩ := roomy_parts htiled.roomy
  obtain ⟨hsized, hlower : s.size (lo + total pre) = l, _⟩ := sized_append.mp htiled.sized
  have hlow := ring_low htiled.below hpre
  have hbase : s.base < lo + total pre := hlow _ List.mem_cons_self
  have hwhole := htiled.whole
  have hjoined := h.whole
  have haddr := htiled.addressable
  simp only [total_append, total_cons] at hwhole
  have hbrk : lo + total pre + (l + m) + total bs = s.brk := by omega
  have hsize : t.size (lo + total pre) = l := (h.size_ne _ (by omega)).trans hlower
  have hcircle := htiled.circle
  rw [circle_free, linked_split] at hcircle
  unfold Heap.joinLower
  rw [if_pos (by rw [hsize]), hsize, h.size, uint_eq (by unfold KERNBASE at haddr; omega)]
  constructor
  case whole =>
    refine Eq.trans ?_ h.same.2.symm
    rw [total_append, total_cons]
    dsimp only
    omega
  case sized =>
    refine sized_append.mpr ⟨?_, Heap.setSize_self .., ?_⟩
    · refine hsized.congr hpre fun x _ hx => ?_
      exact (Heap.setSize_ne (by omega)).trans (h.size_ne x (by omega))
    · have hmoved : Sized t.size (lo + total pre + (l + m)) bs := by
        rw [← Nat.add_assoc]
        exact h.sized
      exact hmoved.congr h.roomy fun x hx _ => Heap.setSize_ne (by omega)
  case roomy =>
    intro c hc
    rcases List.mem_append.mp hc with hc | hc
    · exact hpre c hc
    rcases List.mem_cons.mp hc with rfl | hc
    · exact ⟨Nat.add_pos_left hl m, fun _ hk => nomatch hk⟩
    · exact h.roomy c hc
  case coalesced =>
    have hright : Coalesced ([] ++ ⟨l + m, none⟩ :: bs) := Coalesced.resize h.coalesced
    exact coalesced_split.mpr ⟨(coalesced_split.mp htiled.coalesced).1.resize, hright⟩
  case circle =>
    rw [circle_free, linked_split]
    constructor
    · show Linked _ ((t.base :: free lo pre) ++ [lo + total pre])
      rw [h.same.1]
      refine hcircle.1.congr fun x hx => ?_
      have := hlow x hx
      exact (Heap.setPtr_ne (by omega)).trans (h.ptr_ne x (by omega))
    · have hchain := h.chain
      rw [Nat.add_assoc (lo + total pre) l m] at hchain
      show Linked _ ((lo + total pre) :: free (lo + total pre + (l + m)) bs ++ [t.base])
      rw [h.same.1]
      refine hchain.redirect (Heap.setPtr_self ..) fun x hx => Heap.setPtr_ne ?_
      have := (free_bounds h.roomy hx).1
      omega
  case header =>
    show (Heap.setSize t _ _).size t.base = 0
    rw [h.same.1]
    exact (Heap.setSize_ne (by omega)).trans ((h.size_ne _ (by omega)).trans htiled.header)
  case start => exact ⟨_, rfl, by rw [free_free]; simp⟩
  case below => exact h.same.1 ▸ htiled.below
  case addressable => exact h.same.2 ▸ haddr

/-- A header before a block that no free block precedes does not reach up to it. -/
theorem Tiled.short (h : Tiled lo s (pre ++ post)) (hp : p ∈ s.base :: free lo pre)
    (hcoal : Coalesced (pre ++ [⟨n, none⟩])) : p + s.size p ≠ lo + total pre := by
  have hsized := (sized_append.mp h.sized).1
  have hbelow := h.below
  have hheader := h.header
  rcases List.eq_nil_or_concat' pre with rfl | ⟨before, c, rfl⟩
  · obtain rfl := List.mem_singleton.mp hp
    rw [hheader, total_nil]
    omega
  obtain ⟨l, _ | k⟩ := c
  · rw [List.append_assoc, List.singleton_append] at hcoal
    exact absurd rfl (Coalesced.owned_next hcoal.after)
  have hl : 0 < l := (h.roomy ⟨l, some k⟩ (by simp)).1
  rw [total_append, total_cons, total_nil]
  rw [free_append, free, free, List.append_nil] at hp
  dsimp only
  rcases List.mem_cons.mp hp with rfl | hp
  · rw [hheader]
    omega
  · have := (sized_append.mp hsized).1.end_le hp
    omega

/-- The block below it is handed out, or there is none: it becomes the next free block. -/
theorem Joined.linked {A : List ℕ} (h : Joined s t (lo + total pre) n post m bs)
    (htiled : Tiled lo s (pre ++ ⟨n, some k⟩ :: post)) (hA : s.base :: free lo pre = A ++ [p])
    (hcoal : Coalesced (pre ++ [⟨n, none⟩])) :
    Tiled lo { t.joinLower (lo + total pre) p with freep := some p } (pre ++ ⟨m, none⟩ :: bs) := by
  obtain ⟨hpre, ⟨hn, _⟩, hrest⟩ := roomy_parts htiled.roomy
  have hsized := (sized_append.mp htiled.sized).1
  have hlow := ring_low htiled.below hpre
  have hp : p ∈ s.base :: free lo pre := by
    rw [hA]
    exact List.mem_append_right _ List.mem_cons_self
  have hbelow : p < lo + total pre := hlow p hp
  have hbase : s.base < lo + total pre := hlow _ List.mem_cons_self
  have hwhole := htiled.whole
  have hjoined := h.whole
  rw [total_append, total_cons] at hwhole
  dsimp only at hwhole
  have hcircle := htiled.circle
  rw [free_owned, ← List.cons_append, hA, List.append_assoc, List.append_assoc,
    List.singleton_append, linked_split] at hcircle
  unfold Heap.joinLower
  rw [if_neg (by rw [h.size_ne p hbelow.ne]; exact htiled.short hp hcoal)]
  constructor
  case whole =>
    refine Eq.trans ?_ h.same.2.symm
    rw [total_append, total_cons]
    dsimp only
    omega
  case sized =>
    refine sized_append.mpr ⟨?_, h.size, h.sized⟩
    exact hsized.congr hpre fun x _ hx => h.size_ne x hx.ne
  case roomy =>
    intro c hc
    rcases List.mem_append.mp hc with hc | hc
    · exact hpre c hc
    rcases List.mem_cons.mp hc with rfl | hc
    · exact ⟨hn.trans_le h.grown, fun _ hk => nomatch hk⟩
    · exact h.roomy c hc
  case coalesced => exact coalesced_split.mpr ⟨hcoal.resize, h.coalesced⟩
  case circle =>
    have hsplit : t.base :: free lo (pre ++ ⟨m, none⟩ :: bs) ++ [t.base] =
        A ++ p :: ((lo + total pre) :: free (lo + total pre + m) bs ++ [s.base]) := by
      rw [free_free, h.same.1, ← List.cons_append, hA, List.append_assoc, List.append_assoc,
        List.singleton_append]
    show Linked _ (t.base :: free lo (pre ++ ⟨m, none⟩ :: bs) ++ [t.base])
    rw [hsplit, linked_split, List.cons_append, linked_cons_cons]
    refine ⟨hcircle.1.congr fun x hx => ?_, Heap.setPtr_self .., ?_⟩
    · have hlt : x < lo + total pre := hlow x (hA ▸ List.mem_append_left _ hx)
      have hring := List.pairwise_append.mp (hA ▸ (List.pairwise_append.mp
        (List.cons_append ▸ free_owned ▸ htiled.ring_sorted)).1)
      have hxp : x < p := hring.2.2 x hx p List.mem_cons_self
      exact (Heap.setPtr_ne hxp.ne).trans (h.ptr_ne x hlt.ne)
    · refine h.chain.congr fun x hx => Heap.setPtr_ne ?_
      rcases List.mem_cons.mp hx with rfl | hx
      · exact hbelow.ne'
      · have := (free_bounds h.roomy hx).1
        omega
  case header =>
    show t.size t.base = 0
    rw [h.same.1, h.size_ne _ hbase.ne]
    exact htiled.header
  case start =>
    refine ⟨p, rfl, ?_⟩
    show p ∈ t.base :: free lo (pre ++ ⟨m, none⟩ :: bs)
    rw [h.same.1, free_free, ← List.cons_append]
    exact List.mem_append_left _ hp
  case below => exact h.same.1 ▸ htiled.below
  case addressable => exact h.same.2 ▸ htiled.addressable

/-- The loop and the first half of the linking, before the block. -/
theorem Tiled.free_joins (h : Tiled lo s (pre ++ ⟨n, some k⟩ :: post)) :
    ∃ A p m bs, s.base :: free lo pre = A ++ [p] ∧
      Joined s (s.joinUpper (lo + total pre) p) (lo + total pre) n post m bs ∧
      s.free (lo + total pre + 1) = some { (s.joinUpper (lo + total pre) p).joinLower
        (lo + total pre) p with freep := some p } := by
  obtain ⟨A, p, hA⟩ : ∃ A p, s.base :: free lo pre = A ++ [p] :=
    (List.eq_nil_or_concat' (s.base :: free lo pre)).resolve_left (List.cons_ne_nil _ _)
  obtain ⟨f, hf, hring⟩ := h.start
  obtain ⟨hpre, ⟨hn : 0 < n, _⟩, hpost⟩ := roomy_parts h.roomy
  obtain ⟨_, hsize : s.size (lo + total pre) = n, hsized⟩ := sized_append.mp h.sized
  have hbase : s.base < lo + total pre := h.below.trans_le (Nat.le_add_right lo _)
  have hseek := h.seek_eq hA hring
  have hchain : Linked s.ptr (p :: free (lo + total pre + n) post ++ [s.base]) := by
    have hcircle := h.circle
    rw [free_owned, ← List.cons_append, hA, List.append_assoc, List.append_assoc,
      List.singleton_append, linked_split] at hcircle
    exact hcircle.2
  have hbound : lo + total pre + n + total post < 2 ^ 32 := by
    have hwhole := h.whole
    have haddr := h.addressable
    rw [total_append, total_cons] at hwhole
    unfold KERNBASE at haddr
    dsimp only at hwhole
    omega
  have hafter : Coalesced ([⟨n, some k⟩] ++ post) := h.coalesced.after
  obtain ⟨m, bs, hjoin⟩ := joinUpper_joins hchain hsize hsized hpost hn hafter.after hbase hbound
  refine ⟨A, p, m, bs, hA, hjoin, ?_⟩
  unfold Heap.free
  rw [Nat.add_sub_cancel, hf]
  simp only [Option.bind_eq_bind, Option.bind_some, hseek, Option.pure_def]

theorem joinLower_same {q : ℕ} :
    (s.joinLower bp q).brk = s.brk ∧ (s.joinLower bp q).base = s.base := by
  unfold Heap.joinLower
  split
  · exact ⟨rfl, rfl⟩
  · exact ⟨rfl, rfl⟩

/-- Freeing a block handed out keeps the division, and leaves a free block at least as large. -/
theorem Tiled.free_eq (h : Tiled lo s (pre ++ ⟨n, some k⟩ :: post)) :
    ∃ t bs, s.free (lo + total pre + 1) = some t ∧ Tiled lo t bs ∧
      handed lo bs = handed lo pre ++ handed (lo + total pre + n) post ∧
      (∃ c ∈ bs, c.owner = none ∧ n ≤ c.size) ∧ t.brk = s.brk ∧ t.base = s.base := by
  obtain ⟨A, p, m, bs, hA, hjoin, hfree⟩ := h.free_joins
  have hsame : ((s.joinUpper (lo + total pre) p).joinLower (lo + total pre) p).brk = s.brk ∧
      ((s.joinUpper (lo + total pre) p).joinLower (lo + total pre) p).base = s.base := by
    rw [← hjoin.same.1, ← hjoin.same.2]
    exact joinLower_same
  by_cases hbelow : ∃ before l, pre = before ++ [⟨l, none⟩]
  · -- a free block ends where the freed one begins
    obtain ⟨before, l, rfl⟩ := hbelow
    have hp : lo + total before = p := by
      have hlast := congrArg List.getLast? hA
      rw [free_append, free, free, ← List.cons_append, List.getLast?_concat, List.getLast?_concat]
        at hlast
      exact Option.some.inj hlast
    have htotal : lo + total (before ++ [⟨l, none⟩]) = lo + total before + l := by
      rw [total_append, total_cons, total_nil, Nat.add_zero, Nat.add_assoc]
    rw [List.append_assoc, List.singleton_append] at h
    rw [htotal, ← hp] at hjoin hfree hsame
    rw [htotal]
    refine ⟨_, _, hfree, hjoin.lower h, ?_, ⟨⟨l + m, none⟩, by simp, rfl, ?_⟩, hsame⟩
    · rw [handed_append, handed, handed_append, handed, handed, List.append_nil, ← hjoin.handed,
        Nat.add_assoc (lo + total before) l m]
    · exact hjoin.grown.trans (Nat.le_add_left m l)
  · have hcoal : Coalesced (pre ++ [⟨n, none⟩]) := by
      rcases List.eq_nil_or_concat' pre with rfl | ⟨before, ⟨l, _ | j⟩, rfl⟩
      · exact List.isChain_singleton _
      · exact absurd ⟨before, l, rfl⟩ hbelow
      · rw [List.append_assoc, List.singleton_append]
        exact coalesced_split.mpr ⟨h.coalesced.before,
          coalesced_cons_cons.mpr ⟨.inl (Option.some_ne_none j), List.isChain_singleton _⟩⟩
    refine ⟨_, _, hfree, hjoin.linked h hA hcoal, ?_, ⟨⟨m, none⟩, by simp, rfl, hjoin.grown⟩, hsame⟩
    rw [handed_append, handed, hjoin.handed]

end Free

end NorthOS.Umalloc
