import NorthOS.HeapTiling

/-!
`malloc` and the runs of the heap. The search goes once around the free list
from where the last call stopped. Where no free block is large enough it asks
for memory, and the block that this adds is found on the second way around, so
both loops end. A request below half the address range is rounded up to units
without wrapping, and the whole of the memory stays below the kernel's, so
every block returned has the room that was asked for. A request close to the
end of the unsigned range wraps to one unit, which is all header.
-/
namespace NorthOS.Umalloc

open CircularList HeapBlocks Runs

variable {lo n m k p q f nunits fuel : ℕ} {s t : Heap} {bs pre post : List Block}
  {g : ℕ → Bool}

section Search

theorem search_skip (hsize : s.size p < nunits) (hp : some p ≠ s.freep) :
    Heap.search g nunits (n + 1) s q p = Heap.search g nunits n s p (s.ptr p) := by
  rw [Heap.search, if_neg hsize.not_ge, if_neg hp]

theorem search_take (hsize : nunits ≤ s.size p) :
    Heap.search g nunits (n + 1) s q p = some ((s.take nunits q p).map some id) := by
  rw [Heap.search, if_pos hsize]

/-- The search passes the headers that are too small, with the header before the one it is at. -/
theorem search_walk {l : List ℕ} (h : Linked s.ptr (q :: l ++ [p]))
    (hsmall : ∀ y ∈ l, s.size y < nunits ∧ some y ≠ s.freep) :
    ∃ r ∈ q :: l, s.ptr r = p ∧ Heap.search g nunits (n + l.length) s q (s.ptr q) =
      Heap.search g nunits n s r p := by
  induction l generalizing q with
  | nil =>
    have hlink : s.ptr q = p := (linked_cons_cons.mp h).1
    exact ⟨q, List.mem_cons_self, hlink, by rw [hlink, List.length_nil, Nat.add_zero]⟩
  | cons y l ih =>
    obtain ⟨hlink, hrest⟩ := linked_cons_cons.mp h
    obtain ⟨hsize, hy⟩ := hsmall y List.mem_cons_self
    obtain ⟨r, hr, hptr, hsearch⟩ := ih hrest fun x hx => hsmall x (List.mem_cons_of_mem _ hx)
    refine ⟨r, List.mem_cons_of_mem _ hr, hptr, ?_⟩
    rw [List.length_cons, ← Nat.add_assoc, hlink, search_skip hsize hy]
    exact hsearch

/-- The circle, from where the search starts. -/
theorem Tiled.around (h : Tiled lo s bs) (hf : s.freep = some f) :
    ∃ l, Linked s.ptr (f :: l ++ [f]) ∧ (f :: l).Perm (s.base :: free lo bs) ∧ (f :: l).Nodup ∧
      l.length + 1 ≤ s.brk := by
  obtain ⟨f', hf', hring⟩ := h.start
  obtain rfl : f = f' := Option.some.inj (hf.symm.trans hf')
  obtain ⟨l, hcircle, hperm⟩ := h.circle.rotate hring
  refine ⟨l, hcircle, hperm, hperm.nodup_iff.mpr (h.ring_sorted.imp fun hlt => hlt.ne), ?_⟩
  rw [← List.length_cons, hperm.length_eq]
  exact h.ring_length

theorem Tiled.base_small (h : Tiled lo s bs) (hn : 0 < nunits) (hp : p ∈ s.base :: free lo bs)
    (hsize : nunits ≤ s.size p) : p ∈ free lo bs := by
  rcases List.mem_cons.mp hp with rfl | hp
  · rw [h.header] at hsize
    omega
  · exact hp

/-- Where a free block is large enough, the search ends at one. -/
theorem Tiled.search_found (h : Tiled lo s bs) (hn : 0 < nunits) (hf : s.freep = some f)
    (hfit : ∃ x ∈ free lo bs, nunits ≤ s.size x) (hfuel : s.brk ≤ fuel) :
    ∃ q p, q ∈ s.base :: free lo bs ∧ p ∈ free lo bs ∧ s.ptr q = p ∧ nunits ≤ s.size p ∧
      Heap.search g nunits fuel s f (s.ptr f) = some ((s.take nunits q p).map some id) := by
  obtain ⟨l, hcircle, hperm, hnodup, hlength⟩ := h.around hf
  have hmem : ∀ y, y ∈ l ++ [f] → y ∈ s.base :: free lo bs := by
    intro y hy
    rw [← hperm.mem_iff]
    exact (List.perm_append_singleton f l).mem_iff.mp hy
  obtain ⟨x, hx, hxfit⟩ := hfit
  have hin : x ∈ l ++ [f] :=
    (List.perm_append_singleton f l).mem_iff.mpr (hperm.mem_iff.mpr (List.mem_cons_of_mem _ hx))
  obtain ⟨p, hfind⟩ : ∃ p, (l ++ [f]).find? (fun y => decide (nunits ≤ s.size y)) = some p :=
    Option.isSome_iff_exists.mp (List.find?_isSome.mpr ⟨x, hin, decide_eq_true hxfit⟩)
  obtain ⟨hpfit, A, B, hsplit, hsmall⟩ := List.find?_eq_some_iff_append.mp hfind
  have hpfit : nunits ≤ s.size p := of_decide_eq_true hpfit
  -- the search starts behind the header it would stop at
  have hfirst : ∀ y ∈ A, some y ≠ s.freep := by
    intro y hy hyf
    obtain rfl : y = f := Option.some.inj (hyf.trans hf)
    have hnodup' : (A ++ p :: B).Nodup := by
      rw [← hsplit]
      exact (List.perm_append_singleton y l).nodup_iff.mpr hnodup
    have hlast : y ∈ p :: B := by
      have hend := congrArg List.getLast? hsplit
      rw [List.getLast?_concat, List.getLast?_append_cons] at hend
      exact List.mem_of_getLast? hend.symm
    exact (List.nodup_append.mp hnodup').2.2 y hy y hlast rfl
  have hwalk : Linked s.ptr (f :: A ++ [p]) := by
    rw [List.cons_append, hsplit, ← List.cons_append, linked_split] at hcircle
    exact hcircle.1
  have hshort : A.length + 1 ≤ fuel := by
    have hcount := congrArg List.length hsplit
    simp only [List.length_append, List.length_cons, List.length_nil] at hcount
    omega
  obtain ⟨r, rfl⟩ := Nat.exists_eq_add_of_le hshort
  obtain ⟨q, hq, hptr, hsearch⟩ := search_walk (g := g) (n := r + 1) hwalk
    fun y hy => ⟨by simpa using hsmall y hy, hfirst y hy⟩
  have hp : p ∈ l ++ [f] := hsplit ▸ List.mem_append_right A List.mem_cons_self
  refine ⟨q, p, ?_, h.base_small hn (hmem p hp) hpfit, hptr, hpfit, ?_⟩
  · rw [← hperm.mem_iff]
    rcases List.mem_cons.mp hq with rfl | hq
    · exact List.mem_cons_self
    · exact (List.perm_append_singleton f l).mem_iff.mp (hsplit ▸ List.mem_append_left _ hq)
  · rw [show A.length + 1 + r = r + 1 + A.length by omega, hsearch, search_take hpfit]

/-- Where none is, the search comes around to its start and asks for memory there. -/
theorem Tiled.search_around (h : Tiled lo s bs) (hf : s.freep = some f)
    (hsmall : ∀ x ∈ s.base :: free lo bs, s.size x < nunits) (hfuel : s.brk ≤ fuel) :
    ∃ r, fuel ≤ r + s.brk ∧ Heap.search g nunits fuel s f (s.ptr f) =
      match s.morecore g nunits with
      | none => none
      | some (none, s) => some (none, s)
      | some (some p, s) => Heap.search g nunits r s p (s.ptr p) := by
  obtain ⟨l, hcircle, hperm, hnodup, hlength⟩ := h.around hf
  obtain ⟨r, rfl⟩ := Nat.exists_eq_add_of_le (hlength.trans hfuel)
  have hsmall' : ∀ y ∈ f :: l, s.size y < nunits := fun y hy => hsmall y (hperm.mem_iff.mp hy)
  obtain ⟨q, _, hptr, hsearch⟩ := search_walk (g := g) (n := r + 1) hcircle fun y hy => by
    refine ⟨hsmall' y (List.mem_cons_of_mem _ hy), fun hyf => ?_⟩
    obtain rfl : y = f := Option.some.inj (hyf.trans hf)
    exact (List.nodup_cons.mp hnodup).1 hy
  refine ⟨r, by omega, ?_⟩
  rw [show l.length + 1 + r = r + 1 + l.length by omega, hsearch]
  exact (if_neg (hsmall' f List.mem_cons_self).not_ge).trans (if_pos hf.symm)

end Search

section Take

/-- A header of the circle is determined by the one it leads to. -/
theorem Tiled.link_inj (h : Tiled lo s bs) (hp : p ∈ s.base :: free lo bs)
    (hq : q ∈ s.base :: free lo bs) (hlink : s.ptr p = s.ptr q) : p = q := by
  have hnodup : (s.base :: free lo bs).Nodup := h.ring_sorted.imp fun hlt => hlt.ne
  have hmap : ((s.base :: free lo bs).map s.ptr).Nodup := by
    rw [h.circle.map_next]
    exact (List.perm_append_singleton s.base _).nodup_iff.mpr hnodup
  exact List.inj_on_of_nodup_map hmap hp hq hlink

/-- A free block of the size asked for leaves the circle. -/
theorem Tiled.take_whole (h : Tiled lo s (pre ++ ⟨n, none⟩ :: post))
    (hq : q ∈ s.base :: free lo (pre ++ ⟨n, none⟩ :: post)) (hlink : s.ptr q = lo + total pre)
    (hk : k ≤ 8 * (n - 1)) :
    Tiled lo { s.setPtr q (s.ptr (lo + total pre)) with freep := some q }
      (pre ++ ⟨n, some k⟩ :: post) := by
  obtain ⟨hpre, ⟨hn : 0 < n, _⟩, hpost⟩ := roomy_parts h.roomy
  obtain ⟨A, r, hA⟩ : ∃ A r, s.base :: free lo pre = A ++ [r] :=
    (List.eq_nil_or_concat' (s.base :: free lo pre)).resolve_left (List.cons_ne_nil _ _)
  have hcircle := h.circle
  rw [circle_free, hA, List.append_assoc, List.singleton_append, linked_split,
    linked_cons_cons] at hcircle
  obtain ⟨hleft, hr, hright⟩ := hcircle
  have hring : s.base :: free lo (pre ++ ⟨n, none⟩ :: post) =
      A ++ r :: (lo + total pre) :: free (lo + total pre + n) post := by
    rw [free_free, ← List.cons_append, hA, List.append_assoc, List.singleton_append]
  have hrin : r ∈ s.base :: free lo (pre ++ ⟨n, none⟩ :: post) := by
    rw [hring]
    exact List.mem_append_right _ List.mem_cons_self
  obtain rfl : q = r := h.link_inj hq hrin (hlink.trans hr.symm)
  have hsorted := h.ring_sorted
  rw [hring, List.pairwise_append, List.pairwise_cons] at hsorted
  obtain ⟨_, ⟨habove, _⟩, hbelow⟩ := hsorted
  refine { h with whole := ?_, sized := ?_, roomy := ?_, coalesced := ?_, circle := ?_, start := ?_ }
  · have hwhole := h.whole
    rw [total_append, total_cons] at hwhole ⊢
    exact hwhole
  · obtain ⟨hlow, hhigh⟩ := sized_append.mp h.sized
    exact sized_append.mpr ⟨hlow, hhigh⟩
  · intro c hc
    rcases List.mem_append.mp hc with hc | hc
    · exact hpre c hc
    rcases List.mem_cons.mp hc with rfl | hc
    · refine ⟨hn, fun j hj => ?_⟩
      obtain rfl := Option.some.inj hj
      exact hk
    · exact hpost c hc
  · exact h.coalesced.handOut
  · show Linked _ (s.base :: free lo (pre ++ ⟨n, some k⟩ :: post) ++ [s.base])
    rw [free_owned, ← List.cons_append, hA, List.append_assoc, List.append_assoc,
      List.singleton_append, linked_split]
    refine ⟨hleft.congr fun x hx => ?_, hright.redirect (Heap.setPtr_self ..) fun x hx => ?_⟩
    · exact Heap.setPtr_ne (hbelow x hx q List.mem_cons_self).ne
    · exact Heap.setPtr_ne (habove x (List.mem_cons_of_mem _ hx)).ne'
  · refine ⟨q, rfl, ?_⟩
    show q ∈ s.base :: free lo (pre ++ ⟨n, some k⟩ :: post)
    rw [free_owned, ← List.cons_append, hA]
    simp

/-- Of a larger one the upper end is handed out, and the circle stays. -/
theorem Tiled.take_end (h : Tiled lo s (pre ++ ⟨m + n, none⟩ :: post))
    (hq : q ∈ s.base :: free lo (pre ++ ⟨m + n, none⟩ :: post)) (hm : 0 < m) (hn : 0 < n)
    (hk : k ≤ 8 * (n - 1)) :
    Tiled lo { (s.setSize (lo + total pre) m).setSize (lo + total pre + m) n with freep := some q }
      (pre ++ ⟨m, none⟩ :: ⟨n, some k⟩ :: post) := by
  obtain ⟨hpre, _, hpost⟩ := roomy_parts h.roomy
  obtain ⟨hlow, _, hhigh⟩ := sized_append.mp h.sized
  have hbase := h.below
  have hfree : free lo (pre ++ ⟨m, none⟩ :: ⟨n, some k⟩ :: post) =
      free lo (pre ++ ⟨m + n, none⟩ :: post) := by
    rw [free_free, free_free, free, Nat.add_assoc (lo + total pre) m n]
  refine { h with
    whole := ?_, sized := ?_, roomy := ?_, coalesced := ?_, circle := ?_, header :=
      ?_, start := ?_ }
  · have hwhole := h.whole
    rw [total_append, total_cons] at hwhole ⊢
    rw [total_cons, ← Nat.add_assoc m]
    exact hwhole
  · refine sized_append.mpr ⟨?_, ?_, Heap.setSize_self .., ?_⟩
    · refine hlow.congr hpre fun x _ hx => ?_
      exact (Heap.setSize_ne (by omega)).trans (Heap.setSize_ne (by omega))
    · exact (Heap.setSize_ne (by omega)).trans (Heap.setSize_self ..)
    · have hmoved : Sized s.size (lo + total pre + m + n) post := by
        rw [Nat.add_assoc (lo + total pre) m n]
        exact hhigh
      refine hmoved.congr hpost fun x hx _ => ?_
      exact (Heap.setSize_ne (by omega)).trans (Heap.setSize_ne (by omega))
  · intro c hc
    rcases List.mem_append.mp hc with hc | hc
    · exact hpre c hc
    rcases List.mem_cons.mp hc with rfl | hc
    · exact ⟨hm, fun j hj => absurd hj.symm (Option.some_ne_none j)⟩
    rcases List.mem_cons.mp hc with rfl | hc
    · refine ⟨hn, fun j hj => ?_⟩
      obtain rfl := Option.some.inj hj
      exact hk
    · exact hpost c hc
  · have hright : Coalesced ([] ++ ⟨n, some k⟩ :: post) := Coalesced.handOut h.coalesced.after
    exact coalesced_split.mpr ⟨(coalesced_split.mp h.coalesced).1.resize,
      coalesced_cons_cons.mpr ⟨.inr (Option.some_ne_none k), hright⟩⟩
  · rw [hfree]
    exact h.circle
  · show (Heap.setSize _ _ _).size s.base = 0
    exact (Heap.setSize_ne (by omega)).trans ((Heap.setSize_ne (by omega)).trans h.header)
  · refine ⟨q, rfl, ?_⟩
    rw [hfree]
    exact hq

theorem Tiled.take_tiles (h : Tiled lo s bs) (hq : q ∈ s.base :: free lo bs) (hp : p ∈ free lo bs)
    (hlink : s.ptr q = p) (hsize : n ≤ s.size p) (hn : 0 < n) (hk : k ≤ 8 * (n - 1)) :
    ∃ cs, Tiled lo (s.take n q p).2 cs ∧
      (handed lo cs).Perm (((s.take n q p).1, k) :: handed lo bs) := by
  obtain ⟨pre, m, post, rfl, rfl⟩ := mem_free hp
  have hheader : s.size (lo + total pre) = m := (sized_append.mp h.sized).2.1
  rw [hheader] at hsize
  unfold Heap.take
  rw [hheader]
  by_cases hm : m = n
  · subst hm
    rw [if_pos rfl]
    refine ⟨_, h.take_whole hq hlink hk, ?_⟩
    rw [handed_append, handed_append, handed, handed]
    exact List.perm_middle
  · obtain ⟨l, rfl⟩ := Nat.exists_eq_add_of_le' hsize
    rw [if_neg hm, Nat.add_sub_cancel]
    simp only [Heap.setSize_self]
    refine ⟨_, h.take_end hq (by omega) hn hk, ?_⟩
    rw [handed_append, handed_append, handed, handed, handed, Nat.add_assoc (lo + total pre) l n]
    exact List.perm_middle

end Take

section Malloc

/-- A request of whole units below half the range is granted as it is, or fails. -/
theorem sbrk_cases {b : Bool} (haddr : 8 * s.brk < KERNBASE) (hn : 0 < n) (hlt : 8 * n < 2 ^ 31) :
    s.sbrk b (8 * n) = none ∨
      (s.sbrk b (8 * n) = some (s.brk, { s with brk := s.brk + n }) ∧
        8 * (s.brk + n) < KERNBASE) := by
  have hsum : uint (8 * s.brk + 8 * n) = 8 * (s.brk + n) := by
    rw [← Nat.mul_add]
    exact uint_eq (by unfold KERNBASE at haddr; omega)
  have hgrown : allocuvm b (8 * s.brk) (8 * (s.brk + n)) = 0 ∨
      (allocuvm b (8 * s.brk) (8 * (s.brk + n)) = 8 * (s.brk + n) ∧
        8 * (s.brk + n) < KERNBASE) := by
    unfold allocuvm
    by_cases hend : KERNBASE ≤ 8 * (s.brk + n)
    · exact .inl (if_pos hend)
    rw [if_neg hend, if_neg (by omega)]
    cases b
    · exact .inl rfl
    · exact .inr ⟨rfl, not_le.mp hend⟩
  unfold Heap.sbrk growproc
  rw [hsum]
  simp only [if_neg (show ¬ 8 * n = 0 by omega), if_pos hlt]
  rcases hgrown with hfail | ⟨hgrow, hend⟩
  · rw [hfail, if_pos rfl]
    exact .inl rfl
  · rw [hgrow, if_neg (by omega), Option.map_some, Nat.mul_div_cancel_left _ (show 0 < 8 by decide)]
    exact .inr ⟨rfl, hend⟩

/-- The memory with a new block at its end. -/
theorem Tiled.extend (h : Tiled lo s bs) (hn : 0 < n) (haddr : 8 * (s.brk + n) < KERNBASE) :
    Tiled lo (Heap.setSize { s with brk := s.brk + n } s.brk n) (bs ++ [⟨n, some 0⟩]) := by
  have hwhole := h.whole
  have hbase := h.below
  refine { h with
    whole := ?_, sized := ?_, roomy := ?_, coalesced := ?_, circle := ?_, header := ?_, start := ?_,
    addressable := haddr }
  · rw [total_append, total_cons, total_nil, ← Nat.add_assoc, hwhole]
    rfl
  · refine sized_append.mpr ⟨h.sized.congr h.roomy fun x _ hx => Heap.setSize_ne (by omega),
      ?_, trivial⟩
    rw [hwhole]
    exact Heap.setSize_self ..
  · refine List.forall_mem_append.mpr ⟨h.roomy, List.forall_mem_singleton.mpr ⟨hn, fun j hj => ?_⟩⟩
    obtain rfl := Option.some.inj hj
    exact Nat.zero_le _
  · rcases List.eq_nil_or_concat' bs with rfl | ⟨before, c, rfl⟩
    · exact List.isChain_singleton _
    · rw [List.append_assoc, List.singleton_append]
      exact coalesced_split.mpr ⟨h.coalesced,
        coalesced_cons_cons.mpr ⟨.inr (Option.some_ne_none 0), List.isChain_singleton _⟩⟩
  · rw [free_append, free, free, List.append_nil]
    exact h.circle
  · have hne : s.base ≠ s.brk := by omega
    exact (Heap.setSize_ne hne).trans h.header
  · rw [free_append, free, free, List.append_nil]
    exact h.start

/-- `morecore` fails and changes nothing, or leaves a free block that is large enough. -/
theorem Tiled.morecore_cases (h : Tiled lo s bs) (hn : 8 * n < 2 ^ 31) :
    s.morecore g n = some (none, s) ∨ ∃ t cs f, s.morecore g n = some (some f, t) ∧ Tiled lo t cs ∧
      t.freep = some f ∧ handed lo cs = handed lo bs ∧ (∃ c ∈ cs, c.owner = none ∧ n ≤ c.size) ∧
      t.brk ≤ s.brk + n + 4096 := by
  obtain ⟨nu, hnu, hle, hbound, hpos, hlt⟩ : ∃ nu, (if n < 4096 then 4096 else n) = nu ∧ n ≤ nu ∧
      nu ≤ n + 4096 ∧ 0 < nu ∧ 8 * nu < 2 ^ 31 := by
    split
    · exact ⟨4096, rfl, by omega⟩
    · exact ⟨n, rfl, by omega⟩
  unfold Heap.morecore
  rw [hnu]
  dsimp only
  rw [Nat.mul_comm nu 8, uint_eq (by omega)]
  rcases sbrk_cases (b := g s.brk) h.addressable hpos hlt with hfail | ⟨hgrow, haddr⟩
  · rw [hfail]
    exact .inl rfl
  rw [hgrow]
  obtain ⟨t, cs, hfree, htiled, hhanded, ⟨c, hc, hcfree, hcsize⟩, hbrk, _⟩ :=
    (h.extend hpos haddr).free_eq
  rw [h.whole] at hfree
  obtain ⟨f, hf, _⟩ := htiled.start
  dsimp only
  rw [hfree, Option.map_some, hf]
  refine .inr ⟨t, cs, f, rfl, htiled, hf, ?_, ⟨c, hc, hcfree, hle.trans hcsize⟩, ?_⟩
  · rw [hhanded, handed, List.append_nil]
  · rw [hbrk]
    show s.brk + nu ≤ _
    omega

theorem mem_free_of_block {c : Block} (hc : c ∈ bs) (howner : c.owner = none)
    (hsized : Sized s.size lo bs) : ∃ x ∈ free lo bs, s.size x = c.size := by
  obtain ⟨pre, post, rfl⟩ := List.append_of_mem hc
  obtain ⟨n, o⟩ := c
  obtain rfl : o = none := howner
  refine ⟨lo + total pre, ?_, (sized_append.mp hsized).2.1⟩
  rw [free_free]
  exact List.mem_append_right _ List.mem_cons_self

/-- `malloc` on a divided memory fails, or hands out a block that was not handed out before. -/
theorem Tiled.search_cases (h : Tiled lo s bs) (hf : s.freep = some f) (hn : 0 < n)
    (hlt : 8 * n < 2 ^ 31) (hk : k ≤ 8 * (n - 1)) (hfuel : 2 * (s.brk + n + 4096 + 1) ≤ fuel) :
    ∃ t cs, Tiled lo t cs ∧
      ((Heap.search g n fuel s f (s.ptr f) = some (none, t) ∧ handed lo cs = handed lo bs) ∨
        ∃ ap, Heap.search g n fuel s f (s.ptr f) = some (some ap, t) ∧
          (handed lo cs).Perm ((ap, k) :: handed lo bs)) := by
  by_cases hfit : ∃ x ∈ free lo bs, n ≤ s.size x
  · obtain ⟨q, p, hq, hp, hlink, hsize, hsearch⟩ := h.search_found (g := g) hn hf hfit
      (show s.brk ≤ fuel by omega)
    obtain ⟨cs, htiled, hhanded⟩ := h.take_tiles hq hp hlink hsize hn hk
    exact ⟨_, cs, htiled, .inr ⟨_, hsearch, hhanded⟩⟩
  have hsmall : ∀ x ∈ s.base :: free lo bs, s.size x < n := by
    intro x hx
    by_contra hle
    exact hfit ⟨x, h.base_small hn hx (not_lt.mp hle), not_lt.mp hle⟩
  obtain ⟨r, hr, hsearch⟩ := h.search_around (g := g) hf hsmall
    (show s.brk ≤ fuel by omega)
  rcases h.morecore_cases (g := g) hlt with hfail | ⟨t, cs, f', hmore, htiled, hf', hhanded,
    hblock, hbrk⟩
  · rw [hfail] at hsearch
    exact ⟨s, bs, h, .inl ⟨hsearch, rfl⟩⟩
  rw [hmore] at hsearch
  obtain ⟨c, hc, hcfree, hcsize⟩ := hblock
  obtain ⟨x, hx, hxsize⟩ := mem_free_of_block hc hcfree htiled.sized
  obtain ⟨q, p, hq, hp, hlink, hsize, hfound⟩ := htiled.search_found (g := g) hn hf'
    ⟨x, hx, hxsize ▸ hcsize⟩ (show t.brk ≤ r by omega)
  obtain ⟨ds, htaken, hperm⟩ := htiled.take_tiles hq hp hlink hsize hn hk
  rw [hhanded] at hperm
  exact ⟨_, ds, htaken, .inr ⟨_, hsearch.trans hfound, hperm⟩⟩

end Malloc

/-- What the heap promises in every state. The blocks not given back lie inside the
memory and apart from each other, with their headers; the memory is divided into them and the
free blocks, which are the free list. -/
structure Sound (lo : ℕ) (s : State) : Prop where
  inside : ∀ b ∈ s.live, lo < b.1 ∧ 8 * b.1 + b.2 ≤ 8 * s.heap.brk
  apart : s.live.Pairwise Apart
  divided : (s.heap.freep = none ∧ s.live = [] ∧ s.heap.brk = lo ∧ s.heap.base < lo ∧
      8 * lo < KERNBASE) ∨
    ∃ bs, Tiled lo s.heap bs ∧ s.live.Perm (handed lo bs)

/-- The requests that are rounded up and passed to `sbrk` without wrapping. -/
def Action.Small : Action → Prop
  | .malloc nbytes _ => nbytes.toNat ≤ 2 ^ 31 - 16
  | _ => True

section Runs

variable {live : List (ℕ × ℕ)} {i j ptr size : ℕ}

theorem Tiled.sound (h : Tiled lo s bs) (hlive : live.Perm (handed lo bs)) :
    Sound lo ⟨s, live⟩ where
  inside b hb := by
    have hin := handed_inside h.roomy (hlive.mem_iff.mp hb)
    rw [h.whole] at hin
    exact hin
  apart := (hlive.pairwise_iff fun {_ _} hab => hab.symm).mpr (handed_apart h.roomy)
  divided := .inr ⟨bs, h, hlive⟩

theorem units_small (hn : n ≤ 2 ^ 31 - 16) :
    0 < Heap.units n ∧ 8 * Heap.units n < 2 ^ 31 ∧ n ≤ 8 * (Heap.units n - 1) := by
  unfold Heap.units
  rw [uint_eq (by omega)]
  omega

/-- The static header alone is the free list of an empty memory. -/
theorem opened_tiled {base : ℕ} {ptr size : ℕ → ℕ} (hbase : base < lo) (hlo : 8 * lo < KERNBASE) :
    Tiled lo (Heap.opened ⟨base, ptr, size, none, lo⟩) [] where
  whole := rfl
  sized := trivial
  roomy := List.forall_mem_nil _
  coalesced := List.isChain_nil
  circle := linked_cons_cons.mpr ⟨Heap.setPtr_self .., List.isChain_singleton _⟩
  header := Heap.setSize_self ..
  start := ⟨base, rfl, List.mem_cons_self⟩
  below := hbase
  addressable := hlo

theorem Tiled.malloc_step (h : Tiled lo s.opened bs) (hlive : live.Perm (handed lo bs))
    {nbytes : UInt32} (hn : nbytes.toNat ≤ 2 ^ 31 - 16) :
    ∃ t, step ⟨s, live⟩ (.malloc nbytes g) = some t ∧ Sound lo t := by
  obtain ⟨f, hf, _⟩ := h.start
  obtain ⟨hpos, hlt, hroom⟩ := units_small hn
  obtain ⟨t, cs, htiled, hcases⟩ := h.search_cases (g := g) hf hpos hlt hroom le_rfl
  unfold step Heap.malloc
  dsimp only
  rw [hf, Option.bind_eq_bind, Option.bind_some]
  rcases hcases with ⟨hsearch, hsame⟩ | ⟨ap, hsearch, hperm⟩
  · rw [hsearch]
    exact ⟨⟨t, live⟩, rfl, htiled.sound (hsame ▸ hlive)⟩
  · rw [hsearch]
    exact ⟨⟨t, (ap, nbytes.toNat) :: live⟩, rfl, htiled.sound ((hlive.cons _).trans hperm.symm)⟩

theorem Tiled.free_step (h : Tiled lo s bs) (hlive : live.Perm (handed lo bs)) :
    ∃ t, step ⟨s, live⟩ (.free i) = some t ∧ Sound lo t := by
  dsimp only [step]
  cases hi : live[i]? with
  | none => exact ⟨_, rfl, h.sound hlive⟩
  | some b =>
    obtain ⟨ap, k⟩ := b
    obtain ⟨hlt, hget⟩ := List.getElem?_eq_some_iff.mp hi
    have hin : (ap, k) ∈ live := hget ▸ List.getElem_mem hlt
    obtain ⟨pre, n, post, rfl, hap⟩ := mem_handed (hlive.mem_iff.mp hin)
    obtain rfl : ap = lo + total pre + 1 := hap
    obtain ⟨t, cs, hfree, htiled, hhanded, _⟩ := h.free_eq
    dsimp only
    rw [hfree]
    refine ⟨⟨t, live.eraseIdx i⟩, rfl, htiled.sound ?_⟩
    have hrest := List.getElem_cons_eraseIdx_perm hlt
    rw [hget] at hrest
    have hall := hrest.trans hlive
    rw [handed_append, handed] at hall
    rw [hhanded]
    exact (hall.trans List.perm_middle).cons_inv

/-- What a program writes into its block is not a header. -/
theorem Tiled.store_step (h : Tiled lo s bs) (hlive : live.Perm (handed lo bs)) :
    ∃ t, step ⟨s, live⟩ (.store i j ptr size) = some t ∧ Sound lo t := by
  dsimp only [step]
  cases hi : live[i]? with
  | none => exact ⟨_, rfl, h.sound hlive⟩
  | some b =>
    obtain ⟨ap, k⟩ := b
    dsimp only
    by_cases hjk : 8 * j < k
    swap
    · rw [if_neg hjk]
      exact ⟨_, rfl, h.sound hlive⟩
    rw [if_pos hjk]
    refine ⟨_, rfl, (?_ : Tiled lo _ bs).sound hlive⟩
    obtain ⟨hlt, hget⟩ := List.getElem?_eq_some_iff.mp hi
    have hin : (ap, k) ∈ live := hget ▸ List.getElem_mem hlt
    obtain ⟨pre, n, post, rfl, hap⟩ := mem_handed (hlive.mem_iff.mp hin)
    obtain rfl : ap = lo + total pre + 1 := hap
    obtain ⟨hpre, ⟨hn : 0 < n, hroom⟩, hpost⟩ := roomy_parts h.roomy
    have hk : k ≤ 8 * (n - 1) := hroom k rfl
    obtain ⟨hlow, hown, hhigh⟩ := sized_append.mp h.sized
    have hbase := h.below
    refine { h with sized := ?_, circle := ?_, header := ?_ }
    · refine sized_append.mpr ⟨?_, (Heap.setSize_ne (by omega)).trans hown, ?_⟩
      · exact hlow.congr hpre fun x _ hx => Heap.setSize_ne (by omega)
      · refine hhigh.congr hpost fun x hx _ => Heap.setSize_ne ?_
        dsimp only at hx
        omega
    · refine h.circle.congr fun x hx => Heap.setPtr_ne ?_
      rw [free_owned, ← List.cons_append, List.mem_append] at hx
      rcases hx with hx | hx
      · have := ring_low h.below hpre x hx
        omega
      · have := (free_bounds hpost hx).1
        omega
    · have hne : s.base ≠ lo + total pre + 1 + j := by omega
      exact (Heap.setSize_ne hne).trans h.header

theorem Tiled.opened (h : Tiled lo s bs) : s.opened = s := by
  obtain ⟨f, hf, _⟩ := h.start
  unfold Heap.opened
  rw [hf]

/-- Every small request, every freeing and every store returns, and keeps the heap sound. -/
theorem Sound.step_returns {s : State} (h : Sound lo s) {a : Action} (ha : a.Small) :
    ∃ t, step s a = some t ∧ Sound lo t := by
  obtain ⟨heap, live⟩ := s
  rcases h.divided with ⟨hfreep, hlive, hbrk, hbase, hlo⟩ | ⟨bs, htiled, hlive⟩
  · obtain ⟨base, ptr, size, freep, brk⟩ := heap
    obtain rfl : freep = none := hfreep
    obtain rfl : live = [] := hlive
    obtain rfl : brk = lo := hbrk
    cases a with
    | malloc nbytes g => exact (opened_tiled hbase hlo).malloc_step (List.Perm.refl []) ha
    | free i => exact ⟨_, rfl, h⟩
    | store i j ptr size => exact ⟨_, rfl, h⟩
  · cases a with
    | malloc nbytes g => exact Tiled.malloc_step (htiled.opened.symm ▸ htiled) hlive ha
    | free i => exact htiled.free_step hlive
    | store i j ptr size => exact htiled.store_step hlive

theorem initial_sound {base : ℕ} {ptr size : ℕ → ℕ} (hbase : base < lo) (hlo : 8 * lo < KERNBASE) :
    Sound lo (.initial base lo ptr size) where
  inside := List.forall_mem_nil _
  apart := List.Pairwise.nil
  divided := .inl ⟨rfl, rfl, rfl, hbase, hlo⟩

end Runs

/-- In every run whose requests are small, wherever `sbrk` fails, every call returns, and in every
state the blocks have the room asked for, apart from each other, the free list is the circle of the
free blocks in address order, no two of which touch, and the blocks fill the memory. -/
theorem runs_sound {base lo : ℕ} {ptr size : ℕ → ℕ} (hbase : base < lo) (hlo : 8 * lo < KERNBASE)
    {as : List Action} (has : ∀ a ∈ as, a.Small) :
    Along step (fun s a => (step s a).isSome) (.initial base lo ptr size) as ∧
      Always step (Sound lo) (.initial base lo ptr size) as := by
  have hstart : Sound lo (.initial base lo ptr size) := initial_sound hbase hlo
  generalize State.initial base lo ptr size = s at hstart ⊢
  induction as generalizing s with
  | nil => exact ⟨trivial, hstart⟩
  | cons a as ih =>
    obtain ⟨t, ht, hsound⟩ := hstart.step_returns (has a List.mem_cons_self)
    obtain ⟨hreturns, halways⟩ := ih (fun b hb => has b (List.mem_cons_of_mem _ hb)) t hsound
    have hnext : ∀ u, step s a = some u → u = t := fun u hu => Option.some.inj (hu.symm.trans ht)
    refine ⟨⟨Option.isSome_of_eq_some ht, fun u hu => ?_⟩, hstart, fun u hu => ?_⟩
    · exact hnext u hu ▸ hreturns
    · exact hnext u hu ▸ halways

/-- Two requests are served, and the first block is given back. -/
theorem runs_sound_pair :
    Along step (fun s a => (step s a).isSome) (.initial 512 1024 id id)
        [.malloc 10001 fun _ => true, .malloc 20480 fun _ => false, .free 0] ∧
      Always step (Sound 1024) (.initial 512 1024 id id)
        [.malloc 10001 fun _ => true, .malloc 20480 fun _ => false, .free 0] := by
  refine runs_sound (by decide) (by decide) fun a ha => ?_
  simp only [List.mem_cons, List.not_mem_nil, or_false] at ha
  rcases ha with rfl | rfl | rfl
  · exact (by decide : (10001 : UInt32).toNat ≤ 2 ^ 31 - 16)
  · exact (by decide : (20480 : UInt32).toNat ≤ 2 ^ 31 - 16)
  · trivial

/-- A request of all but the last byte of the address range gets one unit, which is its header. -/
theorem not_always_roomy : ¬ ∀ (base lo : ℕ) (ptr size : ℕ → ℕ) (as : List Action), base < lo →
    8 * lo < KERNBASE → Always step (Sound lo) (.initial base lo ptr size) as := by
  intro hall
  have h := hall 512 1024 id id [.malloc 0xffffffff fun _ => true] (by decide) (by decide)
  have hrun : (step (.initial 512 1024 id id) (.malloc 0xffffffff fun _ => true)).map
      (fun s => (s.live, s.heap.brk)) = some ([(5120, 0xffffffff)], 5120) := by decide +kernel
  obtain ⟨t, ht, hlive⟩ := Option.map_eq_some_iff.mp hrun
  obtain ⟨hlive, hbrk⟩ := Prod.mk.inj hlive
  have hinside := ((h.2 t ht).head.inside (5120, 0xffffffff) (hlive ▸ List.mem_cons_self)).2
  rw [hbrk] at hinside
  exact absurd hinside (by decide)

end NorthOS.Umalloc
