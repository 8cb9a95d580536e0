import NorthOS.PagingRefines
import NorthOS.ProcessSize

/-!
What kalloc, walkpgdir, mappages and kfree do to entries and pages. They return wherever kalloc
may fail: taking writes only to pages that were free, and giving only to pages that are free then.
-/
namespace NorthOS.Paging

open Halting Halting.Comp
open Vm (PGSIZE NPDENTRIES KERNBASE wrap PDX PTX PGROUNDUP PGROUNDDOWN roundUp)

/-- The call returns, and then the postcondition holds. -/
abbrev Returns {A : Type} (r : Except Halt (A × Memory)) (Q : A → Memory → Prop) : Prop :=
  Ends (fun _ => True) r Q

/-- Pages were taken and only they were written. -/
structure Took (m m' : Memory) : Prop where
  suffix : m'.freelist <:+ m.freelist
  same : ∀ page, page ∉ m.freelist → m'.bytes page = m.bytes page
  cr3 : m'.cr3 = m.cr3
  nulls : m'.nulls = m.nulls

/-- Pages were given back and only they were written. -/
structure Gave (m m' : Memory) : Prop where
  suffix : m.freelist <:+ m'.freelist
  same : ∀ page, page ∉ m'.freelist → m'.bytes page = m.bytes page
  cr3 : m'.cr3 = m.cr3
  nulls : m'.nulls = m.nulls

/-- The pages that are free or held: each is there once, and the allocator was given it. -/
structure Sound (K : Kernel) (m : Memory) (held : Multiset ℕ) : Prop where
  nodup : ((m.freelist : Multiset ℕ) + held).Nodup
  inside : ∀ page ∈ (m.freelist : Multiset ℕ) + held, K.outside page = false

/-- `d'` is `d` with `n` pages mapped from `a` on. -/
def Mapped (d d' : Pgdir) (a pa : ℕ) (perm : BitVec 12) (n : ℕ) : Prop :=
  ∀ va, va < 2 ^ 32 → d'.pte va =
    if a ≤ va ∧ va < a + n * PGSIZE then some (.mk' (pa + (va - a) / PGSIZE) perm) else d.pte va

variable {K : Kernel} {m m' m'' : Memory} {d d' : Pgdir} {perm : BitVec 12}
    {held held' : Multiset ℕ}
  {a va pa mem n page size : ℕ}

section Relations

theorem returns_iff {A : Type} {x : M A} {Q : A → Memory → Prop} :
    Returns (x m) Q ↔ ∃ r m', x m = .ok (r, m') ∧ Q r m' := by
  unfold Returns Ends
  cases hx : x m with
  | error e => simp
  | ok r =>
    obtain ⟨r, t⟩ := r
    constructor
    · intro h
      exact ⟨r, t, rfl, h⟩
    · rintro ⟨r', t', heq, h⟩
      cases heq
      exact h

theorem Took.refl (m : Memory) : Took m m := ⟨List.suffix_refl _, fun _ _ => rfl, rfl, rfl⟩

theorem Took.trans (h : Took m m') (h' : Took m' m'') : Took m m'' where
  suffix := h'.suffix.trans h.suffix
  same page hpage := (h'.same page fun hc => hpage (h.suffix.mem hc)).trans (h.same page hpage)
  cr3 := h'.cr3.trans h.cr3
  nulls := h'.nulls.trans h.nulls

theorem Gave.refl (m : Memory) : Gave m m := ⟨List.suffix_refl _, fun _ _ => rfl, rfl, rfl⟩

theorem Gave.trans (h : Gave m m') (h' : Gave m' m'') : Gave m m'' where
  suffix := h.suffix.trans h'.suffix
  same page hpage := (h'.same page hpage).trans (h.same page fun hc => hpage (h'.suffix.mem hc))
  cr3 := h'.cr3.trans h.cr3
  nulls := h'.nulls.trans h.nulls

theorem Sound.of_conserves (h : Sound K m held) (hc : Conserves m held m' held') :
    Sound K m' held' := by
  unfold Conserves at hc
  exact ⟨hc ▸ h.nodup, hc ▸ h.inside⟩

theorem Sound.not_free (h : Sound K m held) (hpage : page ∈ held) : page ∉ m.freelist := by
  intro hfree
  have hdisjoint := Multiset.disjoint_left.mp (Multiset.nodup_add.mp h.nodup).2.2
    (Multiset.mem_coe.mpr hfree)
  exact hdisjoint hpage

theorem Sound.held_inside (h : Sound K m held) (hpage : page ∈ held) : K.outside page = false :=
  h.inside page (Multiset.mem_add.mpr (.inr hpage))

end Relations

section Entries

theorem pte_eq (d : Pgdir) (va : ℕ) :
    d.pte va = (d.table (PDX va)).bind fun t => t.pte (PTX va) := by
  unfold Pgdir.pte Pgdir.walk
  cases d.table (PDX va) <;> rfl

theorem walk_none (h : d.walk va = none) : d.table (PDX va) = none := Option.map_eq_none_iff.mp h

theorem walk_some {x : Option Pte} (h : d.walk va = some x) :
    d.pte va = x ∧ (d.table (PDX va)).isSome := by
  unfold Pgdir.pte
  rw [h]
  obtain ⟨t, ht, _⟩ := Option.map_eq_some_iff.mp h
  exact ⟨rfl, Option.isSome_of_eq_some ht⟩

/-- An entry that is present is in a table. -/
theorem walk_of_pte {e : Pte} (h : d.pte va = some e) : d.walk va = some (some e) := by
  unfold Pgdir.pte at h
  cases hwalk : d.walk va with
  | none =>
    rw [hwalk] at h
    cases h
  | some x =>
    rw [hwalk] at h
    exact congrArg some h

theorem pte_setTable (h : d.table (PDX a) = none) (page : ℕ) : (d.setTable a page).pte = d.pte := by
  funext va
  rw [pte_eq, pte_eq]
  unfold Pgdir.setTable
  dsimp only
  by_cases hva : PDX va = PDX a
  · rw [hva, Function.update_self, h]
    rfl
  · rw [Function.update_of_ne hva]

theorem setPte_pte (ht : (d.table (PDX a)).isSome) (x : Option Pte) (va : ℕ) :
    (d.setPte a x).pte va = if PDX va = PDX a ∧ PTX va = PTX a then x else d.pte va := by
  obtain ⟨t, ht⟩ := Option.isSome_iff_exists.mp ht
  rw [pte_eq, pte_eq]
  unfold Pgdir.setPte
  dsimp only
  by_cases hp : PDX va = PDX a
  · rw [hp, Function.update_self, ht]
    dsimp only [Option.map_some, Option.bind_some]
    by_cases hq : PTX va = PTX a
    · rw [hq, Function.update_self, if_pos ⟨rfl, rfl⟩]
    · rw [Function.update_of_ne hq, if_neg fun h => hq h.2]
  · rw [Function.update_of_ne hp, if_neg fun h => hp h.1]

theorem setPte_page (ht : (d.table (PDX a)).isSome) (hal : a % PGSIZE = 0) (ha : a < 2 ^ 32)
    (hva : va < 2 ^ 32) (x : Option Pte) :
    (d.setPte a x).pte va = if a ≤ va ∧ va < a + PGSIZE then x else d.pte va := by
  rw [setPte_pte ht, if_congr (Vm.same_page hal ha hva) rfl rfl]

/-- No table comes or goes. -/
theorem table_setPte (x : Option Pte) (i : ℕ) :
    ((d.setPte va x).table i).isNone = (d.table i).isNone := by
  unfold Pgdir.setPte
  dsimp only
  by_cases hi : i = PDX va
  · rw [hi, Function.update_self]
    cases d.table (PDX va) <;> rfl
  · rw [Function.update_of_ne hi]

theorem Mapped.zero (d : Pgdir) (a pa : ℕ) (perm : BitVec 12) : Mapped d d a pa perm 0 := by
  intro va _
  rw [if_neg (by omega)]

/-- One page and then the rest. -/
theorem Mapped.cons (hal : a % PGSIZE = 0) (ht : (d.table (PDX a)).isSome) (ha : a < 2 ^ 32)
    (h : Mapped (d.setPte a (some (.mk' pa perm))) d' (a + PGSIZE) (pa + 1) perm n) :
    Mapped d d' a pa perm (n + 1) := by
  intro va hva
  rw [h va hva, setPte_page ht hal ha hva]
  have hsplit : a + PGSIZE + n * PGSIZE = a + (n + 1) * PGSIZE := by
    rw [Nat.add_mul]
    omega
  rw [hsplit]
  by_cases hin : a ≤ va ∧ va < a + PGSIZE
  · have hzero : (va - a) / PGSIZE = 0 := Nat.div_eq_of_lt (by omega)
    have hlt : va < a + (n + 1) * PGSIZE := by omega
    rw [if_neg (by omega), if_pos hin, if_pos ⟨hin.1, hlt⟩, hzero, Nat.add_zero]
  · by_cases hrest : a + PGSIZE ≤ va ∧ va < a + (n + 1) * PGSIZE
    · have hdiv : pa + 1 + (va - (a + PGSIZE)) / PGSIZE = pa + (va - a) / PGSIZE := by
        unfold PGSIZE at hrest ⊢
        omega
      rw [if_pos hrest, if_pos ⟨by omega, hrest.2⟩, hdiv]
    · rw [if_neg hrest, if_neg hin, if_neg (by omega)]

end Entries

section Functions

theorem kalloc_returns (m : Memory) : Returns (kalloc m) fun r m' =>
    Took m m' ∧ m'.bytes = m.bytes ∧ m.freelist = r.toList ++ m'.freelist := by
  unfold kalloc
  split
  · exact ⟨⟨List.suffix_refl _, fun _ _ => rfl, rfl, rfl⟩, rfl, rfl⟩
  · exact ⟨⟨List.suffix_refl _, fun _ _ => rfl, rfl, rfl⟩, rfl, rfl⟩
  · rename_i page freelist hfree _
    exact ⟨⟨⟨[page], hfree.symm⟩, fun _ _ => rfl, rfl, rfl⟩, rfl, hfree⟩

/-- A page that was just taken may be written. -/
theorem Took.write (h : Took m m') (hfree : page ∈ m.freelist)
    (hother : ∀ q, q ≠ page → m''.bytes q = m'.bytes q) (hlist : m''.freelist = m'.freelist)
    (hcr3 : m''.cr3 = m'.cr3) (hnulls : m''.nulls = m'.nulls) : Took m m'' where
  suffix := hlist ▸ h.suffix
  same q hq := (hother q fun e => hq (e ▸ hfree)).trans (h.same q hq)
  cr3 := hcr3.trans h.cr3
  nulls := hnulls.trans h.nulls

theorem memset_returns (page : ℕ) (c : UInt8) (m : Memory) : Returns (memset page c m) fun _ m' =>
    m' = { m with bytes := Function.update m.bytes page fun _ => c } := rfl

theorem walkpgdir_returns (m : Memory) : Returns (walkpgdir d va m) fun r m' => Took m m' ∧
    ∀ d', r = some d' → d'.pte = d.pte ∧ (d'.table (PDX va)).isSome := by
  unfold walkpgdir
  cases ht : d.table (PDX va) with
  | some t =>
    refine ends_pure.mpr ⟨Took.refl m, ?_⟩
    rintro _ ⟨⟩
    exact ⟨rfl, Option.isSome_of_eq_some ht⟩
  | none =>
    refine Ends.bind (kalloc_returns m) fun page t _ h => ?_
    obtain ⟨htook, hbytes, hlist⟩ := h
    cases page with
    | none => exact ⟨htook, fun _ h => nomatch h⟩
    | some page =>
      refine Ends.bind (memset_returns page 0 t) ?_
      rintro _ u _ rfl
      have hfree : page ∈ m.freelist := by
        rw [hlist]
        exact List.mem_cons_self
      refine ⟨htook.write hfree (fun q hq => ?_) rfl rfl rfl, ?_⟩
      · exact Function.update_of_ne hq ..
      · rintro _ ⟨⟩
        refine ⟨pte_setTable ht page, ?_⟩
        unfold Pgdir.setTable
        dsimp only
        rw [Function.update_self]
        rfl

/-- The loop maps pages one after the other, and stops where a table is wanting. -/
theorem mapLoop_returns (hal : a % PGSIZE = 0) (hend : a + n * PGSIZE ≤ 2 ^ 32)
    (hclear : ∀ va, a ≤ va → va < a + n * PGSIZE → d.pte va = none) (m : Memory) :
    Returns (mapLoop perm n d a pa m) fun r m' => Took m m' ∧
      ∃ k, k ≤ n ∧ (r.2 = true ↔ k = n) ∧ Mapped d r.1 a pa perm k := by
  induction n generalizing d a pa m with
  | zero => exact ⟨Took.refl m, 0, Nat.le_refl 0, iff_of_true rfl rfl, Mapped.zero d a pa perm⟩
  | succ n ih =>
    have hsum : a + (n + 1) * PGSIZE = a + PGSIZE + n * PGSIZE := by
      rw [Nat.add_mul]
      omega
    rw [hsum] at hend hclear
    have hpos : 0 < PGSIZE := by decide
    unfold mapLoop
    refine Ends.bind (walkpgdir_returns m) fun r t _ h => ?_
    obtain ⟨htook, hwalk⟩ := h
    cases r with
    | none => exact ⟨htook, 0, Nat.zero_le _, iff_of_false Bool.false_ne_true
        (Nat.succ_ne_zero n).symm,
        Mapped.zero d a pa perm⟩
    | some d₁ =>
      obtain ⟨hpte, htable⟩ := hwalk d₁ rfl
      have hnone : d₁.pte a = none := by
        rw [hpte]
        exact hclear a (Nat.le_refl a) (by omega)
      dsimp only
      rw [hnone, if_neg (by decide)]
      have hal' : (a + PGSIZE) % PGSIZE = 0 := by
        rw [Nat.add_mod_right]
        exact hal
      refine (ih hal' hend (fun va hlo hhi => ?_) t).mono fun r u hr => ?_
      · rw [setPte_page htable hal (by omega) (by omega), if_neg (by omega), hpte]
        exact hclear va (by omega) hhi
      · obtain ⟨htook', k, hk, hiff, hmapped⟩ := hr
        refine ⟨htook.trans htook', k + 1, by omega, by rw [hiff]; omega, ?_⟩
        have hcons := Mapped.cons hal htable (by omega) hmapped
        intro va hva
        rw [hcons va hva, hpte]

/-- Mapping one page maps it, or nothing. -/
theorem mappages_returns (hal : a % PGSIZE = 0) (ha : a < 2 ^ 32)
    (hclear : ∀ va, a ≤ va → va < a + PGSIZE → d.pte va = none) (m : Memory) :
    Returns (mappages d a PGSIZE mem perm m) fun r m' => Took m m' ∧
      ((r.2 = true ∧ ∀ va, va < 2 ^ 32 → r.1.pte va =
          if a ≤ va ∧ va < a + PGSIZE then some (.mk' mem perm) else d.pte va) ∨
        (r.2 = false ∧ ∀ va, va < 2 ^ 32 → r.1.pte va = d.pte va)) := by
  have hone : (PGROUNDDOWN (a + PGSIZE - 1) - PGROUNDDOWN a) / PGSIZE + 1 = 1 := by
    unfold PGROUNDDOWN PGSIZE
    unfold PGSIZE at hal
    omega
  have hdown : PGROUNDDOWN a = a := Nat.div_mul_cancel (Nat.dvd_of_mod_eq_zero hal)
  have hfits : a + 1 * PGSIZE ≤ 2 ^ 32 := by
    unfold PGSIZE at hal ⊢
    omega
  unfold mappages
  rw [hone, hdown]
  rw [← Nat.one_mul PGSIZE] at hclear
  refine (mapLoop_returns hal hfits hclear m).mono fun r u hr => ?_
  obtain ⟨htook, k, hk, hiff, hmapped⟩ := hr
  refine ⟨htook, ?_⟩
  obtain rfl | rfl : k = 1 ∨ k = 0 := by omega
  · refine .inl ⟨hiff.mpr rfl, fun va hva => ?_⟩
    rw [hmapped va hva, Nat.one_mul]
    refine ite_congr rfl (fun hin => ?_) fun _ => rfl
    rw [Nat.div_eq_of_lt (by omega), Nat.add_zero]
  · refine .inr ⟨Bool.eq_false_iff.mpr fun h => absurd (hiff.mp h) (by decide), fun va hva => ?_⟩
    rw [hmapped va hva, if_neg (by omega)]

theorem kfree_returns (hin : K.outside page = false) (m : Memory) :
    Returns (kfree K page m) fun _ m' => Gave m m' ∧ m'.freelist = page :: m.freelist := by
  unfold kfree
  refine Ends.bind (Q := fun _ t => t = m) (ends_ensure (fun _ => rfl) fun h => ?_) ?_
  · rw [hin] at h
    exact absurd h (by decide)
  · rintro _ _ _ rfl
    refine ⟨⟨⟨[page], rfl⟩, fun q hq => ?_, rfl, rfl⟩, rfl⟩
    have hne : q ≠ page := by
      rintro rfl
      exact hq List.mem_cons_self
    exact Function.update_of_ne hne ..

end Functions

end NorthOS.Paging
