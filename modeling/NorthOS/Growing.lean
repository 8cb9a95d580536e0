import NorthOS.AddressSpaces

/-!
Growing an address space: allocuvm adds zeroed pages or, where kalloc fails, takes all that it had
mapped away again. Pages that were free are mapped one after the other; the loops of allocuvm and
copyuvm differ in the flags and bytes that these get.
-/
namespace NorthOS.Paging

open Halting Halting.Comp LittleEndian
open Vm (PGSIZE KERNBASE PGROUNDUP roundUp roundUp_aligned le_roundUp roundUp_le roundUp_le_kernbase
  pgroundup_eq)

variable {K : Kernel} {m m' : Memory} {d d' : Pgdir} {held : Multiset ℕ}
    {a va page lo hi oldsz newsz : ℕ}

section Filling

variable {f : ℕ → BitVec 12 × Bytes} {m₀ : Memory} {d₀ : Pgdir} {others : Multiset ℕ} {mem : ℕ}

/-- From `lo` to `hi` pages that were free in `m₀` are mapped; `f` tells their flags and bytes. -/
structure Filled (f : ℕ → BitVec 12 × Bytes) (m₀ m : Memory) (d₀ d : Pgdir) (lo hi : ℕ) : Prop where
  took : Took m₀ m
  outside : ∀ va, va < 2 ^ 32 → ¬ (lo ≤ va ∧ va < hi) → d.pte va = d₀.pte va
  inside : ∀ va, lo ≤ va → va < hi → ∃ page ∈ m₀.freelist,
    d.pte va = some (.mk' page (f va).1) ∧ m.bytes page = (f va).2

theorem Filled.empty (hle : hi ≤ lo) (h : Took m₀ m) : Filled f m₀ m d d lo hi :=
  ⟨h, fun _ _ _ => rfl, fun va hlo hhi => by omega⟩

/-- What is taken later leaves the pages that are mapped alone. -/
theorem Filled.keep (h : Filled f m₀ m d₀ d lo hi) (hs : Sound K m (d.pages + others))
    (hhi : hi ≤ KERNBASE) (htook : Took m m') : Filled f m₀ m' d₀ d lo hi := by
  refine ⟨h.took.trans htook, h.outside, fun va hlo hva => ?_⟩
  obtain ⟨page, hfree, hpte, hbytes⟩ := h.inside va hlo hva
  have hheld : page ∉ m.freelist := frame_not_free hs (by omega) hpte
  exact ⟨page, hfree, hpte, (htook.same page hheld).trans hbytes⟩

/-- What is mapped with a page that was taken from the free list. -/
theorem Sound.took (h : Sound K m held) (hlist : m.freelist = mem :: m'.freelist) :
    Sound K m' (mem ::ₘ held) := by
  refine h.of_conserves ?_
  unfold Conserves
  rw [hlist, ← Multiset.cons_coe, Multiset.add_cons, Multiset.cons_add]

/-- The next page is mapped or it is not, and then it is still held. -/
theorem Filled.step (h : Filled f m₀ m d₀ d lo a) (hs : Sound K m (d.pages + others))
    (hlo : lo ≤ a) (hal : a % PGSIZE = 0) (ha : a < KERNBASE)
    (hclear : ∀ va, a ≤ va → va < a + PGSIZE → d₀.pte va = none)
    (hpage : ∀ va, a ≤ va → va < a + PGSIZE → f va = f a)
    (hlist : m.freelist = mem :: m'.freelist) (htook : Took m m') (hmem : m'.bytes mem = (f a).2) :
    Returns (mappages d a PGSIZE mem (f a).1 m') fun r w =>
      (r.2 = true ∧ Filled f m₀ w d₀ r.1 lo (a + PGSIZE) ∧ Sound K w (r.1.pages + others)) ∨
      (r.2 = false ∧ Filled f m₀ w d₀ r.1 lo a ∧ Sound K w (r.1.pages + mem ::ₘ others)) := by
  have h32 : a < 2 ^ 32 := by
    unfold KERNBASE at ha
    omega
  have hfits : a + PGSIZE ≤ 2 ^ 32 := by
    unfold PGSIZE at hal ⊢
    omega
  have hclear' : ∀ va, a ≤ va → va < a + PGSIZE → d.pte va = none := fun va hle hlt =>
    (h.outside va (by omega) (by omega)).trans (hclear va hle hlt)
  have hkept := h.keep hs ha.le htook
  have hs' := hs.took hlist
  rw [← Multiset.cons_add] at hs'
  have hreturns : Returns (mappages d a PGSIZE mem (f a).1 m') _ :=
    mappages_returns hal h32 hclear' m'
  have hmapped := hreturns.and (mappages_conserves hal ha m')
  refine hmapped.mono fun r w hr => ?_
  obtain ⟨⟨htook', hcases⟩, hconserves⟩ := hr
  have hs'' := hs'.of_conserves (hconserves.add others)
  -- the earlier pages and this one are not free, and so they keep their bytes
  have hkeep : ∀ page ∈ mem ::ₘ d.pages + others, w.bytes page = m'.bytes page := fun page hp =>
    htook'.same page (hs'.not_free hp)
  have hearlier : ∀ va, lo ≤ va → va < a → ∃ page ∈ m₀.freelist,
      d.pte va = some (.mk' page (f va).1) ∧ w.bytes page = (f va).2 := by
    intro va hle hlt
    obtain ⟨page, hfree, hpte, hbytes⟩ := hkept.inside va hle hlt
    refine ⟨page, hfree, hpte, (hkeep page ?_).trans hbytes⟩
    exact Multiset.mem_add.mpr (.inl (Multiset.mem_cons_of_mem (frame_mem hpte (by omega))))
  rcases hcases with ⟨hok, hpte⟩ | ⟨hfail, hpte⟩
  · rw [if_pos hok] at hs''
    refine .inl ⟨hok, ⟨hkept.took.trans htook', fun va hva hout => ?_, fun va hle hlt => ?_⟩, hs''⟩
    · rw [hpte va hva, if_neg (by omega)]
      exact h.outside va hva (by omega)
    · rw [hpte va (by omega)]
      by_cases hnow : a ≤ va
      · refine ⟨mem, h.took.suffix.mem (by rw [hlist]; exact List.mem_cons_self), ?_, ?_⟩
        · rw [if_pos ⟨hnow, hlt⟩, hpage va hnow hlt]
        · rw [hkeep mem (Multiset.mem_add.mpr (.inl (Multiset.mem_cons_self mem _))), hmem,
            hpage va hnow hlt]
      · rw [if_neg fun hc => hnow hc.1]
        exact hearlier va hle (by omega)
  · rw [if_neg (by rw [hfail]; exact Bool.false_ne_true)] at hs''
    rw [Multiset.cons_add, ← Multiset.add_cons] at hs''
    refine .inr ⟨hfail, ⟨hkept.took.trans htook', fun va hva hout => ?_, fun va hle hlt => ?_⟩,
      hs''⟩
    · rw [hpte va hva]
      exact h.outside va hva hout
    · rw [hpte va (by omega)]
      exact hearlier va hle hlt

end Filling

section Alloc

variable {d₀ : Pgdir} {m₀ : Memory} {others : Multiset ℕ}

/-- Pages were taken and given back, and no other was written. -/
structure Used (m m' : Memory) : Prop where
  same : ∀ page, page ∉ m.freelist → page ∉ m'.freelist → m'.bytes page = m.bytes page
  cr3 : m'.cr3 = m.cr3
  nulls : m'.nulls = m.nulls

theorem Took.used (h : Took m m') : Used m m' := ⟨fun page hp _ => h.same page hp, h.cr3, h.nulls⟩

theorem Took.used_gave {t : Memory} (h : Took m t) (h' : Gave t m') : Used m m' :=
  ⟨fun page hp hp' => (h'.same page hp').trans (h.same page hp), h'.cr3.trans h.cr3,
    h'.nulls.trans h.nulls⟩

/-- A page that was not mapped is given back. -/
theorem kfree_held (hs : Sound K m (held + page ::ₘ others)) :
    Returns (kfree K page m) fun _ m' => Gave m m' ∧ Sound K m' (held + others) := by
  have hin : page ∈ held + page ::ₘ others :=
    Multiset.mem_add.mpr (.inr (Multiset.mem_cons_self page others))
  refine (kfree_returns (hs.held_inside hin) m).mono fun _ m' h => ⟨h.1, hs.of_conserves ?_⟩
  unfold Conserves
  rw [h.2, ← Multiset.cons_coe, Multiset.cons_add, Multiset.add_cons, Multiset.add_cons]

/-- What was mapped between the two sizes is taken away again. -/
theorem deallocuvm_restores (hs : Sound K m (d.pages + others)) (hle : oldsz ≤ newsz)
    (hnew : newsz ≤ KERNBASE)
    (hout : ∀ va, va < 2 ^ 32 → ¬ (roundUp oldsz ≤ va ∧ va < roundUp newsz) → d.pte va = d₀.pte va)
    (hclear : ∀ va, roundUp oldsz ≤ va → va < roundUp newsz → d₀.pte va = none) :
    Returns (deallocuvm K d newsz oldsz m) fun r w => r.2 = oldsz ∧ Gave m w ∧
      Sound K w (r.1.pages + others) ∧ (∀ va, va < 2 ^ 32 → r.1.pte va = d₀.pte va) ∧
      w.freelist = (d.frames (roundUp oldsz) (roundUp newsz)).reverse ++ m.freelist := by
  have hdealloc := deallocuvm_returns (m := m) hnew hle
    fun va e _ hva he => frames_inside hs (by omega) he
  refine (hdealloc.and (deallocuvm_conserves hnew m)).mono fun r w hr => ?_
  obtain ⟨⟨hsz, hgave, hcut, hlist⟩, hconserves⟩ := hr
  refine ⟨hsz, hgave, hs.of_conserves (hconserves.add others), fun va hva => ?_, hlist⟩
  rw [hcut va hva]
  by_cases hin : roundUp oldsz ≤ va ∧ va < roundUp newsz
  · rw [if_pos hin, hclear va hin.1 hin.2]
  · rw [if_neg hin]
    exact hout va hva hin

/-- What allocuvm writes to each page. -/
def zeroed : ℕ → BitVec 12 × Bytes := fun _ => (PTE_W ||| PTE_U, fun _ => 0)

/-- The new size, and the new pages; or 0, and what was mapped before. -/
structure Grown (K : Kernel) (m m' : Memory) (d d' : Pgdir) (others : Multiset ℕ)
    (oldsz newsz r : ℕ) : Prop where
  sound : Sound K m' (d'.pages + others)
  used : Used m m'
  result : r = newsz ∧ Filled zeroed m m' d d' (roundUp oldsz) (roundUp newsz) ∨
    r = 0 ∧ ∀ va, va < 2 ^ 32 → d'.pte va = d.pte va

theorem allocLoop_returns (h : Filled zeroed m₀ m d₀ d (roundUp oldsz) a)
    (hs : Sound K m (d.pages + others)) (hlo : roundUp oldsz ≤ a) (hal : a % PGSIZE = 0)
    (hhi : a ≤ roundUp newsz) (hle : oldsz ≤ newsz) (hnew : newsz < KERNBASE)
    (hclear : ∀ va, roundUp oldsz ≤ va → va < roundUp newsz → d₀.pte va = none) :
    Returns (allocLoop K d a oldsz newsz m) fun r w =>
      Grown K m₀ w d₀ r.1 others oldsz newsz r.2 := by
  induction hn : newsz - a using Nat.strong_induction_on generalizing d a m with
  | _ n ih =>
    rw [allocLoop]
    split
    · rename_i hlt
      have hround := le_roundUp newsz
      have hup := roundUp_aligned newsz
      have hpage : a + PGSIZE ≤ roundUp newsz := by
        unfold PGSIZE at hal hup ⊢
        omega
      refine Ends.bind (kalloc_returns m) fun r t _ ht => ?_
      obtain ⟨htook, hbytes, hlist⟩ := ht
      cases r with
      | none =>
        have hs' : Sound K t (d.pages + others) := hs.of_conserves (by
          unfold Conserves
          rw [hlist]
          rfl)
        refine Ends.bind (deallocuvm_restores hs' hle hnew.le (fun va hva hout =>
          h.outside va hva (by omega)) hclear) fun r w _ hr => ?_
        obtain ⟨_, hgave, hsound, hpte, _⟩ := hr
        exact ends_pure.mpr ⟨hsound, (h.took.trans htook).used_gave hgave, .inr ⟨rfl, hpte⟩⟩
      | some mem =>
        refine Ends.bind (memset_returns mem 0 t) fun _ u _ hu => ?_
        have hfree : mem ∈ m.freelist := by
          rw [hlist]
          exact List.mem_cons_self
        have htook' : Took m u := by
          rw [hu]
          exact htook.write hfree (fun q hq => Function.update_of_ne hq ..) rfl rfl rfl
        have hlist' : m.freelist = mem :: u.freelist := by
          rw [hu]
          exact hlist
        have hmem : u.bytes mem = (zeroed a).2 := by
          rw [hu]
          exact Function.update_self ..
        have hstep := h.step hs hlo hal (by omega)
          (fun va hva hva' => hclear va (by omega) (by omega)) (fun _ _ _ => rfl) hlist' htook' hmem
        refine Ends.bind hstep fun r w _ hr => ?_
        rcases hr with ⟨hok, hfilled, hsound⟩ | ⟨hfail, hfilled, hsound⟩
        · dsimp only
          rw [if_pos hok]
          refine ih _ ?_ hfilled hsound (by omega) ?_ hpage rfl
          · unfold PGSIZE
            omega
          · rw [Nat.add_mod_right]
            exact hal
        · dsimp only
          rw [if_neg (by rw [hfail]; exact Bool.false_ne_true)]
          refine Ends.bind (deallocuvm_restores hsound hle hnew.le (fun va hva hout =>
            hfilled.outside va hva (by omega)) hclear) fun r' x _ hr' => ?_
          obtain ⟨_, hgave, hsound', hpte, _⟩ := hr'
          refine Ends.bind (kfree_held hsound') fun _ y _ hy => ?_
          exact ends_pure.mpr ⟨hy.2, hfilled.took.used_gave (hgave.trans hy.1), .inr ⟨rfl, hpte⟩⟩
    · rename_i hge
      have hend : a = roundUp newsz := by
        have := roundUp_le hal (Nat.le_of_not_lt hge)
        omega
      rw [hend] at h
      exact ends_pure.mpr ⟨hs, h.took.used, .inl ⟨rfl, h⟩⟩

theorem allocuvm_returns (hs : Sound K m (d.pages + others)) (hle : oldsz ≤ newsz)
    (hnew : newsz < KERNBASE)
    (hclear : ∀ va, roundUp oldsz ≤ va → va < roundUp newsz → d.pte va = none) :
    Returns (allocuvm K d oldsz newsz m) fun r w => Grown K m w d r.1 others oldsz newsz r.2 := by
  have hround : roundUp oldsz ≤ roundUp newsz :=
    roundUp_le (roundUp_aligned newsz) (hle.trans (le_roundUp newsz))
  unfold allocuvm
  rw [if_neg (by omega), if_neg (by omega), pgroundup_eq (by omega)]
  exact allocLoop_returns (Filled.empty (Nat.le_refl _) (Took.refl m)) hs (Nat.le_refl _)
    (roundUp_aligned oldsz) hround hle hnew hclear

/-- Between the two sizes each page is freed once, and none besides. -/
structure Shrunk (m m' : Memory) (d d' : Pgdir) (oldsz newsz : ℕ) : Prop where
  cut : Cut d d' (roundUp newsz) (roundUp oldsz)
  freed : ∃ freed, m'.freelist = freed ++ m.freelist ∧ freed.Nodup ∧ ∀ page, page ∈ freed ↔
    ∃ va e, roundUp newsz ≤ va ∧ va < roundUp oldsz ∧ d.pte va = some e ∧ e.frame = page

theorem deallocuvm_shrinks (hs : Sound K m (d.pages + others)) (hle : newsz ≤ oldsz)
    (hold : oldsz ≤ KERNBASE) :
    Returns (deallocuvm K d oldsz newsz m) fun r m' => r.2 = newsz ∧
      Shrunk m m' d r.1 oldsz newsz := by
  have hdealloc := deallocuvm_returns (m := m) hold hle
    fun va e _ hva he => frames_inside hs (by omega) he
  refine (hdealloc.and (deallocuvm_conserves hold m)).mono fun r w hr => ?_
  obtain ⟨⟨hsz, hgave, hcut, hlist⟩, hconserves⟩ := hr
  have hnodup : (w.freelist : Multiset ℕ).Nodup :=
    (Multiset.nodup_add.mp (hs.of_conserves (hconserves.add others)).nodup).1
  rw [hlist, Multiset.coe_nodup] at hnodup
  refine ⟨hsz, hcut, _, hlist, (List.nodup_append.mp hnodup).1, fun page => ?_⟩
  rw [List.mem_reverse]
  constructor
  · intro h
    obtain ⟨va, e, hlo, hhi, he, hframe⟩ := frames_mem h
    exact ⟨va, e, hlo, hhi, he, hframe⟩
  · rintro ⟨va, e, hlo, hhi, he, rfl⟩
    exact mem_frames (roundUp_aligned newsz) (roundUp_aligned oldsz) hlo hhi he

/-- All is as it was, but for tables that were made on the way. -/
structure Undone (m m' : Memory) (d d' : Pgdir) : Prop where
  pte : ∀ va, va < 2 ^ 32 → d'.pte va = d.pte va
  bytes : ∀ va e, va < KERNBASE → d.pte va = some e → m'.bytes e.frame = m.bytes e.frame
  free : ∀ page ∈ m.freelist, page ∈ m'.freelist ∨
    ∃ i t, d.table i = none ∧ d'.table i = some t ∧ t.page = page

/-- The new pages were free, and now they are zeroed and the user may write them; the size that
was before comes back with deallocuvm. -/
structure Added (K : Kernel) (m m' : Memory) (d d' : Pgdir) (oldsz newsz : ℕ) : Prop where
  old : ∀ va, va < 2 ^ 32 → ¬ (roundUp oldsz ≤ va ∧ va < roundUp newsz) → d'.pte va = d.pte va
  new : ∀ va, roundUp oldsz ≤ va → va < roundUp newsz → ∃ page ∈ m.freelist,
    d'.pte va = some (.mk' page (PTE_W ||| PTE_U)) ∧ ∀ i, m'.bytes page i = 0
  bytes : ∀ va e, va < KERNBASE → d.pte va = some e → m'.bytes e.frame = m.bytes e.frame
  back : ∀ m₁ others, Sound K m₁ (d'.pages + others) →
    Returns (deallocuvm K d' newsz oldsz m₁) fun r m₂ => r.2 = oldsz ∧
      (∀ va, va < 2 ^ 32 → r.1.pte va = d.pte va) ∧ Shrunk m₁ m₂ d' r.1 newsz oldsz

theorem Filled.added (hfilled : Filled zeroed m m' d d' (roundUp oldsz) (roundUp newsz))
    (hs : Sound K m (d.pages + others)) (hle : oldsz ≤ newsz) (hnew : newsz < KERNBASE)
    (hclear : ∀ va, roundUp oldsz ≤ va → va < roundUp newsz → d.pte va = none) :
    Added K m m' d d' oldsz newsz where
  old := hfilled.outside
  new va hlo hhi := by
    obtain ⟨page, hfree, hpte, hbytes⟩ := hfilled.inside va hlo hhi
    exact ⟨page, hfree, hpte, fun i => congrFun hbytes i⟩
  bytes va e hva he := hfilled.took.same _ (frame_not_free hs hva he)
  back m₁ others' hs₁ := by
    have hrestores := deallocuvm_restores hs₁ hle hnew.le hfilled.outside hclear
    refine (hrestores.and (deallocuvm_shrinks hs₁ hle hnew.le)).mono fun r w hr => ?_
    obtain ⟨⟨hsz, _, _, hpte, _⟩, _, hshrunk⟩ := hr
    exact ⟨hsz, hpte, hshrunk⟩

/-- What allocuvm does, wherever kalloc fails. -/
def Reversible (K : Kernel) (m : Memory) (d : Pgdir) (others : Multiset ℕ) (oldsz newsz : ℕ) : Prop :=
  Returns (allocuvm K d oldsz newsz m) fun r m' =>
    Sound K m' (r.1.pages + others) ∧ (∀ page ∈ others, m'.bytes page = m.bytes page) ∧
      (r.2 = 0 ∧ Undone m m' d r.1 ∨ r.2 = newsz ∧ Added K m m' d r.1 oldsz newsz)

/-- A kernel of which the data begin at 0x109000. -/
def linked : Kernel where
  data := 0x109000
  kernelEnd := 0x115000
  above := by decide
  below := by decide
  aligned := by decide
  ends := by decide

/-- A directory without tables. -/
def bare : Pgdir := ⟨0x120, fun _ => none⟩

end Alloc

end NorthOS.Paging
