import Mathlib.Data.List.GetD
import NorthOS.Copyout
import NorthOS.ExecImage

/-!
The stack that exec makes. The strings are pushed one below the other and the vector below them, all
into the one page above the guard page; what does not fit there runs into the guard page or around
the end of memory, and is refused.
-/
namespace NorthOS.Exec

open Halting Halting.Comp LittleEndian Paging
open Fs (Name)
open Vm (PGSIZE KERNBASE PHYSTOP DEVSPACE wrap PDX PTX PGROUNDUP PGROUNDDOWN roundUp roundUp_aligned
  le_roundUp roundUp_le roundUp_le_kernbase pgroundup_eq)

/-- The page below the one of the stack. -/
def Guard (sz va : ℕ) : Prop := sz - 2 * PGSIZE ≤ va ∧ va < sz - PGSIZE

instance (sz va : ℕ) : Decidable (Guard sz va) := inferInstanceAs (Decidable (_ ∧ _))

/-- An address space with a stack page, and below it a page that the user may not use. -/
structure Stack (K : Kernel) (held : Multiset ℕ) (m : Memory) (d : Pgdir) (sz : ℕ) : Prop where
  sound : Sound K m (d.pages + held)
  low : 2 * PGSIZE ≤ sz
  high : sz ≤ KERNBASE
  aligned : sz % PGSIZE = 0
  user : ∀ va, va < KERNBASE → ((d.pte va).isSome ↔ va < sz)
  access : ∀ va e, va < KERNBASE → d.pte va = some e → (e.User ↔ ¬ Guard sz va)
  upper : Upper K d

variable {K : Kernel} {s t u : Sys} {m m' : Memory} {d d' : Pgdir} {held : Multiset ℕ} {e : Pte}
  {a va k page i sz sp used argc : ℕ} {p : List UInt8} {r : ℤ} {ptrs : List ℕ} {argv : List Name}
  {arg : Name}

section Clear

/-- The pages of an address space do not depend on the flags. -/
theorem pages_clearU (ht : (d.table (PDX va)).isSome) (he : d.pte va = some e) :
    (d.setPte va (some e.clearU)).pages = d.pages := by
  obtain ⟨t, ht⟩ := Option.isSome_iff_exists.mp ht
  have htable : d.forget.table (PDX va) = some t.forget := by
    rw [forget_table, ht]
    rfl
  have hpte : d.forget.pte va = some e.frame := by
    rw [forget_pte, he]
    rfl
  have hsum := Vm.pages_setPte htable (some e.frame)
  have hmapped : (d.forget.setPte va (some e.frame)).mapped va = d.forget.mapped va := by
    unfold Vm.Pgdir.mapped
    rw [Vm.pte_setPte htable, hpte]
  rw [hmapped, Multiset.add_left_inj] at hsum
  unfold Pgdir.pages
  rw [forget_setPte]
  exact hsum

/-- The page below the stack page loses its user bit, and no other does. -/
theorem clearpteu_stack (h : Image K held m d sz) (hlow : 2 * PGSIZE ≤ sz) (hal : sz % PGSIZE = 0)
    (hhigh : sz ≤ KERNBASE) :
    Returns (clearpteu d (sz - 2 * PGSIZE) m) fun d' m' => m' = m ∧ Stack K held m d' sz ∧
      d'.pages = d.pages ∧ (∀ i, (d'.table i).isNone = (d.table i).isNone) ∧
      ∀ va, va < 2 ^ 32 → ¬ Guard sz va → d'.pte va = d.pte va := by
  have hround : roundUp sz = sz := by
    unfold roundUp PGSIZE
    unfold PGSIZE at hal
    omega
  have hpos : 0 < PGSIZE := by decide
  have hva : sz - 2 * PGSIZE < KERNBASE := by omega
  have hval : (sz - 2 * PGSIZE) % PGSIZE = 0 := by
    unfold PGSIZE at hal ⊢
    omega
  obtain ⟨e, he⟩ := Option.isSome_iff_exists.mp ((h.user _ hva).mpr (by omega))
  have hwalk := walk_of_pte he
  have htable := (walk_some hwalk).2
  unfold clearpteu
  rw [hwalk]
  have hpages := pages_clearU htable he
  have hpte : ∀ va, va < 2 ^ 32 → (d.setPte (sz - 2 * PGSIZE) (some e.clearU)).pte va =
      if Guard sz va then some e.clearU else d.pte va := by
    intro va hlt
    rw [setPte_page htable hval (by unfold KERNBASE at hva; omega) hlt]
    exact ite_congr (propext (by unfold Guard; omega)) (fun _ => rfl) fun _ => rfl
  have hkernel : ∀ va, KERNBASE ≤ va → ¬ Guard sz va := fun va hle hin => by
    unfold Guard at hin
    omega
  refine ends_pure.mpr ⟨rfl, ⟨?_, hlow, hhigh, hal, fun va hlt => ?_, fun va x hlt hx => ?_, ?_, ?_,
    ?_⟩, hpages, fun i => table_setPte _ i, fun va hlt hout => (hpte va hlt).trans (if_neg hout)⟩
  · show Sound K m ((d.setPte (sz - 2 * PGSIZE) (some e.clearU)).pages + held)
    rw [hpages]
    exact h.sound
  · show (((d.setPte (sz - 2 * PGSIZE) (some e.clearU)).pte va).isSome ↔ va < sz)
    have huser := h.user va hlt
    rw [hround] at huser
    rw [hpte va (by unfold KERNBASE at hlt; omega)]
    split
    · rename_i hin
      refine iff_of_true rfl ?_
      unfold Guard at hin
      omega
    · exact huser
  · have hx' := (hpte va (by unfold KERNBASE at hlt; omega)).symm.trans hx
    by_cases hin : Guard sz va
    · rw [if_pos hin] at hx'
      cases hx'
      refine iff_of_false (fun huser => huser ?_) (not_not.mpr hin)
      unfold Pte.clearU
      dsimp only
      rw [BitVec.and_assoc]
      have hclear : ~~~PTE_U &&& PTE_U = 0 := by decide
      rw [hclear]
      exact BitVec.and_zero
    · rw [if_neg hin] at hx'
      exact iff_of_true (h.access va x hlt hx') hin
  · intro va x hlo hlt hx
    have hx' := (hpte va hlt).symm.trans hx
    rw [if_neg (hkernel va hlo)] at hx'
    exact h.upper.kernel va x hlo hlt hx'
  · intro va hlo hlt hcover
    show ((d.setPte (sz - 2 * PGSIZE) (some e.clearU)).pte va).isSome
    rw [hpte va hlt, if_neg (hkernel va hlo)]
    exact h.upper.present va hlo hlt hcover
  · intro page hlo hhi'
    have hlt : page * PGSIZE + KERNBASE < 2 ^ 32 := by
      unfold PHYSTOP at hhi'
      unfold KERNBASE
      omega
    show (d.setPte (sz - 2 * PGSIZE) (some e.clearU)).pte _ = _
    rw [hpte _ hlt, if_neg (hkernel _ (Nat.le_add_left _ _))]
    exact h.upper.direct page hlo hhi'

end Clear

section Access

theorem Stack.of_sound (h : Stack K held m d sz) (hs : Sound K m' (d.pages + held)) :
    Stack K held m' d sz := ⟨hs, h.low, h.high, h.aligned, h.user, h.access, h.upper⟩

/-- Below its size and outside of the guard page the user has the address space. -/
theorem Stack.userPage_some (h : Stack K held m d sz) (hva : va < sz) (hout : ¬ Guard sz va) :
    ∃ e, d.pte va = some e ∧ d.userPage va = some e.frame := by
  have hlt : va < KERNBASE := hva.trans_le h.high
  obtain ⟨e, he⟩ := Option.isSome_iff_exists.mp ((h.user va hlt).mpr hva)
  refine ⟨e, he, ?_⟩
  unfold Pgdir.userPage userFrame
  rw [he]
  exact if_pos ((h.access va e hlt he).mpr hout)

theorem Stack.userPage_none (h : Stack K held m d sz) (hva : va < 2 ^ 32)
    (hout : Guard sz va ∨ sz ≤ va) : d.userPage va = none := by
  unfold Pgdir.userPage userFrame
  cases he : d.pte va with
  | none => rfl
  | some e =>
    refine if_neg fun huser => ?_
    by_cases hlt : va < KERNBASE
    · have hin := (h.user va hlt).mp (Option.isSome_of_eq_some he)
      rcases hout with hguard | hge
      · exact (h.access va e hlt he).mp huser hguard
      · omega
    · exact h.upper.kernel va e (by omega) hva he huser

theorem Stack.userPage_mem (h : Stack K held m d sz) (hva : va < 2 ^ 32)
    (hpage : d.userPage va = some page) :
    va < sz ∧ ¬ Guard sz va ∧ ∃ e, d.pte va = some e ∧ e.frame = page := by
  by_cases hout : Guard sz va ∨ sz ≤ va
  · rw [h.userPage_none hva hout] at hpage
    cases hpage
  · obtain ⟨hguard, hlt⟩ := not_or.mp hout
    obtain ⟨e, he, hsome⟩ := h.userPage_some (by omega) hguard
    rw [hsome] at hpage
    exact ⟨by omega, hguard, e, he, Option.some.inj hpage⟩

theorem Stack.table (h : Stack K held m d sz) (hva : va < 2 ^ 32) (hin : va < sz ∨ DEVSPACE ≤ va) :
    (d.table (PDX va)).isSome := by
  have hsome : (d.pte va).isSome := by
    rcases hin with hlt | hge
    · exact (h.user va (hlt.trans_le h.high)).mpr hlt
    · exact h.upper.present va (by unfold KERNBASE; unfold DEVSPACE at hge; omega) hva (.inr hge)
  obtain ⟨e, he⟩ := Option.isSome_iff_exists.mp hsome
  exact (walk_some (walk_of_pte he)).2

/-- No byte of memory is at two user addresses. -/
theorem Stack.place_unique (h : Stack K held m d sz) {va' : ℕ} (hva : va < 2 ^ 32)
    (hva' : va' < 2 ^ 32) (hpage : d.userPage va = some page) (hpage' : d.userPage va' = some page)
    (hoff : va % PGSIZE = va' % PGSIZE) : va = va' := by
  obtain ⟨hlt, _, e, he, hframe⟩ := h.userPage_mem hva hpage
  obtain ⟨hlt', _, e', he', hframe'⟩ := h.userPage_mem hva' hpage'
  have hhigh := h.high
  have hdiv := frame_unique (Multiset.nodup_add.mp (Multiset.nodup_add.mp h.sound.nodup).2.1).1 he
      he'
    (by omega) (by omega) (hframe.trans hframe'.symm)
  rw [← Nat.div_add_mod va PGSIZE, ← Nat.div_add_mod va' PGSIZE, hdiv, hoff]

theorem Stack.consistent (h : Stack K held m d sz) (va : ℕ) (hlen : p.length ≤ 2 ^ 32) :
    Consistent d va p := by
  rintro _ j k page i hj hk ⟨hpage, hi⟩ ⟨hpage', hi'⟩
  have hwrap : ∀ n, wrap n < 2 ^ 32 := fun n => Nat.mod_lt _ (by decide)
  have hsame := h.place_unique (hwrap _) (hwrap _) hpage hpage' (hi.symm.trans hi')
  have heq : j = k := by
    unfold wrap at hsame
    omega
  rw [heq]

/-- Only pages of the address space are written. -/
theorem Stack.reads (h : Stack K held s.mem d sz) (hcopied : Copied d va p s.mem r m)
    (hlists : SameLists s.mem m) : Reads d s { s with mem := m } where
  proc := rfl
  ops := rfl
  use := Fs.use_composes.refl s.fs
  freelist := hlists.freelist
  only page hpage := by
    funext i
    by_contra hne
    obtain ⟨k, _, hsome, _⟩ := hcopied.only page i hne
    obtain ⟨hlt, _, e, he, rfl⟩ := h.userPage_mem (Nat.mod_lt _ (by decide)) hsome
    exact hpage (frame_mem he (hlt.trans_le h.high))
  cr3 := hlists.cr3

theorem copyout_ends {bad : Stop → Prop} (h : Stack K held s.mem d sz)
    (hwalk : Walkable d va p.length)
    (hlen : p.length ≤ 2 ^ 32) : Ends bad (onMem (copyout d va p) s) fun r t =>
      Copied d va p s.mem r t.mem ∧ Reads d s t := by
  obtain ⟨r, m, hrun, hcopied⟩ := hwalk.copies (h.consistent va hlen) s.mem
  have hlists := (copyout_writes va p s.mem).of_ok hrun
  refine ends_onMem ?_
  rw [hrun]
  exact ⟨hcopied, h.reads hcopied hlists⟩

/-- A byte that the user may not use is not written, and copyout fails. -/
theorem copyout_refused (s : Sys) (va : ℕ) (p : List UInt8) :
    Gives (onMem (copyout d va p) s) fun r _ => (r = 0 ∨ r = -1) ∧ (r = 0 → ∀ k, k < p.length →
      (d.table (PDX (wrap (va + k)))).isSome → (d.userPage (wrap (va + k))).isSome) :=
  gives_onMem (copyout_zero va p s.mem)

end Access

section Peek

/-- What user code reads at an address. -/
def peek (d : Pgdir) (m : Memory) (va : ℕ) : Option UInt8 :=
  (d.userPage va).map fun page => m.bytes page (va % PGSIZE)

def Holds (d : Pgdir) (m : Memory) (va : ℕ) (p : List UInt8) : Prop :=
  ∀ k, k < p.length → peek d m (va + k) = some (p.getD k 0)

theorem copied_holds (hfit : va + p.length ≤ 2 ^ 32) (h : Copied d va p m 0 m') :
    Holds d m' va p := by
  intro k hk
  have hwrap : wrap (va + k) = va + k := Nat.mod_eq_of_lt (by omega)
  rcases h.result with ⟨_, hcov⟩ | ⟨hr, _⟩
  · obtain ⟨page, hpage⟩ := Option.isSome_iff_exists.mp (hcov k hk)
    have hbyte := h.holds rfl k page _ hk ⟨hpage, rfl⟩
    rw [hwrap] at hpage hbyte
    unfold peek
    rw [hpage, Option.map_some, hbyte]
  · exact absurd hr (by decide)

theorem copied_frame (h : Stack K held m d sz) (hfit : va + p.length ≤ 2 ^ 32)
    (hc : Copied d va p m r m') (ha : a < 2 ^ 32) (hout : ¬ (va ≤ a ∧ a < va + p.length)) :
    peek d m' a = peek d m a := by
  unfold peek
  cases hpage : d.userPage a with
  | none => rfl
  | some page =>
    have hsame : m'.bytes page (a % PGSIZE) = m.bytes page (a % PGSIZE) := by
      by_contra hne
      obtain ⟨k, hk, hpage', hoff⟩ := hc.only page _ hne
      have hwrap : wrap (va + k) = va + k := Nat.mod_eq_of_lt (by omega)
      rw [hwrap] at hpage' hoff
      have := h.place_unique ha (by omega) hpage hpage' hoff
      omega
    rw [Option.map_some, Option.map_some, hsame]

/-- What a range holds does not change where it is not written. -/
theorem Holds.keep (h : Holds d m va p) (hsame : ∀ a, va ≤ a → a < va + p.length →
    peek d m' a = peek d m a) : Holds d m' va p := by
  intro k hk
  rw [hsame _ (Nat.le_add_right _ _) (by omega)]
  exact h k hk

end Peek

section Push

/-- What a string takes of the stack. -/
def span (arg : Name) : ℕ := (arg.length + 4) / 4 * 4

def need (argv : List Name) : ℕ := (argv.map span).sum

theorem pushed_eq (hal : sp % 4 = 0) (hlt : sp < 2 ^ 32) (h : span arg ≤ sp) :
    pushed sp arg = sp - span arg := by
  unfold span at h
  unfold pushed wrap span
  have hsub : sp + 2 ^ 32 - (arg.length + 1) = sp - (arg.length + 1) + 2 ^ 32 := by omega
  rw [hsub, Nat.add_mod_right, Nat.mod_eq_of_lt (by omega)]
  omega

/-- Around the end of memory. -/
theorem pushed_wrap (hal : sp % 4 = 0) (h : sp < span arg) (hspan : span arg ≤ 2 ^ 32) :
    pushed sp arg = sp + 2 ^ 32 - span arg := by
  unfold span at h hspan
  unfold pushed wrap span
  rw [Nat.mod_eq_of_lt (by omega)]
  omega

/-- A string that does not fit on the page runs over a byte that the user may not use. -/
theorem pushed_unfit (h : Stack K held m d sz) (hal : sp % 4 = 0) (hlo : sz - PGSIZE ≤ sp)
    (hhi : sp ≤ sz) (hunfit : sp < sz - PGSIZE + span arg) (hspan : span arg ≤ 2 ^ 32) :
    ∃ k, k < arg.length + 1 ∧ (d.table (PDX (wrap (pushed sp arg + k)))).isSome ∧
      d.userPage (wrap (pushed sp arg + k)) = none := by
  have hlow := h.low
  have hhigh := h.high
  have haligned := h.aligned
  unfold KERNBASE at hhigh
  unfold PGSIZE at hlo hunfit hlow haligned
  have hlength : arg.length + 1 ≤ span arg ∧ span arg ≤ arg.length + 4 := by
    unfold span
    omega
  have hspan4 : span arg % 4 = 0 := Nat.mul_mod_left _ _
  by_cases hwrap : span arg ≤ sp
  · rw [pushed_eq hal (by omega) hwrap]
    refine ⟨sz - 4096 - 4 - (sp - span arg), by omega, ?_⟩
    have haddr : wrap (sp - span arg + (sz - 4096 - 4 - (sp - span arg))) = sz - 4096 - 4 := by
      unfold wrap
      omega
    rw [haddr]
    refine ⟨h.table (by omega) (.inl (by omega)), h.userPage_none (by omega) (.inl ?_)⟩
    unfold Guard PGSIZE
    omega
  · rw [pushed_wrap hal (by omega) hspan]
    refine ⟨2 ^ 32 - 4 - (sp + 2 ^ 32 - span arg), by omega, ?_⟩
    have haddr : wrap (sp + 2 ^ 32 - span arg + (2 ^ 32 - 4 - (sp + 2 ^ 32 - span arg))) =
        2 ^ 32 - 4 := by
      unfold wrap
      omega
    rw [haddr]
    refine ⟨h.table (by omega) (.inr ?_), h.userPage_none (by omega) (.inr (by omega))⟩
    unfold DEVSPACE
    omega

/-- The page tables are there below the size and, for what reaches around, from DEVSPACE on. -/
theorem pushed_walkable (h : Stack K held m d sz) (hal : sp % 4 = 0) (hhi : sp ≤ sz)
    (hreach : span arg ≤ sp ∨ DEVSPACE + span arg ≤ sp + 2 ^ 32) :
    Walkable d (pushed sp arg) (arg.length + 1) := by
  have hlow := h.low
  have hhigh := h.high
  unfold KERNBASE at hhigh
  unfold PGSIZE at hlow
  have hlength : arg.length + 1 ≤ span arg := by
    unfold span
    omega
  by_cases hwrap : span arg ≤ sp
  · rw [pushed_eq hal (by omega) hwrap]
    intro k hk _
    have haddr : wrap (sp - span arg + k) = sp - span arg + k := Nat.mod_eq_of_lt (by omega)
    rw [haddr]
    exact h.table (by omega) (.inl (by omega))
  · have hdev : DEVSPACE + span arg ≤ sp + 2 ^ 32 := hreach.resolve_left hwrap
    unfold DEVSPACE at hdev
    rw [pushed_wrap hal (by omega) (by omega)]
    intro k hk hcov
    by_cases hk0 : k = 0
    · have haddr : wrap (sp + 2 ^ 32 - span arg + k) = sp + 2 ^ 32 - span arg := by
        unfold wrap
        omega
      rw [haddr]
      exact h.table (by omega) (.inr (by unfold DEVSPACE; omega))
    · -- the first byte is in the kernel's part already
      have hfirst := hcov 0 (by omega)
      have haddr : wrap (sp + 2 ^ 32 - span arg + 0) = sp + 2 ^ 32 - span arg := by
        unfold wrap
        omega
      rw [haddr, h.userPage_none (by omega) (.inr (by omega))] at hfirst
      exact absurd hfirst Bool.false_ne_true

/-- Where the strings go, one below the other. -/
def places : ℕ → List Name → List ℕ
  | _, [] => []
  | sp, arg :: argv => (sp - span arg) :: places (sp - span arg) argv

theorem places_length (sp : ℕ) (argv : List Name) : (places sp argv).length = argv.length := by
  induction argv generalizing sp with
  | nil => rfl
  | cons arg argv ih =>
    unfold places
    rw [List.length_cons, List.length_cons, ih]

/-- The strings lie between the new stack pointer and the old one, and nothing else was written. -/
structure Pushed (d : Pgdir) (sz argc sp : ℕ) (argv : List Name) (ptrs : List ℕ) (m m' : Memory)
    (sp' : ℕ) (ptrs' : List ℕ) : Prop where
  count : argc + argv.length ≤ MAXARG
  fits : sz - PGSIZE + need argv ≤ sp
  top : sp' = sp - need argv
  pointers : ptrs' = ptrs ++ places sp argv
  strings : ∀ q ∈ (places sp argv).zip argv, sp' ≤ q.1 ∧ q.1 + q.2.length + 1 ≤ sp ∧
    Holds d m' q.1 (q.2 ++ [0])
  frame : ∀ a, a < 2 ^ 32 → ¬ (sp' ≤ a ∧ a < sp) → peek d m' a = peek d m a

theorem span_mod (arg : Name) : span arg % 4 = 0 := Nat.mul_mod_left _ _

theorem length_lt_span (arg : Name) : arg.length + 1 ≤ span arg := by
  unfold span
  omega

/-- One string is written, and then the rest below it. -/
theorem Pushed.cons (h : Stack K held m d sz) {m₁ : Memory} {sp' : ℕ} {ptrs' : List ℕ}
    (hhi : sp ≤ sz) (hfit : span arg ≤ sp) (hcopied : Copied d (sp - span arg) (arg ++ [0]) m 0 m₁)
    (hrest : Pushed d sz (argc + 1) (sp - span arg) argv (ptrs ++
      [sp - span arg]) m₁ m' sp' ptrs') :
    Pushed d sz argc sp (arg :: argv) ptrs m m' sp' ptrs' := by
  have hlength := length_lt_span arg
  have hhigh := h.high
  unfold KERNBASE at hhigh
  have hneed : need (arg :: argv) = span arg + need argv := List.sum_cons
  have hsp := hrest.top
  have hfits := hrest.fits
  have hlen : (arg ++ [0]).length = arg.length + 1 := List.length_append
  have hholds := copied_holds (by rw [hlen]; omega) hcopied
  refine ⟨?_, by omega, by omega, ?_, ?_, fun a ha hout => ?_⟩
  · have hcount := hrest.count
    rw [List.length_cons]
    omega
  · rw [hrest.pointers, List.append_assoc]
    rfl
  · intro q hq
    rcases List.mem_cons.mp hq with rfl | hq
    · refine ⟨by omega, by dsimp only; omega, hholds.keep fun a hlo hhi' => ?_⟩
      rw [hlen] at hhi'
      exact hrest.frame a (by omega) (by omega)
    · obtain ⟨hlo, hhi', hq'⟩ := hrest.strings q hq
      exact ⟨hlo, by omega, hq'⟩
  · rw [hrest.frame a ha (by omega)]
    exact copied_frame h (by rw [hlen]; omega) hcopied ha (by rw [hlen]; omega)

/-- Where pushArgs comes to the end, all strings are on the page. -/
theorem pushArgs_gives (h : Stack K held s.mem d sz) (hal : sp % 4 = 0) (hlo : sz - PGSIZE ≤ sp)
    (hhi : sp ≤ sz) (hargc : argc ≤ MAXARG) (hshort : ∀ arg ∈ argv, arg.length < KERNBASE) :
    Gives (pushArgs d argv argc sp ptrs s) fun r t => ∀ sp' ptrs', r = some (sp', ptrs') →
      Reads d s t ∧ Pushed d sz argc sp argv ptrs s.mem t.mem sp' ptrs' := by
  induction argv generalizing s sp argc ptrs with
  | nil =>
    refine ends_pure.mpr ?_
    rintro _ _ ⟨⟩
    have hneed : need [] = 0 := rfl
    refine ⟨Reads.refl d s, ⟨hargc, by omega, by omega, ?_, ?_, ?_⟩⟩
    · exact (List.append_nil ptrs).symm
    · exact fun q hq => absurd hq List.not_mem_nil
    · exact fun _ _ _ => rfl
  | cons arg argv ih =>
    unfold pushArgs
    split
    · exact ends_pure.mpr nofun
    rename_i hcount
    have hhigh := h.high
    have hlow := h.low
    have hlong := hshort arg List.mem_cons_self
    have hlength := length_lt_span arg
    have hmod := span_mod arg
    have hspan : span arg ≤ 2 ^ 32 := by
      unfold span
      unfold KERNBASE at hlong
      omega
    have hlen : (arg ++ [0]).length = arg.length + 1 := List.length_append
    unfold KERNBASE at hhigh
    by_cases hfit : sz - PGSIZE + span arg ≤ sp
    · have hwalk : Walkable d (pushed sp arg) (arg.length + 1) :=
        pushed_walkable h hal hhi (.inl (by omega))
      rw [← hlen] at hwalk
      refine Ends.bind (copyout_ends h hwalk (by omega)) fun r t _ ht => ?_
      obtain ⟨hcopied, hreads⟩ := ht
      split
      · exact ends_pure.mpr nofun
      rename_i hr
      have hzero : r = 0 := by
        rcases hcopied.result with ⟨hr', _⟩ | ⟨hr', _⟩
        · exact hr'
        · omega
      rw [hzero, pushed_eq hal (by omega) (by omega)] at hcopied
      rw [pushed_eq hal (by omega) (by omega)]
      have hstack := h.of_sound (sound_of_freelist hreads.freelist h.sound)
      refine (ih hstack (by omega) (by omega) (by omega) (by omega) fun x hx =>
        hshort x (List.mem_cons_of_mem arg hx)).mono fun r u hu sp' ptrs' heq => ?_
      obtain ⟨hreads', hpushed⟩ := hu sp' ptrs' heq
      exact ⟨hreads.trans hreads', hpushed.cons h hhi (by omega) hcopied⟩
    · -- it does not fit, and copyout says so
      obtain ⟨k, hk, htable, hnone⟩ := pushed_unfit h hal hlo hhi (by omega) hspan
      refine Ends.bind (copyout_refused s (pushed sp arg) (arg ++ [0])) fun r t _ ht => ?_
      split
      · exact ends_pure.mpr nofun
      rename_i hr
      have hzero : r = 0 := ht.1.resolve_right fun hr' => hr (by rw [hr']; decide)
      have hsome := ht.2 hzero k (by rw [hlen]; exact hk) htable
      rw [hnone] at hsome
      exact absurd hsome Bool.false_ne_true

end Push

section Vector

theorem word_length (w : ℕ) : (word w).length = 4 := rfl

theorem words_length (ws : List ℕ) : (ws.flatMap word).length = 4 * ws.length := by
  induction ws with
  | nil => rfl
  | cons w ws ih =>
    rw [List.flatMap_cons, List.length_append, ih, word_length, List.length_cons]
    omega

theorem ustack_length (sp : ℕ) (ptrs : List ℕ) : (ustack sp ptrs).length = ptrs.length + 4 := by
  unfold ustack
  rw [List.length_append, List.length_append]
  exact (Nat.add_right_comm 3 ptrs.length 1).trans (Nat.add_comm 4 ptrs.length)

/-- Each word of a vector is where it is to be. -/
theorem Holds.word {ws : List ℕ} {w j : ℕ} (h : Holds d m va (ws.flatMap word))
    (hw : ws[j]? = some w) : Holds d m (va + 4 * j) (Exec.word w) := by
  induction ws generalizing va j with
  | nil => cases hw
  | cons x ws ih =>
    have hlen : ((x :: ws).flatMap Exec.word).length = 4 + (ws.flatMap Exec.word).length := by
      rw [List.flatMap_cons, List.length_append, word_length]
    cases j with
    | zero =>
      obtain rfl := Option.some.inj hw
      intro k hk
      rw [word_length] at hk
      have hbyte := h k (by omega)
      rw [List.flatMap_cons, List.getD_append _ _ _ _ (by rw [word_length]; exact hk)] at hbyte
      rw [Nat.mul_zero, Nat.add_zero]
      exact hbyte
    | succ j =>
      have hrest : Holds d m (va + 4) (ws.flatMap Exec.word) := by
        intro k hk
        have hbyte := h (4 + k) (by omega)
        rw [List.flatMap_cons, List.getD_append_right _ _ _ _ (by rw [word_length]; omega),
          word_length, Nat.add_sub_cancel_left, ← Nat.add_assoc] at hbyte
        exact hbyte
      have hj := ih hrest hw
      rw [Nat.add_assoc] at hj
      rw [Nat.mul_succ, Nat.add_comm (4 * j)]
      exact hj

/-- The strings and the vector are on the page, and nothing else was written. -/
structure Written (d : Pgdir) (sz : ℕ) (argv : List Name) (m m' : Memory) (esp : ℕ) : Prop where
  count : argv.length ≤ MAXARG
  fits : need argv + 4 * (argv.length + 4) ≤ PGSIZE
  top : esp = sz - need argv - 4 * (argv.length + 4)
  vector : Holds d m' esp ((ustack (sz - need argv) (places sz argv)).flatMap word)
  strings : ∀ q ∈ (places sz argv).zip argv, sz - need argv ≤ q.1 ∧ q.1 + q.2.length + 1 ≤ sz ∧
    Holds d m' q.1 (q.2 ++ [0])
  frame : ∀ a, a < 2 ^ 32 → ¬ (esp ≤ a ∧ a < sz) → peek d m' a = peek d m a

/-- Where the vector begins. -/
theorem vector_start {n : ℕ} (hn : n ≤ MAXARG) (hlt : sp < 2 ^ 32) (hpos : PGSIZE ≤ sp) :
    wrap (sp + 2 ^ 32 - (3 + n + 1) * 4) = sp - 4 * (n + 4) := by
  unfold MAXARG at hn
  unfold PGSIZE at hpos
  unfold wrap
  omega

/-- The vector lies below the size, whatever was pushed before. -/
theorem vector_walkable (h : Stack K held m d sz) {n : ℕ} (hn : n ≤ MAXARG) (hpos : PGSIZE ≤ sp)
    (hhi : sp ≤ sz) : Walkable d (sp - 4 * (n + 4)) (4 * (n + 4)) := by
  have hhigh := h.high
  unfold KERNBASE at hhigh
  unfold MAXARG at hn
  unfold PGSIZE at hpos
  intro k hk _
  have haddr : wrap (sp - 4 * (n + 4) + k) = sp - 4 * (n + 4) + k := Nat.mod_eq_of_lt (by omega)
  rw [haddr]
  exact h.table (by omega) (.inl (by omega))

end Vector

end NorthOS.Exec
