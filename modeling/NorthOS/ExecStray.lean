import NorthOS.ExecFailure
import NorthOS.Supply

/-!
What becomes of a string that begins around the end of memory below the devices. There are no page
tables there, and copyout takes the word at address 0 of the process for the entry of each page, up to
the devices, where it fails. By then it has written the page that the word names.
-/
namespace NorthOS.Exec

open Halting Halting.Comp LittleEndian Paging
open Fs (Name)
open Vm (PGSIZE NPDENTRIES KERNBASE PHYSTOP DEVSPACE wrap PDX PGROUNDDOWN roundUp)

/-- The word at address 0 of the page table in use, in page `f`, reads as an entry for page `v`, and the
kernel writes that page. -/
structure Lured (m : Memory) (f v : ℕ) : Prop where
  zero : ∃ e, m.cr3.pte 0 = some e ∧ e.frame = f
  entry : ∃ e, Pte.ofWord (get (m.bytes f) 0 4) = some e ∧ e.User ∧ e.frame = v
  kernel : m.cr3.pte (wrap (v * PGSIZE + KERNBASE)) = some (.mk' v PTE_W)
  apart : v ≠ f

/-- No page tables between the kernel's memory and the devices. -/
def Hole (d : Pgdir) : Prop :=
  ∀ va, KERNBASE + PHYSTOP ≤ va → va < DEVSPACE → d.table (PDX va) = none

variable {K : Kernel} {s t u : Sys} {m m' : Memory} {d d' : Pgdir} {held others : Multiset ℕ}
  {f v va sz sp argc : ℕ} {p : List UInt8} {ptrs : List ℕ} {argv : List Name} {arg path : Name}

section Copying

theorem Lured.keep (h : Lured m f v) (hcr3 : m'.cr3 = m.cr3) (hbytes : m'.bytes f = m.bytes f) :
    Lured m' f v := by
  obtain ⟨hzero, hentry, hkernel, hapart⟩ := h
  rw [← hcr3] at hzero hkernel
  rw [← hbytes] at hentry
  exact ⟨hzero, hentry, hkernel, hapart⟩

/-- One page of a range that has no page table. -/
theorem copyout_lured (h : Lured m f v) (hp : p ≠ []) (ht : d.table (PDX (PGROUNDDOWN va)) = none) :
    copyout d va p m = copyout d (next va) (p.drop (min (room va) p.length))
      ({ m with nulls := m.nulls + 1 }.write v (va - PGROUNDDOWN va)
        (p.take (min (room va) p.length))) := by
  obtain ⟨e, he, hframe⟩ := h.zero
  obtain ⟨x, hx, huser, hv⟩ := h.entry
  have hwalk : d.walk (PGROUNDDOWN va) = none := by
    unfold Pgdir.walk
    rw [ht]
    rfl
  have hnull : nullEntry m = .ok (some x, { m with nulls := m.nulls + 1 }) := by
    unfold nullEntry
    rw [bind_of_ok (t := { m with nulls := m.nulls + 1 }) rfl,
      bind_of_ok (a := { m with nulls := m.nulls + 1 }) (t := { m with nulls := m.nulls + 1 }) rfl]
    dsimp only
    rw [he]
    dsimp only
    rw [hframe, hx]
    rfl
  have hpage : kernelPage v { m with nulls := m.nulls + 1 } = .ok
      (v, { m with nulls := m.nulls + 1 }) := by
    unfold kernelPage
    rw [bind_of_ok (a := { m with nulls := m.nulls + 1 })
      (t := { m with nulls := m.nulls + 1 }) rfl]
    dsimp only
    rw [h.kernel]
    have hwritable : (PTE_W ||| PTE_P) &&& PTE_W ≠ 0 := by decide
    exact congrFun (if_neg hwritable) _
  have huva : uva2ka d (PGROUNDDOWN va) m = .ok (some v, { m with nulls := m.nulls + 1 }) := by
    unfold uva2ka
    rw [hwalk]
    dsimp only
    rw [bind_of_ok hnull]
    have hsome : userFrame (some x) = some v := by
      unfold userFrame
      rw [Option.bind_some, if_pos huser, hv]
    rw [hsome]
    dsimp only
    rw [bind_of_ok hpage]
    rfl
  rw [copyout_cons hp, bind_of_ok huva]
  rfl

/-- What copyout has written when it comes to the devices and fails. -/
structure Spilt (m m' : Memory) (v : ℕ) (last : UInt8) : Prop where
  freelist : m'.freelist = m.freelist
  cr3 : m'.cr3 = m.cr3
  other : ∀ q, q ≠ v → m'.bytes q = m.bytes q
  last : m'.bytes v (PGSIZE - 1) = last

theorem copyout_spills (h : Lured m f v) (hhole : Hole d) (hdev : (d.table (PDX DEVSPACE)).isSome)
    (hnone : d.userPage DEVSPACE = none) (hlo : KERNBASE + PHYSTOP ≤ va) (hhi : va < DEVSPACE)
    (hp : DEVSPACE < va + p.length) :
    ∃ m', copyout d va p m = .ok (-1, m') ∧ Spilt m m' v (p.getD (DEVSPACE - 1 - va) 0) := by
  induction hn : DEVSPACE - va using Nat.strong_induction_on generalizing va p m with
  | _ n ih =>
    have hne : p ≠ [] := by
      rintro rfl
      rw [List.length_nil] at hp
      omega
    have hground : KERNBASE + PHYSTOP ≤ PGROUNDDOWN va ∧ PGROUNDDOWN va < DEVSPACE := by
      unfold PGROUNDDOWN PGSIZE
      unfold KERNBASE PHYSTOP at hlo ⊢
      omega
    have hstep : next va = va + room va ∧ next va ≤ DEVSPACE ∧
        (va - PGROUNDDOWN va) + room va = PGSIZE := by
      unfold next room PGROUNDDOWN wrap PGSIZE
      unfold DEVSPACE at hhi ⊢
      omega
    have hpos := room_pos va
    have hmin : min (room va) p.length = room va := by omega
    have hlen : (p.take (room va)).length = room va := by
      rw [List.length_take]
      exact hmin
    rw [copyout_lured h hne (hhole _ hground.1 hground.2), hmin]
    generalize hw : { m with nulls := m.nulls + 1 }.write v (va - PGROUNDDOWN va)
      (p.take (room va)) = w
    have hother : ∀ q, q ≠ v → w.bytes q = m.bytes q := by
      intro q hq
      rw [← hw]
      exact Function.update_of_ne hq ..
    have hcr3 : w.cr3 = m.cr3 := by
      rw [← hw]
      rfl
    have hfreelist : w.freelist = m.freelist := by
      rw [← hw]
      rfl
    by_cases hend : next va = DEVSPACE
    · have hrest : p.drop (room va) ≠ [] := by
        intro hnil
        have hzero := congrArg List.length hnil
        rw [List.length_drop, List.length_nil] at hzero
        omega
      have hdown : PGROUNDDOWN DEVSPACE = DEVSPACE := by decide
      refine ⟨w, ?_, hfreelist, hcr3, hother, ?_⟩
      · rw [hend]
        exact copyout_blocked hrest (by rw [hdown]; exact hdev) (by rw [hdown]; exact hnone)
      · have hin : va - PGROUNDDOWN va ≤ PGSIZE - 1 ∧
            PGSIZE - 1 < va - PGROUNDDOWN va + (p.take (room va)).length := by omega
        have hlast : PGSIZE - 1 - (va - PGROUNDDOWN va) = DEVSPACE - 1 - va := by omega
        rw [← hw, write_self hin, getD_take (by omega), hlast]
    · have hlo' : KERNBASE + PHYSTOP ≤ next va := by omega
      have hhi' : next va < DEVSPACE := by omega
      have hp' : DEVSPACE < next va + (p.drop (room va)).length := by
        rw [List.length_drop]
        omega
      have hlast : DEVSPACE - 1 - next va + room va = DEVSPACE - 1 - va := by omega
      obtain ⟨m', hrun, hspilt⟩ :=
        ih _ (by omega) (h.keep hcr3 (hother f h.apart.symm)) hlo' hhi' hp' rfl
      refine ⟨m', hrun, hspilt.freelist.trans hfreelist, hspilt.cr3.trans hcr3, fun q hq =>
        (hspilt.other q hq).trans (hother q hq), ?_⟩
      rw [hspilt.last, getD_drop, hlast]

end Copying

section Stack

/-- The place of a string that strays. -/
theorem stray_place (hal : sp % 4 = 0) (hhi : sp ≤ 2 * PGSIZE) (hbound : arg.length < PHYSTOP)
    (hlong : 2 * PGSIZE + (2 ^ 32 - DEVSPACE) < 2 * PGSIZE - sp + span arg) :
    KERNBASE + PHYSTOP ≤ pushed sp arg ∧ pushed sp arg < DEVSPACE ∧
      DEVSPACE ≤ pushed sp arg + arg.length := by
  have hspan : arg.length + 1 ≤ span arg ∧ span arg ≤ arg.length + 4 := by
    unfold span
    omega
  unfold PHYSTOP at hbound
  unfold DEVSPACE PGSIZE at hlong
  unfold PGSIZE at hhi
  rw [pushed_wrap hal (by omega) (by omega)]
  unfold KERNBASE PHYSTOP DEVSPACE
  omega

/-- The string that strays is copied into the page that the word at address 0 names. -/
theorem pushArgs_strays {bad : Stop → Prop} (h : Stack K held s.mem d (2 * PGSIZE)) (hhole : Hole d)
    (hlured : Lured s.mem f v) (hf : f ∈ held) (hal : sp % 4 = 0) (hlo : PGSIZE ≤ sp)
    (hhi : sp ≤ 2 * PGSIZE) (hstray : StrayFrom argc (2 * PGSIZE - sp) argv)
    (hbound : ∀ arg ∈ argv, arg.length < PHYSTOP ∧ 0 ∉ arg) :
    Ends bad (pushArgs d argv argc sp ptrs s) fun r t => r = none ∧
      t.mem.freelist = s.mem.freelist ∧ t.mem.bytes v (PGSIZE - 1) ≠ 0 := by
  induction argv generalizing s sp argc ptrs with
  | nil => exact hstray.elim
  | cons arg argv ih =>
    unfold StrayFrom at hstray
    obtain ⟨hargc, hcase⟩ := hstray
    have hlen : (arg ++ [0]).length = arg.length + 1 := List.length_append
    obtain ⟨hshort, hnul⟩ := hbound arg List.mem_cons_self
    unfold pushArgs
    rw [if_neg (Nat.not_le_of_lt hargc)]
    by_cases hlong : 2 * PGSIZE + (2 ^ 32 - DEVSPACE) < 2 * PGSIZE - sp + span arg
    · obtain ⟨hplace, hbelow, hreach⟩ := stray_place hal hhi hshort hlong
      have hdev : DEVSPACE < 2 ^ 32 := by decide
      obtain ⟨m', hrun, hspilt⟩ := copyout_spills hlured hhole (h.table hdev (.inr (Nat.le_refl _)))
        (h.userPage_none hdev (.inr (by decide))) hplace hbelow (p := arg ++ [0]) (by omega)
      have hin : DEVSPACE - 1 - pushed sp arg < arg.length := by omega
      refine Ends.bind (ends_onMem (Q := fun r t => r = -1 ∧ t = { s with mem := m' }) ?_)
        fun r t _ ht => ?_
      · rw [hrun]
        exact ⟨rfl, rfl⟩
      obtain ⟨rfl, rfl⟩ := ht
      refine ends_pure.mpr ⟨rfl, hspilt.freelist, ?_⟩
      show m'.bytes v (PGSIZE - 1) ≠ 0
      rw [hspilt.last, List.getD_append _ _ _ _ hin, List.getD_eq_getElem _ _ hin]
      exact fun hzero => hnul (hzero ▸ List.getElem_mem hin)
    · obtain ⟨hfit, hrest⟩ := hcase.resolve_left hlong
      have hlength := length_lt_span arg
      have hmod := span_mod arg
      have hpage : PGSIZE = 4096 := rfl
      have hspan : span arg ≤ sp := by omega
      have hwalk : Walkable d (pushed sp arg) (arg ++ [0]).length := by
        rw [hlen]
        exact pushed_walkable h hal hhi (.inl hspan)
      rw [pushed_eq hal (by omega) hspan] at hwalk ⊢
      refine Ends.bind (copyout_ends h hwalk (by omega)) fun r t _ ht => ?_
      obtain ⟨hcopied, hreads⟩ := ht
      have hcovered : d.Covered (sp - span arg) (arg ++ [0]).length := by
        intro k hk
        have haddr : wrap (sp - span arg + k) = sp - span arg + k := Nat.mod_eq_of_lt (by omega)
        have hbelow : sp - span arg + k < 2 * PGSIZE := by omega
        have hguard : ¬ Guard (2 * PGSIZE) (sp - span arg + k) := by
          unfold Guard
          omega
        obtain ⟨e, _, hsome⟩ := h.userPage_some hbelow hguard
        rw [haddr, hsome]
        rfl
      have hzero : r = 0 := by
        rcases hcopied.result with ⟨hr, _⟩ | ⟨_, hcov⟩
        · exact hr
        · exact absurd hcovered hcov
      have hmem : f ∉ d.pages := by
        have hdisjoint := (Multiset.nodup_add.mp (Multiset.nodup_add.mp h.sound.nodup).2.1).2.2
        exact fun hc => Multiset.disjoint_left.mp hdisjoint hc hf
      have hstack := h.of_sound (sound_of_freelist hreads.freelist h.sound)
      have hused : 2 * PGSIZE - (sp - span arg) = 2 * PGSIZE - sp + span arg := by omega
      rw [if_neg (by rw [hzero]; decide)]
      refine (ih hstack (hlured.keep hreads.cr3 (hreads.only f hmem)) (by omega) (by omega)
        (by omega)
        (by rw [hused]; exact hrest) fun x hx => hbound x (List.mem_cons_of_mem arg hx)).mono
        fun r u hu => ⟨hu.1, hu.2.1.trans hreads.freelist, hu.2.2⟩

end Stack

section Run

theorem pdx_kernbase_le (hlo : KERNBASE + PHYSTOP ≤ va) (hhi : va < DEVSPACE) :
    PDX KERNBASE ≤ PDX va := by
  unfold DEVSPACE at hhi
  unfold PDX
  unfold KERNBASE PHYSTOP at *
  omega

/-- With pages enough exec comes to the string that strays, and then gives up. -/
theorem enter_strays {bad : Stop → Prop} {entry : ℕ} (h : Image K held s.mem d 0) (hhole : Hole d)
    (hplenty : Plenty s.mem d 2) (hlured : Lured s.mem f v) (hf : f ∈ held) (hv : v ∈ held)
    (hstray : Stray argv) (hbound : ∀ arg ∈ argv, arg.length < PHYSTOP ∧ 0 ∉ arg) :
    Ends bad (enter K path argv entry d 0 s) fun r t => r = -1 ∧
      t.mem.bytes v (PGSIZE - 1) ≠ 0 := by
  have hround : roundUp 0 = 0 := rfl
  have hzero : 0 + 2 * PGSIZE = 2 * PGSIZE := Nat.zero_add _
  have halloc : Gives (allocuvm K d 0 (2 * PGSIZE) s.mem) fun r m' => r.2 = 2 * PGSIZE ∧
      Plenty m' r.1 0 :=
    allocuvm_plenty (c := 2) hplenty (Nat.zero_le _) (by decide) (by decide)
  have halloc' : Gives (onMem (allocuvm K d 0 (2 * PGSIZE)) s) fun r _ => r.2 = 2 * PGSIZE :=
    gives_onMem (halloc.mono fun r _ hr => hr.1)
  refine enter_rule h (fun d' t hrun _ => ?_) fun d₁ d' t hrun htables hstep hstack _ => ?_
  · rw [hround, hzero] at hrun
    have hsize : 0 = 2 * PGSIZE := halloc'.of_ok hrun
    exact absurd hsize (by decide)
  · rw [hround, hzero] at hrun hstack ⊢
    have hhole' : Hole d' := by
      intro va hlo hhi
      refine table_none ?_
      have htable : Gives (allocuvm K d 0 (2 * PGSIZE) s.mem) _ :=
        allocuvm_tables (pdx_kernbase_le hlo hhi) (hhole va hlo hhi) s.mem
      have hnone := (gives_onMem (Q := fun r _ => r.1.table (PDX va) = none) htable).of_ok hrun
      rw [htables, hnone]
      rfl
    have hlured' := hlured.keep hstep.cr3 (hstep.kept f hf)
    have hpush : Ends bad (pushArgs d' argv 0 (2 * PGSIZE) [] t) _ :=
      pushArgs_strays hstack hhole' hlured' hf (by decide) (by decide) (Nat.le_refl _)
        (by rw [Nat.sub_self]; exact hstray) hbound
    refine Ends.bind (Q := fun r u => r = none ∧ u.mem.freelist = t.mem.freelist ∧
      u.mem.bytes v (PGSIZE - 1) ≠ 0) ?_ fun r u _ hu => ?_
    · unfold pushStack
      refine Ends.bind hpush fun r u _ hu => ?_
      obtain ⟨rfl, hu⟩ := hu
      exact ends_pure.mpr ⟨rfl, hu⟩
    obtain ⟨rfl, hlist, hlast⟩ := hu
    refine Ends.bind (free_ends (sound_of_freelist hlist hstack.sound)) fun _ w _ hw => ?_
    refine ends_pure.mpr ⟨rfl, ?_⟩
    rw [hw.kept v hv]
    exact hlast

theorem onMem_apart {A : Type} (x : Paging.M A) (s : Sys) :
    Gives (onMem x s) fun _ t => t.fs = s.fs := by
  unfold onMem
  cases x s.mem with
  | ok p => rfl
  | error e => exact id

theorem onFs_ok {A : Type} {x : Fs.M A} {a : A} {fs : Fs.State} (h : x s.fs = .ok (a, fs)) :
    onFs x s = .ok (a, { s with fs }) := by
  unfold onFs
  rw [h]

/-- A program without segments, as exec reads it. -/
structure Bare (elf : ℤ × Bytes) : Prop where
  size : elf.1 = 52
  magic : get elf.2 0 4 = Fs.ELF_MAGIC
  phnum : get elf.2 44 2 = 0

theorem load_bare {bad : Stop → Prop} {elf : ℤ × Bytes} {fs : Fs.State} {ip n : ℕ}
    (hs : Sound K s.mem held) (hfails : s.mem.fails = [])
    (hfree : NPDENTRIES + 1 + n ≤ s.mem.freelist.length)
    (hread : Fs.readi ip 0 52 s.fs = .ok (elf, fs)) (hbare : Bare elf) :
    Ends bad (load K ip s) fun r t => ∃ d, r = some (d, some 0, get elf.2 24 4) ∧
      Image K held t.mem d 0 ∧ Plenty t.mem d n ∧ Hole d ∧ t.fs = fs ∧ t.proc = s.proc ∧
      t.mem.cr3 = s.mem.cr3 ∧ ∀ page ∈ held, t.mem.bytes page = s.mem.bytes page := by
  unfold load
  rw [bind_of_ok (onFs_ok hread), if_neg (by rw [hbare.size]; decide),
    if_neg (by rw [hbare.magic]; decide)]
  refine Ends.bind (setup_ends (s := { s with fs }) hs) fun r t hrun ht => ?_
  obtain ⟨hstep, himage⟩ := ht
  obtain ⟨d, rfl, hplenty⟩ := (gives_onMem (s := { s with fs }) (Q := fun r t => ∃ d, r = some d ∧
    Plenty t.mem d n) (setupkvm_plenty (K := K) hfails hfree)).of_ok hrun
  have hhole : Hole d := fun va hlo hhi =>
      (gives_onMem (s := { s with fs }) (Q := fun r _ => ∀ d, r = some d →
    d.table (PDX va) = none) (setupkvm_tables (K := K) hlo hhi s.mem)).of_ok hrun d rfl
  dsimp only
  rw [hbare.phnum]
  have hfs : t.fs = fs := (onMem_apart _ _).of_ok hrun
  exact ends_pure.mpr ⟨d, rfl, himage d rfl, hplenty, hhole, hfs, hstep.proc, hstep.cr3, hstep.kept⟩

/-- The path leads to a program without segments, and the file system's part of exec runs to the end. -/
def Provides (fs : Fs.State) (cwd : ℕ) (path : Name) : Prop :=
  ∃ ip elf fs₁ fs₂ fs₃ fs₄ fs₅ fs₆, Fs.beginOp fs = .ok ((), fs₁) ∧
    Fs.namei cwd path fs₁ = .ok (some ip, fs₂) ∧ Fs.ilock ip fs₂ = .ok ((), fs₃) ∧
    Fs.readi ip 0 52 fs₃ = .ok (elf, fs₄) ∧ Bare elf ∧ Fs.iunlockput ip fs₄ = .ok ((), fs₅) ∧
    Fs.endOp fs₅ = .ok ((), fs₆)

/-- The word at address 0 of the process is an entry for a page of it, and for exec there are pages
enough. -/
structure Baited (s : Sys) (f v : ℕ) : Prop where
  lured : Lured s.mem f v
  first : f ∈ s.proc.pgdir.pages
  victim : v ∈ s.proc.pgdir.pages
  fails : s.mem.fails = []
  free : NPDENTRIES + 3 ≤ s.mem.freelist.length

/-- exec gives up, and the last byte of the page is one of the string. -/
theorem exec_strays {bad : Stop → Prop} (hs : Sound K s.mem (s.proc.pgdir.pages + others))
    (hbait : Baited s f v) (hfile : Provides s.fs s.proc.cwd path) (hstray : Stray argv)
    (hbound : ∀ arg ∈ argv, arg.length < PHYSTOP ∧ 0 ∉ arg) :
    Ends bad (exec K path argv s) fun r t => r = -1 ∧ t.mem.bytes v (PGSIZE - 1) ≠ 0 := by
  obtain ⟨ip, elf, fs₁, fs₂, fs₃, fs₄, fs₅, fs₆, hbegin, hnamei, hilock, hread, hbare, hput,
    hend⟩ := hfile
  have hfind : find path s = .ok (some ip, { s with fs := fs₃, ops := s.ops + 1 }) := by
    unfold find begin_op
    rw [bind_of_ok (a := ()) (t := { s with fs := fs₁, ops := s.ops + 1 }),
      bind_of_ok (a := s.proc.cwd) (t := { s with fs := fs₁, ops := s.ops + 1 }) rfl,
      bind_of_ok (onFs_ok hnamei)]
    · dsimp only
      rw [bind_of_ok (onFs_ok hilock)]
      rfl
    · rw [bind_of_ok (onFs_ok hbegin)]
      rfl
  have hheld : ∀ {page}, page ∈ s.proc.pgdir.pages → page ∈ s.proc.pgdir.pages + others :=
    fun h => Multiset.mem_add.mpr (.inl h)
  rw [exec_eq, bind_of_ok hfind]
  unfold proceed
  refine Ends.bind (load_bare (s := { s with fs := fs₃, ops := s.ops + 1 }) (n := 2) hs hbait.fails
    (by have := hbait.free; omega) hread hbare) fun r t _ ht => ?_
  obtain ⟨d, rfl, himage, hplenty, hhole, hfs, hproc, hcr3, hkept⟩ := ht
  dsimp only
  rw [← hfs] at hput
  have hclose : end_op { t with fs := fs₅ } = .ok ((), { t with fs := fs₆, ops := t.ops - 1 }) := by
    unfold end_op
    rw [bind_of_ok (onFs_ok hend)]
    rfl
  rw [bind_of_ok (onFs_ok hput), bind_of_ok hclose]
  exact enter_strays himage hhole hplenty (hbait.lured.keep hcr3 (hkept f (hheld hbait.first)))
    (hheld hbait.first) (hheld hbait.victim) hstray hbound

/-- What exec left undone shows in the page. -/
theorem not_failsClean (hrun : Running K s others) (hbait : Baited s f v)
    (hblank : s.mem.bytes v (PGSIZE - 1) = 0) (hfile : Provides s.fs s.proc.cwd path)
    (hstray : Stray argv) (hbound : ∀ arg ∈ argv, arg.length < PHYSTOP ∧ 0 ∉ arg) :
    ¬ FailsClean K path argv others s := by
  intro hclean
  have hends : Ends (fun _ => True) (exec K path argv s) _ :=
    exec_strays hrun.sound hbait hfile hstray hbound
  obtain ⟨r, t, hexec, hr, hlast⟩ := hends.runs
  have hsame : Unchanged others s t := hclean.of_ok hexec hr
  rw [hsame.kept v (Multiset.mem_add.mpr (.inl hbait.victim))] at hlast
  exact hlast hblank

end Run

section Process

/-- A memory with the pages from the sixteenth megabyte on. -/
def vacant : Memory := ⟨List.range' 0x1000 0x7000, [], fun _ _ => 0, bare, 0⟩

theorem vacant_sound : Sound linked vacant 0 := by
  refine ⟨?_, fun page hpage => ?_⟩
  · rw [add_zero]
    exact Multiset.coe_nodup.mpr (List.nodup_range' ..)
  · rw [add_zero] at hpage
    obtain ⟨k, hk, rfl⟩ := List.mem_range'.mp (Multiset.mem_coe.mp hpage)
    exact linked_inside (by omega) (by omega)

/-- From pages enough a process is made as large as is asked for. -/
theorem exists_image {n c size : ℕ} (hs : Sound K m 0) (hfails : m.fails = [])
    (hfree : NPDENTRIES + 1 + (n + c) ≤ m.freelist.length) (hpos : size ≠ 0)
    (hsize : size < KERNBASE) (hreach : size ≤ roundUp 0 + c * PGSIZE) :
    ∃ m' d, Image K 0 m' d size ∧ m'.fails = [] ∧ n ≤ m'.freelist.length := by
  obtain ⟨_, t, _, ⟨hmade, hhalf⟩, d, rfl, hplenty⟩ :=
    ((setupkvm_returns hs).and (setupkvm_plenty (K := K) hfails hfree)).runs
  have himage := image_of_half (hhalf d rfl) hmade.sound
  obtain ⟨r, m', _, ⟨_, _, himage'⟩, hr, hplenty'⟩ := ((allocuvm_image himage size).and
    (allocuvm_plenty (K := K) hplenty (Nat.zero_le size) hsize hreach)).runs
  rw [hr] at himage'
  exact ⟨m', r.1, (himage' hpos).1, hplenty'.fails, (Nat.le_add_left _ _).trans hplenty'.pages⟩

def sh : Name := [115, 104]

/-- The root, with a program. -/
def binBlock : Bytes := fun i =>
  if i < 16 then Fs.dirent 1 [46] i
  else if i < 32 then Fs.dirent 1 [46, 46] (i - 16)
  else if i < 48 then Fs.dirent 2 sh (i - 32)
  else 0

def shInode : Fs.Inode :=
  ⟨ROOTDEV, 2, 0, false, false, Fs.T_FILE, 0, 0, 1, 52, fun k => if k = 0 then 571 else 0⟩

/-- The program is an ELF header without program headers. -/
def withProgram : Fs.State where
  sb := mkfsSuperblock
  blk := fun _ b =>
    if b = 570 then binBlock
    else if b = 571 then put (fun _ => 0) 0 4 Fs.ELF_MAGIC
    else if b = 32 then Fs.storeDinode (Fs.storeDinode (fun _ => 0) (Fs.dinodeOffset 1) Fs.rootInode)
      (Fs.dinodeOffset 2) shInode
    else fun i => if b = 45 then if i < 71 then 255 else if i = 71 then 15 else 0 else 0
  held := []
  log := ⟨2, nlog, 0, false, []⟩
  last_alloc_hint := 0
  icache := fun i => if i = 0 then Fs.rootInode else Fs.unusedInode
  past := 0
  devsw := fun _ => none
  strict := false

theorem withProgram_provides : Provides withProgram 0 sh := by
  obtain ⟨_, hrun⟩ := Fs.ok_of_result (show Fs.resultOf ((do
      Fs.beginOp
      let r ← Fs.namei 0 sh
      r.elim (pure none) fun ip => do
        Fs.ilock ip
        let elf ← Fs.readi ip 0 52
        Fs.iunlockput ip
        Fs.endOp
        pure (some (elf.1, get elf.2 0 4, get elf.2 44 2)) : Fs.M (Option (ℤ × ℕ × ℕ)))
        withProgram) =
    some (some (52, Fs.ELF_MAGIC, 0)) by decide +kernel)
  obtain ⟨_, fs₁, hbegin, hrun⟩ := bind_ok.mp hrun
  obtain ⟨r, fs₂, hnamei, hrun⟩ := bind_ok.mp hrun
  cases r with
  | none => exact absurd (pure_ok.mp hrun).1.symm (Option.some_ne_none _)
  | some ip =>
    obtain ⟨_, fs₃, hilock, hrun⟩ := bind_ok.mp hrun
    obtain ⟨elf, fs₄, hread, hrun⟩ := bind_ok.mp hrun
    obtain ⟨_, fs₅, hput, hrun⟩ := bind_ok.mp hrun
    obtain ⟨_, fs₆, hend, hrun⟩ := bind_ok.mp hrun
    obtain ⟨hsome, _⟩ := pure_ok.mp hrun
    obtain ⟨hsize, hmagic, hphnum⟩ : elf.1 = 52 ∧ get elf.2 0 4 = Fs.ELF_MAGIC ∧
        get elf.2 44 2 = 0 := by
      have hpair := Option.some.inj hsome
      exact ⟨congrArg Prod.fst hpair, congrArg (·.2.1) hpair, congrArg (·.2.2) hpair⟩
    exact ⟨ip, elf, fs₁, fs₂, fs₃, fs₄, fs₅, fs₆, hbegin, hnamei, hilock, hread,
      ⟨hsize, hmagic, hphnum⟩, hput, hend⟩

/-- A present page of the user, as a word. -/
theorem ofWord_user (v : ℕ) : ∃ e, Pte.ofWord (v * PGSIZE + 5) = some e ∧ e.User ∧ e.frame = v := by
  have hflags : BitVec.ofNat 12 (v * PGSIZE + 5) = 5 := by
    refine BitVec.eq_of_toNat_eq ?_
    rw [BitVec.toNat_ofNat]
    unfold PGSIZE
    show (v * 4096 + 5) % 4096 = 5
    omega
  have hpresent : BitVec.ofNat 12 (v * PGSIZE + 5) &&& PTE_P = PTE_P := by
    rw [hflags]
    decide
  refine ⟨_, dif_pos hpresent, ?_, ?_⟩
  · show BitVec.ofNat 12 (v * PGSIZE + 5) &&& PTE_U ≠ 0
    rw [hflags]
    decide
  · show (v * PGSIZE + 5) / PGSIZE = v
    unfold PGSIZE
    omega

/-- What the pages of the process hold: an entry for page `v`, nothing in that page, and everywhere else
one string, which ends where page `e` begins. -/
def baitBytes (f v e page : ℕ) : Bytes :=
  if page = f then put (fun _ => 97) 0 4 (v * PGSIZE + 5)
  else if page = v ∨ page = e then fun _ => 0
  else fun _ => 97

def baiting (m : Memory) (d : Pgdir) (size f v e : ℕ) : Sys where
  fs := withProgram
  mem := { m with bytes := baitBytes f v e, cr3 := d }
  proc := ⟨d, size, 0, 0, sh, 0⟩
  ops := 0

/-- The strings are in the memory of the process. -/
def Passed (s : Sys) (argv : List Name) : Prop := ∀ arg ∈ argv, 0 ∉ arg ∧
  ∃ va, va + arg.length < s.proc.sz ∧ Holds s.proc.pgdir s.mem va (arg ++ [0])

/-- A string that leaves no room for itself below the kernel's part of the address space. -/
theorem stray_of_length (h : 2 * PGSIZE + (2 ^ 32 - DEVSPACE) ≤ arg.length) : Stray [arg] := by
  have hspan := length_lt_span arg
  unfold Stray StrayFrom
  exact ⟨Nat.zero_lt_succ 31, .inl (by omega)⟩

@[irreducible] def long : Name := List.replicate 0x4002000 97

theorem long_length : long.length = 0x4002000 := by
  unfold long
  exact List.length_replicate

theorem long_mem {c : UInt8} (h : c ∈ long) : c = 97 := by
  unfold long at h
  exact List.eq_of_mem_replicate h

theorem long_getD {k : ℕ} (hk : k < long.length) : (long ++ [0]).getD k 0 = 97 := by
  rw [List.getD_append _ _ _ _ hk, List.getD_eq_getElem _ _ hk]
  exact long_mem (List.getElem_mem hk)

/-- A page that kfree takes is among those that the kernel maps. -/
theorem inside_of_not_outside {page : ℕ} (h : K.outside page = false) :
    K.data ≤ page * PGSIZE ∧ page * PGSIZE < PHYSTOP := by
  have hends := K.ends
  unfold Vm.Layout.outside at h
  obtain ⟨hlow, hhigh⟩ := Bool.or_eq_false_iff.mp h
  have hlow' := of_decide_eq_false hlow
  have hhigh' := of_decide_eq_false hhigh
  omega

/-- A process that is large enough has room for the bait and for the string. -/
theorem Image.baited {size : ℕ} (h : Image K 0 m d size) (hfails : m.fails = [])
    (hfree : NPDENTRIES + 3 ≤ m.freelist.length) (hroom : 0x4004000 < size) :
    ∃ s f v, Running K s 0 ∧ Baited s f v ∧ s.mem.bytes v (PGSIZE - 1) = 0 ∧
      Provides s.fs s.proc.cwd sh ∧ Passed s [long] := by
  have hsmall := h.small
  have hmapped : ∀ va, va < size → ∃ e, d.pte va = some e ∧ e.User := by
    intro va hva
    have hlt := hva.trans_le hsmall
    obtain ⟨e, he⟩ := Option.isSome_iff_exists.mp
      ((h.user va hlt).mpr (hva.trans_le (Vm.le_roundUp size)))
    exact ⟨e, he, h.access va e hlt he⟩
  have hnodup := (Multiset.nodup_add.mp (Multiset.nodup_add.mp h.sound.nodup).2.1).1
  have hdistinct : ∀ {va va' e e'}, va < size → va' < size → d.pte va = some e →
      d.pte va' = some e' →
      va / PGSIZE ≠ va' / PGSIZE → e.frame ≠ e'.frame := fun hva hva' he he' hne heq =>
    hne (frame_unique hnodup he he' (hva.trans_le hsmall) (hva'.trans_le hsmall) heq)
  have hzero : 0 < size := by omega
  have hone : PGSIZE < size := by
    unfold PGSIZE
    omega
  obtain ⟨e₀, he₀, _⟩ := hmapped 0 hzero
  obtain ⟨e₁, he₁, _⟩ := hmapped PGSIZE hone
  obtain ⟨e₂, he₂, _⟩ := hmapped 0x4004000 hroom
  have hapart : e₁.frame ≠ e₀.frame := hdistinct hone hzero he₁ he₀ (by decide)
  have honeK : PGSIZE < KERNBASE := by decide
  obtain ⟨hlow, hhigh⟩ := inside_of_not_outside (frames_inside h.sound honeK he₁)
  generalize hs : baiting m d size e₀.frame e₁.frame e₂.frame = s
  have hmem : s.mem.cr3 = d ∧ s.proc.pgdir = d ∧ s.proc.sz = size ∧
      s.mem.bytes = baitBytes e₀.frame e₁.frame e₂.frame := by
    rw [← hs]
    exact ⟨rfl, rfl, rfl, rfl⟩
  obtain ⟨hcr3, hpgdir, hsz, hbytes⟩ := hmem
  have hlist : s.mem.freelist = m.freelist ∧ s.mem.fails = m.fails := by
    rw [← hs]
    exact ⟨rfl, rfl⟩
  have hlured : Lured s.mem e₀.frame e₁.frame := by
    refine ⟨⟨e₀, hcr3 ▸ he₀, rfl⟩, ?_, ?_, hapart⟩
    · have hword : get (s.mem.bytes e₀.frame) 0 4 = e₁.frame * PGSIZE + 5 := by
        rw [hbytes]
        unfold baitBytes
        rw [if_pos rfl]
        refine get_put_of_lt ?_
        unfold PHYSTOP at hhigh
        omega
      rw [hword]
      exact ofWord_user e₁.frame
    · have hwrap : wrap (e₁.frame * PGSIZE + KERNBASE) = e₁.frame * PGSIZE + KERNBASE := by
        refine Nat.mod_eq_of_lt ?_
        unfold PHYSTOP at hhigh
        unfold KERNBASE
        omega
      rw [hcr3, hwrap]
      exact h.upper.direct _ hlow hhigh
  refine ⟨s, e₀.frame, e₁.frame, ⟨?_, hcr3.trans hpgdir.symm⟩, ⟨hlured, ?_, ?_, ?_, ?_⟩, ?_, ?_, ?_⟩
  · rw [hpgdir]
    exact sound_of_freelist hlist.1 h.sound
  · rw [hpgdir]
    exact frame_mem he₀ (hzero.trans_le hsmall)
  · rw [hpgdir]
    exact frame_mem he₁ honeK
  · exact hlist.2.trans hfails
  · rw [hlist.1]
    exact hfree
  · rw [hbytes]
    unfold baitBytes
    rw [if_neg hapart, if_pos (.inl rfl)]
  · rw [← hs]
    exact withProgram_provides
  · intro arg harg
    obtain rfl := List.mem_singleton.mp harg
    refine ⟨fun hnul => absurd (long_mem hnul) (by decide), 2 * PGSIZE, ?_, fun k hk => ?_⟩
    · rw [hsz, long_length]
      unfold PGSIZE
      omega
    · rw [List.length_append, List.length_singleton, long_length] at hk
      generalize hva : 2 * PGSIZE + k = va
      have hpage : PGSIZE = 4096 := rfl
      have hin : va < size := by omega
      obtain ⟨e, he, huser⟩ := hmapped va hin
      have hfirst : e.frame ≠ e₀.frame := hdistinct hin hzero he he₀ (by unfold PGSIZE; omega)
      have hsecond : e.frame ≠ e₁.frame := hdistinct hin hone he he₁ (by unfold PGSIZE; omega)
      have hread : peek s.proc.pgdir s.mem va = some (s.mem.bytes e.frame (va % PGSIZE)) := by
        unfold peek Pgdir.userPage userFrame
        rw [hpgdir, he, Option.bind_some, if_pos huser]
        rfl
      rw [hread, hbytes]
      unfold baitBytes
      rw [if_neg hfirst]
      by_cases hlast : k < 0x4002000
      · have hthird : e.frame ≠ e₂.frame := hdistinct hin hroom he he₂ (by unfold PGSIZE; omega)
        rw [if_neg (not_or.mpr ⟨hsecond, hthird⟩), long_getD (by rw [long_length]; exact hlast)]
      · have hend : va = 0x4004000 := by omega
        rw [hend, he₂] at he
        obtain rfl := Option.some.inj he
        have hk' : k = long.length := by
          rw [long_length]
          omega
        rw [if_pos (.inr rfl), hk', List.getD_append_right _ _ _ _ (Nat.le_refl _), Nat.sub_self]
        rfl

theorem exists_baited : ∃ s f v, Running linked s 0 ∧ Baited s f v ∧
    s.mem.bytes v (PGSIZE - 1) = 0 ∧ Provides s.fs s.proc.cwd sh ∧ Passed s [long] := by
  have hlist : NPDENTRIES + 1 + (NPDENTRIES + 3 + 0x4400) ≤ vacant.freelist.length := by
    unfold vacant
    rw [List.length_range']
    decide
  have hfails : vacant.fails = [] := rfl
  have hpos : 0x4400000 ≠ 0 := by decide
  have hlt : 0x4400000 < KERNBASE := by decide
  have hreach : 0x4400000 ≤ roundUp 0 + 0x4400 * PGSIZE := by decide
  have hroom : 0x4004000 < 0x4400000 := by decide
  generalize 0x4400000 = size at hpos hlt hreach hroom
  obtain ⟨m, d, h, hfails', hfree⟩ := exists_image vacant_sound hfails hlist hpos hlt hreach
  exact h.baited hfails' hfree hroom

end Process

section Claims

/-- exec that fails changes nothing, for all files and processes, exactly if no argument strays. -/
theorem failsClean_iff (hbound : ∀ arg ∈ argv, arg.length < PHYSTOP ∧ 0 ∉ arg) :
    (∀ K s path others, Running K s others → FailsClean K path argv others s) ↔ ¬ Stray argv := by
  constructor
  · intro hclean hstray
    obtain ⟨s, f, v, hrun, hbait, hblank, hfile, _⟩ := exists_baited
    exact not_failsClean hrun hbait hblank hfile hstray hbound (hclean linked s sh 0 hrun)
  · intro hstray K s path others hrun
    refine exec_failsClean hrun.sound hstray fun arg harg => (hbound arg harg).1.trans ?_
    decide

/-- The shell's `sh`. -/
theorem failsClean_iff_sh :
    (∀ K s path others, Running K s others → FailsClean K path [sh] others s) ↔
    ¬ Stray [sh] := by
  refine failsClean_iff fun arg harg => ?_
  obtain rfl := List.mem_singleton.mp harg
  decide

/-- With one argument of 64 MB and two pages exec fails and has written a page of the process. -/
theorem not_failsClean_long : ¬ ∀ K s path argv others, Running K s others → Passed s argv →
    FailsClean K path argv others s := by
  intro hclean
  obtain ⟨s, f, v, hrun, hbait, hblank, hfile, hpassed⟩ := exists_baited
  have hbound : ∀ arg ∈ [long], arg.length < PHYSTOP ∧ 0 ∉ arg := by
    intro arg harg
    refine ⟨?_, (hpassed arg harg).1⟩
    obtain rfl := List.mem_singleton.mp harg
    rw [long_length]
    decide
  have hstray : Stray [long] := stray_of_length (by rw [long_length]; decide)
  exact not_failsClean hrun hbait hblank hfile hstray hbound
    (hclean linked s sh [long] 0 hrun hpassed)

end Claims

end NorthOS.Exec
