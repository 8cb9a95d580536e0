import NorthOS.Copyuvm
import NorthOS.Exec
import NorthOS.PathWalk

/-!
How exec loads a program. Whatever the ELF header and the program headers say and wherever kalloc or
a read fails, the new address space maps the pages below its size and no other user page, loaduvm
finds the pages that it reads to, and what the caller has is not touched.
-/
namespace NorthOS.Exec

open Halting Halting.Comp LittleEndian Paging
open Vm (PGSIZE KERNBASE PHYSTOP DEVSPACE wrap PDX PGROUNDUP PGROUNDDOWN roundUp roundUp_aligned
  le_roundUp roundUp_le roundUp_le_kernbase pgroundup_eq)

/-- The panics of vm.c, and a page fault. -/
def Panics : Stop → Prop
  | .fs _ => False
  | .vm _ => True

variable {K : Kernel} {s t u : Sys} {m m' : Memory} {d d' : Pgdir}
    {held n n' n'' : Multiset ℕ} {e : Pte}
  {a addr i ip newsz off offset page phnum sz va : ℕ}

section Parts

variable {A : Type}

theorem ends_onMem {bad : Stop → Prop} {x : Paging.M A} {Q : A → Sys → Prop}
    (h : Returns (x s.mem) fun a m => Q a { s with mem := m }) : Ends bad (onMem x s) Q := by
  unfold onMem
  cases hx : x s.mem with
  | ok p =>
    rw [hx] at h
    exact h
  | error e =>
    rw [hx] at h
    exact absurd trivial h

theorem gives_onMem {x : Paging.M A} {Q : A → Sys → Prop}
    (h : Gives (x s.mem) fun a m => Q a { s with mem := m }) : Gives (onMem x s) Q := by
  unfold onMem
  cases hx : x s.mem with
  | ok p =>
    rw [hx] at h
    exact h
  | error e => exact id

theorem ends_onFs {x : Fs.M A} {Q : A → Sys → Prop}
    (h : Gives (x s.fs) fun a fs => Q a { s with fs }) : Ends Panics (onFs x s) Q := by
  unfold onFs
  cases hx : x s.fs with
  | ok p =>
    rw [hx] at h
    exact h
  | error e => exact id

/-- The file system's part of exec leaves the rest as it is. -/
theorem onFs_ends {x : Fs.M A} {Q : A → Fs.State → Prop} (h : Gives (x s.fs) Q) :
    Ends Panics (onFs x s) fun a t => ∃ fs, t = { s with fs } ∧ Q a fs :=
  ends_onFs (h.mono fun _ fs hq => ⟨fs, rfl, hq⟩)

/-- Since `s` the process has taken or given back pages, and all else is as it was. -/
structure Step (held : Multiset ℕ) (s t : Sys) (n n' : Multiset ℕ) : Prop where
  proc : t.proc = s.proc
  ops : t.ops = s.ops
  use : Fs.SameUse s.fs t.fs
  conserves : Conserves s.mem n t.mem n'
  kept : ∀ page ∈ held, t.mem.bytes page = s.mem.bytes page
  cr3 : t.mem.cr3 = s.mem.cr3

theorem Step.trans (h : Step held s t n n') (h' : Step held t u n' n'') : Step held s u n n'' where
  proc := h'.proc.trans h.proc
  ops := h'.ops.trans h.ops
  use := Fs.use_composes.trans h.use h'.use
  conserves := h.conserves.trans h'.conserves
  kept page hpage := (h'.kept page hpage).trans (h.kept page hpage)
  cr3 := h'.cr3.trans h.cr3

/-- What the memory tells of a step. -/
theorem Step.of_used (hs : Sound K s.mem (n + held)) (hconserves : Conserves s.mem n m n')
    (hused : Used s.mem m) : Step held s { s with mem := m } n n' where
  proc := rfl
  ops := rfl
  use := Fs.use_composes.refl s.fs
  conserves := hconserves
  kept page hpage := by
    have hs' := hs.of_conserves (hconserves.add held)
    exact hused.same page (hs.not_free (Multiset.mem_add.mpr (.inr hpage)))
      (hs'.not_free (Multiset.mem_add.mpr (.inr hpage)))
  cr3 := hused.cr3

theorem Step.of_use {fs : Fs.State} (h : Fs.SameUse s.fs fs) (held n : Multiset ℕ) :
    Step held s { s with fs } n n where
  proc := rfl
  ops := rfl
  use := h
  conserves := rfl
  kept _ _ := rfl
  cr3 := rfl

theorem Step.sound (h : Step held s t n n') (hs : Sound K s.mem (n + held)) :
    Sound K t.mem (n' + held) := hs.of_conserves (h.conserves.add held)

theorem sound_of_freelist (h : m'.freelist = m.freelist) (hs : Sound K m held) :
    Sound K m' held := by
  refine hs.of_conserves ?_
  unfold Conserves
  rw [h]

end Parts

section Image

/-- Where the kernel maps its memory and the devices in each address space. -/
structure Upper (K : Kernel) (d : Pgdir) : Prop where
  kernel : ∀ va e, KERNBASE ≤ va → va < 2 ^ 32 → d.pte va = some e → ¬ e.User
  present : ∀ va, KERNBASE ≤ va → va < 2 ^ 32 → va < KERNBASE + PHYSTOP ∨ DEVSPACE ≤ va →
    (d.pte va).isSome
  direct : ∀ page, K.data ≤ page * PGSIZE → page * PGSIZE < PHYSTOP →
    d.pte (page * PGSIZE + KERNBASE) = some (.mk' page PTE_W)

/-- An address space that exec is making: the user pages are those below its size. -/
structure Image (K : Kernel) (held : Multiset ℕ) (m : Memory) (d : Pgdir) (sz : ℕ) : Prop where
  sound : Sound K m (d.pages + held)
  small : sz ≤ KERNBASE
  user : ∀ va, va < KERNBASE → ((d.pte va).isSome ↔ va < roundUp sz)
  access : ∀ va e, va < KERNBASE → d.pte va = some e → e.User
  upper : Upper K d

theorem image_of_half (h : KernelHalf K d) (hs : Sound K m (d.pages + held)) :
    Image K held m d 0 where
  sound := hs
  small := Nat.zero_le _
  user va hva := by
    rw [h.user va hva]
    exact iff_of_false Bool.false_ne_true (Nat.not_lt_zero va)
  access va e hva he := by
    rw [h.user va hva] at he
    cases he
  upper := ⟨h.kernel, h.present, h.direct⟩

theorem Image.of_sound (h : Image K held m d sz) (hs : Sound K m' (d.pages + held)) :
    Image K held m' d sz := ⟨hs, h.small, h.user, h.access, h.upper⟩

/-- `d'` and `m'` have what `d` and `m` have at user addresses, and perhaps more. -/
def Keeps (m m' : Memory) (d d' : Pgdir) : Prop := ∀ va e, va < KERNBASE → d.pte va = some e →
  d'.pte va = some e ∧ m'.bytes e.frame = m.bytes e.frame

theorem Keeps.refl (m : Memory) (d : Pgdir) : Keeps m m d d := fun _ _ _ he => ⟨he, rfl⟩

theorem image_of_filled (h : Filled zeroed m m' d d' (roundUp sz) (roundUp newsz))
    (himage : Image K held m d sz) (hle : sz ≤ newsz) (hnew : newsz < KERNBASE)
    (hs : Sound K m' (d'.pages + held)) : Image K held m' d' newsz := by
  have hround := roundUp_le (roundUp_aligned newsz) (hle.trans (le_roundUp newsz))
  have htop := roundUp_le_kernbase hnew.le
  have houtside : ∀ va, roundUp newsz ≤ va → va < 2 ^ 32 → d'.pte va = d.pte va :=
    fun va hlo hva => h.outside va hva (by omega)
  refine ⟨hs, hnew.le, fun va hva => ?_, fun va e hva he => ?_, ⟨?_, ?_, ?_⟩⟩
  · by_cases hin : roundUp sz ≤ va ∧ va < roundUp newsz
    · obtain ⟨page, _, hpte, _⟩ := h.inside va hin.1 hin.2
      rw [hpte]
      exact iff_of_true rfl hin.2
    · rw [h.outside va (by unfold KERNBASE at hva; omega) hin, himage.user va hva]
      omega
  · by_cases hin : roundUp sz ≤ va ∧ va < roundUp newsz
    · obtain ⟨page, _, hpte, _⟩ := h.inside va hin.1 hin.2
      rw [hpte] at he
      cases he
      have huser : (PTE_W ||| PTE_U ||| PTE_P) &&& PTE_U ≠ 0 := by decide
      exact huser
    · rw [h.outside va (by unfold KERNBASE at hva; omega) hin] at he
      exact himage.access va e hva he
  · intro va e hlo hva he
    rw [houtside va (htop.trans hlo) hva] at he
    exact himage.upper.kernel va e hlo hva he
  · intro va hlo hva hcover
    rw [houtside va (htop.trans hlo) hva]
    exact himage.upper.present va hlo hva hcover
  · intro page hlo hhi
    rw [houtside _ (by omega) (by unfold PHYSTOP at hhi; unfold KERNBASE; omega)]
    exact himage.upper.direct page hlo hhi

/-- allocuvm as exec calls it, where the new size need not be the larger one. -/
theorem allocuvm_image (h : Image K held m d sz) (newsz : ℕ) :
    Returns (allocuvm K d sz newsz m) fun r m' => Used m m' ∧ Conserves m d.pages m' r.1.pages ∧
      (r.2 ≠ 0 → Image K held m' r.1 r.2 ∧ newsz ≤ r.2 ∧ newsz < KERNBASE ∧
        (sz ≤ newsz → r.2 = newsz) ∧ Keeps m m' d r.1) := by
  by_cases hbig : KERNBASE ≤ newsz
  · unfold allocuvm
    rw [if_pos hbig]
    exact ends_pure.mpr ⟨(Took.refl m).used, rfl, fun hr => absurd rfl hr⟩
  by_cases hsmall : newsz < sz
  · unfold allocuvm
    rw [if_neg hbig, if_pos hsmall]
    refine ends_pure.mpr ⟨(Took.refl m).used, rfl,
      fun _ => ⟨h, hsmall.le, by omega, ?_, Keeps.refl m d⟩⟩
    intro hle
    omega
  · have hclear : ∀ va, roundUp sz ≤ va → va < roundUp newsz → d.pte va = none := by
      intro va hlo hhi
      have hva : va < KERNBASE := hhi.trans_le (roundUp_le_kernbase (by omega))
      refine Option.not_isSome_iff_eq_none.mp fun hc => ?_
      exact absurd ((h.user va hva).mp hc) (by omega)
    have hgrown := allocuvm_returns h.sound (Nat.le_of_not_lt hsmall) (Nat.lt_of_not_le hbig) hclear
    refine (hgrown.and (allocuvm_conserves (.inr (by omega)) m)).mono fun r m' hr => ?_
    obtain ⟨hgrown, hconserves⟩ := hr
    refine ⟨hgrown.used, hconserves, fun hne => ?_⟩
    rcases hgrown.result with ⟨hr, hfilled⟩ | ⟨hr, _⟩
    · rw [hr]
      refine ⟨image_of_filled hfilled h (by omega) (by omega) hgrown.sound, Nat.le_refl _, by omega,
        fun _ => rfl, fun va e hva he => ⟨?_, hfilled.took.same _ (frame_not_free h.sound hva he)⟩⟩
      rw [hfilled.outside va (by unfold KERNBASE at hva; omega), he]
      intro hin
      rw [hclear va hin.1 hin.2] at he
      cases he
    · exact absurd hr hne

theorem alloc_ends {bad : Stop → Prop} (h : Image K held s.mem d sz) (newsz : ℕ) :
    Ends bad (onMem (allocuvm K d sz newsz) s) fun r t => Step held s t d.pages r.1.pages ∧
      (r.2 ≠ 0 → Image K held t.mem r.1 r.2 ∧ newsz ≤ r.2 ∧ newsz < KERNBASE ∧
        (sz ≤ newsz → r.2 = newsz) ∧ Keeps s.mem t.mem d r.1) :=
  ends_onMem ((allocuvm_image h newsz).mono fun _ _ hr =>
    ⟨Step.of_used h.sound hr.2.1 hr.1, hr.2.2⟩)

/-- An address space is given back. -/
theorem free_ends {bad : Stop → Prop} (hs : Sound K s.mem (d.pages + held)) :
    Ends bad (onMem (freevm K d) s) fun _ t => Step held s t d.pages 0 :=
  ends_onMem ((freevm_returns hs).mono fun _ _ h =>
    Step.of_used hs h.2 ((Took.refl s.mem).used_gave h.1))

end Image

section Load

/-- Only the pages of `d` were written. -/
structure Reads (d : Pgdir) (s t : Sys) : Prop where
  proc : t.proc = s.proc
  ops : t.ops = s.ops
  use : Fs.SameUse s.fs t.fs
  freelist : t.mem.freelist = s.mem.freelist
  only : ∀ page, page ∉ d.pages → t.mem.bytes page = s.mem.bytes page
  cr3 : t.mem.cr3 = s.mem.cr3

theorem Reads.trans (h : Reads d s t) (h' : Reads d t u) : Reads d s u where
  proc := h'.proc.trans h.proc
  ops := h'.ops.trans h.ops
  use := Fs.use_composes.trans h.use h'.use
  freelist := h'.freelist.trans h.freelist
  only page hpage := (h'.only page hpage).trans (h.only page hpage)
  cr3 := h'.cr3.trans h.cr3

theorem Reads.refl (d : Pgdir) (s : Sys) : Reads d s s :=
  ⟨rfl, rfl, Fs.use_composes.refl s.fs, rfl, fun _ _ => rfl, rfl⟩

theorem Reads.of_use {fs : Fs.State} (h : Fs.SameUse s.fs fs) (d : Pgdir) :
    Reads d s { s with fs } :=
  ⟨rfl, rfl, h, rfl, fun _ _ => rfl, rfl⟩

theorem Reads.step (h : Reads d s t) (hs : Sound K s.mem (d.pages + held)) :
    Step held s t d.pages d.pages where
  proc := h.proc
  ops := h.ops
  use := h.use
  conserves := by
    unfold Conserves
    rw [h.freelist]
  kept page hpage := by
    have hdisjoint := (Multiset.nodup_add.mp (Multiset.nodup_add.mp hs.nodup).2.1).2.2
    exact h.only page fun hc => Multiset.disjoint_left.mp hdisjoint hc hpage
  cr3 := h.cr3

theorem readi_ends (ip off n : ℕ) (s : Sys) :
    Ends Panics (onFs (Fs.readi ip off n) s) fun _ t =>
      ∃ fs, t = { s with fs } ∧ Fs.SameUse s.fs fs :=
  onFs_ends (Fs.readi_neutral s.fs)

theorem memmove_reads {p : List UInt8} (hpage : page ∈ d.pages) (at_ : ℕ) :
    Ends Panics (onMem (memmove page at_ p) s) fun _ t => Reads d s t := by
  refine ends_onMem (show Reads d s _ from
    ⟨rfl, rfl, Fs.use_composes.refl s.fs, rfl, fun q hq => ?_, rfl⟩)
  have hne : q ≠ page := by
    rintro rfl
    exact hq hpage
  exact Function.update_of_ne hne ..

/-- Each page of the segment is there. -/
theorem loadLoop_ends (h : Image K held s.mem d sz) {size : ℕ} (hend : addr + size ≤ sz) :
    Ends Panics (loadLoop d addr ip offset size i s) fun r t => (r = 0 ∨ r = -1) ∧ Reads d s t := by
  induction hn : size - i using Nat.strong_induction_on generalizing i s with
  | _ n ih =>
    rw [loadLoop]
    split
    · have hround := le_roundUp sz
      have hsmall := h.small
      have hva : addr + i < KERNBASE := by omega
      have hwrap : wrap (addr + i) = addr + i := Nat.mod_eq_of_lt (by unfold KERNBASE at hva; omega)
      obtain ⟨e, he⟩ := Option.isSome_iff_exists.mp ((h.user (addr + i) hva).mpr (by omega))
      rw [hwrap, walk_of_pte he]
      refine Ends.bind (readi_ends ip _ _ s) fun r t _ ht => ?_
      obtain ⟨fs, rfl, huse⟩ := ht
      refine Ends.bind (memmove_reads (frame_mem he hva) 0) fun _ u _ hu => ?_
      have hreads := (Reads.of_use huse d).trans hu
      split
      · exact ends_pure.mpr ⟨.inr rfl, hreads⟩
      · have himage : Image K held u.mem d sz :=
          h.of_sound (sound_of_freelist hreads.freelist h.sound)
        refine (ih _ ?_ himage rfl).mono fun r v hv => ⟨hv.1, hreads.trans hv.2⟩
        unfold PGSIZE
        omega
    · exact ends_pure.mpr ⟨.inl rfl, Reads.refl d s⟩

theorem loaduvm_ends (h : Image K held s.mem d sz) (hal : addr % PGSIZE = 0) {size : ℕ}
    (hend : addr + size ≤ sz) : Ends Panics (loaduvm d addr ip offset size s) fun r t =>
      (r = 0 ∨ r = -1) ∧ Reads d s t := by
  unfold loaduvm
  rw [if_neg (by rw [hal]; exact fun hc => hc rfl)]
  exact loadLoop_ends h hend

/-- What was loaded: an address space of the caller's making, which is an image unless the program
was bad. -/
structure Loaded (K : Kernel) (held : Multiset ℕ) (s t : Sys) (n : Multiset ℕ) (d : Pgdir)
    (sz : Option ℕ) : Prop where
  step : Step held s t n d.pages
  image : ∀ x, sz = some x → Image K held t.mem d x

theorem loadSegments_ends (h : Image K held s.mem d sz) :
    Ends Panics (loadSegments K ip phnum off d sz s) fun r t =>
      Loaded K held s t d.pages r.1 r.2 := by
  induction phnum generalizing s off d sz with
  | zero =>
    refine ends_pure.mpr ⟨⟨rfl, rfl, Fs.use_composes.refl s.fs, rfl, fun _ _ => rfl, rfl⟩, ?_⟩
    rintro _ ⟨⟩
    exact h
  | succ phnum ih =>
    unfold loadSegments
    refine Ends.bind (readi_ends ip off 32 s) fun r t _ ht => ?_
    obtain ⟨fs, rfl, huse⟩ := ht
    have hstep := Step.of_use huse held d.pages
    have hbad : ∀ d' u, Step held s u d.pages d'.pages → Loaded K held s u d.pages d' none :=
      fun d' u h' => ⟨h', nofun⟩
    dsimp only
    split
    · exact ends_pure.mpr (hbad d _ hstep)
    split
    · exact (ih (s := { s with fs }) h).mono fun r u hu => ⟨hstep.trans hu.step, hu.image⟩
    split
    · exact ends_pure.mpr (hbad d _ hstep)
    split
    · exact ends_pure.mpr (hbad d _ hstep)
    rename_i hfile hmemsz hwrap
    refine Ends.bind (alloc_ends (s := { s with fs }) h _) fun r' u _ hu => ?_
    obtain ⟨halloc, hsize⟩ := hu
    have hstep' := hstep.trans halloc
    split
    · exact ends_pure.mpr (hbad r'.1 _ hstep')
    rename_i hne
    obtain ⟨himage', hle, _⟩ := hsize hne
    split
    · exact ends_pure.mpr (hbad r'.1 _ hstep')
    rename_i hal
    -- the segment ends below the size, and the file has not more of it than the memory
    have hend : get r.2 8 4 + get r.2 16 4 ≤ r'.2 := by
      have hvaddr := get_lt r.2 8 4
      have hmem := get_lt r.2 20 4
      unfold wrap at hwrap hle
      omega
    refine Ends.bind (loaduvm_ends himage' (not_not.mp hal) hend) fun r'' v _ hv => ?_
    have hstep'' := hstep'.trans (hv.2.step himage'.sound)
    split
    · exact ends_pure.mpr (hbad r'.1 _ hstep'')
    · have hfinal := himage'.of_sound (sound_of_freelist hv.2.freelist himage'.sound)
      exact (ih hfinal).mono fun x w hw => ⟨hstep''.trans hw.step, hw.image⟩

theorem setup_ends {bad : Stop → Prop} (hs : Sound K s.mem held) :
    Ends bad (onMem (setupkvm K) s) fun r t => Step held s t 0 (r.elim 0 Pgdir.pages) ∧
      ∀ d, r = some d → Image K held t.mem d 0 := by
  refine ends_onMem (((setupkvm_returns hs).and (setupkvm_conserves s.mem)).mono fun r m hr => ?_)
  obtain ⟨⟨hmade, hhalf⟩, hconserves⟩ := hr
  have hs' : Sound K s.mem (0 + held) := by
    rw [zero_add]
    exact hs
  refine ⟨Step.of_used hs' hconserves hmade.used, ?_⟩
  rintro d rfl
  exact image_of_half (hhalf d rfl) hmade.sound

/-- Nothing, or an address space that has taken what is gone from the free list. -/
theorem load_ends (hs : Sound K s.mem held) :
    Ends Panics (load K ip s) fun r t => match r with
      | none => Step held s t 0 0
      | some (d, sz, _) => Loaded K held s t 0 d sz := by
  unfold load
  refine Ends.bind (readi_ends ip 0 52 s) fun elf t _ ht => ?_
  obtain ⟨fs, rfl, huse⟩ := ht
  have hstep := Step.of_use huse held 0
  split
  · exact ends_pure.mpr hstep
  split
  · exact ends_pure.mpr hstep
  refine Ends.bind (setup_ends (s := { s with fs }) hs) fun r u _ hu => ?_
  obtain ⟨hsetup, himage⟩ := hu
  cases r with
  | none => exact ends_pure.mpr (hstep.trans hsetup)
  | some d =>
    refine Ends.bind (loadSegments_ends (himage d rfl)) fun r v _ hv => ?_
    exact ends_pure.mpr ⟨(hstep.trans hsetup).trans hv.step, hv.image⟩

end Load

end NorthOS.Exec
