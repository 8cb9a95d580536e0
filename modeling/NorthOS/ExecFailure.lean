import NorthOS.ExecArgs

/-!
exec that fails. Whatever the file holds and wherever kalloc or a read fails, the process keeps what
it has and the new pages, the inode and the operation are given back; unless an argument is so long
that it would begin around the end of memory below the devices, where there are no page tables.
-/
namespace NorthOS.Exec

open Halting Halting.Comp Paging
open Fs (Name)
open Vm (PGSIZE KERNBASE PHYSTOP DEVSPACE wrap PDX roundUp)

/-- The panics of loaduvm. -/
def LoadPanics (e : Stop) : Prop := e = .vm .loaduvmAligned ∨ e = .vm .loaduvmExist

/-- The process, its memory and `others` are as they were, and all that was taken is back. -/
abbrev Unchanged (others : Multiset ℕ) (s t : Sys) : Prop :=
  Step (s.proc.pgdir.pages + others) s t 0 0

/-- exec does not panic in loaduvm, and where it returns -1 nothing has changed. -/
def FailsClean (K : Kernel) (path : Name) (argv : List Name) (others : Multiset ℕ) (s : Sys) : Prop :=
  Ends LoadPanics (exec K path argv s) fun r t => r = -1 → Unchanged others s t

/-- A process that runs, and what else is held. -/
structure Running (K : Kernel) (s : Sys) (others : Multiset ℕ) : Prop where
  sound : Sound K s.mem (s.proc.pgdir.pages + others)
  cr3 : s.mem.cr3 = s.proc.pgdir

/-- Of the arguments, from number `argc` on and with `used` bytes above them, one that exec comes to is
too long even for the devices' part of the address space. -/
def StrayFrom : ℕ → ℕ → List Name → Prop
  | _, _, [] => False
  | argc, used, arg :: argv => argc < MAXARG ∧
    (2 * PGSIZE + (2 ^ 32 - DEVSPACE) < used + span arg ∨
      used + span arg ≤ PGSIZE ∧ StrayFrom (argc + 1) (used + span arg) argv)

def Stray (argv : List Name) : Prop := StrayFrom 0 0 argv

variable {K : Kernel} {s t u : Sys} {d : Pgdir} {held others n n' : Multiset ℕ} {argv : List Name}
  {arg path : Name} {entry ip sz sp argc : ℕ} {ptrs : List ℕ}

section Stack

/-- Where no string strays, pushArgs writes pages of the new address space and no others. -/
theorem pushArgs_ends (h : Stack K held s.mem d sz) (hal : sp % 4 = 0) (hlo : sz - PGSIZE ≤ sp)
    (hhi : sp ≤ sz) (hstray : ¬ StrayFrom argc (sz - sp) argv)
    (hshort : ∀ arg ∈ argv, arg.length < KERNBASE) :
    Ends Panics (pushArgs d argv argc sp ptrs s) fun _ t => Reads d s t := by
  induction argv generalizing s sp argc ptrs with
  | nil => exact ends_pure.mpr (Reads.refl d s)
  | cons arg argv ih =>
    unfold pushArgs
    split
    · exact ends_pure.mpr (Reads.refl d s)
    rename_i hcount
    have hlow := h.low
    have hhigh := h.high
    have hmod := span_mod arg
    have hlen : (arg ++ [0]).length = arg.length + 1 := List.length_append
    unfold StrayFrom at hstray
    obtain ⟨hreach, hrest⟩ := not_or.mp (not_and.mp hstray (Nat.lt_of_not_le hcount))
    have hlong := hshort arg List.mem_cons_self
    have hspan : span arg ≤ 2 ^ 32 := by
      unfold span
      unfold KERNBASE at hlong
      omega
    have hwalk : Walkable d (pushed sp arg) (arg ++ [0]).length := by
      rw [hlen]
      refine pushed_walkable h hal hhi (.inr ?_)
      unfold DEVSPACE at hreach ⊢
      omega
    refine Ends.bind (copyout_ends h hwalk (by rw [hlen]; unfold KERNBASE at hlong; omega))
      fun r t _ ht => ?_
    obtain ⟨hcopied, hreads⟩ := ht
    split
    · exact ends_pure.mpr hreads
    rename_i hr
    have hcovered : d.Covered (pushed sp arg) (arg ++ [0]).length := by
      rcases hcopied.result with ⟨_, hcov⟩ | ⟨hr', _⟩
      · exact hcov
      · exact absurd hr' (by omega)
    -- what was copied is on the page
    have hfit : sz - PGSIZE + span arg ≤ sp := by
      by_contra hunfit
      obtain ⟨k, hk, _, hnone⟩ := pushed_unfit h hal hlo hhi (by omega) hspan
      have hsome := hcovered k (by rw [hlen]; exact hk)
      rw [hnone] at hsome
      exact absurd hsome Bool.false_ne_true
    unfold KERNBASE at hhigh
    have hused : sz - (sp - span arg) = sz - sp + span arg := by omega
    have hnext : ¬ StrayFrom (argc + 1) (sz - (sp - span arg)) argv := by
      rw [hused]
      exact fun hc => hrest ⟨by omega, hc⟩
    rw [pushed_eq hal (by omega) (by omega)]
    have hstack := h.of_sound (sound_of_freelist hreads.freelist h.sound)
    refine (ih hstack (by omega) (by omega) (by omega) hnext fun x hx =>
      hshort x (List.mem_cons_of_mem arg hx)).mono fun r u hu => hreads.trans hu

theorem pushStack_ends (h : Stack K held s.mem d sz) (hstray : ¬ Stray argv)
    (hshort : ∀ arg ∈ argv, arg.length < KERNBASE) :
    Ends Panics (pushStack d argv sz s) fun _ t => Reads d s t := by
  have hlow := h.low
  have hhigh := h.high
  have hal : sz % 4 = 0 := by
    have := h.aligned
    unfold PGSIZE at this
    omega
  have hfrom : ¬ StrayFrom 0 (sz - sz) argv := by
    rw [Nat.sub_self]
    exact hstray
  unfold pushStack
  refine Ends.bind ((pushArgs_ends h hal (Nat.sub_le _ _) (Nat.le_refl sz) hfrom hshort).and
    (pushArgs_gives h hal (Nat.sub_le _ _) (Nat.le_refl sz) (Nat.zero_le _) hshort))
    fun r t _ ht => ?_
  obtain ⟨hreads, hgives⟩ := ht
  cases r with
  | none => exact ends_pure.mpr hreads
  | some r =>
    obtain ⟨sp, ptrs⟩ := r
    obtain ⟨_, hpushed⟩ := hgives sp ptrs rfl
    have hstack := h.of_sound (sound_of_freelist hreads.freelist h.sound)
    have htop := hpushed.top
    have hfits := hpushed.fits
    have hlength : ptrs.length = argv.length := by
      rw [hpushed.pointers]
      exact places_length sz argv
    have hcount : argv.length ≤ MAXARG := by
      have := hpushed.count
      omega
    have hlen : ((ustack sp ptrs).flatMap word).length = 4 * (argv.length + 4) := by
      rw [words_length, ustack_length, hlength]
    unfold KERNBASE at hhigh
    dsimp only
    rw [hlength, vector_start hcount (show sp < 2 ^ 32 by omega) (by omega)]
    have hwalk : Walkable d (sp - 4 * (argv.length + 4))
        ((ustack sp ptrs).flatMap word).length := by
      rw [hlen]
      exact vector_walkable hstack hcount (by omega) (by omega)
    have hmax : argv.length ≤ 32 := hcount
    refine Ends.bind (copyout_ends hstack hwalk (by omega)) fun r u _ hu => ?_
    exact ends_pure.mpr (hreads.trans hu.2)

end Stack

section Enter

theorem bad_ends {bad : Stop → Prop} (hs : Sound K t.mem (d.pages + held))
    (h : Step held s t n d.pages) :
    Ends bad (Exec.bad K d t) fun r u => r = -1 ∧ Step held s u n 0 :=
  Ends.bind (free_ends hs) fun _ _ _ hu => ends_pure.mpr ⟨rfl, h.trans hu⟩

/-- The commit does not fail. -/
theorem commit_ends (hs : Sound K s.mem (s.proc.pgdir.pages + others)) :
    Ends Panics (commit K path d sz entry sp s) fun r _ => r = 0 := by
  unfold commit
  refine Ends.bind (Q := fun old t => old = s.proc.pgdir ∧ s = t) (ends_look.mpr ⟨rfl, rfl⟩) ?_
  rintro _ _ _ ⟨rfl, rfl⟩
  refine Ends.bind (Q := fun _ t => t = { s with
    proc := { s.proc with pgdir := d, sz, eip := entry, esp := sp, name := progName path }
    mem := { s.mem with cr3 := d } }) (ends_update.mpr rfl) ?_
  rintro _ _ _ rfl
  have hsound : Sound K { s.mem with cr3 := d } (s.proc.pgdir.pages + others) :=
    ⟨hs.nodup, hs.inside⟩
  exact Ends.bind (free_ends hsound) fun _ _ _ _ => ends_pure.mpr rfl

/-- Where exec gives up after the loading, the image is given back. -/
theorem enter_ends (h : Image K held s.mem d sz) (hheld : held = s.proc.pgdir.pages + others)
    (hstray : ¬ Stray argv) (hshort : ∀ arg ∈ argv, arg.length < KERNBASE) :
    Ends Panics (enter K path argv entry d sz s) fun r t => r = -1 → Step held s t d.pages 0 := by
  refine enter_rule h (fun d' t _ hstep => ?_) fun _ d' t _ _ hstep hstack _ => ?_
  · exact (bad_ends (hstep.sound h.sound) hstep).mono fun r u hu _ => hu.2
  · refine Ends.bind (pushStack_ends hstack hstray hshort) fun esp v _ hreads => ?_
    have hstep' := hstep.trans (hreads.step hstack.sound)
    have hsound := hstep'.sound h.sound
    cases esp with
    | none => exact (bad_ends hsound hstep').mono fun r u hu _ => hu.2
    | some esp =>
      have hold : Sound K v.mem (v.proc.pgdir.pages + (d'.pages + others)) := by
        rw [hstep'.proc, add_left_comm, ← hheld]
        exact hsound
      refine (commit_ends hold).mono fun r u hr hneg => ?_
      rw [hr] at hneg
      exact absurd hneg (by decide)

end Enter

section Inode

/-- Since `s` exec has begun an operation and has the lock of an inode, with a reference to it. -/
structure Opened (held : Multiset ℕ) (ip : ℕ) (s t : Sys) (n : Multiset ℕ) : Prop where
  proc : t.proc = s.proc
  ops : t.ops = s.ops + 1
  use : ∃ fs, Fs.Moves s.fs fs none (some ip) ∧ 0 < fs.refs ip ∧ fs.locks ip = false ∧
    t.fs.refs = fs.refs ∧ t.fs.locks = Function.update fs.locks ip true
  conserves : Conserves s.mem 0 t.mem n
  kept : ∀ page ∈ held, t.mem.bytes page = s.mem.bytes page
  cr3 : t.mem.cr3 = s.mem.cr3

theorem Opened.step (h : Opened held ip s t n) (h' : Step held t u n n') :
    Opened held ip s u n' where
  proc := h'.proc.trans h.proc
  ops := h'.ops.trans h.ops
  use := by
    obtain ⟨fs, hmoves, hpos, hfree, hrefs, hlocks⟩ := h.use
    exact ⟨fs, hmoves, hpos, hfree, h'.use.refs.trans hrefs, h'.use.locks.trans hlocks⟩
  conserves := h.conserves.trans h'.conserves
  kept page hpage := (h'.kept page hpage).trans (h.kept page hpage)
  cr3 := h'.cr3.trans h.cr3

theorem beginOp_neutral : Fs.Neutral Fs.beginOp := by
  intro s
  unfold Fs.beginOp
  split
  · exact ⟨rfl, rfl⟩
  · exact id

theorem endOp_neutral : Fs.Neutral Fs.endOp := by
  intro s
  unfold Fs.endOp
  split
  · exact ⟨rfl, rfl⟩
  · exact id

/-- The operation is over. -/
theorem end_op_ends (h : Step held { s with ops := s.ops + 1 } t n n') :
    Ends Panics (end_op t) fun _ u => Step held s u n n' ∧ u.mem = t.mem ∧ u.proc = t.proc := by
  unfold end_op
  refine Ends.bind (onFs_ends (endOp_neutral t.fs)) fun _ u _ hu => ?_
  obtain ⟨fs, rfl, huse⟩ := hu
  refine ends_update.mpr ⟨⟨h.proc, ?_, Fs.use_composes.trans h.use huse, h.conserves, h.kept,
    h.cr3⟩, rfl, rfl⟩
  show t.ops - 1 = s.ops
  rw [h.ops]
  exact add_sub_cancel_right s.ops 1

theorem iunlockput_ends (h : Opened held ip s t n) :
    Ends Panics (onFs (Fs.iunlockput ip) t) fun _ u => Step held { s with ops := s.ops + 1 } u 0 n ∧
      u.mem = t.mem ∧ u.proc = t.proc := by
  obtain ⟨fs, hmoves, hpos, hfree, hrefs, hlocks⟩ := h.use
  have hput := Fs.iunlockput_moves hpos hfree hrefs hlocks (Fs.Moves.start t.fs none)
  refine (onFs_ends hput).mono fun _ u hu => ?_
  obtain ⟨fs', rfl, hback⟩ := hu
  have hall := hmoves.trans hback
  have hnone : Fs.SameUse s.fs fs' := by
    refine ⟨funext fun k => ?_, hall.locks⟩
    exact Nat.add_right_cancel (hall.refs k)
  exact ⟨⟨h.proc, h.ops, hnone, h.conserves, h.kept, h.cr3⟩, rfl, rfl⟩

/-- exec has found the inode and holds its lock, or there is none. -/
theorem find_ends (held : Multiset ℕ) (path : Name) (s : Sys) :
    Ends Panics (find path s) fun r t => match r with
      | none => Step held { s with ops := s.ops + 1 } t 0 0
      | some ip => Opened held ip s t 0 := by
  unfold find begin_op
  refine Ends.bind (Q := fun _ t => ∃ fs, t = { s with fs, ops := s.ops + 1 } ∧ Fs.SameUse s.fs fs)
    ?_ ?_
  · refine Ends.bind (onFs_ends (beginOp_neutral s.fs)) fun _ t _ ht => ?_
    obtain ⟨fs, rfl, huse⟩ := ht
    exact ends_update.mpr ⟨fs, rfl, huse⟩
  rintro _ t _ ⟨fs, rfl, huse⟩
  refine Ends.bind (Q := fun _ u => u = { s with fs, ops := s.ops + 1 }) (ends_look.mpr rfl) ?_
  rintro cwd _ _ rfl
  refine Ends.bind (onFs_ends (Fs.namei_moves cwd path fs)) fun r u _ hu => ?_
  obtain ⟨fs', rfl, hmoves⟩ := hu
  have hall : Fs.Moves s.fs fs' none r := by
    refine ⟨fun k => ?_, hmoves.locks.trans huse.locks⟩
    rw [← huse.refs]
    exact hmoves.refs k
  cases r with
  | none =>
    refine ends_pure.mpr ⟨rfl, rfl, ⟨funext fun k => ?_, hall.locks⟩, rfl, fun _ _ => rfl, rfl⟩
    exact Nat.add_right_cancel (hall.refs k)
  | some ip =>
    refine Ends.bind (onFs_ends (Fs.ilock_uses fs')) fun _ v _ hv => ?_
    obtain ⟨fs'', rfl, hpos, hfree, hrefs, hlocks⟩ := hv
    exact ends_pure.mpr ⟨rfl, rfl, ⟨fs', hall, hpos, hfree, hrefs, hlocks⟩, rfl,
      fun _ _ => rfl, rfl⟩

end Inode

section Run

/-- Where no argument strays exec that fails changes nothing. -/
theorem exec_failsClean (hs : Sound K s.mem (s.proc.pgdir.pages + others)) (hstray : ¬ Stray argv)
    (hshort : ∀ arg ∈ argv, arg.length < KERNBASE) : FailsClean K path argv others s := by
  have hpanics : ∀ e, LoadPanics e → Panics e := by
    rintro e (rfl | rfl)
    · trivial
    · trivial
  unfold FailsClean Unchanged
  generalize hheld : s.proc.pgdir.pages + others = held at hs
  refine Ends.allow ?_ hpanics
  rw [exec_eq]
  refine Ends.bind (find_ends held path s) fun r s₀ _ h₀ => ?_
  cases r with
  | none => exact Ends.bind (end_op_ends h₀) fun _ _ _ ht => ends_pure.mpr fun _ => ht.1
  | some ip =>
    have hs₀ : Sound K s₀.mem held := by
      refine hs.of_conserves ?_
      have hadd := h₀.conserves.add held
      rwa [zero_add] at hadd
    refine Ends.bind (load_ends hs₀) fun r s₁ _ h₁ => ?_
    match r, h₁ with
    | none, h₁ =>
      refine Ends.bind (iunlockput_ends (h₀.step h₁)) fun _ t _ ht => ?_
      exact Ends.bind (end_op_ends ht.1) fun _ _ _ hu => ends_pure.mpr fun _ => hu.1
    | some (d, none, entry), h₁ =>
      have hloaded := h₁.step.sound (by rw [zero_add]; exact hs₀)
      refine Ends.bind (free_ends hloaded) fun _ t _ ht => ?_
      refine Ends.bind (iunlockput_ends ((h₀.step h₁.step).step ht)) fun _ u _ hu => ?_
      exact Ends.bind (end_op_ends hu.1) fun _ _ _ hv => ends_pure.mpr fun _ => hv.1
    | some (d, some sz, entry), h₁ =>
      refine Ends.bind (iunlockput_ends (h₀.step h₁.step)) fun _ t _ ht => ?_
      refine Ends.bind (end_op_ends ht.1) fun _ u _ hu => ?_
      have himage : Image K held u.mem d sz := by
        rw [hu.2.1, ht.2.1]
        exact h₁.image sz rfl
      have hproc : held = u.proc.pgdir.pages + others := by
        rw [hu.1.proc]
        exact hheld.symm
      exact (enter_ends himage hproc hstray hshort).mono fun r v hv hr => hu.1.trans (hv hr)

end Run

end NorthOS.Exec
