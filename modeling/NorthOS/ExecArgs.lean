import NorthOS.ExecStack

/-!
What a program finds when exec has returned 0: its arguments on the stack page, above a page that it
may not use, and below them the program as it was loaded.
-/
namespace NorthOS.Exec

open Halting Halting.Comp LittleEndian Paging
open Fs (Name)
open Vm (PGSIZE KERNBASE wrap PDX PGROUNDUP roundUp roundUp_aligned le_roundUp roundUp_le
  roundUp_le_kernbase pgroundup_eq)

/-- What main is given: argc, and argv with a null pointer behind the pointers to the strings. -/
structure Arguments (d : Pgdir) (m : Memory) (sz esp : ℕ) (argv : List Name) : Prop where
  count : Holds d m (esp + 4) (word argv.length)
  vector : Holds d m (esp + 8) (word (esp + 12))
  pointers : ∃ ptr : ℕ → ℕ, ∀ i (_ : i < argv.length), Holds d m (esp + 12 + 4 * i) (word (ptr i)) ∧
    Holds d m (ptr i) (argv[i] ++ [0]) ∧ esp + 16 + 4 * argv.length ≤ ptr i ∧
    ptr i + argv[i].length + 1 ≤ sz
  last : Holds d m (esp + 12 + 4 * argv.length) (word 0)
  page : sz - PGSIZE ≤ esp ∧ esp + 16 + 4 * argv.length ≤ sz

variable {K : Kernel} {s t u : Sys} {m m' : Memory} {d d' : Pgdir}
    {held others : Multiset ℕ} {e : Pte}
  {a i esp entry ip sz va : ℕ} {argv : List Name} {path : Name}

section Arguments

theorem Arguments.keep (h : Arguments d m sz esp argv)
    (hsame : ∀ a, a < sz → peek d m' a = peek d m a) :
    Arguments d m' sz esp argv := by
  have hpage := h.page
  have hword : ∀ va w, va + 4 ≤ sz → Holds d m va (word w) → Holds d m' va (word w) :=
    fun va w hend hholds => hholds.keep fun a _ ha => hsame a (by rw [word_length] at ha; omega)
  obtain ⟨ptr, hptr⟩ := h.pointers
  refine ⟨hword _ _ (by omega) h.count, hword _ _ (by omega) h.vector, ⟨ptr, fun i hi => ?_⟩,
    hword _ _ (by omega) h.last, hpage⟩
  obtain ⟨hpointer, hstring, hlo, hhi⟩ := hptr i hi
  refine ⟨hword _ _ (by omega) hpointer, hstring.keep fun a _ ha => hsame a ?_, hlo, hhi⟩
  rw [List.length_append, List.length_singleton] at ha
  omega

end Arguments

section Commit

/-- What is at user addresses of an address space that keeps those of another one. -/
theorem peek_keeps (h : Keeps m m' d d') (ha : a < KERNBASE) (he : d.pte a = some e) :
    peek d' m' a = peek d m a := by
  obtain ⟨he', hbytes⟩ := h a e ha he
  unfold peek Pgdir.userPage userFrame
  rw [he, he']
  by_cases huser : e.User
  · rw [Option.bind_some, if_pos huser, Option.map_some, Option.map_some, hbytes]
  · rw [Option.bind_some, if_neg huser]
    rfl

/-- What exec does with the image: it gives up where there is no memory for the stack, and else makes
the stack above the program, which is as it was. -/
theorem enter_rule {bad : Stop → Prop} {Q : ℤ → Sys → Prop} (h : Image K held s.mem d sz)
    (hnone : ∀ d' t, onMem (allocuvm K d (roundUp sz) (roundUp sz + 2 * PGSIZE)) s =
      .ok ((d', 0), t) → Step held s t d.pages d'.pages → Ends bad (Exec.bad K d' t) Q)
    (hsome : ∀ d₁ d' t, onMem (allocuvm K d (roundUp sz) (roundUp sz + 2 * PGSIZE)) s =
        .ok ((d₁, roundUp sz + 2 * PGSIZE), t) →
      (∀ i, (d'.table i).isNone = (d₁.table i).isNone) → Step held s t d.pages d'.pages →
      Stack K held t.mem d' (roundUp sz + 2 * PGSIZE) →
      (∀ va, va < roundUp sz → peek d' t.mem va = peek d s.mem va) →
      Ends bad ((do
        match ← pushStack d' argv (roundUp sz + 2 * PGSIZE) with
        | none => Exec.bad K d'
        | some sp => commit K path d' (roundUp sz + 2 * PGSIZE) entry sp : M ℤ) t) Q) :
    Ends bad (enter K path argv entry d sz s) Q := by
  have hsmall := h.small
  have hround := roundUp_le_kernbase hsmall
  have himage : Image K held s.mem d (roundUp sz) := by
    have hidem : roundUp (roundUp sz) = roundUp sz := by
      unfold roundUp PGSIZE
      omega
    exact ⟨h.sound, hround, by rw [hidem]; exact h.user, h.access, h.upper⟩
  have hwrap : wrap (roundUp sz + 2 * PGSIZE) = roundUp sz + 2 * PGSIZE := by
    unfold KERNBASE at hround
    unfold wrap PGSIZE
    omega
  unfold enter
  rw [pgroundup_eq hsmall]
  dsimp only
  rw [hwrap]
  generalize hnewsz : roundUp sz + 2 * PGSIZE = newsz at hnone hsome ⊢
  refine Ends.bind (alloc_ends himage newsz) fun r t hrun ht => ?_
  obtain ⟨d₁, newsz'⟩ := r
  obtain ⟨hstep, hsize⟩ := ht
  dsimp only at hstep hsize ⊢
  split
  · rename_i hzero
    subst hzero
    exact hnone d₁ t hrun hstep
  rename_i hne
  obtain ⟨himage', _, hnew, hr, hkeeps⟩ := hsize hne
  obtain rfl := hr (by omega)
  have hal : newsz' % PGSIZE = 0 := by
    rw [← hnewsz, Nat.add_mul_mod_self_right]
    exact roundUp_aligned sz
  refine Ends.bind (ends_onMem (Q := fun d' u => u = t ∧ Stack K held t.mem d' newsz' ∧
      d'.pages = d₁.pages ∧ (∀ i, (d'.table i).isNone = (d₁.table i).isNone) ∧
      ∀ va, va < 2 ^ 32 → ¬ Guard newsz' va → d'.pte va = d₁.pte va)
    ((clearpteu_stack himage' (by omega) hal hnew.le).mono fun d' m' hd => ?_)) fun d' u _ hu => ?_
  · obtain ⟨rfl, hstack, hpages, htables, hpte⟩ := hd
    exact ⟨rfl, hstack, hpages, htables, hpte⟩
  obtain ⟨rfl, hstack, hpages, htables, hpte⟩ := hu
  refine hsome d₁ d' u hrun htables (by rw [hpages]; exact hstep) hstack fun va hva => ?_
  have hkernbase : va < KERNBASE := hva.trans_le hround
  have hguard : ¬ Guard newsz' va := by
    unfold Guard
    omega
  obtain ⟨e, he⟩ := Option.isSome_iff_exists.mp ((h.user va hkernbase).mpr hva)
  have huserPage : d'.userPage va = d₁.userPage va := by
    unfold Pgdir.userPage
    rw [hpte va (by unfold KERNBASE at hkernbase; omega) hguard]
  unfold peek
  rw [huserPage]
  exact peek_keeps hkeeps hkernbase he

end Commit

section Run

/-- exec up to where it reads the file: the inode, which is locked then. -/
def find (path : Name) : M (Option ℕ) := do
  begin_op
  let cwd ← look fun s => s.proc.cwd
  match ← onFs (Fs.namei cwd path) with
  | none => pure none
  | some ip => do
    onFs (Fs.ilock ip)
    pure (some ip)

/-- exec from there on. -/
def proceed (K : Kernel) (path : Name) (argv : List Name) : Option ℕ → M ℤ
  | none => do
    end_op
    pure (-1)
  | some ip => do
    match ← load K ip with
    | none => do
      onFs (Fs.iunlockput ip)
      end_op
      pure (-1)
    | some (pgdir, none, _) => do
      onMem (Paging.freevm K pgdir)
      onFs (Fs.iunlockput ip)
      end_op
      pure (-1)
    | some (pgdir, some sz, entry) => do
      onFs (Fs.iunlockput ip)
      end_op
      enter K path argv entry pgdir sz

theorem exec_eq (K : Kernel) (path : Name) (argv : List Name) :
    exec K path argv = (do
      let r ← find path
      proceed K path argv r) := by
  unfold exec find
  rw [bind_assoc]
  refine congrArg _ (funext fun _ => ?_)
  rw [bind_assoc]
  refine congrArg _ (funext fun cwd => ?_)
  rw [bind_assoc]
  refine congrArg _ (funext fun r => ?_)
  cases r with
  | none => rfl
  | some ip =>
    rw [bind_assoc]
    rfl

/-- A process of one page, with a file of its name. -/
def caller : Sys := ⟨Fs.withReadme, sixty, ⟨parent, PGSIZE, 0, 0, Fs.README, 0⟩, 0⟩

end Run

end NorthOS.Exec
