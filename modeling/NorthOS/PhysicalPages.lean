import Mathlib.Order.Interval.Finset.Nat
import NorthOS.OpenFiles
import NorthOS.PageTables

/-!
The pages of the allocator. sbrk, exec, fork and wait work on pages without a lock but for
kmem.lock, so that the steps of their programs interleave; pipe, close, dup, open and exit go
as the open files go. A call that works on an address space has it until it returns. A page
is on the free list, or a process in the table, a pipe that some file is open on, or the
kernel itself has it.
-/
namespace NorthOS.Vm

open Files (Use)
open Pool
open Process (ProcState NPROC)
open Runs

/-- What a call works on: the caller's address space, a slot that it fills, or a zombie. -/
inductive Kind
  | own
  | fork (np : ℕ)
  | wait (z : ℕ)
  deriving DecidableEq

/-- How a call ends. -/
inductive Outcome
  | own (pgdir : Pgdir) (sz : ℕ)
  | child (made : Option (ℕ × Pgdir × ℕ))
  | reaped

structure Job where
  kind : Kind
  prog : M Outcome

/-- `kernel` are the pages that main took: kpgdir's, and the stacks of the other CPUs. The two
flags of a pipe are those in its page. -/
structure Sys where
  files : Files.Sys
  freelist : List ℕ
  kernel : Multiset ℕ
  kstack : ℕ → Option ℕ
  pgdir : ℕ → Option Pgdir
  sz : ℕ → ℕ
  readopen : ℕ → Bool
  writeopen : ℕ → Bool
  job : ℕ → Option Job

/-- `fail` makes a kalloc fail. -/
inductive Act
  | sbrk (p : ℕ) (n : ℤ)
  | exec (p : ℕ) (image : Image)
  | fork (p np : ℕ)
  | wait (p z : ℕ)
  | tick (p : ℕ) (fail : Bool)
  | sysOpen (p ip : ℕ)
  | sysDup (p fd : ℕ)
  | sysPipe (p : ℕ)
  | sysClose (p fd : ℕ)
  | exit (p : ℕ)
  | go (p : ℕ) (fail : Bool)

def sbrk (d : Pgdir) (sz : ℕ) (n : ℤ) : M Outcome := do
  let (d, sz, _) ← growproc d sz n
  pure (.own d sz)

def runExec (L : Layout) (d : Pgdir) (sz : ℕ) (image : Image) : M Outcome := do
  let (d, sz, _) ← exec L d sz image
  pure (.own d sz)

/-- What allocproc and fork do with pages. -/
def fork (L : Layout) (d : Pgdir) (sz : ℕ) : M Outcome := do
  match ← Prog.alloc with
  | none => pure (.child none)
  | some kstack => do
    match ← copyuvm L d sz with
    | none => do
      Prog.free kstack
      pure (.child none)
    | some np => pure (.child (some (kstack, np, sz)))

def reap (kstack : ℕ) (d : Pgdir) : M Outcome := do
  Prog.free kstack
  freevm d
  pure .reaped

/-- The pages that the allocator is given. -/
def Layout.pages (L : Layout) : Finset ℕ := Finset.Ico (PGROUNDUP L.kernelEnd / PGSIZE) (PHYSTOP / PGSIZE)

/-- kfree panics on a page that the allocator was not given. -/
def Layout.outside (L : Layout) (page : ℕ) : Bool := page * PGSIZE < L.kernelEnd || PHYSTOP ≤ page * PGSIZE

def freerange (L : Layout) : List ℕ → M PUnit
  | [] => pure ⟨⟩
  | page :: rest =>
    if L.outside page then .halt
    else do
      Prog.free page
      freerange L rest

/-- The pages below 4 MB, which entrypgdir maps. -/
def kinit1 (L : Layout) : M PUnit :=
  freerange L (List.range' (PGROUNDUP L.kernelEnd / PGSIZE)
    (4 * 1024 * 1024 / PGSIZE - PGROUNDUP L.kernelEnd / PGSIZE))

def kinit2 (L : Layout) : M PUnit :=
  freerange L (List.range' (4 * 1024 * 1024 / PGSIZE) (PHYSTOP / PGSIZE - 4 * 1024 * 1024 / PGSIZE))

def kvmalloc (L : Layout) : M Pgdir := do
  match ← setupkvm L with
  | none => .halt
  | some kpgdir => pure kpgdir

/-- The stacks of the other CPUs. -/
def startothers : ℕ → M (List ℕ)
  | 0 => pure []
  | n + 1 => do
    let stack ← Prog.alloc
    let kstacks ← startothers n
    pure (stack.toList ++ kstacks)

/-- A mapping that fails is not noticed. -/
def inituvm (d : Pgdir) : M Pgdir := do
  match ← Prog.alloc with
  | none => .halt
  | some mem => do
    let (d, _) ← mappages d 0 PGSIZE mem
    pure d

def userinit (L : Layout) : M (ℕ × Pgdir) := do
  match ← Prog.alloc with
  | none => .halt
  | some kstack => do
    match ← setupkvm L with
    | none => .halt
    | some d => do
      let d ← inituvm d
      pure (kstack, d)

/-- What main does with pages: those that the kernel keeps, and the first process's kernel
stack and address space. -/
def boot (L : Layout) (others : ℕ) : M (Multiset ℕ × ℕ × Pgdir) := do
  kinit1 L
  let kpgdir ← kvmalloc L
  let kstacks ← startothers others
  kinit2 L
  let (kstack, d) ← userinit L
  pure (kpgdir.pages + kstacks, kstack, d)

namespace Sys

def kfree (L : Layout) (s : Sys) (page : ℕ) : Option Sys :=
  if L.outside page then none else some { s with freelist := page :: s.freelist }

/-- A process that is in no call. -/
def Ready (s : Sys) (p : ℕ) : Prop :=
  s.files.state p = .RUNNING ∧ s.files.doing p = .idle ∧ (s.job p).isNone

instance (s : Sys) (p : ℕ) : Decidable (s.Ready p) := inferInstanceAs (Decidable (_ ∧ _))

/-- Some fork has taken the slot. -/
def claimed (s : Sys) (np : ℕ) : Bool :=
  (List.range NPROC).any fun q => (s.job q).any fun j => j.kind = .fork np

def begin (s : Sys) (p : ℕ) (kind : Kind) (prog : M Outcome) : Sys :=
  { s with job := Function.update s.job p (some ⟨kind, prog⟩) }

/-- The end of a call that works on pages. -/
def finish (s : Sys) (p : ℕ) : Kind → Outcome → Option Sys
  | .own, .own d sz =>
    some { s with
      pgdir := Function.update s.pgdir p (some d)
      sz := Function.update s.sz p sz
      job := Function.update s.job p none }
  | .fork _, .child none => some { s with job := Function.update s.job p none }
  | .fork np, .child (some (kstack, d, sz)) =>
    (s.files.step (.fork p np)).map fun files =>
      { s with
        files := files
        kstack := Function.update s.kstack np (some kstack)
        pgdir := Function.update s.pgdir np (some d)
        sz := Function.update s.sz np sz
        job := Function.update s.job p none }
  | .wait z, .reaped =>
    (s.files.step (.wait z)).map fun files =>
      { s with files := files, job := Function.update s.job p none }
  | _, _ => none

/-- The next step of a call that works on pages. -/
def tick (L : Layout) (s : Sys) (p : ℕ) (fail : Bool) (j : Job) : Option Sys :=
  match j.prog with
  | .ret o => s.finish p j.kind o
  | .give page k => { s with job := Function.update s.job p (some ⟨j.kind, k⟩) }.kfree L page
  | .take k =>
    (Prog.tick fail s.freelist (.take k)).map fun t =>
      { s with freelist := t.1, job := Function.update s.job p (some ⟨j.kind, t.2⟩) }
  | .halt => none

/-- A step of the open files by a process that is in no other call. -/
def withFiles (s : Sys) (p : ℕ) (a : Files.Act) : Option Sys :=
  if (s.job p).isNone then (s.files.step a).map fun files => { s with files := files } else none

/-- The last end to be closed takes the page with it. -/
def pipeclose (L : Layout) (s : Sys) (page : ℕ) (writable : Bool) : Option Sys :=
  let s := if writable then { s with writeopen := Function.update s.writeopen page false }
    else { s with readopen := Function.update s.readopen page false }
  if s.readopen page = false ∧ s.writeopen page = false then s.kfree L page else some s

/-- The next step of a call on files. -/
def go (L : Layout) (s : Sys) (p : ℕ) (fail : Bool) : Option Sys :=
  match s.files.doing p with
  | .pipe1 _ _ =>
    match fail, s.freelist with
    | false, page :: freelist =>
      ({ s with
        freelist := freelist
        readopen := Function.update s.readopen page true
        writeopen := Function.update s.writeopen page true }).withFiles p (.go p (some page))
    | _, _ => s.withFiles p (.go p none)
  | .closing (some (_, .pipe page writable)) _ | .exiting _ _ (some (_, .pipe page writable)) =>
    (s.withFiles p (.go p none)).bind fun t => t.pipeclose L page writable
  | _ => s.withFiles p (.go p none)

/-- wait may find any zombie. -/
def step (L : Layout) (s : Sys) : Act → Option Sys
  | .sbrk p n =>
    if s.Ready p then
      (s.pgdir p).map fun d =>
        { s.begin p .own (sbrk d (s.sz p) n) with pgdir := Function.update s.pgdir p none }
    else none
  | .exec p image =>
    if s.Ready p then
      (s.pgdir p).map fun d =>
        { s.begin p .own (runExec L d (s.sz p) image) with pgdir := Function.update s.pgdir p none }
    else none
  | .fork p np =>
    if s.Ready p ∧ np < NPROC ∧ s.files.state np = .UNUSED ∧ s.claimed np = false then
      (s.pgdir p).map fun d => s.begin p (.fork np) (Vm.fork L d (s.sz p))
    else none
  | .wait p z =>
    if s.Ready p ∧ z < NPROC ∧ s.files.state z = .ZOMBIE then
      (s.kstack z).bind fun kstack => (s.pgdir z).map fun d =>
        { s.begin p (.wait z) (reap kstack d) with
          kstack := Function.update s.kstack z none
          pgdir := Function.update s.pgdir z none }
    else none
  | .tick p fail => (s.job p).bind fun j => s.tick L p fail j
  | .sysOpen p ip => s.withFiles p (.sysOpen p ip)
  | .sysDup p fd => s.withFiles p (.sysDup p fd)
  | .sysPipe p => s.withFiles p (.sysPipe p)
  | .sysClose p fd => s.withFiles p (.sysClose p fd)
  | .exit p => s.withFiles p (.exit p)
  | .go p fail => s.go L p fail

/-- No call is in progress. -/
def Quiet (s : Sys) : Prop := ∀ p, s.job p = none ∧ s.files.doing p = .idle

/-- The pages of a slot: the kernel stack and the address space. -/
def has (s : Sys) (p : ℕ) : Multiset ℕ :=
  (s.kstack p).elim 0 (fun page => {page}) + (s.pgdir p).elim 0 Pgdir.pages

/-- The pages of the pipes that files are open on. -/
def pipes (s : Sys) : Finset ℕ :=
  (Finset.range NFILE).biUnion fun f =>
    match (s.files.file f).type with
    | some (.pipe page _) => if 0 < (s.files.file f).ref then {page} else ∅
    | _ => ∅

/-- Every place where a page can be, with each page as often as it is there. -/
def places (s : Sys) : Multiset ℕ :=
  s.freelist + s.kernel +
    ∑ p ∈ Finset.range NPROC, (if s.files.state p = .UNUSED then 0 else s.has p) + s.pipes.val

/-- After userinit: the first process has a kernel stack and an address space, and no files. -/
def start (freelist : List ℕ) (kernel : Multiset ℕ) (kstack : ℕ) (d : Pgdir) : Sys where
  files := Files.Sys.start
  freelist := freelist
  kernel := kernel
  kstack := fun p => if p = 0 then some kstack else none
  pgdir := fun p => if p = 0 then some d else none
  sz := fun p => if p = 0 then PGSIZE else 0
  readopen := fun _ => false
  writeopen := fun _ => false
  job := fun _ => none

end Sys

/-- Between calls each page that the allocator was given is in one place, once, and no other
page is anywhere; a pipe has one open file for each end. Nor is a page ever twice on the free
list. -/
structure Conserved (L : Layout) (s : Sys) : Prop where
  places : s.Quiet → ∀ page, s.places.count page = if page ∈ L.pages then 1 else 0
  pipe : ∀ f g page writable, (s.files.file f).type = some (.pipe page writable) →
    (s.files.file g).type = some (.pipe page writable) → f = g
  freelist : s.freelist.Nodup

section Files

open Files (Refs Uses Target)

/-- What a step on the files of `p` does beside: of the other calls none moves, a child that is
complete runs and a process that has exited is a zombie, what was to be given back is, and of
the types that files get only those after a kalloc are pipes. -/
structure Went (s t : Files.Sys) (p : ℕ) (k : Option ℕ) (d : Files.Doing) : Prop where
  doing : ∀ q, q ≠ p → t.doing q = s.doing q
  state : ∀ q, t.state q = s.state q ∨ d.child = some q ∧ t.state q = .RUNNING ∨ q = p ∧ t.state q = .ZOMBIE
  released : t.released = d.pending ++ s.released
  opened : t.opened = s.opened ∨ (∃ l ip, t.opened = (l, .inode ip) :: s.opened) ∨
    ∃ f0 f1 page l0 l1, d = .pipe1 f0 f1 ∧ k = some page ∧
      t.opened = (l1, .pipe page true) :: (l0, .pipe page false) :: s.opened

variable {s t u : Files.Sys} {p : ℕ} {k : Option ℕ} {d d' : Files.Doing}

/-- Most steps change a file or a descriptor, and where the process stands. -/
theorem Went.of_eq (hdoing : u.doing = s.doing) (hstate : u.state = s.state)
    (hopened : u.opened = s.opened)
    (hreleased : u.released = d.pending ++ s.released) : Went s (u.goTo p d') p k d where
  doing := fun q hq => (Function.update_of_ne hq _ _).trans (congrFun hdoing q)
  state := fun q => Or.inl (congrFun hstate q)
  released := hreleased
  opened := Or.inl hopened

theorem go_went (hs : s.go p k d = some t) : Went s t p k d := by
  have hstay : ∀ {d'}, d.pending = [] → Went s (s.goTo p d') p k d := fun hd =>
    .of_eq rfl rfl rfl (by rw [hd]; rfl)
  have hset : ∀ {q fd x d'}, d.pending = [] → Went s ((s.setFd q fd x).goTo p d') p k d := fun hd =>
    .of_eq rfl rfl rfl (by rw [hd]; rfl)
  have hdup : ∀ {f u d'}, d.pending = [] → s.filedup f = some u → Went s (u.goTo p d') p k d := by
    intro f u d' hd hu
    obtain ⟨_, rfl⟩ := Files.filedup_some hu
    exact .of_eq rfl rfl rfl (by rw [hd]; rfl)
  have hclose : ∀ {f u r d'}, d.pending = [] → s.fileclose f = some (u, r) →
      Went s (u.goTo p d') p k d := by
    intro f u r d' hd hu
    obtain ⟨_, x, rfl, _⟩ := Files.fileclose_some hu
    exact .of_eq rfl rfl rfl (by rw [hd]; rfl)
  cases d with
  | idle => cases hs
  | opened f ip =>
    dsimp only [Files.Sys.go] at hs
    split at hs
    · exact Option.some.inj hs ▸ hset rfl
    · exact Option.some.inj hs ▸ hstay rfl
  | typing f ip =>
    obtain rfl := Option.some.inj hs
    exact ⟨fun q hq => Function.update_of_ne hq _ _, fun q => Or.inl rfl, rfl,
      Or.inr (Or.inl ⟨_, ip, rfl⟩)⟩
  | dup f =>
    obtain ⟨u, hu, rfl⟩ := Option.map_eq_some_iff.mp hs
    exact hdup rfl hu
  | pipe0 f0 =>
    dsimp only [Files.Sys.go] at hs
    split at hs
    · rename_i u f1 hu
      obtain rfl := Option.some.inj hs
      obtain ⟨_, _, rfl⟩ := Files.filealloc_some hu
      exact .of_eq rfl rfl rfl rfl
    · exact Option.some.inj hs ▸ hstay rfl
  | pipe1 f0 f1 =>
    dsimp only [Files.Sys.go] at hs
    split at hs
    · rename_i page
      obtain rfl := Option.some.inj hs
      exact ⟨fun q hq => Function.update_of_ne hq _ _, fun q => Or.inl rfl, rfl,
        Or.inr (Or.inr ⟨f0, f1, page, _, _, rfl, rfl, rfl⟩)⟩
    · exact Option.some.inj hs ▸ hstay rfl
  | pipe2 f0 f1 =>
    dsimp only [Files.Sys.go] at hs
    split at hs
    · exact Option.some.inj hs ▸ hset rfl
    · exact Option.some.inj hs ▸ hstay rfl
  | pipe3 f0 f1 fd0 =>
    dsimp only [Files.Sys.go] at hs
    split at hs
    · exact Option.some.inj hs ▸ hset rfl
    · exact Option.some.inj hs ▸ hset rfl
  | closing r fs =>
    cases r with
    | some r =>
      obtain rfl := Option.some.inj hs
      exact .of_eq rfl rfl rfl rfl
    | none =>
      cases fs with
      | nil => exact Option.some.inj hs ▸ hstay rfl
      | cons f fs =>
        obtain ⟨u, hu, rfl⟩ := Option.map_eq_some_iff.mp hs
        exact hclose rfl hu
  | fork np i =>
    dsimp only [Files.Sys.go] at hs
    split at hs
    · split at hs
      · obtain ⟨u, hu, rfl⟩ := Option.map_eq_some_iff.mp hs
        exact hdup rfl hu
      · exact Option.some.inj hs ▸ hstay rfl
    · obtain rfl := Option.some.inj hs
      refine ⟨fun q hq => Function.update_of_ne hq _ _, fun q => ?_, rfl, Or.inl rfl⟩
      by_cases hq : q = np
      · subst hq
        exact Or.inr (Or.inl ⟨rfl, Function.update_self _ _ _⟩)
      · exact Or.inl (Function.update_of_ne hq _ _)
  | forkSet np i f =>
    obtain rfl := Option.some.inj hs
    exact hset rfl
  | exit fd =>
    dsimp only [Files.Sys.go] at hs
    split at hs
    · split at hs
      · obtain ⟨u, hu, rfl⟩ := Option.map_eq_some_iff.mp hs
        exact hclose rfl hu
      · exact Option.some.inj hs ▸ hstay rfl
    · obtain rfl := Option.some.inj hs
      refine ⟨fun q hq => Function.update_of_ne hq _ _, fun q => ?_, rfl, Or.inl rfl⟩
      by_cases hq : q = p
      · subst hq
        exact Or.inr (Or.inr ⟨rfl, Function.update_self _ _ _⟩)
      · exact Or.inl (Function.update_of_ne hq _ _)
  | exiting f fd r =>
    cases r with
    | some r =>
      obtain rfl := Option.some.inj hs
      exact .of_eq rfl rfl rfl rfl
    | none =>
      obtain rfl := Option.some.inj hs
      exact hset rfl

/-- The start of a call that is not one on pages. -/
def OnFiles (p : ℕ) : Files.Act → Prop
  | .sysOpen q _ | .sysDup q _ | .sysPipe q | .sysClose q _ | .exit q => q = p
  | .fork _ _ | .wait _ | .go _ _ => False

theorem step_went {a : Files.Act} (ha : OnFiles p a) (hs : s.step a = some t) :
    Went s t p none .idle := by
  have hrefl : Went s s p none .idle := ⟨fun _ _ => rfl, fun _ => Or.inl rfl, rfl, Or.inl rfl⟩
  cases a with
  | sysOpen q ip =>
    obtain rfl : q = p := ha
    obtain ⟨_, hs⟩ := Option.ite_none_right_eq_some.mp hs
    obtain rfl := Option.some.inj hs
    split
    · rename_i u f hu
      obtain ⟨_, _, rfl⟩ := Files.filealloc_some hu
      exact .of_eq rfl rfl rfl rfl
    · exact hrefl
  | sysDup q fd =>
    obtain rfl : q = p := ha
    obtain ⟨_, hs⟩ := Option.ite_none_right_eq_some.mp hs
    obtain rfl := Option.some.inj hs
    split
    · exact .of_eq rfl rfl rfl rfl
    · exact hrefl
  | sysPipe q =>
    obtain rfl : q = p := ha
    obtain ⟨_, hs⟩ := Option.ite_none_right_eq_some.mp hs
    obtain rfl := Option.some.inj hs
    split
    · rename_i u f hu
      obtain ⟨_, _, rfl⟩ := Files.filealloc_some hu
      exact .of_eq rfl rfl rfl rfl
    · exact hrefl
  | sysClose q fd =>
    obtain rfl : q = p := ha
    obtain ⟨_, hs⟩ := Option.ite_none_right_eq_some.mp hs
    obtain rfl := Option.some.inj hs
    split
    · exact .of_eq rfl rfl rfl rfl
    · exact hrefl
  | exit q =>
    obtain rfl : q = p := ha
    obtain ⟨_, hs⟩ := Option.ite_none_right_eq_some.mp hs
    obtain rfl := Option.some.inj hs
    exact .of_eq rfl rfl rfl rfl
  | fork _ _ => exact absurd ha id
  | wait _ => exact absurd ha id
  | go _ _ => exact absurd ha id

/-- The file that was given this end of a pipe is open, or pipeclose is yet to be called. -/
def Live (s : Files.Sys) (page : ℕ) (writable : Bool) (l : ℕ) : Prop :=
  (l, Target.pipe page writable) ∈ s.opened ∧ (l, Target.pipe page writable) ∉ s.released

def livePages (s : Files.Sys) : Finset ℕ :=
  ((s.opened.filter fun x => decide (x ∉ s.released)).filterMap fun x =>
    match x.2 with
    | .pipe page _ => some page
    | .inode _ => none).toFinset

theorem mem_livePages {page : ℕ} : page ∈ livePages s ↔ ∃ writable l, Live s page writable l := by
  unfold livePages
  rw [List.mem_toFinset, List.mem_filterMap]
  constructor
  · rintro ⟨⟨l, target⟩, hx, he⟩
    obtain ⟨hopened, hreleased⟩ := List.mem_filter.mp hx
    cases target with
    | inode ip => cases he
    | pipe page' writable =>
      obtain rfl := Option.some.inj he
      exact ⟨writable, l, hopened, of_decide_eq_true hreleased⟩
  · rintro ⟨writable, l, hopened, hreleased⟩
    exact ⟨(l, .pipe page writable), List.mem_filter.mpr ⟨hopened, decide_eq_true hreleased⟩, rfl⟩

theorem livePages_congr (h : ∀ page writable l, Live t page writable l ↔ Live s page writable l) :
    livePages t = livePages s := by
  ext page
  simp only [mem_livePages, h]

/-- Each use of a file was opened at most once and is given back at most once. -/
theorem opened_count (h : Uses s) (x : Use) : s.opened.count x ≤ 1 := by
  have hnodup : s.opened.Nodup := List.Nodup.of_map _ h.opened
  exact List.nodup_iff_count_le_one.mp hnodup x

/-- What a call is about to give back is not given back yet. -/
theorem pending_live (h : Uses s) {page l : ℕ} {writable : Bool} (hp : p < NPROC)
    (hx : (l, Target.pipe page writable) ∈ (s.doing p).pending) : Live s page writable l := by
  have honce := h.once (l, .pipe page writable)
  have hcount := opened_count h (l, .pipe page writable)
  have hpending : 1 ≤ s.pending (l, .pipe page writable) := by
    have hone : 1 ≤ (s.doing p).pending.count (l, Target.pipe page writable) :=
      List.one_le_count_iff.mpr hx
    exact hone.trans (Finset.single_le_sum
      (f := fun q => (s.doing q).pending.count (l, Target.pipe page writable))
      (fun _ _ => Nat.zero_le _) (Finset.mem_range.mpr hp))
  constructor
  · refine List.one_le_count_iff.mp ?_
    omega
  · intro hmem
    have hreleased := List.one_le_count_iff.mpr hmem
    omega

/-- An open file has its end of the pipe. -/
theorem type_live (h : Uses s) {f page : ℕ} {writable : Bool}
    (hf : (s.file f).type = some (.pipe page writable)) : Live s page writable (s.file f).life := by
  have honce := h.once ((s.file f).life, .pipe page writable)
  have hcount := opened_count h ((s.file f).life, .pipe page writable)
  have hlt : f < NFILE := h.slots f (h.free f (by rw [hf]; simp))
  have hin : 1 ≤ s.inUse ((s.file f).life, .pipe page writable) := by
    have hone : (if (s.file f).type = some (.pipe page writable) ∧
        (s.file f).life = (s.file f).life then 1 else 0) =
        1 := if_pos ⟨hf, rfl⟩
    rw [← hone]
    exact Finset.single_le_sum (f := fun g => if (s.file g).type = some (Target.pipe page writable) ∧
      (s.file g).life = (s.file f).life then 1 else 0) (fun _ _ => Nat.zero_le _)
      (Finset.mem_range.mpr hlt)
  constructor
  · refine List.one_le_count_iff.mp ?_
    omega
  · intro hmem
    have hreleased := List.one_le_count_iff.mpr hmem
    omega

/-- Between calls the ends of pipes are those of open files. -/
theorem live_type (h : Uses s) (hquiet : ∀ q, s.doing q = .idle) {page l : ℕ} {writable : Bool}
    (hx : Live s page writable l) :
    ∃ f, f < NFILE ∧ (s.file f).type = some (.pipe page writable) := by
  have honce := h.once (l, .pipe page writable)
  have hopened := List.one_le_count_iff.mpr hx.1
  have hreleased : s.released.count (l, .pipe page writable) = 0 := List.count_eq_zero.mpr hx.2
  have hpending : s.pending (l, .pipe page writable) = 0 := by
    refine Finset.sum_eq_zero fun q _ => ?_
    rw [hquiet q]
    rfl
  by_contra hno
  have hin : s.inUse (l, .pipe page writable) = 0 := by
    refine Finset.sum_eq_zero fun f hf => if_neg fun hboth => hno ?_
    exact ⟨f, Finset.mem_range.mp hf, hboth.1⟩
  omega

end Files

section Invariant

open Files (Refs Uses Target)

/-- What the end of a call has in hand. -/
def Kind.Ends : Kind → Outcome → Multiset ℕ → Prop
  | .own, .own d sz, m => m = d.pages ∧ sz < KERNBASE
  | .fork _, .child none, m => m = 0
  | .fork _, .child (some (kstack, d, sz)), m => m = kstack ::ₘ d.pages ∧ sz < KERNBASE
  | .wait _, .reaped, m => m = 0
  | _, _, _ => False

/-- The pages that the calls in progress have in hand. -/
structure Hands (s : Sys) (hand : ℕ → Multiset ℕ) : Prop where
  idle : ∀ p, s.job p = none → hand p = 0
  busy : ∀ p j, s.job p = some j → j.prog.Accounts true (hand p) j.kind.Ends

def Sys.flag (s : Sys) (writable : Bool) (page : ℕ) : Bool :=
  if writable then s.writeopen page else s.readopen page

/-- The flags of a pipe tell which ends are open, and each is open once. -/
structure PipesOk (s : Sys) : Prop where
  ends : ∀ page writable l l', Live s.files page writable l → Live s.files page writable l' → l = l'
  flags : ∀ page ∈ livePages s.files, ∀ writable,
    s.flag writable page = true ↔ ∃ l, Live s.files page writable l

/-- All pages of which the system knows, with those that calls have in hand. -/
def Sys.all (s : Sys) (hand : ℕ → Multiset ℕ) : Multiset ℕ :=
  s.freelist + s.kernel + ∑ p ∈ Finset.range NPROC, hand p + ∑ p ∈ Finset.range NPROC, s.has p +
    (livePages s.files).val

/-- The invariant. -/
structure Inv (L : Layout) (s : Sys) : Prop where
  refs : Refs s.files
  uses : Uses s.files
  account : ∃ hand, Hands s hand ∧ s.all hand = L.pages.val
  unused : ∀ p, s.files.state p = .UNUSED → s.kstack p = none ∧ s.pgdir p = none
  busy : ∀ p j, s.job p = some j → s.files.state p = .RUNNING ∧ s.files.doing p = .idle
  own : ∀ p j, s.job p = some j → j.kind = .own → s.pgdir p = none
  wait : ∀ p j z, s.job p = some j → j.kind = .wait z →
    s.files.state z = .ZOMBIE ∧ s.kstack z = none ∧ s.pgdir z = none
  waits : ∀ p q j j' z, s.job p = some j → s.job q = some j' → j.kind = .wait z → j'.kind = .wait z → p = q
  size : ∀ p, s.sz p < KERNBASE
  pipes : PipesOk s

variable {L : Layout} {s t : Sys} {p : ℕ}

theorem Inv.conserved (h : Inv L s) : Conserved L s := by
  obtain ⟨hand, hhands, haccount⟩ := h.account
  refine ⟨fun hquiet page => ?_, fun f g page writable hf hg => ?_, ?_⟩
  · have hidle : ∑ q ∈ Finset.range NPROC, hand q = 0 :=
      Finset.sum_eq_zero fun q _ => hhands.idle q (hquiet q).1
    have hslots : ∑ q ∈ Finset.range NPROC, (if s.files.state q = .UNUSED then 0 else s.has q) =
        ∑ q ∈ Finset.range NPROC, s.has q := by
      refine Finset.sum_congr rfl fun q _ => ?_
      split
      · rename_i hunused
        obtain ⟨hk, hd⟩ := h.unused q hunused
        unfold Sys.has
        rw [hk, hd]
        rfl
      · rfl
    have hpipes : s.pipes = livePages s.files := by
      ext page
      rw [mem_livePages]
      unfold Sys.pipes
      rw [Finset.mem_biUnion]
      constructor
      · rintro ⟨f, _, hf⟩
        split at hf
        · rename_i page' writable htype
          split at hf
          · obtain rfl := Finset.mem_singleton.mp hf
            exact ⟨writable, _, type_live h.uses htype⟩
          · exact absurd hf (Finset.notMem_empty _)
        · exact absurd hf (Finset.notMem_empty _)
      · rintro ⟨writable, l, hlive⟩
        obtain ⟨f, hlt, htype⟩ := live_type h.uses (fun q => (hquiet q).2) hlive
        refine ⟨f, Finset.mem_range.mpr hlt, ?_⟩
        rw [htype]
        dsimp only
        rw [if_pos (h.uses.free f (by rw [htype]; simp))]
        exact Finset.mem_singleton_self page
    have hplaces : s.places = L.pages.val := by
      unfold Sys.places
      rw [hslots, hpipes, ← haccount]
      unfold Sys.all
      rw [hidle, add_zero]
    rw [hplaces]
    split
    · rename_i hmem
      exact Multiset.count_eq_one_of_mem L.pages.nodup hmem
    · rename_i hmem
      exact Multiset.count_eq_zero.mpr hmem
  · have hl := h.pipes.ends page writable _ _ (type_live h.uses hf) (type_live h.uses hg)
    exact h.uses.apart f g (h.uses.free f (by rw [hf]; simp)) (h.uses.free g (by rw [hg]; simp)) hl
  · have hnodup : (s.all hand).Nodup := by
      rw [haccount]
      exact L.pages.nodup
    unfold Sys.all at hnodup
    rw [add_assoc, add_assoc, add_assoc] at hnodup
    exact Multiset.coe_nodup.mp (Multiset.nodup_add.mp hnodup).1

end Invariant

section Calls

open Files (Refs Uses Target)

variable {L : Layout} {s t : Sys} {p q np z : ℕ} {hand : ℕ → Multiset ℕ} {m : Multiset ℕ}
    {d : Pgdir} {sz : ℕ}
  {fails : Bool}

theorem sbrk_accounts (hsz : sz < KERNBASE) (n : ℤ) :
    (sbrk d sz n).Accounts fails d.pages Kind.own.Ends := by
  unfold sbrk
  rw [← add_zero d.pages]
  refine .bind (growproc_accounts hsz fun d' r _ hr => Prog.accounts_pure.mpr ?_)
  exact ⟨add_zero _, hr⟩

theorem runExec_accounts (L : Layout) (hsz : sz < KERNBASE) (image : Image) :
    (runExec L d sz image).Accounts fails d.pages Kind.own.Ends := by
  unfold runExec
  rw [← add_zero d.pages]
  refine .bind (exec_accounts L hsz fun d' r _ hr => Prog.accounts_pure.mpr ?_)
  exact ⟨add_zero _, hr⟩

theorem fork_accounts (L : Layout) (hsz : sz < KERNBASE) (np : ℕ) :
    (fork L d sz).Accounts fails 0 (Kind.fork np).Ends := by
  unfold fork
  refine .alloc (fun _ => Prog.accounts_pure.mpr rfl) fun kstack => .bind ?_
  refine copyuvm_accounts L hsz.le ?_ fun d' => ?_
  · exact .free (Prog.accounts_pure.mpr rfl)
  · refine Prog.accounts_pure.mpr ⟨?_, hsz⟩
    rw [Multiset.add_cons, add_zero]

theorem reap_accounts (kstack z : ℕ) :
    (reap kstack d).Accounts fails (kstack ::ₘ d.pages) (Kind.wait z).Ends := by
  unfold reap
  refine .free ?_
  rw [← add_zero d.pages]
  exact .bind (freevm_accounts (Prog.accounts_pure.mpr rfl))

theorem Hands.update (h : Hands s hand) (hjobs : ∀ q, q ≠ p → t.job q = s.job q)
    (hidle : t.job p = none → m = 0)
    (hbusy : ∀ j, t.job p = some j → j.prog.Accounts true m j.kind.Ends) :
    Hands t (Function.update hand p m) := by
  refine ⟨fun q hq => ?_, fun q j hq => ?_⟩
  · by_cases hqp : q = p
    · subst hqp
      rw [Function.update_self]
      exact hidle hq
    · rw [Function.update_of_ne hqp]
      exact h.idle q ((hjobs q hqp).symm.trans hq)
  · by_cases hqp : q = p
    · subst hqp
      rw [Function.update_self]
      exact hbusy j hq
    · rw [Function.update_of_ne hqp]
      exact h.busy q j ((hjobs q hqp).symm.trans hq)

/-- Pages move between the free list, the hands of one call and one slot. -/
theorem all_move (hp : p < NPROC) (hq : q < NPROC) (hkernel : t.kernel = s.kernel)
    (hlive : livePages t.files = livePages s.files) (hhas : ∀ r, r ≠ q → t.has r = s.has r)
    (hmove : (t.freelist : Multiset ℕ) + m + t.has q = s.freelist + hand p + s.has q) :
    t.all (Function.update hand p m) = s.all hand := by
  have hhands := sum_exchange (f := hand) (g := Function.update hand p m) (Finset.mem_range.mpr hp)
    fun r hr => Function.update_of_ne hr _ _
  rw [Function.update_self] at hhands
  have hslots := sum_exchange (f := s.has) (g := t.has) (Finset.mem_range.mpr hq) hhas
  unfold Sys.all
  rw [hkernel, hlive]
  generalize ∑ r ∈ Finset.range NPROC, Function.update hand p m r = hands' at hhands ⊢
  generalize ∑ r ∈ Finset.range NPROC, t.has r = slots' at hslots ⊢
  generalize ∑ r ∈ Finset.range NPROC, hand r = hands at hhands ⊢
  generalize ∑ r ∈ Finset.range NPROC, s.has r = slots at hslots ⊢
  refine add_right_cancel (b := hand p + s.has q) ?_
  calc ((t.freelist : Multiset ℕ) + s.kernel + hands' + slots' + (livePages s.files).val) +
        (hand p + s.has q)
      = t.freelist + s.kernel + (hands' + hand p) + (slots' + s.has q) +
          (livePages s.files).val := by abel
    _ = t.freelist + s.kernel + (hands + m) + (slots + t.has q) + (livePages s.files).val := by
        rw [hhands, hslots]
    _ = (t.freelist + m + t.has q) + (s.kernel + hands + slots + (livePages s.files).val) := by abel
    _ = s.freelist + s.kernel + hands + slots + (livePages s.files).val + (hand p + s.has q) := by
        rw [hmove]
        abel

/-- The jobs after one has changed. -/
theorem job_update {o : Option Job} {r : ℕ} {j : Job} (h : Function.update s.job p o r = some j) :
    r = p ∧ o = some j ∨ r ≠ p ∧ s.job r = some j := by
  by_cases hr : r = p
  · subst hr
    rw [Function.update_self] at h
    exact Or.inl ⟨rfl, h⟩
  · rw [Function.update_of_ne hr] at h
    exact Or.inr ⟨hr, h⟩

theorem Ready.idle (h : s.Ready p) : s.job p = none := Option.isNone_iff_eq_none.mp h.2.2

theorem update_none {α : Type} {f : ℕ → Option α} {r : ℕ} (hr : f r = none) :
    Function.update f q none r = none := by
  by_cases hrq : r = q
  · rw [hrq, Function.update_self]
  · rw [Function.update_of_ne hrq]
    exact hr

/-- A call begins: it takes the pages that it has in hand from one slot. -/
theorem Inv.begun (h : Inv L s) (hready : s.Ready p) (hq : q < NPROC) {kind : Kind}
    {prog : M Outcome}
    (hprog : prog.Accounts true m kind.Ends) {kstack : ℕ → Option ℕ} {pgdir : ℕ → Option Pgdir}
    (hkstack : ∀ r, s.kstack r = none → kstack r = none)
    (hpgdir : ∀ r, s.pgdir r = none → pgdir r = none)
    (hslot : ∀ r, r ≠ q → kstack r = s.kstack r ∧ pgdir r = s.pgdir r)
    (hmove : m + Sys.has { s.begin p kind prog with kstack := kstack, pgdir := pgdir } q = s.has q)
    (hown : kind = .own → pgdir p = none)
    (hwait : ∀ z, kind = .wait z → s.files.state z = .ZOMBIE ∧ s.kstack z ≠ none ∧ kstack z = none ∧
      pgdir z = none) :
    Inv L { s.begin p kind prog with kstack := kstack, pgdir := pgdir } := by
  have hp : p < NPROC := h.refs.inside p hready.1
  -- nobody else waits for the same process
  have hfirst : ∀ r j z, s.job r = some j → j.kind = .wait z → kind ≠ .wait z := by
    intro r j z hj hkind hz
    exact (hwait z hz).2.1 (h.wait r j z hj hkind).2.1
  obtain ⟨hand, hhands, haccount⟩ := h.account
  refine ⟨h.refs, h.uses, ⟨Function.update hand p m, ?_, ?_⟩, fun r hr => ?_, fun r j hj => ?_,
    fun r j hj hkind => ?_, fun r j z hj hz => ?_, fun r r' j j' z hj hj' hz hz' => ?_, h.size,
    ⟨h.pipes.ends, h.pipes.flags⟩⟩
  · refine hhands.update (fun r hr => Function.update_of_ne hr _ _) (fun hidle => ?_) fun j hj => ?_
    · change Function.update s.job p _ p = none at hidle
      rw [Function.update_self] at hidle
      cases hidle
    · change Function.update s.job p _ p = some j at hj
      rw [Function.update_self] at hj
      obtain rfl := Option.some.inj hj
      exact hprog
  · rw [← haccount]
    refine all_move hp hq rfl rfl (fun r hr => ?_) ?_
    · unfold Sys.has
      dsimp only [Sys.begin]
      rw [(hslot r hr).1, (hslot r hr).2]
    · rw [hhands.idle p (Ready.idle hready), add_zero, add_assoc, hmove]
      rfl
  · exact ⟨hkstack r (h.unused r hr).1, hpgdir r (h.unused r hr).2⟩
  · rcases job_update hj with ⟨rfl, _⟩ | ⟨_, hj'⟩
    · exact ⟨hready.1, hready.2.1⟩
    · exact h.busy r j hj'
  · rcases job_update hj with ⟨rfl, hj'⟩ | ⟨_, hj'⟩
    · obtain rfl := Option.some.inj hj'
      exact hown hkind
    · exact hpgdir r (h.own r j hj' hkind)
  · rcases job_update hj with ⟨rfl, hj'⟩ | ⟨_, hj'⟩
    · obtain rfl := Option.some.inj hj'
      obtain ⟨hzombie, _, hk, hd⟩ := hwait z hz
      exact ⟨hzombie, hk, hd⟩
    · obtain ⟨hzombie, hk, hd⟩ := h.wait r j z hj' hz
      exact ⟨hzombie, hkstack z hk, hpgdir z hd⟩
  · rcases job_update hj with ⟨rfl, hj0⟩ | ⟨_, hj0⟩
    · obtain rfl := Option.some.inj hj0
      rcases job_update hj' with ⟨rfl, _⟩ | ⟨_, hj1⟩
      · rfl
      · exact absurd hz (hfirst r' j' z hj1 hz')
    · rcases job_update hj' with ⟨rfl, hj1⟩ | ⟨_, hj1⟩
      · obtain rfl := Option.some.inj hj1
        exact absurd hz' (hfirst r j z hj0 hz)
      · exact h.waits r r' j j' z hj0 hj1 hz hz'

/-- sbrk and exec take the address space of their process. -/
theorem Inv.own_call (h : Inv L s) (hready : s.Ready p) (hd : s.pgdir p = some d) {prog : M Outcome}
    (hprog : prog.Accounts true d.pages Kind.own.Ends) :
    Inv L { s.begin p .own prog with pgdir := Function.update s.pgdir p none } := by
  refine h.begun hready (h.refs.inside p hready.1) hprog (fun _ hr => hr)
    (fun _ hr => update_none hr)
    (fun r hr => ⟨rfl, Function.update_of_ne hr _ _⟩) ?_ (fun _ => Function.update_self _ _ _)
    (fun z hz => by cases hz)
  unfold Sys.has
  dsimp only [Sys.begin]
  rw [hd, Function.update_self, Option.elim_none, Option.elim_some]
  abel

/-- fork starts with nothing in hand; it only reads the address space of its process. -/
theorem Inv.fork_call (h : Inv L s) (hready : s.Ready p) {prog : M Outcome}
    (hprog : prog.Accounts true 0 (Kind.fork np).Ends) : Inv L (s.begin p (.fork np) prog) :=
  h.begun hready (h.refs.inside p hready.1) hprog (fun _ hr => hr) (fun _ hr => hr)
    (fun _ _ => ⟨rfl, rfl⟩) (zero_add _) (fun hkind => by cases hkind) (fun z hz => by cases hz)

/-- wait takes all that a zombie still has. -/
theorem Inv.wait_call (h : Inv L s) (hready : s.Ready p) (hz : z < NPROC)
    (hzombie : s.files.state z = .ZOMBIE)
    {kstack : ℕ} (hk : s.kstack z = some kstack) (hd : s.pgdir z = some d) {prog : M Outcome}
    (hprog : prog.Accounts true (kstack ::ₘ d.pages) (Kind.wait z).Ends) :
    Inv L { s.begin p (.wait z) prog with
      kstack := Function.update s.kstack z none
      pgdir := Function.update s.pgdir z none } := by
  refine h.begun hready hz hprog (fun _ hr => update_none hr) (fun _ hr => update_none hr)
    (fun r hr => ⟨Function.update_of_ne hr _ _, Function.update_of_ne hr _ _⟩) ?_
    (fun hkind => by cases hkind) (fun z' hz' => ?_)
  · unfold Sys.has
    dsimp only [Sys.begin]
    rw [hk, hd, Function.update_self, Function.update_self, Option.elim_none, Option.elim_none,
      Option.elim_some, Option.elim_some, ← Multiset.singleton_add]
    abel
  · obtain rfl := Kind.wait.inj hz'
    refine ⟨hzombie, ?_, Function.update_self _ _ _, Function.update_self _ _ _⟩
    rw [hk]
    exact Option.some_ne_none kstack

theorem kfree_some {page : ℕ} (h : s.kfree L page = some t) :
    t = { s with freelist := page :: s.freelist } := by
  unfold Sys.kfree at h
  split at h
  · cases h
  · exact (Option.some.inj h).symm

/-- A kalloc or a kfree of a call. -/
theorem Inv.ticked (h : Inv L s) {j : Job} (hj : s.job p = some j) {fail : Bool} {freelist : List ℕ}
    {prog : M Outcome} (ht : j.prog.tick fail s.freelist = some (freelist, prog)) :
    Inv L { s with freelist := freelist, job := Function.update s.job p (some ⟨j.kind, prog⟩) } := by
  have hp : p < NPROC := h.refs.inside p (h.busy p j hj).1
  obtain ⟨hand, hhands, haccount⟩ := h.account
  obtain ⟨m, hprog, hmove⟩ := (hhands.busy p j hj).tick ht
  -- every call is of the kind that it was
  have hsame : ∀ r j', Function.update s.job p (some ⟨j.kind, prog⟩) r = some j' →
      ∃ j0, s.job r = some j0 ∧ j0.kind = j'.kind := by
    intro r j' hj'
    rcases job_update hj' with ⟨rfl, he⟩ | ⟨_, he⟩
    · obtain rfl := Option.some.inj he
      exact ⟨j, hj, rfl⟩
    · exact ⟨j', he, rfl⟩
  refine ⟨h.refs, h.uses, ⟨Function.update hand p m, ?_, ?_⟩, h.unused, fun r j' hj' => ?_,
    fun r j' hj' hown => ?_, fun r j' z hj' hz => ?_, fun r r' j' j'' z hj' hj'' hz hz' => ?_,
    h.size, ⟨h.pipes.ends, h.pipes.flags⟩⟩
  · refine hhands.update (fun r hr => Function.update_of_ne hr _ _) (fun hidle => ?_)
      fun j' hj' => ?_
    · change Function.update s.job p _ p = none at hidle
      rw [Function.update_self] at hidle
      cases hidle
    · change Function.update s.job p _ p = some j' at hj'
      rw [Function.update_self] at hj'
      obtain rfl := Option.some.inj hj'
      exact hprog
  · rw [← haccount]
    refine all_move hp hp rfl rfl (fun r _ => rfl) ?_
    exact congrArg (· + s.has p) hmove
  · obtain ⟨j0, hj0, _⟩ := hsame r j' hj'
    exact h.busy r j0 hj0
  · obtain ⟨j0, hj0, hkind⟩ := hsame r j' hj'
    exact h.own r j0 hj0 (hkind.trans hown)
  · obtain ⟨j0, hj0, hkind⟩ := hsame r j' hj'
    exact h.wait r j0 z hj0 (hkind.trans hz)
  · obtain ⟨j0, hj0, hkind⟩ := hsame r j' hj'
    obtain ⟨j1, hj1, hkind'⟩ := hsame r' j'' hj''
    exact h.waits r r' j0 j1 z hj0 hj1 (hkind.trans hz) (hkind'.trans hz')

theorem Inv.files_step (h : Inv L s) {a : Files.Act} {u : Files.Sys}
    (hu : s.files.step a = some u) : Refs u ∧ Uses u :=
  ⟨h.refs.step (fun _ hf => h.uses.typeless hf) hu, h.uses.step h.refs hu⟩

/-- A call of `p` returns, and of the table only slot `q` changes. -/
structure Returns (s t : Sys) (p q : ℕ) : Prop where
  job : t.job = Function.update s.job p none
  doing : ∀ r, r ≠ p → t.files.doing r = s.files.doing r
  opened : t.files.opened = s.files.opened
  released : t.files.released = s.files.released
  flag : t.flag = s.flag
  freelist : t.freelist = s.freelist
  kernel : t.kernel = s.kernel
  slot : ∀ r, r ≠ q → t.files.state r = s.files.state r ∧ t.kstack r = s.kstack r ∧ t.pgdir r = s.pgdir r ∧
    t.sz r = s.sz r

theorem Returns.all (ht : Returns s t p q) (hp : p < NPROC) (hq : q < NPROC)
    (hmove : t.has q = hand p + s.has q) : t.all (Function.update hand p 0) = s.all hand := by
  refine all_move hp hq ht.kernel (livePages_congr fun page writable l => ?_) (fun r hr => ?_) ?_
  · unfold Live
    rw [ht.opened, ht.released]
  · obtain ⟨_, hk, hd, _⟩ := ht.slot r hr
    unfold Sys.has
    rw [hk, hd]
  · rw [ht.freelist, hmove]
    abel

/-- No other call has to do with the slot. -/
theorem Inv.returned (h : Inv L s) (hhands : Hands s hand) (ht : Returns s t p q)
    (hrefs : Refs t.files)
    (huses : Uses t.files) (haccount : t.all (Function.update hand p 0) = L.pages.val)
    (hempty : t.files.state q = .UNUSED → t.kstack q = none ∧ t.pgdir q = none)
    (hsize : t.sz q < KERNBASE)
    (hapart : ∀ r j, r ≠ p → s.job r = some j → r ≠ q ∧ ∀ z, j.kind = .wait z → z ≠ q) :
    Inv L t := by
  have hothers : ∀ r j, t.job r = some j → r ≠ p ∧ s.job r = some j := by
    intro r j hj
    rw [ht.job] at hj
    rcases job_update hj with ⟨_, he⟩ | he
    · cases he
    · exact he
  have hlive : ∀ page writable l, Live t.files page writable l ↔ Live s.files page writable l := by
    intro page writable l
    unfold Live
    rw [ht.opened, ht.released]
  have hpages : livePages t.files = livePages s.files := livePages_congr hlive
  refine ⟨hrefs, huses, ⟨Function.update hand p 0, ?_, haccount⟩, fun r hr => ?_, fun r j hj => ?_,
    fun r j hj hown => ?_, fun r j z hj hz => ?_, fun r r' j j' z hj hj' => ?_, fun r => ?_,
    fun page writable l l' hl hl' => ?_, fun page hpage writable => ?_⟩
  · refine hhands.update (fun r hr => ?_) (fun _ => rfl) fun j hj => ?_
    · rw [ht.job]
      exact Function.update_of_ne hr _ _
    · exact absurd rfl (hothers p j hj).1
  · by_cases hrq : r = q
    · rw [hrq] at hr ⊢
      exact hempty hr
    · obtain ⟨hstate, hk, hd, _⟩ := ht.slot r hrq
      rw [hk, hd]
      exact h.unused r (hstate.symm.trans hr)
  · obtain ⟨hne, hj0⟩ := hothers r j hj
    obtain ⟨hstate, _, _, _⟩ := ht.slot r (hapart r j hne hj0).1
    rw [hstate, ht.doing r hne]
    exact h.busy r j hj0
  · obtain ⟨hne, hj0⟩ := hothers r j hj
    obtain ⟨_, _, hd, _⟩ := ht.slot r (hapart r j hne hj0).1
    exact hd.trans (h.own r j hj0 hown)
  · obtain ⟨hne, hj0⟩ := hothers r j hj
    obtain ⟨hstate, hk, hd, _⟩ := ht.slot z ((hapart r j hne hj0).2 z hz)
    rw [hstate, hk, hd]
    exact h.wait r j z hj0 hz
  · exact h.waits r r' j j' z (hothers r j hj).2 (hothers r' j' hj').2
  · by_cases hrq : r = q
    · rw [hrq]
      exact hsize
    · obtain ⟨_, _, _, hsz⟩ := ht.slot r hrq
      exact hsz.trans_lt (h.size r)
  · exact h.pipes.ends page writable l l' ((hlive page writable l).mp hl)
      ((hlive page writable l').mp hl')
  · rw [ht.flag]
    simp only [hlive]
    exact h.pipes.flags page (hpages ▸ hpage) writable

/-- sbrk and exec put the address space back. -/
theorem Inv.finish_own (h : Inv L s) (hhands : Hands s hand) (haccount : s.all hand = L.pages.val)
    {prog : M Outcome} (hj : s.job p = some ⟨.own, prog⟩)
    (hends : Kind.own.Ends (.own d sz) (hand p))
    (ht : s.finish p .own (.own d sz) = some t) : Inv L t := by
  obtain rfl := Option.some.inj ht
  obtain ⟨hm, hsz⟩ := hends
  have hrun := (h.busy p _ hj).1
  have hp : p < NPROC := h.refs.inside p hrun
  have hdir : s.pgdir p = none := h.own p _ hj rfl
  have hreturns : Returns s { s with
      pgdir := Function.update s.pgdir p (some d)
      sz := Function.update s.sz p sz
      job := Function.update s.job p none } p p :=
    ⟨rfl, fun _ _ => rfl, rfl, rfl, rfl, rfl, rfl, fun r hr =>
      ⟨rfl, rfl, Function.update_of_ne hr _ _, Function.update_of_ne hr _ _⟩⟩
  refine h.returned hhands hreturns h.refs h.uses ((hreturns.all hp hp ?_).trans haccount)
    (fun hunused => ?_) ?_ fun r j hr hj' => ⟨hr, fun z hz => ?_⟩
  · unfold Sys.has
    dsimp only
    rw [hm, hdir, Function.update_self, Option.elim_none, Option.elim_some]
    abel
  · change s.files.state p = .UNUSED at hunused
    rw [hrun] at hunused
    cases hunused
  · dsimp only
    rw [Function.update_self]
    exact hsz
  · rintro rfl
    have hzombie := (h.wait r j z hj' hz).1
    rw [hrun] at hzombie
    cases hzombie

/-- A fork that has failed has nothing in hand. -/
theorem Inv.finish_none (h : Inv L s) (hhands : Hands s hand) (haccount : s.all hand = L.pages.val)
    {prog : M Outcome} (hj : s.job p = some ⟨.fork np, prog⟩)
    (hends : (Kind.fork np).Ends (.child none) (hand p))
    (ht : s.finish p (.fork np) (.child none) = some t) :
    Inv L t := by
  obtain rfl := Option.some.inj ht
  have hm : hand p = 0 := hends
  have hrun := (h.busy p _ hj).1
  have hp : p < NPROC := h.refs.inside p hrun
  have hreturns : Returns s { s with job := Function.update s.job p none } p p :=
    ⟨rfl, fun _ _ => rfl, rfl, rfl, rfl, rfl, rfl, fun r _ => ⟨rfl, rfl, rfl, rfl⟩⟩
  refine h.returned hhands hreturns h.refs h.uses ((hreturns.all hp hp ?_).trans haccount)
    (h.unused p) (h.size p) fun r j hr hj' => ⟨hr, fun z hz => ?_⟩
  · rw [hm, zero_add]
    rfl
  · rintro rfl
    have hzombie := (h.wait r j z hj' hz).1
    rw [hrun] at hzombie
    cases hzombie

/-- fork gives the child its kernel stack and its address space. -/
theorem Inv.finish_child (h : Inv L s) (hhands : Hands s hand) (haccount : s.all hand = L.pages.val)
    {prog : M Outcome} {kstack : ℕ} (hj : s.job p = some ⟨.fork np, prog⟩)
    (hends : (Kind.fork np).Ends (.child (some (kstack, d, sz))) (hand p))
    (ht : s.finish p (.fork np) (.child (some (kstack, d, sz))) = some t) : Inv L t := by
  have hp : p < NPROC := h.refs.inside p (h.busy p _ hj).1
  obtain ⟨files, hfiles, rfl⟩ := Option.map_eq_some_iff.mp ht
  obtain ⟨hm, hsz⟩ := hends
  obtain ⟨hrefs, huses⟩ := h.files_step hfiles
  obtain ⟨⟨hnp, hunused⟩, hfiles⟩ := Option.ite_none_right_eq_some.mp hfiles
  obtain ⟨⟨hrun, _⟩, hfiles⟩ := Option.ite_none_right_eq_some.mp hfiles
  obtain rfl := Option.some.inj hfiles
  obtain ⟨hk0, hd0⟩ := h.unused np hunused
  have hreturns : Returns s { s with
      files := { s.files.goTo p (.fork np 0) with state := Function.update s.files.state np .EMBRYO }
      kstack := Function.update s.kstack np (some kstack)
      pgdir := Function.update s.pgdir np (some d)
      sz := Function.update s.sz np sz
      job := Function.update s.job p none } p np :=
    ⟨rfl, fun r hr => Function.update_of_ne hr _ _, rfl, rfl, rfl, rfl, rfl, fun r hr =>
      ⟨Function.update_of_ne hr _ _, Function.update_of_ne hr _ _, Function.update_of_ne hr _ _,
        Function.update_of_ne hr _ _⟩⟩
  refine h.returned hhands hreturns hrefs huses ((hreturns.all hp hnp ?_).trans haccount)
    (fun hstate => ?_) ?_ fun r j hr hj' => ⟨?_, fun z hz => ?_⟩
  · unfold Sys.has
    dsimp only at hm ⊢
    rw [hm, hk0, hd0, Function.update_self, Function.update_self, Option.elim_none,
      Option.elim_none, Option.elim_some, Option.elim_some, ← Multiset.singleton_add]
    abel
  · change Function.update s.files.state np ProcState.EMBRYO np = .UNUSED at hstate
    rw [Function.update_self] at hstate
    cases hstate
  · dsimp only
    rw [Function.update_self]
    exact hsz
  · rintro rfl
    rw [(h.busy r j hj').1] at hunused
    cases hunused
  · rintro rfl
    rw [(h.wait r j z hj' hz).1] at hunused
    cases hunused

/-- wait leaves an unused slot. -/
theorem Inv.finish_reaped (h : Inv L s) (hhands : Hands s hand)
    (haccount : s.all hand = L.pages.val)
    {prog : M Outcome} (hj : s.job p = some ⟨.wait z, prog⟩)
    (hends : (Kind.wait z).Ends .reaped (hand p))
    (ht : s.finish p (.wait z) .reaped = some t) : Inv L t := by
  have hp : p < NPROC := h.refs.inside p (h.busy p _ hj).1
  have hm : hand p = 0 := hends
  obtain ⟨files, hfiles, rfl⟩ := Option.map_eq_some_iff.mp ht
  obtain ⟨hrefs, huses⟩ := h.files_step hfiles
  obtain ⟨hzombie, hfiles⟩ := Option.ite_none_right_eq_some.mp hfiles
  obtain rfl := Option.some.inj hfiles
  obtain ⟨_, hk, hdir⟩ := h.wait p _ z hj rfl
  refine h.returned (q := z) hhands ⟨rfl, fun _ _ => rfl, rfl, rfl, rfl, rfl, rfl, fun r hr =>
    ⟨Function.update_of_ne hr _ _, rfl, rfl, rfl⟩⟩ hrefs huses ?_ (fun _ => ⟨hk, hdir⟩) (h.size z)
    fun r j hr hj' => ⟨?_, fun z' hz => ?_⟩
  · rw [← haccount]
    refine all_move hp hp rfl rfl (fun r _ => rfl) ?_
    rw [hm]
    rfl
  · rintro rfl
    rw [(h.busy r j hj').1] at hzombie
    cases hzombie
  · rintro rfl
    exact hr (h.waits r p j _ z' hj' hj hz rfl)

/-- The last step of a call. -/
theorem Inv.finish (h : Inv L s) {j : Job} {o : Outcome} (hj : s.job p = some j)
    (hret : j.prog = .ret o) (ht : s.finish p j.kind o = some t) : Inv L t := by
  obtain ⟨hand, hhands, haccount⟩ := h.account
  have hends : j.kind.Ends o (hand p) := by
    have hprog := hhands.busy p j hj
    rw [hret] at hprog
    exact hprog
  obtain ⟨kind, prog⟩ := j
  cases kind with
  | own =>
    cases o with
    | child made => cases ht
    | reaped => cases ht
    | own d sz => exact h.finish_own hhands haccount hj hends ht
  | fork np =>
    cases o with
    | own d sz => cases ht
    | reaped => cases ht
    | child made =>
      cases made with
      | none => exact h.finish_none hhands haccount hj hends ht
      | some made => exact h.finish_child hhands haccount hj hends ht
  | wait z =>
    cases o with
    | own d sz => cases ht
    | child made => cases ht
    | reaped => exact h.finish_reaped hhands haccount hj hends ht

end Calls

section Ends

open Files (Refs Uses Target)

variable {L : Layout} {s t : Sys} {u : Files.Sys} {p page : ℕ} {writable : Bool} {k : Option ℕ}
    {d : Files.Doing}

/-- A step on the files, with what it does to the free list and to the flags of a pipe. -/
theorem Inv.files (h : Inv L s) (hjob : s.job p = none) (hrun : s.files.state p = .RUNNING)
    (hchild : ∀ q, d.child = some q → s.files.state q = .EMBRYO) (hwent : Went s.files u p k d)
    (hrefs : Refs u) (huses : Uses u) {freelist : List ℕ} {readopen writeopen : ℕ → Bool}
    (hpages : (freelist : Multiset ℕ) + (livePages u).val = s.freelist + (livePages s.files).val)
    (hpipes : PipesOk ⟨u, freelist, s.kernel, s.kstack, s.pgdir, s.sz, readopen,
      writeopen, s.job⟩) :
    Inv L ⟨u, freelist, s.kernel, s.kstack, s.pgdir, s.sz, readopen, writeopen, s.job⟩ := by
  obtain ⟨hand, hhands, haccount⟩ := h.account
  -- states of other processes are kept unless they are complete children
  have hkeep : ∀ r, s.files.state r ≠ .RUNNING → s.files.state r ≠ .EMBRYO →
      u.state r = s.files.state r := by
    intro r hr hembryo
    rcases hwent.state r with he | ⟨hc, _⟩ | ⟨rfl, _⟩
    · exact he
    · exact absurd (hchild r hc) hembryo
    · exact absurd hrun hr
  refine ⟨hrefs, huses, ⟨hand, ⟨hhands.idle, hhands.busy⟩, ?_⟩, fun r hr => ?_,
    fun r j hj => ?_, h.own, fun r j z hj hz => ?_, h.waits, h.size, hpipes⟩
  · rw [← haccount]
    unfold Sys.all
    dsimp only
    calc (freelist : Multiset ℕ) + s.kernel + ∑ r ∈ Finset.range NPROC, hand r +
          ∑ r ∈ Finset.range NPROC, s.has r + (livePages u).val
        = freelist + (livePages u).val + (s.kernel + ∑ r ∈ Finset.range NPROC, hand r +
            ∑ r ∈ Finset.range NPROC, s.has r) := by abel
      _ = s.freelist + s.kernel + ∑ r ∈ Finset.range NPROC, hand r + ∑ r ∈ Finset.range NPROC, s.has r +
            (livePages s.files).val := by
          rw [hpages]
          abel
  · refine h.unused r ?_
    change u.state r = .UNUSED at hr
    rcases hwent.state r with he | ⟨_, he⟩ | ⟨_, he⟩
    · exact he.symm.trans hr
    · rw [he] at hr
      cases hr
    · rw [he] at hr
      cases hr
  · obtain ⟨hstate, hidle⟩ := h.busy r j hj
    have hne : r ≠ p := by
      rintro rfl
      rw [hjob] at hj
      cases hj
    refine ⟨?_, (hwent.doing r hne).trans hidle⟩
    rcases hwent.state r with he | ⟨_, he⟩ | ⟨he, _⟩
    · exact he.trans hstate
    · exact he
    · exact absurd he hne
  · obtain ⟨hzombie, hk, hdir⟩ := h.wait r j z hj hz
    refine ⟨(hkeep z ?_ ?_).trans hzombie, hk, hdir⟩
    · rw [hzombie]
      exact fun he => by cases he
    · rw [hzombie]
      exact fun he => by cases he

theorem PipesOk.congr (h : PipesOk s)
    (hlive : ∀ page writable l, Live t.files page writable l ↔ Live s.files page writable l)
    (hflag : ∀ writable page, t.flag writable page = s.flag writable page) : PipesOk t := by
  refine ⟨fun page writable l l' hl hl' => ?_, fun page hpage writable => ?_⟩
  · exact h.ends page writable l l' ((hlive page writable l).mp hl)
      ((hlive page writable l').mp hl')
  · rw [livePages_congr hlive] at hpage
    rw [hflag, h.flags page hpage writable]
    exact exists_congr fun l => (hlive page writable l).symm

/-- Steps without a pipe. -/
theorem Went.live_iff (hwent : Went s.files u p k d) (hnew : ∀ f0 f1, d = .pipe1 f0 f1 → k = none)
    (hold : ∀ l page writable, (l, Target.pipe page writable) ∉ d.pending) (page : ℕ)
    (writable : Bool) (l : ℕ) : Live u page writable l ↔ Live s.files page writable l := by
  have hreleased : (l, Target.pipe page writable) ∈ u.released ↔
      (l, Target.pipe page writable) ∈ s.files.released := by
    rw [hwent.released, List.mem_append]
    exact or_iff_right (hold l page writable)
  have hopened : (l, Target.pipe page writable) ∈ u.opened ↔
      (l, Target.pipe page writable) ∈ s.files.opened := by
    rcases hwent.opened with he | ⟨l', ip, he⟩ | ⟨f0, f1, page', l0, l1, hd, hk, _⟩
    · rw [he]
    · rw [he, List.mem_cons]
      refine or_iff_right fun hx => ?_
      cases (Prod.mk.inj hx).2
    · have hnone := hnew f0 f1 hd
      rw [hk] at hnone
      cases hnone
  exact and_congr hopened (not_congr hreleased)

theorem released_opened {v : Files.Sys} (h : Uses v) {x : Use} (hx : x ∈ v.released) :
    x ∈ v.opened := by
  have honce := h.once x
  have hcount := List.one_le_count_iff.mpr hx
  refine List.one_le_count_iff.mp ?_
  omega

/-- What a page is on the free list for is not a pipe. -/
theorem Inv.free_notMem (h : Inv L s) (hpage : page ∈ s.freelist) : page ∉ livePages s.files := by
  obtain ⟨hand, _, haccount⟩ := h.account
  have hnodup : (s.all hand).Nodup := by
    rw [haccount]
    exact L.pages.nodup
  unfold Sys.all at hnodup
  rw [add_assoc, add_assoc, add_assoc] at hnodup
  have hdisjoint := (Multiset.nodup_add.mp hnodup).2.2
  intro hlive
  refine Multiset.disjoint_left.mp hdisjoint (Multiset.mem_coe.mpr hpage) ?_
  exact Multiset.mem_add.mpr
    (Or.inr (Multiset.mem_add.mpr (Or.inr (Multiset.mem_add.mpr (Or.inr hlive)))))

/-- pipealloc takes a page for both ends of a pipe. -/
theorem Inv.pipealloc (h : Inv L s) (hjob : s.job p = none) (hrun : s.files.state p = .RUNNING)
    {f0 f1 : ℕ}
    (hwent : Went s.files u p (some page) (.pipe1 f0 f1)) (hrefs : Refs u) (huses : Uses u)
    {l0 l1 : ℕ}
    (hopened : u.opened = (l1, .pipe page true) :: (l0, .pipe page false) :: s.files.opened)
    {freelist : List ℕ} (hfreelist : s.freelist = page :: freelist) :
    Inv L { s with
      files := u
      freelist := freelist
      readopen := Function.update s.readopen page true
      writeopen := Function.update s.writeopen page true } := by
  have hfresh : page ∉ livePages s.files := h.free_notMem (hfreelist ▸ List.mem_cons_self)
  have hreleased : u.released = s.files.released := hwent.released
  have hnew : ∀ x ∈ s.files.released, x ≠ (l1, .pipe page true) ∧ x ≠ (l0, .pipe page false) := by
    intro x hx
    have hmem := released_opened h.uses hx
    have hnodup : u.opened.Nodup := List.Nodup.of_map _ huses.opened
    rw [hopened] at hnodup
    obtain ⟨h1, h0⟩ := List.nodup_cons.mp hnodup
    obtain ⟨h0, _⟩ := List.nodup_cons.mp h0
    constructor
    · rintro rfl
      exact h1 (List.mem_cons_of_mem _ hmem)
    · rintro rfl
      exact h0 hmem
  have hlive : ∀ page' writable l, Live u page' writable l ↔
      Live s.files page' writable l ∨ page' = page ∧ l = if writable then l1 else l0 := by
    intro page' writable l
    unfold Live
    rw [hreleased, hopened, List.mem_cons, List.mem_cons]
    constructor
    · rintro ⟨he | he | hmem, hnot⟩
      · obtain ⟨rfl, htarget⟩ := Prod.mk.inj he
        obtain ⟨rfl, rfl⟩ := Target.pipe.inj htarget
        exact Or.inr ⟨rfl, rfl⟩
      · obtain ⟨rfl, htarget⟩ := Prod.mk.inj he
        obtain ⟨rfl, rfl⟩ := Target.pipe.inj htarget
        exact Or.inr ⟨rfl, rfl⟩
      · exact Or.inl ⟨hmem, hnot⟩
    · rintro (⟨hmem, hnot⟩ | ⟨rfl, rfl⟩)
      · exact ⟨Or.inr (Or.inr hmem), hnot⟩
      · cases writable with
        | true => exact ⟨Or.inl rfl, fun hx => (hnew _ hx).1 rfl⟩
        | false => exact ⟨Or.inr (Or.inl rfl), fun hx => (hnew _ hx).2 rfl⟩
  have hpages : livePages u = insert page (livePages s.files) := by
    ext page'
    rw [Finset.mem_insert, mem_livePages, mem_livePages]
    simp only [hlive]
    constructor
    · rintro ⟨writable, l, hl | ⟨rfl, _⟩⟩
      · exact Or.inr ⟨writable, l, hl⟩
      · exact Or.inl rfl
    · rintro (rfl | ⟨writable, l, hl⟩)
      · exact ⟨true, l1, Or.inr ⟨rfl, rfl⟩⟩
      · exact ⟨writable, l, Or.inl hl⟩
  have hgone : ∀ writable l, ¬Live s.files page writable l := fun writable l hl =>
    hfresh (mem_livePages.mpr ⟨writable, l, hl⟩)
  refine h.files hjob hrun (fun q hq => by cases hq) hwent hrefs huses ?_
    ⟨fun page' writable l l' hl hl' => ?_, fun page' hpage' writable => ?_⟩
  · rw [hpages, Finset.insert_val_of_notMem hfresh, hfreelist, ← Multiset.cons_coe,
      Multiset.cons_add, Multiset.add_cons]
  · rcases (hlive page' writable l).mp hl with hold | ⟨hpp, he⟩
    · rcases (hlive page' writable l').mp hl' with hold' | ⟨hpp, _⟩
      · exact h.pipes.ends page' writable l l' hold hold'
      · exact absurd (hpp ▸ hold) (hgone writable l)
    · rcases (hlive page' writable l').mp hl' with hold' | ⟨_, he'⟩
      · exact absurd (hpp ▸ hold') (hgone writable l')
      · exact he.trans he'.symm
  · change page' ∈ livePages u at hpage'
    change Sys.flag _ writable page' = true ↔ ∃ l, Live u page' writable l
    simp only [hlive]
    by_cases hp : page' = page
    · subst hp
      refine iff_of_true ?_ ⟨_, Or.inr ⟨rfl, rfl⟩⟩
      cases writable <;> exact Function.update_self _ _ _
    · have hflag : (⟨u, freelist, s.kernel, s.kstack, s.pgdir, s.sz,
          Function.update s.readopen page true,
          Function.update s.writeopen page true, s.job⟩ : Sys).flag writable page' = s.flag writable
          page' := by
        cases writable <;> exact Function.update_of_ne hp _ _
      rw [hpages] at hpage'
      rw [hflag, h.pipes.flags page' (Finset.mem_of_mem_insert_of_ne hpage' hp) writable]
      refine exists_congr fun l => ?_
      rw [or_iff_left]
      rintro ⟨he, _⟩
      exact hp he

theorem pipeclose_some (h : s.pipeclose L page writable = some t) : ∃ freelist readopen writeopen,
    t = { s with freelist := freelist, readopen := readopen, writeopen := writeopen } ∧
    t.flag writable page = false ∧ t.flag (!writable) page = s.flag (!writable) page ∧
    (∀ w page', page' ≠ page → t.flag w page' = s.flag w page') ∧
    freelist = if s.flag (!writable) page = false then page :: s.freelist else s.freelist := by
  have hshut : ∀ u : Sys, u.flag writable page = false →
      u.flag (!writable) page = s.flag (!writable) page →
      u.freelist = s.freelist →
      (if u.readopen page = false ∧ u.writeopen page = false then u.kfree L page else some u) = some t →
      t = { u with
        freelist := if s.flag (!writable) page = false then page :: s.freelist else s.freelist } := by
    intro u hshut hother hfreelist ht
    have hboth : u.readopen page = false ∧ u.writeopen page = false ↔
        s.flag (!writable) page = false := by
      rw [← hother]
      cases writable with
      | true => exact and_iff_left hshut
      | false => exact and_iff_right hshut
    split at ht
    · rename_i hc
      rw [kfree_some ht, if_pos (hboth.mp hc), hfreelist]
    · rename_i hc
      rw [← Option.some.inj ht, if_neg (fun he => hc (hboth.mpr he)), ← hfreelist]
  have hne : ∀ (f : ℕ → Bool) page', page' ≠ page → Function.update f page false page' = f page' :=
    fun f page' hp => Function.update_of_ne hp _ _
  cases writable with
  | true =>
    obtain rfl := hshut { s with writeopen := Function.update s.writeopen page false }
      (Function.update_self _ _ _) rfl rfl h
    refine ⟨_, s.readopen, Function.update s.writeopen page false, rfl,
      Function.update_self _ _ _, rfl, fun w page' hp => ?_, rfl⟩
    cases w with
    | true => exact hne s.writeopen page' hp
    | false => rfl
  | false =>
    obtain rfl := hshut { s with readopen := Function.update s.readopen page false }
      (Function.update_self _ _ _) rfl rfl h
    refine ⟨_, Function.update s.readopen page false, s.writeopen, rfl,
      Function.update_self _ _ _, rfl, fun w page' hp => ?_, rfl⟩
    cases w with
    | true => rfl
    | false => exact hne s.readopen page' hp

/-- One end of a pipe is closed for the last time. -/
theorem Inv.pipeclose (h : Inv L s) (hjob : s.job p = none) (hrun : s.files.state p = .RUNNING)
    (hchild : d.child = none) (hwent : Went s.files u p k d) (hrefs : Refs u)
    (huses : Uses u) {l : ℕ}
    (hd : s.files.doing p = d) (hpending : d.pending = [(l, .pipe page writable)])
    (hopened : u.opened = s.files.opened)
    (ht : { s with files := u }.pipeclose L page writable = some t) : Inv L t := by
  have hpend : (l, Target.pipe page writable) ∈ (s.files.doing p).pending := by
    rw [hd, hpending]
    exact List.mem_singleton_self _
  have hl : Live s.files page writable l := pending_live h.uses (h.refs.inside p hrun) hpend
  have hmem : page ∈ livePages s.files := mem_livePages.mpr ⟨writable, l, hl⟩
  have hlive : ∀ page' w l', Live u page' w l' ↔ Live s.files page' w l' ∧
      ¬(page' = page ∧ w = writable) := by
    intro page' w l'
    unfold Live
    rw [hopened, hwent.released, hpending, List.singleton_append, List.mem_cons, not_or]
    constructor
    · rintro ⟨hin, hne, hnot⟩
      refine ⟨⟨hin, hnot⟩, ?_⟩
      rintro ⟨rfl, rfl⟩
      exact hne (by rw [h.pipes.ends page' w l l' hl ⟨hin, hnot⟩])
    · rintro ⟨⟨hin, hnot⟩, hne⟩
      refine ⟨hin, fun he => hne ?_, hnot⟩
      obtain ⟨rfl, rfl⟩ := Target.pipe.inj (Prod.mk.inj he).2
      exact ⟨rfl, rfl⟩
  obtain ⟨freelist, readopen, writeopen, rfl, hshut, hother, hrest, hfreelist⟩ := pipeclose_some ht
  change _ = s.flag (!writable) page at hother
  change ∀ w page', page' ≠ page → _ = s.flag w page' at hrest
  change freelist = if s.flag (!writable) page = false then page :: s.freelist
    else s.freelist at hfreelist
  have hopen := h.pipes.flags page hmem (!writable)
  refine h.files hjob hrun (fun q hq => by rw [hchild] at hq; cases hq) hwent hrefs huses ?_
    ⟨fun page' w l1 l2 h1 h2 => ?_, fun page' hpage' w => ?_⟩
  · -- the page goes with the last end
    by_cases hlast : s.flag (!writable) page = false
    · have hout : page ∉ livePages u := by
        intro hin
        obtain ⟨w, l', hl'⟩ := mem_livePages.mp hin
        obtain ⟨hold, hne⟩ := (hlive page w l').mp hl'
        have hw : w = !writable := by
          cases w <;> cases writable <;> simp_all
        have htrue := hopen.mpr ⟨l', hw ▸ hold⟩
        rw [hlast] at htrue
        cases htrue
      have hpages : livePages s.files = insert page (livePages u) := by
        ext page'
        rw [Finset.mem_insert, mem_livePages, mem_livePages]
        simp only [hlive]
        constructor
        · rintro ⟨w, l', hl'⟩
          by_cases hp : page' = page
          · exact Or.inl hp
          · exact Or.inr ⟨w, l', hl', fun he => hp he.1⟩
        · rintro (rfl | ⟨w, l', hl', _⟩)
          · exact ⟨writable, l, hl⟩
          · exact ⟨w, l', hl'⟩
      rw [hfreelist, if_pos hlast, hpages, Finset.insert_val_of_notMem hout, ← Multiset.cons_coe,
        Multiset.cons_add, Multiset.add_cons]
    · have hpages : livePages u = livePages s.files := by
        ext page'
        rw [mem_livePages, mem_livePages]
        simp only [hlive]
        constructor
        · rintro ⟨w, l', hl', _⟩
          exact ⟨w, l', hl'⟩
        · rintro ⟨w, l', hl'⟩
          by_cases hp : page' = page
          · obtain ⟨l2, hl2⟩ := hopen.mp (Bool.eq_true_of_not_eq_false hlast)
            refine ⟨!writable, l2, hp ▸ hl2, fun he => ?_⟩
            exact absurd he.2 (Bool.not_ne_self writable)
          · exact ⟨w, l', hl', fun he => hp he.1⟩
      rw [hfreelist, if_neg hlast, hpages]
  · exact h.pipes.ends page' w l1 l2 ((hlive page' w l1).mp h1).1 ((hlive page' w l2).mp h2).1
  · change page' ∈ livePages u at hpage'
    change _ ↔ ∃ l', Live u page' w l'
    have hin : page' ∈ livePages s.files := by
      obtain ⟨w', l', hl'⟩ := mem_livePages.mp hpage'
      exact mem_livePages.mpr ⟨w', l', ((hlive page' w' l').mp hl').1⟩
    simp only [hlive]
    by_cases hp : page' = page
    · subst hp
      by_cases hw : w = writable
      · subst hw
        refine iff_of_false (by rw [hshut]; exact Bool.false_ne_true) ?_
        rintro ⟨_, _, hne⟩
        exact hne ⟨rfl, rfl⟩
      · have hw' : w = !writable := by
          cases w <;> cases writable <;> simp_all
        subst hw'
        rw [hother, hopen]
        exact exists_congr fun l' => (and_iff_left fun he => hw he.2).symm
    · rw [hrest w page' hp, h.pipes.flags page' hin w]
      exact exists_congr fun l' => (and_iff_left fun he => hp he.1).symm

/-- The other steps of the calls on files. -/
theorem Inv.plain (h : Inv L s) (hjob : s.job p = none) (hrun : s.files.state p = .RUNNING)
    (hchild : ∀ q, d.child = some q → s.files.state q = .EMBRYO) (hwent : Went s.files u p k d)
    (hrefs : Refs u) (huses : Uses u) (hnew : ∀ f0 f1, d = .pipe1 f0 f1 → k = none)
    (hold : ∀ l page writable, (l, Target.pipe page writable) ∉ d.pending) :
    Inv L { s with files := u } := by
  have hlive := hwent.live_iff hnew hold
  refine h.files hjob hrun hchild hwent hrefs huses ?_ (h.pipes.congr hlive fun _ _ => rfl)
  rw [livePages_congr hlive]

end Ends

section Runs

open Files (Refs Uses Target)

variable {L : Layout} {s t : Sys} {p : ℕ}

theorem withFiles_some {a : Files.Act} (h : s.withFiles p a = some t) :
    s.job p = none ∧ ∃ u, s.files.step a = some u ∧ t = { s with files := u } := by
  obtain ⟨hjob, h⟩ := Option.ite_none_right_eq_some.mp h
  obtain ⟨u, hu, he⟩ := Option.map_eq_some_iff.mp h
  exact ⟨Option.isNone_iff_eq_none.mp hjob, u, hu, he.symm⟩

theorem onFiles_run {v u : Files.Sys} {a : Files.Act} (ha : OnFiles p a) (hu : v.step a = some u) :
    v.state p = .RUNNING := by
  cases a with
  | fork _ _ => exact absurd ha id
  | wait _ => exact absurd ha id
  | go _ _ => exact absurd ha id
  | _ =>
    obtain rfl := ha
    exact (Option.ite_none_right_eq_some.mp hu).1.1

/-- The start of a call on files. -/
theorem Inv.files_call (h : Inv L s) {a : Files.Act} (ha : OnFiles p a)
    (ht : s.withFiles p a = some t) : Inv L t := by
  obtain ⟨hjob, u, hu, rfl⟩ := withFiles_some ht
  obtain ⟨hrefs, huses⟩ := h.files_step hu
  refine h.plain hjob (onFiles_run ha hu) (fun q hq => by cases hq) (step_went ha hu) hrefs huses
    (fun f0 f1 he => by cases he) fun l page writable hmem => ?_
  cases hmem

/-- A further step of a call on files. -/
theorem Inv.go (h : Inv L s) {fail : Bool} (ht : s.go L p fail = some t) : Inv L t := by
  have hgo : ∀ {k : Option ℕ} {u : Files.Sys}, s.files.step (.go p k) = some u →
      s.files.state p = .RUNNING ∧ Went s.files u p k (s.files.doing p) := by
    intro k u hu
    obtain ⟨hrun, hu⟩ := Option.ite_none_right_eq_some.mp hu
    exact ⟨hrun, go_went hu⟩
  -- a step without a page, of a call that has no end of a pipe to give back
  have hplain : s.withFiles p (.go p none) = some t →
      (∀ l page writable, (l, Target.pipe page writable) ∉ (s.files.doing p).pending) →
      Inv L t := by
    intro ht hold
    obtain ⟨hjob, u, hu, rfl⟩ := withFiles_some ht
    obtain ⟨hrefs, huses⟩ := h.files_step hu
    obtain ⟨hrun, hwent⟩ := hgo hu
    exact h.plain hjob hrun (fun q hq => (h.refs.child p q hq).1) hwent hrefs huses
      (fun _ _ _ => rfl) hold
  -- the last step of fileclose for an end of a pipe
  have hclose : ∀ {page writable l},
      ((s.withFiles p (.go p none)).bind fun t => t.pipeclose L page writable) = some t →
      (s.files.doing p).child = none → (s.files.doing p).pending = [(l, .pipe page writable)] →
      (∀ u, s.files.step (.go p none) = some u → u.opened = s.files.opened) → Inv L t := by
    intro page writable l ht hchild hpending hopened
    obtain ⟨v, hv, ht⟩ := Option.bind_eq_some_iff.mp ht
    obtain ⟨hjob, u, hu, rfl⟩ := withFiles_some hv
    obtain ⟨hrefs, huses⟩ := h.files_step hu
    obtain ⟨hrun, hwent⟩ := hgo hu
    exact h.pipeclose hjob hrun hchild hwent hrefs huses rfl hpending (hopened u hu) ht
  unfold Sys.go at ht
  split at ht
  · rename_i f0 f1 hd
    split at ht
    · rename_i page freelist hfreelist
      obtain ⟨hjob, u, hu, rfl⟩ := withFiles_some ht
      change s.files.step (.go p (some page)) = some u at hu
      obtain ⟨hrefs, huses⟩ := h.files_step hu
      obtain ⟨hrun, hwent⟩ := hgo hu
      rw [hd] at hwent
      obtain ⟨_, hu⟩ := Option.ite_none_right_eq_some.mp hu
      rw [hd] at hu
      have hopened : u.opened = (((s.files.setType f0 (.pipe page false)).file f1).life,
          .pipe page true) :: ((s.files.file f0).life, .pipe page false) :: s.files.opened := by
        obtain rfl := Option.some.inj hu
        rfl
      exact h.pipealloc hjob hrun hwent hrefs huses hopened hfreelist
    · refine hplain ht fun l page writable hmem => ?_
      rw [hd] at hmem
      cases hmem
  · rename_i l page writable fs hd
    refine hclose (l := l) ht ?_ ?_ fun u hu => ?_
    · rw [hd]
      rfl
    · rw [hd]
      rfl
    · obtain ⟨_, hu⟩ := Option.ite_none_right_eq_some.mp hu
      rw [hd] at hu
      obtain rfl := Option.some.inj hu
      rfl
  · rename_i f fd l page writable hd
    refine hclose (l := l) ht ?_ ?_ fun u hu => ?_
    · rw [hd]
      rfl
    · rw [hd]
      rfl
    · obtain ⟨_, hu⟩ := Option.ite_none_right_eq_some.mp hu
      rw [hd] at hu
      obtain rfl := Option.some.inj hu
      rfl
  · rename_i hpipe hclosing hexiting
    refine hplain ht fun l page writable hmem => ?_
    cases hd : s.files.doing p with
    | closing r fs =>
      rw [hd] at hmem
      obtain rfl := Option.mem_toList.mp hmem
      exact hclosing l page writable fs hd
    | exiting f fd r =>
      rw [hd] at hmem
      obtain rfl := Option.mem_toList.mp hmem
      exact hexiting f fd l page writable hd
    | _ =>
      rw [hd] at hmem
      cases hmem

theorem Inv.step (h : Inv L s) {a : Act} (ht : s.step L a = some t) : Inv L t := by
  cases a with
  | sbrk p n =>
    obtain ⟨hready, ht⟩ := Option.ite_none_right_eq_some.mp ht
    obtain ⟨d, hd, rfl⟩ := Option.map_eq_some_iff.mp ht
    exact h.own_call hready hd (sbrk_accounts (h.size p) n)
  | exec p image =>
    obtain ⟨hready, ht⟩ := Option.ite_none_right_eq_some.mp ht
    obtain ⟨d, hd, rfl⟩ := Option.map_eq_some_iff.mp ht
    exact h.own_call hready hd (runExec_accounts L (h.size p) image)
  | fork p np =>
    obtain ⟨⟨hready, _⟩, ht⟩ := Option.ite_none_right_eq_some.mp ht
    obtain ⟨d, hd, rfl⟩ := Option.map_eq_some_iff.mp ht
    exact h.fork_call hready (fork_accounts L (h.size p) np)
  | wait p z =>
    obtain ⟨⟨hready, hz, hzombie⟩, ht⟩ := Option.ite_none_right_eq_some.mp ht
    obtain ⟨kstack, hk, ht⟩ := Option.bind_eq_some_iff.mp ht
    obtain ⟨d, hd, rfl⟩ := Option.map_eq_some_iff.mp ht
    exact h.wait_call hready hz hzombie hk hd (reap_accounts kstack z)
  | tick p fail =>
    obtain ⟨j, hj, ht⟩ := Option.bind_eq_some_iff.mp ht
    unfold Sys.tick at ht
    split at ht
    · rename_i o hprog
      exact h.finish hj hprog ht
    · rename_i page k hprog
      obtain rfl := kfree_some ht
      have htick : j.prog.tick fail s.freelist = some (page :: s.freelist, k) := by
        rw [hprog]
        rfl
      exact h.ticked hj htick
    · rename_i k hprog
      obtain ⟨⟨freelist, prog⟩, htick, rfl⟩ := Option.map_eq_some_iff.mp ht
      rw [← hprog] at htick
      exact h.ticked hj htick
    · cases ht
  | sysOpen p ip => exact h.files_call (p := p) (a := .sysOpen p ip) rfl ht
  | sysDup p fd => exact h.files_call (p := p) (a := .sysDup p fd) rfl ht
  | sysPipe p => exact h.files_call (p := p) (a := .sysPipe p) rfl ht
  | sysClose p fd => exact h.files_call (p := p) (a := .sysClose p fd) rfl ht
  | exit p => exact h.files_call (p := p) (a := .exit p) rfl ht
  | go p fail => exact h.go ht

theorem freerange_accounts {fails : Bool} {F : Multiset ℕ} {Q : PUnit → Multiset ℕ → Prop}
    (pages : List ℕ)
    (h : Q ⟨⟩ F) : (freerange L pages).Accounts fails ((pages : Multiset ℕ) + F) Q := by
  induction pages with
  | nil =>
    rw [Multiset.coe_nil, zero_add]
    exact h
  | cons page rest ih =>
    unfold freerange
    split
    · trivial
    · rw [← Multiset.cons_coe, Multiset.cons_add]
      exact .free ih

theorem kvmalloc_accounts {fails : Bool} {F : Multiset ℕ} {Q : Pgdir → Multiset ℕ → Prop}
    (h : ∀ d, Q d (d.pages + F)) : (kvmalloc L).Accounts fails F Q := by
  unfold kvmalloc
  exact .bind (setupkvm_accounts L trivial h)

theorem startothers_accounts {fails : Bool} {n : ℕ} {F : Multiset ℕ}
    {Q : List ℕ → Multiset ℕ → Prop}
    (h : ∀ kstacks : List ℕ, Q kstacks ((kstacks : Multiset ℕ) + F)) :
    (startothers n).Accounts fails F Q := by
  induction n generalizing F Q with
  | zero =>
    have hq := h []
    rw [Multiset.coe_nil, zero_add] at hq
    exact hq
  | succ n ih =>
    unfold startothers
    refine .alloc (fun _ => .bind (ih fun kstacks => h kstacks)) fun stack => .bind
      (ih fun kstacks => ?_)
    have hq := h (stack :: kstacks)
    rw [← Multiset.cons_coe, Multiset.cons_add, ← Multiset.add_cons] at hq
    exact hq

theorem userinit_accounts {F : Multiset ℕ} {Q : ℕ × Pgdir → Multiset ℕ → Prop}
    (h : ∀ kstack d, Q (kstack, d) (kstack ::ₘ (d.pages + F))) :
    (userinit L).Accounts false F Q := by
  unfold userinit
  refine .alloc (fun _ => trivial) fun kstack => .bind (setupkvm_accounts L trivial fun d => ?_)
  dsimp only
  unfold inituvm
  refine .bind (.alloc (fun _ => trivial) fun mem => .bind ?_)
  refine mappages_user (Nat.zero_mod _) (by decide) (fun d' => ?_) fun hfails => ?_
  · have hq := h kstack d'
    rw [← Multiset.add_cons] at hq
    exact hq
  · cases hfails

theorem pages_split (h : PGROUNDUP L.kernelEnd / PGSIZE ≤ 4 * 1024 * 1024 / PGSIZE) :
    L.pages.val = (List.range' (PGROUNDUP L.kernelEnd / PGSIZE)
        (4 * 1024 * 1024 / PGSIZE - PGROUNDUP L.kernelEnd / PGSIZE) : Multiset ℕ) +
      List.range' (4 * 1024 * 1024 / PGSIZE) (PHYSTOP / PGSIZE - 4 * 1024 * 1024 / PGSIZE) := by
  have hall : L.pages.val = (List.range' (PGROUNDUP L.kernelEnd / PGSIZE)
      (PHYSTOP / PGSIZE - PGROUNDUP L.kernelEnd / PGSIZE) : Multiset ℕ) := rfl
  have hlow : 4 * 1024 * 1024 / PGSIZE = 1024 := by decide
  have hhigh : PHYSTOP / PGSIZE = 32768 := by decide
  rw [hlow] at h ⊢
  rw [hall, hhigh, Multiset.coe_add]
  generalize PGROUNDUP L.kernelEnd / PGSIZE = first at h ⊢
  have happend : List.range' first (1024 - first) ++
      List.range' (first + (1024 - first)) (32768 - 1024) =
      List.range' first (1024 - first + (32768 - 1024)) := List.range'_append_1
  rw [show first + (1024 - first) = 1024 by omega] at happend
  rw [happend, show 1024 - first + (32768 - 1024) = 32768 - first by omega]

/-- Every page is given to the allocator once, and none that is taken afterwards is lost. -/
theorem boot_pages {others kstack : ℕ} {kernel : Multiset ℕ} {d : Pgdir} {freelist : List ℕ}
    (h : (boot L others).run [] = some ((kernel, kstack, d), freelist)) :
    (freelist : Multiset ℕ) + kernel + (kstack ::ₘ d.pages) = L.pages.val := by
  have hboot : (boot L others).Accounts false L.pages.val fun r m =>
      m = r.1 + (r.2.1 ::ₘ r.2.2.pages) := by
    unfold boot
    by_cases hend : PGROUNDUP L.kernelEnd / PGSIZE ≤ 4 * 1024 * 1024 / PGSIZE
    · rw [pages_split hend]
      refine .bind (freerange_accounts _ (.bind (kvmalloc_accounts fun kpgdir => ?_)))
      refine .bind (startothers_accounts fun kstacks => ?_)
      have hlast : (kstacks : Multiset ℕ) + (kpgdir.pages + List.range' (4 * 1024 * 1024 / PGSIZE)
          (PHYSTOP / PGSIZE - 4 * 1024 * 1024 / PGSIZE)) = (List.range' (4 * 1024 * 1024 / PGSIZE)
          (PHYSTOP / PGSIZE - 4 * 1024 * 1024 / PGSIZE) : Multiset ℕ) +
          (kpgdir.pages + kstacks) := by abel
      rw [hlast]
      refine .bind (freerange_accounts _ (.bind (userinit_accounts fun kstack d => ?_)))
      show kstack ::ₘ (d.pages + (kpgdir.pages + kstacks)) = kpgdir.pages + kstacks +
        (kstack ::ₘ d.pages)
      rw [Multiset.add_cons, add_comm d.pages]
    · -- the kernel is too large, and kinit2 panics
      have hfirst : kinit1 L = pure ⟨⟩ := by
        unfold kinit1
        rw [Nat.sub_eq_zero_of_le (Nat.le_of_not_le hend)]
        rfl
      have hsecond : kinit2 L = .halt := by
        have hout : L.outside 1024 = true := by
          unfold Layout.outside
          refine Bool.or_eq_true_iff.mpr (Or.inl (decide_eq_true ?_))
          unfold PGROUNDUP wrap at hend
          unfold PGSIZE at hend ⊢
          omega
        unfold kinit2
        rw [show 4 * 1024 * 1024 / PGSIZE = 1024 by decide,
          show PHYSTOP / PGSIZE - 1024 = 31743 + 1 by decide,
          List.range'_succ]
        unfold freerange
        rw [if_pos hout]
      rw [hfirst, hsecond]
      refine .bind (Prog.accounts_pure.mpr (.bind (kvmalloc_accounts fun kpgdir => ?_)))
      exact .bind (startothers_accounts fun kstacks => .bind trivial)
  obtain ⟨m, rfl, hm⟩ := hboot.run h
  rw [add_assoc, hm]
  exact zero_add _

/-- After userinit the pages that are not free are the kernel's and the first process's. -/
theorem start_inv {freelist : List ℕ} {kernel : Multiset ℕ} {kstack : ℕ} {d : Pgdir}
    (h : (freelist : Multiset ℕ) + kernel + (kstack ::ₘ d.pages) = L.pages.val) :
    Inv L (.start freelist kernel kstack d) := by
  have hlive : livePages Files.Sys.start = ∅ := rfl
  have hslots : ∑ p ∈ Finset.range NPROC, (Sys.start freelist kernel kstack d).has p =
      kstack ::ₘ d.pages := by
    have hzero : (0 : ℕ) ∈ Finset.range NPROC := Finset.mem_range.mpr (by decide)
    rw [Finset.sum_eq_single_of_mem 0 hzero fun p _ hp => ?_]
    · unfold Sys.has Sys.start
      dsimp only
      rw [if_pos rfl, if_pos rfl, Option.elim_some, Option.elim_some, Multiset.singleton_add]
    · unfold Sys.has Sys.start
      dsimp only
      rw [if_neg hp, if_neg hp]
      rfl
  refine ⟨Files.start_refs, Files.start_uses, ⟨fun _ => 0, ⟨fun _ _ => rfl, fun p j hj => ?_⟩, ?_⟩,
    fun p hp => ?_, fun p j hj => ?_, fun p j hj => ?_, fun p j z hj => ?_, fun p q j j' z hj => ?_,
    fun p => ?_, ⟨fun page writable l l' hl => ?_, fun page hpage => ?_⟩⟩
  · cases hj
  · unfold Sys.all
    rw [hslots, Finset.sum_const_zero, add_zero, ← h]
    exact add_zero _
  · change (if p = 0 then ProcState.RUNNING else .UNUSED) = .UNUSED at hp
    split at hp
    · cases hp
    · rename_i hp0
      exact ⟨if_neg hp0, if_neg hp0⟩
  · cases hj
  · cases hj
  · cases hj
  · cases hj
  · change (if p = 0 then PGSIZE else 0) < KERNBASE
    split <;> decide
  · cases hl.1
  · change page ∈ livePages Files.Sys.start at hpage
    rw [hlive] at hpage
    exact absurd hpage (Finset.notMem_empty _)

/-- Whatever processes call, in whatever order their steps are made and whichever kalloc
fails, no page is lost, freed twice or shared. -/
theorem always_conserved {freelist : List ℕ} {kernel : Multiset ℕ} {kstack : ℕ} {d : Pgdir}
    (h : (freelist : Multiset ℕ) + kernel + (kstack ::ₘ d.pages) = L.pages.val) (as : List Act) :
    Always (Sys.step L) (Conserved L) (.start freelist kernel kstack d) as :=
  (always_of_invariant (fun _ _ _ hs ht => Inv.step hs ht) (start_inv h) as).mono fun _ hs =>
    hs.conserved

/-- The kernel ends at 0x115000, and the first process has nothing mapped yet. -/
theorem always_conserved_small :
    Always (Sys.step ⟨0x108000, 0x115000, by decide, by decide⟩) (Conserved ⟨0x108000,
      0x115000, by decide, by decide⟩)
      (.start (List.range' 0x117 32489) 0 0x115 ⟨0x116, fun _ => none⟩) [.sysPipe 0, .go 0 false,
      .go 0 false] := by
  refine always_conserved ?_ _
  have hall : Layout.pages ⟨0x108000, 0x115000, by decide, by decide⟩ = Finset.Ico 0x115 0x8000 :=
    rfl
  have hrange : (List.range' 0x115 32491 : Multiset ℕ) =
      0x115 ::ₘ 0x116 ::ₘ List.range' 0x117 32489 := rfl
  rw [pages_bare, hall, add_zero]
  calc (List.range' 0x117 32489 : Multiset ℕ) + 0x115 ::ₘ {0x116}
      = 0x115 ::ₘ 0x116 ::ₘ List.range' 0x117 32489 := by
        rw [Multiset.add_cons, add_comm, Multiset.singleton_add]
    _ = List.range' 0x115 32491 := hrange.symm

end Runs

end NorthOS.Vm
