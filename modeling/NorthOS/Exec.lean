import NorthOS.Paging
import NorthOS.Sysfile

/-!
exec.c with the file system, the pages and the process that it works on. A string is its
characters without the NUL that ends it, and argv its strings without the null pointer.
-/
namespace NorthOS.Exec

open Halting Halting.Comp LittleEndian
open Vm (PGSIZE wrap PGROUNDUP)
open Paging (Pgdir Memory Kernel)
open Fs (Name slash ELF_MAGIC ELF_PROG_LOAD)

def MAXARG : ℕ := 32

/-- What exec knows of `struct proc`, with two registers of the trap frame. -/
structure Proc where
  pgdir : Pgdir
  sz : ℕ
  eip : ℕ
  esp : ℕ
  name : Name
  cwd : ℕ

/-- `ops` counts the operations of the file system that the process has begun and not ended. -/
structure Sys where
  fs : Fs.State
  mem : Memory
  proc : Proc
  ops : ℤ

inductive Stop
  | fs (h : Fs.Halt)
  | vm (h : Paging.Halt)

abbrev M (A : Type) := Comp Sys Stop A

section Parts

variable {A : Type}

def onFs (x : Fs.M A) : M A := fun s =>
  match x s.fs with
  | .ok (a, fs) => .ok (a, { s with fs })
  | .error h => .error (.fs h)

def onMem (x : Paging.M A) : M A := fun s =>
  match x s.mem with
  | .ok (a, mem) => .ok (a, { s with mem })
  | .error h => .error (.vm h)

def begin_op : M Unit := do
  onFs Fs.beginOp
  update fun s => { s with ops := s.ops + 1 }

def end_op : M Unit := do
  onFs Fs.endOp
  update fun s => { s with ops := s.ops - 1 }

end Parts

section Loading

/-- The loop of loaduvm; a page that is not present is page 0. -/
def loadLoop (pgdir : Pgdir) (addr ip offset sz i : ℕ) : M ℤ :=
  if i < sz then
    match pgdir.walk (wrap (addr + i)) with
    | none => halt (.vm .loaduvmExist)
    | some pte => do
      let n := min (sz - i) PGSIZE
      let r ← onFs (Fs.readi ip (wrap (offset + i)) n)
      onMem (Paging.memmove (pte.elim 0 Paging.Pte.frame) 0 ((List.range (min r.1.toNat n)).map r.2))
      if r.1 ≠ n then pure (-1) else loadLoop pgdir addr ip offset sz (i + PGSIZE)
  else pure 0
termination_by sz - i
decreasing_by
  unfold PGSIZE
  omega

def loaduvm (pgdir : Pgdir) (addr ip offset sz : ℕ) : M ℤ :=
  if addr % PGSIZE ≠ 0 then halt (.vm .loaduvmAligned) else loadLoop pgdir addr ip offset sz 0

/-- The loop over `phnum` program headers from `off` on: the address space, and its size unless
the program is bad. -/
def loadSegments (K : Kernel) (ip : ℕ) : ℕ → ℕ → Pgdir → ℕ → M (Pgdir × Option ℕ)
  | 0, _, pgdir, sz => pure (pgdir, some sz)
  | phnum + 1, off, pgdir, sz => do
    let r ← onFs (Fs.readi ip off 32)
    let ph := r.2
    let vaddr := get ph 8 4
    let filesz := get ph 16 4
    let memsz := get ph 20 4
    if r.1 ≠ 32 then pure (pgdir, none)
    else if get ph 0 4 ≠ ELF_PROG_LOAD then loadSegments K ip phnum (wrap (off + 32)) pgdir sz
    else if memsz < filesz then pure (pgdir, none)
    else if wrap (vaddr + memsz) < vaddr then pure (pgdir, none)
    else do
      let (pgdir, sz) ← onMem (Paging.allocuvm K pgdir sz (wrap (vaddr + memsz)))
      if sz = 0 then pure (pgdir, none)
      else if vaddr % PGSIZE ≠ 0 then pure (pgdir, none)
      else do
        let r ← loaduvm pgdir vaddr ip (get ph 4 4) filesz
        if r < 0 then pure (pgdir, none)
        else loadSegments K ip phnum (wrap (off + 32)) pgdir sz

end Loading

section Stack

/-- `(sp - (strlen(arg) + 1)) & ~3` -/
def pushed (sp : ℕ) (arg : Name) : ℕ := wrap (sp + 2 ^ 32 - (arg.length + 1)) / 4 * 4

/-- The loop over argv: the stack pointer and the pointers to the strings. -/
def pushArgs (pgdir : Pgdir) : List Name → ℕ → ℕ → List ℕ → M (Option (ℕ × List ℕ))
  | [], _, sp, ptrs => pure (some (sp, ptrs))
  | arg :: argv, argc, sp, ptrs =>
    if MAXARG ≤ argc then pure none
    else do
      let sp := pushed sp arg
      let r ← onMem (Paging.copyout pgdir sp (arg ++ [0]))
      if r < 0 then pure none else pushArgs pgdir argv (argc + 1) sp (ptrs ++ [sp])

def word (w : ℕ) : List UInt8 := (List.range 4).map fun i => UInt8.ofNat (w / 256 ^ i)

/-- `ustack` -/
def ustack (sp : ℕ) (ptrs : List ℕ) : List ℕ :=
  [0xFFFFFFFF, ptrs.length, wrap (sp + 2 ^ 32 - (ptrs.length + 1) * 4)] ++ ptrs ++ [0]

/-- The stack that main finds: the stack pointer, or none where the arguments do not fit. -/
def pushStack (pgdir : Pgdir) (argv : List Name) (sz : ℕ) : M (Option ℕ) := do
  match ← pushArgs pgdir argv 0 sz [] with
  | none => pure none
  | some (sp, ptrs) => do
    let sp' := wrap (sp + 2 ^ 32 - (3 + ptrs.length + 1) * 4)
    let r ← onMem (Paging.copyout pgdir sp' ((ustack sp ptrs).flatMap word))
    pure (if r < 0 then none else some sp')

end Stack

section Exec

/-- The loop that looks for the last element; `last` as it stands. -/
def lastElem : Name → Name → Name
  | last, [] => last
  | last, c :: s => lastElem (if c = slash then s else last) s

/-- `safestrcpy(curproc->name, last, sizeof(curproc->name))` -/
def progName (path : Name) : Name := (lastElem path path).take 15

/-- `bad` with a page directory and without an inode. -/
def bad (K : Kernel) (pgdir : Pgdir) : M ℤ := do
  onMem (Paging.freevm K pgdir)
  pure (-1)

/-- Commit to the user image. -/
def commit (K : Kernel) (path : Name) (pgdir : Pgdir) (sz entry sp : ℕ) : M ℤ := do
  let oldpgdir ← look fun s => s.proc.pgdir
  update fun s => { s with
    proc := { s.proc with pgdir, sz, eip := entry, esp := sp, name := progName path }
    mem := { s.mem with cr3 := pgdir } }
  onMem (Paging.freevm K oldpgdir)
  pure 0

/-- What exec does from the end of the operation on. -/
def enter (K : Kernel) (path : Name) (argv : List Name) (entry : ℕ) (pgdir : Pgdir) (sz : ℕ) :
    M ℤ := do
  let sz := PGROUNDUP sz
  let (pgdir, sz) ← onMem (Paging.allocuvm K pgdir sz (wrap (sz + 2 * PGSIZE)))
  if sz = 0 then bad K pgdir
  else do
    let pgdir ← onMem (Paging.clearpteu pgdir (sz - 2 * PGSIZE))
    match ← pushStack pgdir argv sz with
    | none => bad K pgdir
    | some sp => commit K path pgdir sz entry sp

/-- The new address space with the program, its size and its entry: what exec does with the
inode. -/
def load (K : Kernel) (ip : ℕ) : M (Option (Pgdir × Option ℕ × ℕ)) := do
  let elf ← onFs (Fs.readi ip 0 52)
  if elf.1 ≠ 52 then pure none
  else if get elf.2 0 4 ≠ ELF_MAGIC then pure none
  else do
    match ← onMem (Paging.setupkvm K) with
    | none => pure none
    | some pgdir => do
      let (pgdir, sz) ← loadSegments K ip (get elf.2 44 2) (get elf.2 28 4) pgdir 0
      pure (some (pgdir, sz, get elf.2 24 4))

def exec (K : Kernel) (path : Name) (argv : List Name) : M ℤ := do
  begin_op
  let cwd ← look fun s => s.proc.cwd
  match ← onFs (Fs.namei cwd path) with
  | none => do
    end_op
    pure (-1)
  | some ip => do
    onFs (Fs.ilock ip)
    match ← load K ip with
    | none => do
      onFs (Fs.iunlockput ip)
      end_op
      pure (-1)
    | some (pgdir, none, _) => do
      onMem (Paging.freevm K pgdir)
      onFs (Fs.iunlockput ip)
      end_op
      pure (-1)
    | some (pgdir, some sz, entry) => do
      onFs (Fs.iunlockput ip)
      end_op
      enter K path argv entry pgdir sz

end Exec

end NorthOS.Exec
