import Mathlib.Algebra.BigOperators.Group.Finset.Basic
import NorthOS.Param
import NorthOS.Proc

/-!
The open files of file.c and the descriptors of the processes. A system call moves in
steps: each section under ftable.lock is one, each change of the process's own
descriptors is one, and the call of pipeclose or iput is one. Beside the tables the
system numbers the uses of the file structures, and it remembers which use was given a
pipe or an inode and for which one that was given back.
-/
namespace NorthOS.Files

open Process (ProcState NPROC)

/-- What pipeclose or iput is called for; without one the type is FD_NONE. -/
inductive Target
  | pipe (p : ℕ) (writable : Bool)
  | inode (ip : ℕ)
  deriving DecidableEq

structure File where
  ref : ℕ
  type : Option Target
  life : ℕ

/-- The use of a file structure, with what it was opened for. -/
abbrev Use : Type := ℕ × Target

/-- The point in a call where the process stands, with the files that the call holds. -/
inductive Doing
  | idle
  | opened (f ip : ℕ)
  | typing (f ip : ℕ)
  | dup (f : ℕ)
  | pipe0 (f0 : ℕ)
  | pipe1 (f0 f1 : ℕ)
  | pipe2 (f0 f1 : ℕ)
  | pipe3 (f0 f1 fd0 : ℕ)
  | closing (r : Option Use) (fs : List ℕ)
  | fork (np i : ℕ)
  | forkSet (np i f : ℕ)
  | exit (fd : ℕ)
  | exiting (f fd : ℕ) (r : Option Use)
  deriving DecidableEq

structure Sys where
  file : ℕ → File
  ofile : ℕ → ℕ → Option ℕ
  state : ℕ → ProcState
  doing : ℕ → Doing
  lives : ℕ
  opened : List Use
  released : List Use

inductive Act
  | sysOpen (p ip : ℕ)
  | sysDup (p fd : ℕ)
  | sysPipe (p : ℕ)
  | sysClose (p fd : ℕ)
  | fork (p np : ℕ)
  | exit (p : ℕ)
  | wait (np : ℕ)
  | go (p : ℕ) (kalloc : Option ℕ)

namespace Sys

def setFile (s : Sys) (f : ℕ) (x : File) : Sys := { s with file := Function.update s.file f x }

def setFd (s : Sys) (p fd : ℕ) (x : Option ℕ) : Sys :=
  { s with ofile := Function.update s.ofile p (Function.update (s.ofile p) fd x) }

def goTo (s : Sys) (p : ℕ) (d : Doing) : Sys := { s with doing := Function.update s.doing p d }

def filealloc (s : Sys) : Option (Sys × ℕ) :=
  ((List.range NFILE).find? fun f => (s.file f).ref = 0).map fun f =>
    ({ s.setFile f { s.file f with ref := 1, life := s.lives + 1 } with lives := s.lives + 1 }, f)

/-- A file without references is a panic. -/
def filedup (s : Sys) (f : ℕ) : Option Sys :=
  if (s.file f).ref < 1 then none
  else some (s.setFile f { s.file f with ref := (s.file f).ref + 1 })

/-- The part of fileclose under ftable.lock, and what is to be given back after it. -/
def fileclose (s : Sys) (f : ℕ) : Option (Sys × Option Use) :=
  if (s.file f).ref < 1 then none
  else if (s.file f).ref - 1 > 0 then
    some (s.setFile f { s.file f with ref := (s.file f).ref - 1 }, none)
  else
    some (s.setFile f { s.file f with ref := 0, type := none },
      (s.file f).type.map fun t => ((s.file f).life, t))

/-- The file gets its type; until then it is nobody's but the caller's. -/
def setType (s : Sys) (f : ℕ) (t : Target) : Sys :=
  { s.setFile f { s.file f with type := some t } with opened := ((s.file f).life, t) :: s.opened }

/-- The first free descriptor. -/
def fdalloc (s : Sys) (p : ℕ) : Option ℕ := (List.range NOFILE).find? fun fd => s.ofile p fd = none

def argfd (s : Sys) (p fd : ℕ) : Option ℕ := if fd < NOFILE then s.ofile p fd else none

def release (s : Sys) (r : Use) : Sys := { s with released := r :: s.released }

/-- The next step of a process in a call; `kalloc` is the page that a pipe gets. -/
def go (s : Sys) (p : ℕ) (kalloc : Option ℕ) : Doing → Option Sys
  | .idle => none
  | .opened f ip =>
    match s.fdalloc p with
    | some fd => some ((s.setFd p fd (some f)).goTo p (.typing f ip))
    | none => some (s.goTo p (.closing none [f]))
  | .typing f ip => some ((s.setType f (.inode ip)).goTo p .idle)
  | .dup f => (s.filedup f).map fun t => t.goTo p .idle
  | .pipe0 f0 =>
    match s.filealloc with
    | some (t, f1) => some (t.goTo p (.pipe1 f0 f1))
    | none => some (s.goTo p (.closing none [f0]))
  | .pipe1 f0 f1 =>
    match kalloc with
    | some page => some (((s.setType f0 (.pipe page false)).setType f1 (.pipe page true)).goTo p (.pipe2 f0 f1))
    | none => some (s.goTo p (.closing none [f0, f1]))
  | .pipe2 f0 f1 =>
    match s.fdalloc p with
    | some fd0 => some ((s.setFd p fd0 (some f0)).goTo p (.pipe3 f0 f1 fd0))
    | none => some (s.goTo p (.closing none [f0, f1]))
  | .pipe3 f0 f1 fd0 =>
    match s.fdalloc p with
    | some fd1 => some ((s.setFd p fd1 (some f1)).goTo p .idle)
    | none => some ((s.setFd p fd0 none).goTo p (.closing none [f0, f1]))
  | .closing (some r) fs => some ((s.release r).goTo p (.closing none fs))
  | .closing none (f :: fs) => (s.fileclose f).map fun t => t.1.goTo p (.closing t.2 fs)
  | .closing none [] => some (s.goTo p .idle)
  | .fork np i =>
    if i < NOFILE then
      match s.ofile p i with
      | some f => (s.filedup f).map fun t => t.goTo p (.forkSet np i f)
      | none => some (s.goTo p (.fork np (i + 1)))
    else some { s.goTo p .idle with state := Function.update s.state np .RUNNING }
  | .forkSet np i f => some ((s.setFd np i (some f)).goTo p (.fork np (i + 1)))
  | .exit fd =>
    if fd < NOFILE then
      match s.ofile p fd with
      | some f => (s.fileclose f).map fun t => t.1.goTo p (.exiting f fd t.2)
      | none => some (s.goTo p (.exit (fd + 1)))
    else some { s.goTo p .idle with state := Function.update s.state p .ZOMBIE }
  | .exiting f fd (some r) => some ((s.release r).goTo p (.exiting f fd none))
  | .exiting _ fd none => some ((s.setFd p fd none).goTo p (.exit (fd + 1)))

/-- The start of a system call of a process that is in none; `t` is what it starts with. -/
def call (s : Sys) (p : ℕ) (t : Sys) : Option Sys :=
  if s.state p = .RUNNING ∧ s.doing p = .idle then some t else none

/-- A call that fails at once changes nothing. fork and exit only show their work on the
files. -/
def step (s : Sys) : Act → Option Sys
  | .sysOpen p ip => s.call p <|
    match s.filealloc with
    | some (t, f) => t.goTo p (.opened f ip)
    | none => s
  | .sysDup p fd => s.call p <|
    match s.argfd p fd, s.fdalloc p with
    | some f, some fd' => (s.setFd p fd' (some f)).goTo p (.dup f)
    | _, _ => s
  | .sysPipe p => s.call p <|
    match s.filealloc with
    | some (t, f) => t.goTo p (.pipe0 f)
    | none => s
  | .sysClose p fd => s.call p <|
    match s.argfd p fd with
    | some f => (s.setFd p fd none).goTo p (.closing none [f])
    | none => s
  | .fork p np =>
    if np < NPROC ∧ s.state np = .UNUSED then
      s.call p { s.goTo p (.fork np 0) with state := Function.update s.state np .EMBRYO }
    else none
  | .exit p => s.call p (s.goTo p (.exit 0))
  | .wait np =>
    if s.state np = .ZOMBIE then some { s with state := Function.update s.state np .UNUSED } else none
  | .go p kalloc => if s.state p = .RUNNING then s.go p kalloc (s.doing p) else none

/-- The first process, without open files. -/
def start : Sys where
  file := fun _ => ⟨0, none, 0⟩
  ofile := fun _ _ => none
  state := fun p => if p = 0 then .RUNNING else .UNUSED
  doing := fun _ => .idle
  lives := 0
  opened := []
  released := []

end Sys

end NorthOS.Files
