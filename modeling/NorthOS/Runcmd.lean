import NorthOS.Descriptors
import NorthOS.FileTable
import NorthOS.ShellParser

/-!
runcmd of the shell, with the processes that it forks. A step is one system call of one
process, and the calls of all processes interleave; fork, pipe, open and exec may fail, and a
process may be killed at any time. A process works at a node of the tree, which is named by
the turns on the way to it, the last turn first. The system also remembers at which nodes
runcmd has begun, what file or pipe was made for which node, and with what descriptors the
programs were started.
-/
namespace NorthOS.Runcmd

open Shell (Cmd)
open Descriptors Files

inductive Turn
  | body
  | left
  | right
  | back
  deriving DecidableEq

abbrev Node := List Turn

/-- What a descriptor stands for: an open file of the shell's, a file that was opened under
the name from `file` to `efile`, or an end of a pipe. -/
inductive File
  | given (k : ℕ)
  | opened (id file efile mode : ℕ)
  | pipe (id : ℕ) (writable : Bool)
  deriving DecidableEq

abbrev Table := ℕ → Option File

/-- Where a process is in runcmd: at the switch; in REDIR before open; in LIST before wait;
in PIPE before each of the forks, the two close and the two wait; in a child of PIPE before
each of its four calls; in another program; before exit; and gone but for its parent. -/
inductive Code
  | runcmd (π : Node) (c : Cmd)
  | opening (π : Node) (c : Cmd) (file efile mode : ℕ)
  | waiting (π : Node) (right : Cmd)
  | piped (π : Node) (left right : Cmd) (p0 p1 : ℕ)
  | forked (π : Node) (right : Cmd) (p0 p1 : ℕ)
  | close0 (π : Node) (p0 p1 : ℕ)
  | close1 (π : Node) (p1 : ℕ)
  | wait0 (π : Node)
  | wait1 (π : Node)
  | wire (π : Node) (writes : Bool) (c : Cmd) (p0 p1 : ℕ)
  | dup (π : Node) (writes : Bool) (c : Cmd) (p0 p1 : ℕ)
  | wired (π : Node) (writes : Bool) (c : Cmd) (p0 p1 : ℕ)
  | last (π : Node) (writes : Bool) (c : Cmd) (p1 : ℕ)
  | running (π : Node)
  | exit (π : Node)
  | zombie (π : Node)

structure Proc where
  code : Code
  ofile : Table

/-- A program that exec has started: at which node, with what arguments and descriptors. -/
structure Started where
  node : Node
  argv : List (ℕ × ℕ)
  ofile : Table

/-- `next` is the next pid, and `files` counts the files and pipes made; `born` is the node
that a process was forked for. -/
structure Sys where
  proc : ℕ → Option Proc
  parent : ℕ → Option ℕ
  next : ℕ
  files : ℕ
  born : ℕ → Node
  begun : List Node
  made : Node → Option ℕ
  started : List Started

/-- `ok` tells whether the system call succeeds; wait returns the child `q`. -/
inductive Act
  | go (p : ℕ) (ok : Bool)
  | wait (p q : ℕ)
  | stop (p : ℕ)

/-- The child of PIPE that writes runs the left command. -/
def side (writes : Bool) : Turn := if writes then .left else .right

/-- The descriptor that a child of PIPE replaces. -/
def std (writes : Bool) : ℕ := if writes then 1 else 0

/-- The node at which the process works. -/
def Code.node : Code → Node
  | .runcmd π _ | .opening π _ _ _ _ | .waiting π _ | .piped π _ _ _ _ | .forked π _ _ _
  | .close0 π _ _ | .close1 π _ | .wait0 π | .wait1 π | .running π | .exit π | .zombie π => π
  | .wire π w _ _ _ | .dup π w _ _ _ | .wired π w _ _ _ | .last π w _ _ => side w :: π

namespace Sys

def put (s : Sys) (p : ℕ) (code : Code) (ofile : Table) : Sys :=
  { s with proc := Function.update s.proc p (some ⟨code, ofile⟩) }

/-- fork1 in its parent's eyes: a child with the same descriptors. -/
def fork (s : Sys) (p : ℕ) (born : Node) (code : Code) (ofile : Table) : Sys :=
  { s with
    proc := Function.update s.proc s.next (some ⟨code, ofile⟩)
    parent := Function.update s.parent s.next (some p)
    born := Function.update s.born s.next born
    next := s.next + 1 }

def begin (s : Sys) (π : Node) : Sys := { s with begun := π :: s.begun }

def make (s : Sys) (π : Node) : Sys :=
  { s with made := Function.update s.made π (some s.files), files := s.files + 1 }

/-- exit: the descriptors are closed, and init becomes the parent of the children. -/
def die (s : Sys) (p : ℕ) (π : Node) : Sys :=
  { s.put p (.zombie π) fun _ => none with
    parent := fun q => if s.parent q = some p then none else s.parent q }

/-- wait returns -1 at once. -/
def childless (s : Sys) (p : ℕ) : Bool :=
  (List.range s.next).all fun q => (s.proc q).isNone || decide (s.parent q ≠ some p)

/-- fdalloc twice, for the two ends of a pipe. -/
def pipefds (ofile : Table) (id : ℕ) : Option (ℕ × ℕ) :=
  (lowest NOFILE ofile).bind fun p0 =>
    (lowest NOFILE (Function.update ofile p0 (some (.pipe id false)))).map fun p1 => (p0, p1)

/-- The switch of runcmd, up to the next system call. -/
def runcmd (s : Sys) (p : ℕ) (ofile : Table) (π : Node) (ok : Bool) : Cmd → Sys
  | .exec argv =>
    if argv ≠ [] ∧ ok then
      { (s.begin π).put p (.running π) ofile with started := ⟨π, argv, ofile⟩ :: s.started }
    else (s.begin π).die p π
  | .redir c file efile mode fd =>
    s.put p (.opening π c file efile mode) (Function.update ofile fd none)
  | .list left right =>
    if ok then ((s.begin π).fork p (.left :: π) (.runcmd (.left :: π) left) ofile).put p (.waiting π right) ofile
    else (s.begin π).die p π
  | .pipe left right =>
    match if ok then pipefds ofile s.files else none with
    | some (p0, p1) =>
      ((s.begin π).make π).put p (.piped π left right p0 p1)
        (Function.update (Function.update ofile p0 (some (.pipe s.files false))) p1 (some (.pipe s.files true)))
    | none => (s.begin π).die p π
  | .back c =>
    if ok then ((s.begin π).fork p (.back :: π) (.runcmd (.back :: π) c) ofile).put p (.exit π) ofile
    else (s.begin π).die p π

/-- The next system call of a process. -/
def go (s : Sys) (p : ℕ) (ok : Bool) (ofile : Table) : Code → Option Sys
  | .runcmd π c => some (s.runcmd p ofile π ok c)
  | .opening π c file efile mode =>
    match if ok then lowest NOFILE ofile else none with
    | some fd =>
      some (((s.begin π).make π).put p (.runcmd (.body :: π) c)
        (Function.update ofile fd (some (.opened s.files file efile mode))))
    | none => some ((s.begin π).die p π)
  | .waiting π right => if s.childless p then some (s.put p (.runcmd (.right :: π) right) ofile) else none
  | .piped π left right p0 p1 =>
    some (if ok then (s.fork p (.left :: π) (.wire π true left p0 p1) ofile).put p (.forked π right p0 p1) ofile
      else s.die p π)
  | .forked π right p0 p1 =>
    some (if ok then (s.fork p (.right :: π) (.wire π false right p0 p1) ofile).put p (.close0 π p0 p1) ofile
      else s.die p π)
  | .close0 π p0 p1 => some (s.put p (.close1 π p1) (Function.update ofile p0 none))
  | .close1 π p1 => some (s.put p (.wait0 π) (Function.update ofile p1 none))
  | .wait0 π => if s.childless p then some (s.put p (.wait1 π) ofile) else none
  | .wait1 π => if s.childless p then some (s.put p (.exit π) ofile) else none
  | .wire π w c p0 p1 => some (s.put p (.dup π w c p0 p1) (Function.update ofile (std w) none))
  | .dup π w c p0 p1 =>
    some (s.put p (.wired π w c p0 p1)
      (match ofile (if w then p1 else p0), lowest NOFILE ofile with
      | some f, some fd => Function.update ofile fd (some f)
      | _, _ => ofile))
  | .wired π w c p0 p1 => some (s.put p (.last π w c p1) (Function.update ofile p0 none))
  | .last π w c p1 => some (s.put p (.runcmd (side w :: π) c) (Function.update ofile p1 none))
  | .exit π => some (s.die p π)
  | .running _ | .zombie _ => none

/-- Where a process goes on when its wait has returned a child. -/
def reaped : Code → Option Code
  | .waiting π right => some (.runcmd (.right :: π) right)
  | .wait0 π => some (.wait1 π)
  | .wait1 π => some (.exit π)
  | _ => none

def isZombie : Code → Bool
  | .zombie _ => true
  | _ => false

def step (s : Sys) : Act → Option Sys
  | .go p ok => (s.proc p).bind fun P => s.go p ok P.ofile P.code
  | .wait p q =>
    match s.proc p, s.proc q with
    | some P, some Q =>
      if s.parent q = some p ∧ isZombie Q.code then
        (reaped P.code).map fun code =>
          { s.put p code P.ofile with proc := Function.update (s.put p code P.ofile).proc q none }
      else none
    | _, _ => none
  | .stop p =>
    match s.proc p with
    | some P => if isZombie P.code then none else some (s.die p P.code.node)
    | none => none

/-- The shell has forked a process for the command. -/
def start (c : Cmd) (ofile : Table) : Sys where
  proc := fun p => if p = 0 then some ⟨.runcmd [] c, ofile⟩ else none
  parent := fun _ => none
  next := 1
  files := 0
  born := fun _ => []
  begun := []
  made := fun _ => none
  started := []

end Sys

/-- The free descriptor is the one that fdalloc gives. -/
theorem fdalloc_eq (s : Files.Sys) (p : ℕ) : s.fdalloc p = lowest NOFILE (s.ofile p) := by
  unfold Files.Sys.fdalloc lowest
  congr 1
  funext fd
  cases s.ofile p fd <;> rfl

end NorthOS.Runcmd
