import Mathlib.Algebra.Group.Nat.Defs
import Mathlib.Logic.Function.Basic
import NorthOS.Param
import NorthOS.Runs

/-!
The IDE driver of ide.c: the request queue, the controller it drives and the
processes that wait for their buffers. Everything between acquire and release
of idelock is one step, and so is the disk finishing a command. The results of
the two status polls are chosen by the environment.
-/
namespace NorthOS.Ide

def SECTOR_SIZE : ℕ := 512

def sectors : ℕ := BSIZE / SECTOR_SIZE

/-- The fields of `struct buf` that the driver reads or writes. -/
structure Buf (D : Type*) where
  valid : Bool
  dirty : Bool
  dev : ℕ
  blockno : ℕ
  data : D

/-- A buffer whose flags masked with B_VALID and B_DIRTY equal B_VALID. -/
def Buf.done {D : Type*} (b : Buf D) : Bool := b.valid && !b.dirty

/-- What idestart writes to the controller registers; a write sends its data along. -/
structure Command (D : Type*) where
  unit : ℕ
  sector : ℕ
  count : ℕ
  write : Option D

def Command.block {D : Type*} (c : Command D) : ℕ := c.sector / sectors

inductive Controller (D : Type*)
  | idle
  | busy (c : Command D)
  | finished (c : Command D)

/-- `medium unit block` is the platter, `port` the data register, `irq` the number
of interrupts raised and not yet taken. -/
structure Disk (D : Type*) where
  medium : ℕ → ℕ → D
  controller : Controller D
  port : D
  irq : ℕ

namespace Disk

variable {D : Type*}

/-- The command that was issued and whose interrupt has not been handled yet. -/
def outstanding (d : Disk D) : Option (Command D) :=
  match d.controller with
  | .idle => none
  | .busy c => some c
  | .finished c => some c

/-- The disk carries out the command it is busy with and raises its interrupt. -/
def complete (d : Disk D) : Disk D :=
  match d.controller with
  | .busy c =>
    match c.write with
    | some data =>
      { d with
        medium := Function.update d.medium c.unit
          (Function.update (d.medium c.unit) c.block data)
        controller := .finished c
        irq := d.irq + 1 }
    | none =>
      { d with
        port := d.medium c.unit c.block
        controller := .finished c
        irq := d.irq + 1 }
  | _ => d

/-- Handling an interrupt takes a finished command off the controller. -/
def acknowledge (d : Disk D) : Disk D :=
  match d.controller with
  | .finished _ => { d with controller := .idle, irq := d.irq - 1 }
  | _ => { d with irq := d.irq - 1 }

/-- A new command is written once the status no longer shows BSY, so a command
still in progress is carried out first. -/
def issue (d : Disk D) (c : Command D) : Disk D :=
  { d.complete with controller := .busy c }

end Disk

/-- `overlap` and `own` are history: whether idestart ever ran while a command was
outstanding, and what the block of a buffer held when ideintr finished reading it. -/
structure State (P B D : Type*) where
  buf : B → Buf D
  holder : B → Option P
  idequeue : List B
  waiting : P → Option B
  havedisk1 : Bool
  disk : Disk D
  overlap : Bool
  own : B → Option D

variable {P B D : Type*} [DecidableEq P] [DecidableEq B]

namespace State

/-- The command idestart issues for a buffer; the sector registers hold 28 bits. -/
def command (s : State P B D) (b : B) : Command D where
  unit := (s.buf b).dev % 2
  sector := (s.buf b).blockno * sectors % 2 ^ 28
  count := sectors
  write := if (s.buf b).dirty then some (s.buf b).data else none

def setBuf (s : State P B D) (b : B) (v : Buf D) : State P B D :=
  { s with buf := Function.update s.buf b v }

/-- The panic on a block out of range is `none`; `ready` is what idewait(0) found. -/
def idestart (s : State P B D) (b : B) (ready : Bool) : Option (State P B D) :=
  if FSSIZE ≤ (s.buf b).blockno then none
  else
    let s := { s with overlap := s.overlap || s.disk.outstanding.isSome }
    if ready then some { s with disk := s.disk.issue (s.command b) } else some s

/-- The insertion loop of iderw: in front of the first larger block number. -/
def insert (s : State P B D) (b : B) : List B → List B
  | [] => [b]
  | q :: rest =>
    if (s.buf b).blockno < (s.buf q).blockno then b :: q :: rest
    else q :: s.insert b rest

/-- What ideintr does to the buffer it takes off the queue. `readOk` is what
idewait(1) found; it polls until a command in progress is carried out. -/
def finish (s : State P B D) (b : B) (readOk : Bool) : State P B D :=
  if (s.buf b).dirty then
    { s.setBuf b { s.buf b with valid := true, dirty := false } with
      own := Function.update s.own b none }
  else if readOk then
    { s.setBuf b { s.buf b with data := s.disk.complete.port, valid := true } with
      disk := s.disk.complete
      own := Function.update s.own b
        (some (s.disk.complete.medium ((s.buf b).dev % 2) (s.buf b).blockno)) }
  else s.setBuf b { s.buf b with valid := false }

def ideintr (s : State P B D) (readOk ready : Bool) : Option (State P B D) :=
  match s.idequeue with
  | [] => some { s with disk := s.disk.acknowledge }
  | b :: rest =>
    let s := { s with idequeue := rest }.finish b readOk
    let s := { s with disk := s.disk.acknowledge }
    match rest with
    | [] => some s
    | next :: _ => s.idestart next ready

/-- iderw up to its wait loop. The caller p must hold the lock of b; the early
return leaves the state alone. -/
def iderw (s : State P B D) (p : P) (b : B) (ready : Bool) : Option (State P B D) :=
  if s.holder b ≠ some p then none
  else if (s.buf b).done then some s
  else if (s.buf b).dev ≠ 0 ∧ s.havedisk1 = false then none
  else
    let s := { s with
      idequeue := s.insert b s.idequeue
      waiting := Function.update s.waiting p (some b)
      own := Function.update s.own b none }
    if s.idequeue.head? = some b then s.idestart b ready else some s

end State

/-- The steps of the system. `modify` stands for everything the holder of a buffer
may do to it outside iderw: recycling it for another block, filling it, marking it
dirty. -/
inductive Action (P B D : Type*)
  | lock (p : P) (b : B)
  | modify (p : P) (b : B) (v : Buf D)
  | unlock (p : P) (b : B)
  | iderw (p : P) (b : B) (ready : Bool)
  | wake (p : P)
  | complete
  | intr (readOk ready : Bool)

open State in
/-- A process inside iderw does nothing else until it finds its buffer done. -/
def step (s : State P B D) : Action P B D → Option (State P B D)
  | .lock p b =>
    if s.waiting p = none ∧ s.holder b = none then
      some { s with holder := Function.update s.holder b (some p) }
    else none
  | .modify p b v =>
    if s.waiting p = none ∧ s.holder b = some p then some (s.setBuf b v) else none
  | .unlock p b =>
    if s.waiting p = none ∧ s.holder b = some p then
      some { s with holder := Function.update s.holder b none }
    else none
  | .iderw p b ready => if s.waiting p = none then s.iderw p b ready else none
  | .wake p =>
    match s.waiting p with
    | none => none
    | some b =>
      if (s.buf b).done then some { s with waiting := Function.update s.waiting p none }
      else some s
  | .complete =>
    match s.disk.controller with
    | .busy _ => some { s with disk := s.disk.complete }
    | _ => none
  | .intr readOk ready => if 0 < s.disk.irq then s.ideintr readOk ready else none

/-- The state after ideinit: any buffer and platter contents, no lock held, nothing
queued, the controller idle. -/
def init (buf : B → Buf D) (medium : ℕ → ℕ → D) (port : D) (havedisk1 : Bool) :
    State P B D where
  buf := buf
  holder := fun _ => none
  idequeue := []
  waiting := fun _ => none
  havedisk1 := havedisk1
  disk := { medium := medium, controller := .idle, port := port, irq := 0 }
  overlap := false
  own := fun _ => none

end NorthOS.Ide
