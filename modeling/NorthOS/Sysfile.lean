import NorthOS.Directory

/-!
The file-system calls of sysfile.c, file.c, exec.c and proc.c. Each call is a body
between begin_op and end_op; what it does outside of them is left to the caller. Slots
stand for inode pointers. The arguments of a call have been fetched already.
-/
namespace NorthOS.Fs

open LittleEndian Halting Comp

def O_WRONLY : ℕ := 0x001
def O_RDWR : ℕ := 0x002
def O_CREATE : ℕ := 0x200

/-- A `struct file` of an inode. -/
structure File where
  readable : Bool
  writable : Bool
  ip : ℕ
  off : ℕ
  deriving DecidableEq, Repr

/-- Addition to a short. -/
def addShort (x d : ℕ) : ℕ := (x + d) % 2 ^ 16

/-- `ip->nlink++` -/
def incLink (i : ℕ) : M Unit := do
  setSlot i fun ip => { ip with nlink := addShort ip.nlink 1 }
  iupdate i

/-- `ip->nlink--` -/
def decLink (i : ℕ) : M Unit := do
  setSlot i fun ip => { ip with nlink := addShort ip.nlink (2 ^ 16 - 1) }
  iupdate i

section Names

/-- The second half of sys_link, for the inode of slot `ip`; false goes to `bad`. -/
def linkNew (cwd ip : ℕ) (new : Name) : M Bool := do
  let parent ← nameiparent cwd new
  match parent with
  | none => pure false
  | some (dp, name) => do
    ilock dp
    let d ← look fun s => s.icache dp
    let x ← look fun s => s.icache ip
    if d.dev ≠ x.dev then do
      iunlockput dp
      pure false
    else do
      let r ← dirlink dp name x.inum
      if r < 0 then do
        iunlockput dp
        pure false
      else do
        iunlockput dp
        iput ip
        pure true

def link (cwd : ℕ) (old new : Name) : M ℤ := do
  let r ← namei cwd old
  match r with
  | none => pure (-1)
  | some ip => do
    ilock ip
    let type ← look fun s => (s.icache ip).type
    if type = T_DIR then do
      iunlockput ip
      pure (-1)
    else do
      incLink ip
      iunlock ip
      let ok ← linkNew cwd ip new
      if ok then pure 0
      else do
        ilock ip
        decLink ip
        iunlockput ip
        pure (-1)

/-- Is the directory empty except for "." and ".."? -/
def isdirempty (i : ℕ) : M Bool := do
  let size ← look fun s => (s.icache i).size
  let off ← scanDirents i (· != 0) (size / direntSize + 1) (2 * direntSize)
  pure (decide (size ≤ off))

/-- `.` and `..` -/
def dot : Name := [46]
def dotdot : Name := [46, 46]

/-- The end of sys_unlink, which removes the entry at `off` for the inode of slot `ip`. -/
def removeEntry (dp ip off : ℕ) : M ℤ := do
  let r ← writei dp (fun _ => 0) off direntSize
  ensure (fun _ => decide (r = direntSize)) .dirWrite
  let type ← look fun s => (s.icache ip).type
  let _ ← (if type = T_DIR then decLink dp else pure ())
  iunlockput dp
  decLink ip
  iunlockput ip
  pure 0

def unlink (cwd : ℕ) (path : Name) : M ℤ := do
  let parent ← nameiparent cwd path
  match parent with
  | none => pure (-1)
  | some (dp, name) => do
    ilock dp
    if namecmp name dot ∨ namecmp name dotdot then do
      iunlockput dp
      pure (-1)
    else do
      let found ← dirlookup dp name
      match found with
      | none => do
        iunlockput dp
        pure (-1)
      | some (ip, off) => do
        ilock ip
        ensure (fun s => decide (1 ≤ short (s.icache ip).nlink)) .unlinkNlink
        let type ← look fun s => (s.icache ip).type
        let empty ← (if type = T_DIR then isdirempty ip else pure true)
        if empty then removeEntry dp ip off
        else do
          iunlockput ip
          iunlockput dp
          pure (-1)

/-- "Create . and .. entries." -/
def createDots (dp ip : ℕ) : M Unit := do
  incLink dp
  let inum ← look fun s => (s.icache ip).inum
  let r ← dirlink ip dot inum
  ensure (fun _ => decide (0 ≤ r)) .create
  let parent ← look fun s => (s.icache dp).inum
  let r ← dirlink ip dotdot parent
  ensure (fun _ => decide (0 ≤ r)) .create

/-- A new inode and its entry `name` in the directory of slot `dp`. -/
def createNew (dp : ℕ) (name : Name) (type major minor : ℕ) : M ℕ := do
  let dev ← look fun s => (s.icache dp).dev
  let ip ← ialloc dev type
  ilock ip
  setSlot ip fun x => { x with major := major, minor := minor, nlink := 1 }
  iupdate ip
  let _ ← (if type = T_DIR then createDots dp ip else pure ())
  let inum ← look fun s => (s.icache ip).inum
  let r ← dirlink dp name inum
  ensure (fun _ => decide (0 ≤ r)) .create
  iunlockput dp
  pure ip

/-- The slot of the inode, which is locked. -/
def create (cwd : ℕ) (path : Name) (type major minor : ℕ) : M (Option ℕ) := do
  let parent ← nameiparent cwd path
  match parent with
  | none => pure none
  | some (dp, name) => do
    ilock dp
    let found ← dirlookup dp name
    match found with
    | some (ip, _) => do
      iunlockput dp
      ilock ip
      let old ← look fun s => (s.icache ip).type
      if type = T_FILE ∧ old = T_FILE then pure (some ip)
      else do
        iunlockput ip
        pure none
    | none => do
      let ip ← createNew dp name type major minor
      pure (some ip)

/-- The part of sys_open that finds or makes the inode; its slot is locked. -/
def openInode (cwd : ℕ) (path : Name) (omode : ℕ) : M (Option ℕ) := do
  if omode &&& O_CREATE ≠ 0 then create cwd path T_FILE 0 0
  else do
    let r ← namei cwd path
    match r with
    | none => pure none
    | some ip => do
      ilock ip
      let type ← look fun s => (s.icache ip).type
      if type = T_DIR ∧ omode ≠ 0 then do
        iunlockput ip
        pure none
      else pure (some ip)

/-- `room` says whether filealloc and fdalloc succeed. -/
def openFile (cwd : ℕ) (path : Name) (omode : ℕ) (room : Bool) : M (Option File) := do
  let r ← openInode cwd path omode
  match r with
  | none => pure none
  | some ip =>
    if room then do
      iunlock ip
      pure (some ⟨decide (omode &&& O_WRONLY = 0),
        decide (omode &&& O_WRONLY ≠ 0 ∨ omode &&& O_RDWR ≠ 0), ip, 0⟩)
    else do
      iunlockput ip
      pure none

/-- sys_mkdir and sys_mknod -/
def makeNode (cwd : ℕ) (path : Name) (type major minor : ℕ) : M ℤ := do
  let r ← create cwd path type major minor
  match r with
  | none => pure (-1)
  | some ip => do
    iunlockput ip
    pure 0

def mkdir (cwd : ℕ) (path : Name) : M ℤ := makeNode cwd path T_DIR 0 0

/-- The numbers become shorts. -/
def mknod (cwd : ℕ) (path : Name) (major minor : ℕ) : M ℤ :=
  makeNode cwd path T_DEV (major % 2 ^ 16) (minor % 2 ^ 16)

/-- The slot of the new working directory. -/
def chdir (cwd : ℕ) (path : Name) : M (Option ℕ) := do
  let r ← namei cwd path
  match r with
  | none => pure none
  | some ip => do
    ilock ip
    let type ← look fun s => (s.icache ip).type
    if type ≠ T_DIR then do
      iunlockput ip
      pure none
    else do
      iunlock ip
      iput cwd
      pure (some ip)

end Names

section Exec

def PGSIZE : ℕ := 4096
def ELF_MAGIC : ℕ := 0x464C457F
def ELF_PROG_LOAD : ℕ := 1

/-- What exec gets from vm.c: whether setupkvm finds a page, and what allocuvm returns
for an old and a new size. -/
structure Vm where
  setupkvm : Bool
  allocuvm : ℕ → ℕ → ℕ

/-- The loop of loaduvm from byte `k` of the segment on. -/
def loadLoop (ip offset sz : ℕ) : ℕ → ℕ → M Bool
  | 0, _ => pure true
  | fuel + 1, k =>
    if k < sz then do
      let n := min (sz - k) PGSIZE
      let r ← readi ip ((offset + k) % 2 ^ 32) n
      if r.1 = n then loadLoop ip offset sz fuel (k + PGSIZE) else pure false
    else pure true

def loaduvm (ip offset sz : ℕ) : M Bool := loadLoop ip offset sz (sz / PGSIZE + 1) 0

/-- The loop of exec over the program headers; `off` and `sz` as they stand. False goes
to `bad`. -/
def loadSegments (vm : Vm) (ip : ℕ) : ℕ → ℕ → ℕ → M Bool
  | 0, _, _ => pure true
  | phnum + 1, off, sz => do
    let r ← readi ip off 32
    let ph := r.2
    let vaddr := get ph 8 4
    let filesz := get ph 16 4
    let memsz := get ph 20 4
    if r.1 ≠ 32 then pure false
    else if get ph 0 4 ≠ ELF_PROG_LOAD then loadSegments vm ip phnum ((off + 32) % 2 ^ 32) sz
    else if memsz < filesz ∨ (vaddr + memsz) % 2 ^ 32 < vaddr then pure false
    else if vm.allocuvm sz (vaddr + memsz) = 0 ∨ vaddr % PGSIZE ≠ 0 then pure false
    else do
      let ok ← loaduvm ip (get ph 4 4) filesz
      if ok then loadSegments vm ip phnum ((off + 32) % 2 ^ 32) (vm.allocuvm sz (vaddr + memsz))
      else pure false

/-- What exec does until it ends its operation; the ELF header is 52 bytes long. -/
def exec (vm : Vm) (cwd : ℕ) (path : Name) : M Bool := do
  let r ← namei cwd path
  match r with
  | none => pure false
  | some ip => do
    ilock ip
    let elf ← readi ip 0 52
    let ok ← (if elf.1 ≠ 52 ∨ get elf.2 0 4 ≠ ELF_MAGIC ∨ vm.setupkvm = false then pure false
      else loadSegments vm ip (get elf.2 44 2) (get elf.2 28 4) 0)
    iunlockput ip
    pure ok

end Exec

section Files

/-- fileread outside of any operation; returns the file with its new offset. -/
def fileread (f : File) (n : ℕ) : M (ℤ × Bytes × File) := do
  if f.readable then do
    ilock f.ip
    let r ← readi f.ip f.off n
    iunlock f.ip
    pure (r.1, r.2, if 0 < r.1 then { f with off := (f.off + r.1.toNat) % 2 ^ 32 } else f)
  else pure (-1, fun _ => 0, f)

/-- The most that filewrite writes in one operation. -/
def writeMax : ℕ := (MAXOPBLOCKS - 1 - 1 - 2) / 2 * 512

/-- The operation of one turn of the loop of filewrite. -/
def writeChunk (f : File) (src : Bytes) (n : ℕ) : M (ℤ × File) := do
  ilock f.ip
  let r ← writei f.ip src f.off n
  iunlock f.ip
  pure (r, if 0 < r then { f with off := (f.off + r.toNat) % 2 ^ 32 } else f)

/-- exit of a process and the last fileclose give a reference back. -/
def putInode (ip : ℕ) : M Unit := iput ip

end Files

section Operations

def beginOp : M Unit := fun s =>
  match s.log.beginOp with
  | some log => .ok ((), { s with log := log })
  | none => .error .deadlock

/-- The last operation commits: its blocks are home and the header is empty. -/
def endOp : M Unit := fun s =>
  match s.log.endOp with
  | .ok (log, docommit) =>
    .ok ((), { s with log := if docommit then { log with lh := [], committing := false } else log })
  | .error p => .error (.log p)

def transaction {A : Type} (body : M A) : M A := do
  beginOp
  let r ← body
  endOp
  pure r

/-- The loop of filewrite from byte `i` on: what it returns, and the file. -/
def writeFile (f : File) (addr : Bytes) (n : ℕ) : ℕ → ℕ → M (ℤ × File)
  | 0, _ => pure (n, f)
  | fuel + 1, i =>
    if i < n then do
      let n1 := min (n - i) writeMax
      let r ← transaction (writeChunk f (fun k => addr (i + k)) n1)
      if r.1 < 0 then pure (-1, r.2)
      else do
        ensure (fun _ => decide (r.1 = n1)) .shortWrite
        writeFile r.2 addr n fuel (i + n1)
    else pure (n, f)

def filewrite (f : File) (addr : Bytes) (n : ℕ) : M (ℤ × File) :=
  if f.writable then writeFile f addr n n 0 else pure (-1, f)

end Operations

end NorthOS.Fs
