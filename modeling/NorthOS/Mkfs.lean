import NorthOS.Sysfile

/-!
mkfs.c: the image of a new file system. Reads and writes of the image succeed; a file of
the host is what open, fstat and read return for it. The state also records the inode
numbers that ialloc returned and the sectors that winode wrote.
-/
namespace NorthOS.Mkfs

open LittleEndian Halting Comp Fs

/-- A file of the argument list as the host presents it. `reads` is what read returns, up
to the end of the file. -/
structure HostFile where
  path : Name
  cstring : 0 ∉ path
  opens : Bool
  stat : Option ℕ
  reads : List (List UInt8)
  short : ∀ c ∈ reads, c.length ≤ BSIZE

structure State where
  /-- The sectors of the image, and how many the image has. -/
  img : ℕ → Bytes
  len : ℕ
  freeinode : ℕ
  freeblock : ℕ
  handed : List ℕ
  written : List ℕ

inductive Halt
  /-- `exit(1)` -/
  | exit
  /-- a failed assertion -/
  | assert
  deriving DecidableEq, Repr

abbrev M := Comp State Halt

section Sectors

/-- The sector at `sec * BSIZE`, which is a uint. -/
def sector (sec : ℕ) : ℕ := sec % 2 ^ 21

def wsect (sec : ℕ) (buf : Bytes) : M Unit := update fun s =>
  { s with
    img := Function.update s.img (sector sec) buf
    len := max s.len (sector sec + 1) }

def rsect (sec : ℕ) : M Bytes := do
  ensure (fun s => decide (sector sec < s.len)) .exit
  look fun s => s.img (sector sec)

end Sectors

section Inodes

/-- A dinode is its 128 bytes; these are its size and its block pointers. -/
def dinSize (din : Bytes) : ℕ := get din 8 4

def dinAddr (din : Bytes) (k : ℕ) : ℕ := get din (12 + 4 * k) 4

def winode (inum : ℕ) (din : Bytes) : M Unit := do
  let buf ← rsect (IBLOCK inum mkfsSuperblock)
  update fun s => { s with written := IBLOCK inum mkfsSuperblock :: s.written }
  wsect (IBLOCK inum mkfsSuperblock) (splice buf (dinodeOffset inum) din 0 128)

def rinode (inum : ℕ) : M Bytes := do
  let buf ← rsect (IBLOCK inum mkfsSuperblock)
  pure fun i => buf (dinodeOffset inum + i)

/-- The new dinode: a type, one link, and no blocks. -/
def newDinode (type : ℕ) : Bytes := put (put (fun _ => 0) 0 2 type) 6 2 1

def ialloc (type : ℕ) : M ℕ := do
  let inum ← look fun s => s.freeinode
  update fun s => { s with freeinode := inum + 1, handed := inum :: s.handed }
  winode inum (newDinode type)
  pure inum

end Inodes

section Append

/-- `freeblock++`, unless there are no data blocks left. -/
def takeBlock : M ℕ := do
  let b ← look fun s => s.freeblock
  ensure (fun _ => decide (b < nmeta + nblocks)) .exit
  update fun s => { s with freeblock := b + 1 }
  pure b

/-- Block pointer `k` of the dinode, which is given a block if it has none. -/
def takeAddr (din : Bytes) (k : ℕ) : M Bytes := do
  if dinAddr din k = 0 then do
    let b ← takeBlock
    pure (put din (12 + 4 * k) 4 b)
  else pure din

/-- Entry `idx` of the index block `addr`, which is given a block if it has none. -/
def takeEntry (addr idx : ℕ) : M ℕ := do
  let indirect ← rsect addr
  if get indirect (4 * idx) 4 = 0 then do
    let b ← takeBlock
    wsect addr (put indirect (4 * idx) 4 b)
    pure b
  else pure (get indirect (4 * idx) 4)

/-- The block `x` of file block `fbn`, and the dinode with its pointers. -/
def fileBlock (din : Bytes) (fbn : ℕ) : M (Bytes × ℕ) := do
  if fbn < NDIRECT then do
    let din ← takeAddr din fbn
    pure (din, dinAddr din fbn)
  else if fbn < NDIRECT + NINDIRECT then do
    let din ← takeAddr din NDIRECT
    let x ← takeEntry (dinAddr din NDIRECT) (fbn - NDIRECT)
    pure (din, x)
  else do
    let bn := fbn - NDIRECT - NINDIRECT
    ensure (fun _ => decide (bn / NINDIRECT < NINDIRECT)) .exit
    let din ← takeAddr din (NDIRECT + 1)
    let outer ← takeEntry (dinAddr din (NDIRECT + 1)) (bn / NINDIRECT)
    let x ← takeEntry outer (bn % NINDIRECT)
    pure (din, x)

/-- The loop of iappend with `n` bytes at `p` to go; the dinode and `off` in the end. -/
def appendLoop : ℕ → Bytes → ℕ → Bytes → ℕ → M (Bytes × ℕ)
  | 0, din, off, _, _ => pure (din, off)
  | fuel + 1, din, off, p, n =>
    if 0 < n then do
      let fbn := off / BSIZE
      ensure (fun _ => decide (fbn < MAXFILE)) .exit
      let r ← fileBlock din fbn
      let n1 := min n ((fbn + 1) * BSIZE - off)
      let buf ← rsect r.2
      wsect r.2 (splice buf (off - fbn * BSIZE) p 0 n1)
      appendLoop fuel r.1 (off + n1) (fun i => p (n1 + i)) (n - n1)
    else pure (din, off)

def iappend (inum : ℕ) (p : Bytes) (n : ℕ) : M Unit := do
  let din ← rinode inum
  let r ← appendLoop n din (dinSize din) p n
  winode inum (put r.1 8 4 r.2)

end Append

section Files

/-- The last component of a path, without trailing slashes. -/
def basename (path : Name) : Name :=
  let p := (path.reverse.dropWhile (· == slash)).reverse
  if path = [] then dot
  else if p = [] then [slash]
  else (p.reverse.takeWhile (· != slash)).reverse

/-- `_` -/
def underscore : UInt8 := 95

/-- The name of the root directory's entry for a file. -/
def filename (path : Name) : Name :=
  if (basename path).head? = some underscore then (basename path).tail else basename path

/-- The loop that copies a file into the inode. -/
def copyFile (inum : ℕ) : List (List UInt8) → M Unit
  | [] => pure ()
  | buf :: rest =>
    if buf = [] then pure ()
    else do
      iappend inum (fun i => buf.getD i 0) buf.length
      copyFile inum rest

/-- One turn of the loop over the arguments. -/
def addFile (rootino : ℕ) (f : HostFile) : M Unit := do
  ensure (fun _ => f.opens) .exit
  match f.stat with
  | none => halt .exit
  | some size =>
    if MAXFILE * BSIZE < size then pure ()
    else do
      let inum ← ialloc T_FILE
      iappend rootino (dirent inum (filename f.path)) direntSize
      copyFile inum f.reads

/-- The files that are not too large. -/
def accepted (f : HostFile) : Bool :=
  match f.stat with
  | none => false
  | some size => decide (size ≤ MAXFILE * BSIZE)

def addFiles (rootino : ℕ) : List HostFile → M Unit
  | [] => pure ()
  | f :: fs => do
    addFile rootino f
    addFiles rootino fs

/-- The bytes of the bitmap with the first blocks marked. -/
def marked : ℕ → Bytes
  | 0 => fun _ => 0
  | used + 1 => Bitmap.set (marked used) used

def balloc (used : ℕ) : M Unit := do
  ensure (fun _ => decide (used < BSIZE * 8)) .assert
  wsect mkfsSuperblock.bmapstart (marked used)

def superblockBytes : Bytes :=
  put (put (put (put (put (put (put (fun _ => 0) 0 4 mkfsSuperblock.size) 4 4 mkfsSuperblock.nblocks)
    8 4 mkfsSuperblock.ninodes) 12 4 mkfsSuperblock.nlog) 16 4 mkfsSuperblock.logstart)
    20 4 mkfsSuperblock.inodestart) 24 4 mkfsSuperblock.bmapstart

/-- The loop that writes zeroes to every sector. It is not unfolded by accident: it takes
25600 turns. -/
@[irreducible] def clearSectors (size : ℕ) : M Unit := forBelow (fun i => wsect i fun _ => 0) size

/-- The superblock and the root directory; the number of its inode. -/
def makeRoot : M ℕ := do
  wsect 1 superblockBytes
  let rootino ← ialloc T_DIR
  ensure (fun _ => decide (rootino = ROOTINO)) .assert
  iappend rootino (dirent rootino dot) direntSize
  iappend rootino (dirent rootino dotdot) direntSize
  pure rootino

/-- Everything in front of the loop over the arguments. -/
def format : M ℕ := do
  update fun s => { s with freeblock := nmeta }
  clearSectors FSSIZE
  makeRoot

/-- "Fix up root inode size", and the bitmap. -/
def finish (rootino : ℕ) : M Unit := do
  let din ← rinode rootino
  let off := (dinSize din / BSIZE + 1) * BSIZE
  winode rootino (put din 8 4 off)
  let used ← look fun s => s.freeblock
  balloc used

/-- `image` says whether the image could be opened; `none` stands for a missing argument.
A run that returns exits with 0. -/
def main (image : Option Bool) (files : List HostFile) : M Unit := do
  ensure (fun _ => image.isSome) .exit
  ensure (fun _ => image.getD false) .exit
  let rootino ← format
  addFiles rootino files
  finish rootino

/-- What main starts from: an image that open made empty. -/
def start : State where
  img := fun _ _ => 0
  len := 0
  freeinode := 1
  freeblock := 0
  handed := []
  written := []

end Files

end NorthOS.Mkfs
