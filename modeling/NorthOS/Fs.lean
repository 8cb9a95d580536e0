import Mathlib.Algebra.Group.Int.Defs
import Mathlib.Data.Int.Notation
import NorthOS.Bitmap
import NorthOS.Halting
import NorthOS.Log

/-!
fs.c: blocks, inodes, file contents. A state holds what bread returns for every
device and block, the buffers the running call has locked, the log and the inode
cache. The cache is contiguous memory: an access one past the end of ip->addrs is
an access to the dev field of the next cache slot, and behind the last slot to the
word that follows the cache. Waiting for a lock that the caller holds itself never
ends and is a halt of its own.
-/
namespace NorthOS.Fs

open LittleEndian Halting

def T_DIR : ℕ := 1
def T_FILE : ℕ := 2
def T_DEV : ℕ := 3
def NDEV : ℕ := 10

inductive Halt
  | log (p : LogPanic)
  /-- idestart: block out of range -/
  | blockRange
  /-- brelse -/
  | brelse
  /-- bzero: invalid block number -/
  | bzero
  /-- balloc: out of blocks -/
  | outOfBlocks
  /-- bfree: block number out of range -/
  | bfreeRange
  /-- bfree: freeing free block -/
  | bfreeFree
  /-- ialloc: no inodes -/
  | noInodes
  /-- iupdate: invalid inode or not holding lock -/
  | iupdate
  /-- iget: no free inodes in cache -/
  | icacheFull
  /-- ilock: invalid inode -/
  | ilock
  /-- ilock: inode has no type -/
  | noType
  /-- iunlock: invalid unlock attempt -/
  | iunlock
  /-- bmap: block number out of range -/
  | bmapRange
  /-- dirlookup: not a directory -/
  | notDirectory
  /-- dirlookup: read error, dirlink: read error, isdirempty: readi -/
  | dirRead
  /-- dirlink: write error, unlink: writei -/
  | dirWrite
  /-- unlink: nlink < 1 -/
  | unlinkNlink
  /-- create dots, create: dirlink -/
  | create
  /-- filedup, fileclose -/
  | fileRef
  /-- short filewrite -/
  | shortWrite
  /-- a sleep on a lock that the sleeper holds -/
  | deadlock
  /-- an access outside ip->addrs, where such accesses are stopped -/
  | outOfBounds
  deriving DecidableEq, Repr

/-- `struct inode`; the shorts are bit patterns. Only entries 0 to NDIRECT of `addrs`
belong to the array. -/
structure Inode where
  dev : ℕ
  inum : ℕ
  ref : ℕ
  locked : Bool
  valid : Bool
  type : ℕ
  major : ℕ
  minor : ℕ
  nlink : ℕ
  size : ℕ
  addrs : ℕ → ℕ

/-- A device's entry of devsw: what its read returns and stores, what its write
returns. -/
structure Devsw where
  read : ℕ → ℤ × Bytes
  write : Bytes → ℕ → ℤ

structure State where
  sb : Superblock
  blk : ℕ → ℕ → Bytes
  held : List (ℕ × ℕ)
  log : Log
  last_alloc_hint : ℕ
  icache : ℕ → Inode
  past : ℕ
  devsw : ℕ → Option Devsw
  strict : Bool

abbrev M (A : Type) := Comp State Halt A

open Comp

/-- A short as a number with its sign. -/
def short (x : ℕ) : ℤ := if x < 2 ^ 15 then (x : ℤ) else (x : ℤ) - 2 ^ 16

/-- `memmove(dst + at, src + from, m)` -/
def splice (dst : Bytes) (at_ : ℕ) (src : Bytes) (from_ m : ℕ) : Bytes := fun i =>
  if at_ ≤ i ∧ i < at_ + m then src (from_ + (i - at_)) else dst i

section Buffers

/-- The data of the buffer, which stays locked until brelse. -/
def bread (dev blockno : ℕ) : M Bytes := do
  ensure (fun s => decide ((dev, blockno) ∉ s.held)) .deadlock
  ensure (fun _ => decide (blockno < FSSIZE)) .blockRange
  update fun s => { s with held := (dev, blockno) :: s.held }
  look fun s => s.blk dev blockno

def brelse (dev blockno : ℕ) : M Unit := do
  ensure (fun s => decide ((dev, blockno) ∈ s.held)) .brelse
  update fun s => { s with held := s.held.erase (dev, blockno) }

def State.setBlk (s : State) (dev blockno : ℕ) (data : Bytes) : State :=
  { s with blk := Function.update s.blk dev (Function.update (s.blk dev) blockno data) }

/-- An assignment to `bp->data`. -/
def setData (dev blockno : ℕ) (f : Bytes → Bytes) : M Unit :=
  update fun s => s.setBlk dev blockno (f (s.blk dev blockno))

def logWrite (blockno : ℕ) : M Unit := fun s =>
  match s.log.logWrite blockno with
  | .ok log => .ok ((), { s with log := log })
  | .error p => .error (.log p)

def bzero (dev bno : ℕ) : M Unit := do
  ensure (fun s => decide (bno < s.sb.size)) .bzero
  let _ ← bread dev bno
  setData dev bno fun _ _ => 0
  logWrite bno
  brelse dev bno

end Buffers

section Bitmap

/-- The loop over the bits of the word at byte `i`, from `bit` on. -/
def scanBits (dev bmap_block i : ℕ) : ℕ → ℕ → M (Option ℕ)
  | 0, _ => pure none
  | fuel + 1, bit => do
    let data ← look fun s => s.blk dev bmap_block
    if Bitmap.test data (i * 8 + bit) then scanBits dev bmap_block i fuel (bit + 1)
    else do
      setData dev bmap_block fun b => Bitmap.set b (i * 8 + bit)
      logWrite bmap_block
      brelse dev bmap_block
      let sb ← look State.sb
      let bno := (bmap_block - sb.bmapstart) * BPB + (i * 8 + bit)
      if bno ≥ sb.nblocks then scanBits dev bmap_block i fuel (bit + 1)
      else do
        bzero dev bno
        update fun s => { s with last_alloc_hint := bno }
        pure (some bno)

/-- The loop over the words of a bitmap block from byte `i` on. -/
def scanWords (dev bmap_block : ℕ) : ℕ → ℕ → M (Option ℕ)
  | 0, _ => pure none
  | fuel + 1, i => do
    let data ← look fun s => s.blk dev bmap_block
    let found ← (if get data i 4 ≠ 0xFFFFFFFF then scanBits dev bmap_block i 32 0 else pure none)
    match found with
    | some bno => pure (some bno)
    | none => scanWords dev bmap_block fuel (i + 4)

/-- The loop over the bitmap blocks from `bmap_block` on. -/
def scanBlocks (dev : ℕ) : ℕ → ℕ → M (Option ℕ)
  | 0, _ => pure none
  | fuel + 1, bmap_block => do
    let _ ← bread dev bmap_block
    let found ← scanWords dev bmap_block (BSIZE / 4) 0
    match found with
    | some bno => pure (some bno)
    | none => do
      brelse dev bmap_block
      scanBlocks dev fuel (bmap_block + 1)

def balloc (dev : ℕ) : M ℕ := do
  let sb ← look State.sb
  let start ← look State.last_alloc_hint
  let start_bmap := sb.bmapstart + start / BPB
  let end_bmap := min (sb.bmapstart + sb.nblocks / BPB + 1) (sb.bmapstart + sb.size / BPB + 1)
  let first ← scanBlocks dev (end_bmap - start_bmap) start_bmap
  match first with
  | some bno => pure bno
  | none => do
    let second ← scanBlocks dev (start / BPB) sb.bmapstart
    match second with
    | some bno => pure bno
    | none => halt .outOfBlocks

def bfree (dev b : ℕ) : M Unit := do
  let sb ← look State.sb
  ensure (fun _ => decide (b < sb.nblocks)) .bfreeRange
  let data ← bread dev (BMAPBLOCK b sb)
  ensure (fun _ => Bitmap.test data (b % BPB)) .bfreeFree
  setData dev (BMAPBLOCK b sb) fun d => Bitmap.clear d (b % BPB)
  logWrite (BMAPBLOCK b sb)
  brelse dev (BMAPBLOCK b sb)

end Bitmap

section Inodes

/-- The offset of an inode in its block; `sizeof(struct dinode)` is 128. -/
def dinodeOffset (inum : ℕ) : ℕ := inum % IPB * 128

def State.setSlot (s : State) (i : ℕ) (f : Inode → Inode) : State :=
  { s with icache := Function.update s.icache i (f (s.icache i)) }

def setSlot (i : ℕ) (f : Inode → Inode) : M Unit := update fun s => s.setSlot i f

/-- `ip->addrs[k]` -/
def getAddr (i k : ℕ) : M ℕ := do
  ensure (fun s => decide (k < NDIRECT + 1) || !s.strict) .outOfBounds
  look fun s =>
    if k < NDIRECT + 1 then (s.icache i).addrs k
    else if i + 1 < NINODE then (s.icache (i + 1)).dev
    else s.past

/-- `ip->addrs[k] = addr` -/
def setAddr (i k addr : ℕ) : M Unit := do
  ensure (fun s => decide (k < NDIRECT + 1) || !s.strict) .outOfBounds
  update fun s =>
    if k < NDIRECT + 1 then
      s.setSlot i fun ip => { ip with addrs := Function.update ip.addrs k addr }
    else if i + 1 < NINODE then s.setSlot (i + 1) fun ip => { ip with dev := addr }
    else { s with past := addr }

/-- The first `n` entries of the block map at offset `o`. -/
def putAddrs (b : Bytes) (o : ℕ) (addrs : ℕ → ℕ) : ℕ → Bytes
  | 0 => b
  | n + 1 => put (putAddrs b o addrs n) (o + 4 * n) 4 (addrs n)

/-- The assignments of iupdate to the dinode at offset `o`. -/
def storeDinode (b : Bytes) (o : ℕ) (ip : Inode) : Bytes :=
  putAddrs
    (put (put (put (put (put b o 2 ip.type) (o + 2) 2 ip.major) (o + 4) 2 ip.minor)
      (o + 6) 2 ip.nlink) (o + 8) 4 ip.size)
    (o + 12) ip.addrs (NDIRECT + 1)

/-- The assignments of ilock from the dinode at offset `o`. -/
def loadDinode (b : Bytes) (o : ℕ) (ip : Inode) : Inode :=
  { ip with
    type := get b o 2
    major := get b (o + 2) 2
    minor := get b (o + 4) 2
    nlink := get b (o + 6) 2
    size := get b (o + 8) 4
    addrs := fun k => if k < NDIRECT + 1 then get b (o + 12 + 4 * k) 4 else 0 }

def iupdate (i : ℕ) : M Unit := do
  ensure (fun s => (s.icache i).locked) .iupdate
  let ip ← look fun s => s.icache i
  let sb ← look State.sb
  let _ ← bread ip.dev (IBLOCK ip.inum sb)
  setData ip.dev (IBLOCK ip.inum sb) fun b => storeDinode b (dinodeOffset ip.inum) ip
  logWrite (IBLOCK ip.inum sb)
  brelse ip.dev (IBLOCK ip.inum sb)

/-- The scan of iget: the slot that holds the inode, or else the first unused one. -/
def findSlot (icache : ℕ → Inode) (dev inum : ℕ) : Option ℕ ⊕ ℕ :=
  match (List.range NINODE).find? fun i =>
      decide (0 < (icache i).ref ∧ (icache i).dev = dev ∧ (icache i).inum = inum) with
  | some i => .inr i
  | none => .inl ((List.range NINODE).find? fun i => decide ((icache i).ref = 0))

def iget (dev inum : ℕ) : M ℕ := do
  let icache ← look State.icache
  match findSlot icache dev inum with
  | .inr i => do
    setSlot i fun ip => { ip with ref := ip.ref + 1 }
    pure i
  | .inl none => halt .icacheFull
  | .inl (some i) => do
    setSlot i fun ip => { ip with dev := dev, inum := inum, ref := 1, valid := false }
    pure i

def idup (i : ℕ) : M Unit := setSlot i fun ip => { ip with ref := ip.ref + 1 }

/-- The scan of ialloc from `inum` on. -/
def scanInodes (dev type : ℕ) : ℕ → ℕ → M ℕ
  | 0, _ => halt .noInodes
  | fuel + 1, inum => do
    let sb ← look State.sb
    let data ← bread dev (IBLOCK inum sb)
    if get data (dinodeOffset inum) 2 = 0 then do
      setData dev (IBLOCK inum sb) fun b =>
        put (splice b (dinodeOffset inum) (fun _ => 0) 0 128) (dinodeOffset inum) 2 type
      logWrite (IBLOCK inum sb)
      brelse dev (IBLOCK inum sb)
      iget dev inum
    else do
      brelse dev (IBLOCK inum sb)
      scanInodes dev type fuel (inum + 1)

def ialloc (dev type : ℕ) : M ℕ := do
  let sb ← look State.sb
  scanInodes dev type (sb.ninodes - 1) 1

def ilock (i : ℕ) : M Unit := do
  ensure (fun s => decide (0 < (s.icache i).ref)) .ilock
  ensure (fun s => !(s.icache i).locked) .deadlock
  setSlot i fun ip => { ip with locked := true }
  let ip ← look fun s => s.icache i
  if ip.valid then pure ()
  else do
    let sb ← look State.sb
    let data ← bread ip.dev (IBLOCK ip.inum sb)
    setSlot i fun ip => loadDinode data (dinodeOffset ip.inum) ip
    brelse ip.dev (IBLOCK ip.inum sb)
    setSlot i fun ip => { ip with valid := true }
    ensure (fun s => decide ((s.icache i).type ≠ 0)) .noType

def iunlock (i : ℕ) : M Unit := do
  ensure (fun s => (s.icache i).locked && decide (0 < (s.icache i).ref)) .iunlock
  setSlot i fun ip => { ip with locked := false }

/-- `addr = a[k]`, allocated where it is 0, in the index block `addr0`. -/
def indexEntry (i addr0 k : ℕ) : M ℕ := do
  let dev ← look fun s => (s.icache i).dev
  let a ← bread dev addr0
  if get a (4 * k) 4 = 0 then do
    let dev' ← look fun s => (s.icache i).dev
    let addr ← balloc dev'
    setData dev addr0 fun b => put b (4 * k) 4 addr
    logWrite addr0
    brelse dev addr0
    pure addr
  else do
    brelse dev addr0
    pure (get a (4 * k) 4)

/-- `addr = ip->addrs[k]`, allocated where it is 0. -/
def addrEntry (i k : ℕ) : M ℕ := do
  let addr ← getAddr i k
  if addr = 0 then do
    let dev ← look fun s => (s.icache i).dev
    let addr ← balloc dev
    setAddr i k addr
    pure addr
  else pure addr

def bmap (i bn : ℕ) : M ℕ :=
  if bn < NDIRECT then addrEntry i bn
  else if bn - NDIRECT < NINDIRECT then do
    let addr ← addrEntry i NDIRECT
    indexEntry i addr (bn - NDIRECT)
  else if bn - NDIRECT - NINDIRECT < NDINDIRECT then do
    let addr ← addrEntry i (NDIRECT + 1)
    let addr ← indexEntry i addr ((bn - NDIRECT - NINDIRECT) / NINDIRECT)
    indexEntry i addr ((bn - NDIRECT - NINDIRECT) % NINDIRECT)
  else halt .bmapRange

/-- Free the blocks named by the index block `addr`, each with what `inner` does first. -/
def freeEntries (i : ℕ) (inner : ℕ → M Unit) (addr : ℕ) : M Unit := do
  let dev ← look fun s => (s.icache i).dev
  let _ ← bread dev addr
  forBelow (fun j => do
    let a ← look fun s => s.blk dev addr
    if get a (4 * j) 4 = 0 then pure ()
    else do
      inner (get a (4 * j) 4)
      let dev' ← look fun s => (s.icache i).dev
      bfree dev' (get a (4 * j) 4)) NINDIRECT
  brelse dev addr

/-- Free the blocks behind `ip->addrs[k]` with `inner`, then the block itself. -/
def freeAddr (i k : ℕ) (inner : ℕ → M Unit) : M Unit := do
  let addr ← getAddr i k
  if addr = 0 then pure ()
  else do
    inner addr
    let dev ← look fun s => (s.icache i).dev
    let addr ← getAddr i k
    bfree dev addr
    setAddr i k 0

def itrunc (i : ℕ) : M Unit := do
  forBelow (fun k => freeAddr i k fun _ => pure ()) NDIRECT
  freeAddr i NDIRECT fun addr => freeEntries i (fun _ => pure ()) addr
  freeAddr i (NDIRECT + 1) fun addr =>
    freeEntries i (fun a => freeEntries i (fun _ => pure ()) a) addr
  setSlot i fun ip => { ip with size := 0 }
  iupdate i

def iput (i : ℕ) : M Unit := do
  ensure (fun s => !(s.icache i).locked) .deadlock
  setSlot i fun ip => { ip with locked := true }
  let ip ← look fun s => s.icache i
  let _ ← (if ip.valid ∧ ip.nlink = 0 ∧ ip.ref = 1 then do
      itrunc i
      setSlot i fun ip => { ip with type := 0 }
      iupdate i
      setSlot i fun ip => { ip with valid := false }
    else pure ())
  setSlot i fun ip => { ip with locked := false }
  setSlot i fun ip => { ip with ref := ip.ref - 1 }

def iunlockput (i : ℕ) : M Unit := do
  iunlock i
  iput i

end Inodes

section Contents

/-- The loop of readi; `off`, `tot` and `dst` as they stand. -/
def readLoop (i n : ℕ) : ℕ → ℕ → ℕ → Bytes → M Bytes
  | 0, _, _, dst => pure dst
  | fuel + 1, off, tot, dst =>
    if tot < n then do
      let addr ← bmap i (off / BSIZE)
      let dev ← look fun s => (s.icache i).dev
      let data ← bread dev addr
      let m := min (n - tot) (BSIZE - off % BSIZE)
      brelse dev addr
      readLoop i n fuel (off + m) (tot + m) (splice dst tot data (off % BSIZE) m)
    else pure dst

/-- What readi returns and what it stores at dst, of which only the first bytes count. -/
def readi (i off n : ℕ) : M (ℤ × Bytes) := do
  let ip ← look fun s => s.icache i
  if ip.type = T_DEV then do
    let devsw ← look State.devsw
    match (if short ip.major < 0 ∨ short ip.major ≥ NDEV then none else devsw ip.major) with
    | none => pure (-1, fun _ => 0)
    | some d => pure (d.read n)
  else if off > ip.size ∨ (off + n) % 2 ^ 32 < off then pure (-1, fun _ => 0)
  else do
    let n := if off + n > ip.size then ip.size - off else n
    let dst ← readLoop i n n off 0 fun _ => 0
    pure (n, dst)

/-- The loop of writei. -/
def writeLoop (i n : ℕ) (src : Bytes) : ℕ → ℕ → ℕ → M Unit
  | 0, _, _ => pure ()
  | fuel + 1, off, tot =>
    if tot < n then do
      let addr ← bmap i (off / BSIZE)
      let dev ← look fun s => (s.icache i).dev
      let _ ← bread dev addr
      let m := min (n - tot) (BSIZE - off % BSIZE)
      setData dev addr fun b => splice b (off % BSIZE) src tot m
      logWrite addr
      brelse dev addr
      writeLoop i n src fuel (off + m) (tot + m)
    else pure ()

def writei (i : ℕ) (src : Bytes) (off n : ℕ) : M ℤ := do
  let ip ← look fun s => s.icache i
  if ip.type = T_DEV then do
    let devsw ← look State.devsw
    match (if short ip.major < 0 ∨ short ip.major ≥ NDEV then none else devsw ip.major) with
    | none => pure (-1)
    | some d => pure (d.write src n)
  else if off > ip.size ∨ (off + n) % 2 ^ 32 < off then pure (-1)
  else if off + n > MAXFILE * BSIZE then pure (-1)
  else do
    writeLoop i n src n off 0
    let size ← look fun s => (s.icache i).size
    let _ ← (if 0 < n ∧ off + n > size then do
        setSlot i fun ip => { ip with size := off + n }
        iupdate i
      else pure ())
    pure n

end Contents

end NorthOS.Fs
