import Mathlib.Data.Nat.Notation

/-!
Constants of param.h and fs.h and the on-disk superblock. Unsigned words are
natural numbers; a place where a word can wrap around says so itself.
-/
namespace NorthOS

def NOFILE : ℕ := 64
def NFILE : ℕ := 100
def NINODE : ℕ := 100
def ROOTDEV : ℕ := 1
def MAXOPBLOCKS : ℕ := 10
def LOGSIZE : ℕ := MAXOPBLOCKS * 3
def FSSIZE : ℕ := 25600
def BSIZE : ℕ := 2048

def ROOTINO : ℕ := 1
def NDIRECT : ℕ := 10
def NINDIRECT : ℕ := BSIZE / 4
def NDINDIRECT : ℕ := NINDIRECT * NINDIRECT
def MAXFILE : ℕ := NDIRECT + NINDIRECT + NDINDIRECT
def DIRSIZ : ℕ := 14

/-- Inodes per block: `sizeof(struct dinode)` is 128. -/
def IPB : ℕ := BSIZE / 128

/-- Bitmap bits per block. -/
def BPB : ℕ := BSIZE * 8

structure Superblock where
  size : ℕ
  nblocks : ℕ
  ninodes : ℕ
  nlog : ℕ
  logstart : ℕ
  inodestart : ℕ
  bmapstart : ℕ
  deriving Repr, DecidableEq

def NINODES : ℕ := 200
def nbitmap : ℕ := FSSIZE / (BSIZE * 8) + 1
def ninodeblocks : ℕ := NINODES / IPB + 1
def nlog : ℕ := LOGSIZE
def nmeta : ℕ := 2 + nlog + ninodeblocks + nbitmap
def nblocks : ℕ := FSSIZE - nmeta

/-- The superblock that mkfs writes. -/
def mkfsSuperblock : Superblock where
  size := FSSIZE
  nblocks := nblocks
  ninodes := NINODES
  nlog := nlog
  logstart := 2
  inodestart := 2 + nlog
  bmapstart := 2 + nlog + ninodeblocks

def IBLOCK (i : ℕ) (sb : Superblock) : ℕ := i / IPB + sb.inodestart

def BMAPBLOCK (b : ℕ) (sb : Superblock) : ℕ := b / BPB + sb.bmapstart

end NorthOS
