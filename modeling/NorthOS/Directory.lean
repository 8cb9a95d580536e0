import NorthOS.Fs

/-!
The directories of fs.c and path lookup. A name stands for the bytes of a char array
up to the first NUL, and a path for the bytes before its NUL.
-/
namespace NorthOS.Fs

open LittleEndian Halting Comp

abbrev Name := List UInt8

/-- `sizeof(struct dirent)` -/
def direntSize : ℕ := 16

/-- `de.name`, up to its first NUL. -/
def direntName (de : Bytes) : Name := ((List.range DIRSIZ).map fun k => de (2 + k)).takeWhile (· ≠ 0)

/-- The entry that dirlink makes; strncpy fills the name up with NULs. -/
def dirent (inum : ℕ) (name : Name) : Bytes := put (fun k => (name.take DIRSIZ).getD (k - 2) 0) 0 2 inum

/-- Whether `namecmp` is 0. -/
def namecmp (s t : Name) : Bool := s.take DIRSIZ == t.take DIRSIZ

section Entries

/-- One `readi(dp, &de, off, sizeof(de))`, which must not come up short. -/
def readDirent (i off : ℕ) : M Bytes := do
  let r ← readi i off direntSize
  ensure (fun _ => decide (r.1 = direntSize)) .dirRead
  pure r.2

/-- The loop of dirlookup from `off` on: the slot of the inode, and `*poff`. -/
def lookupLoop (i : ℕ) (name : Name) : ℕ → ℕ → M (Option (ℕ × ℕ))
  | 0, _ => pure none
  | fuel + 1, off => do
    let dp ← look fun s => s.icache i
    if off < dp.size then do
      let de ← readDirent i off
      if get de 0 2 ≠ 0 ∧ namecmp name (direntName de) then do
        let ip ← iget dp.dev (get de 0 2)
        pure (some (ip, off))
      else lookupLoop i name fuel (off + direntSize)
    else pure none

def dirlookup (i : ℕ) (name : Name) : M (Option (ℕ × ℕ)) := do
  ensure (fun s => decide ((s.icache i).type = T_DIR)) .notDirectory
  let size ← look fun s => (s.icache i).size
  lookupLoop i name (size / direntSize + 1) 0

/-- The loop over the entries from `off` on that stops at the first one whose number
passes the test: where it stopped. -/
def scanDirents (i : ℕ) (stop : ℕ → Bool) : ℕ → ℕ → M ℕ
  | 0, off => pure off
  | fuel + 1, off => do
    let size ← look fun s => (s.icache i).size
    if off < size then do
      let de ← readDirent i off
      if stop (get de 0 2) then pure off
      else scanDirents i stop fuel (off + direntSize)
    else pure off

def dirlink (i : ℕ) (name : Name) (inum : ℕ) : M ℤ := do
  let found ← dirlookup i name
  match found with
  | some (ip, _) => do
    iput ip
    pure (-1)
  | none => do
    let size ← look fun s => (s.icache i).size
    let off ← scanDirents i (· == 0) (size / direntSize + 1) 0
    let r ← writei i (dirent inum name) off direntSize
    ensure (fun _ => decide (r = direntSize)) .dirWrite
    pure 0

end Entries

section Paths

/-- `/` -/
def slash : UInt8 := 47

/-- The next element of the path and what follows it; `none` where there is none. -/
def skipelem (path : Name) : Option (Name × Name) :=
  let path := path.dropWhile (· == slash)
  if path = [] then none
  else some ((path.takeWhile (· ≠ slash)).take DIRSIZ,
    (path.dropWhile (· ≠ slash)).dropWhile (· == slash))

/-- The loop of namex with the slot of `ip`; each element shortens the path. -/
def namexLoop (nameiparent : Bool) : ℕ → ℕ → Name → Name → M (Option (ℕ × Name))
  | 0, _, _, _ => pure none
  | fuel + 1, ip, path, name =>
    match skipelem path with
    | none =>
      if nameiparent then do
        iput ip
        pure none
      else pure (some (ip, name))
    | some (name, path) => do
      ilock ip
      let type ← look fun s => (s.icache ip).type
      if type ≠ T_DIR then do
        iunlockput ip
        pure none
      else if nameiparent ∧ path = [] then do
        iunlock ip
        pure (some (ip, name))
      else do
        let next ← dirlookup ip name
        match next with
        | none => do
          iunlockput ip
          pure none
        | some (next, _) => do
          iunlockput ip
          namexLoop nameiparent fuel next path name

/-- `cwd` is the slot of the working directory. -/
def namex (cwd : ℕ) (path : Name) (nameiparent : Bool) : M (Option (ℕ × Name)) := do
  let ip ← (if path.head? = some slash then iget ROOTDEV ROOTINO
    else do
      idup cwd
      pure cwd)
  namexLoop nameiparent (path.length + 1) ip path []

def namei (cwd : ℕ) (path : Name) : M (Option ℕ) := do
  let r ← namex cwd path false
  pure (r.map Prod.fst)

def nameiparent (cwd : ℕ) (path : Name) : M (Option (ℕ × Name)) := namex cwd path true

end Paths

end NorthOS.Fs
