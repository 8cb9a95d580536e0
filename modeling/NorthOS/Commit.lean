import NorthOS.LittleEndian
import NorthOS.Log
import NorthOS.RedoLog

/-!
The parts of log.c that move blocks between the buffer cache, the log and the disk.
A machine is a disk, a cache of valid buffers, the in-memory log and the list of
single-block writes since boot. bwrite waits for its block, so the writes happen
one after the other and a crash leaves a prefix of them.
-/
namespace NorthOS.Commit

open LittleEndian RedoLog

/-- A valid buffer; `dirty` is B_DIRTY. -/
structure Buf where
  data : Bytes
  dirty : Bool

structure Machine where
  disk : ℕ → Bytes
  cache : ℕ → Option Buf
  log : Log
  written : List (ℕ × Bytes)

/-- `lh->n` and `lh->block[0]` to `lh->block[lh->n - 1]` of a header block. -/
def loadHead (h : Bytes) : List ℕ :=
  (List.range (get h 0 4)).map fun i => get h (4 + 4 * i) 4

def storeBlocks (h : Bytes) : ℕ → List ℕ → Bytes
  | _, [] => h
  | i, b :: bs => storeBlocks (put h (4 + 4 * i) 4 b) (i + 1) bs

def storeHead (bs : List ℕ) (h : Bytes) : Bytes :=
  storeBlocks (put h 0 4 bs.length) 0 bs

namespace Machine

def bread (m : Machine) (blockno : ℕ) : Bytes × Machine :=
  match m.cache blockno with
  | some buf => (buf.data, m)
  | none =>
    (m.disk blockno,
      { m with cache := Function.update m.cache blockno (some ⟨m.disk blockno, false⟩) })

def bwrite (m : Machine) (blockno : ℕ) (data : Bytes) : Machine :=
  { m with
    disk := Function.update m.disk blockno data
    cache := Function.update m.cache blockno (some ⟨data, false⟩)
    written := m.written ++ [(blockno, data)] }

/-- A buffer may be recycled unless it is dirty. -/
def evict (m : Machine) (blockno : ℕ) : Option Machine :=
  match m.cache blockno with
  | some ⟨_, true⟩ => none
  | _ => some { m with cache := Function.update m.cache blockno none }

/-- The idiom of log_write: read the block, replace its data, log it. -/
def logWrite (m : Machine) (blockno : ℕ) (data : Bytes) : Except LogPanic Machine :=
  (m.log.logWrite blockno).map fun log =>
    { (m.bread blockno).2 with
      cache := Function.update (m.bread blockno).2.cache blockno (some ⟨data, true⟩)
      log := log }

/-- The loop of install_trans from entry `tail` on. -/
def installFrom (m : Machine) : ℕ → List ℕ → Machine
  | _, [] => m
  | tail, b :: bs =>
    let lbuf := m.bread (m.log.start + tail + 1)
    let dbuf := lbuf.2.bread b
    installFrom (dbuf.2.bwrite b lbuf.1) (tail + 1) bs

def installTrans (m : Machine) : Machine := m.installFrom 0 m.log.lh

def readHead (m : Machine) : Machine :=
  { (m.bread m.log.start).2 with
    log := { m.log with lh := loadHead (m.bread m.log.start).1 } }

def writeHead (m : Machine) : Machine :=
  (m.bread m.log.start).2.bwrite m.log.start (storeHead m.log.lh (m.bread m.log.start).1)

/-- `log.lh.n = 0` -/
def clear (m : Machine) : Machine := { m with log := { m.log with lh := [] } }

def recoverFromLog (m : Machine) : Machine := m.readHead.installTrans.clear.writeHead

/-- The loop of write_log from entry `tail` on. -/
def writeLogFrom (m : Machine) : ℕ → List ℕ → Machine
  | _, [] => m
  | tail, b :: bs =>
    let tbuf := m.bread (m.log.start + tail + 1)
    let fbuf := tbuf.2.bread b
    writeLogFrom (fbuf.2.bwrite (m.log.start + tail + 1) fbuf.1) (tail + 1) bs

def writeLog (m : Machine) : Machine := m.writeLogFrom 0 m.log.lh

def commit (m : Machine) : Machine :=
  if 0 < m.log.n then m.writeLog.writeHead.installTrans.clear.writeHead else m

/-- end_op up to the end: the last operation commits. -/
def endOp (m : Machine) : Except LogPanic Machine :=
  m.log.endOp.map fun r =>
    if r.2 then
      let c := commit { m with log := r.1 }
      { c with log := { c.log with committing := false } }
    else { m with log := r.1 }

end Machine

/-- The state in which initlog calls recover_from_log. -/
def boot (start size : ℕ) (disk : ℕ → Bytes) : Machine where
  disk := disk
  cache := fun _ => none
  log := ⟨start, size, 0, false, []⟩
  written := []

def initlog (start size : ℕ) (disk : ℕ → Bytes) : Machine :=
  (boot start size disk).recoverFromLog

/-- The disk when the power fails after `k` of the writes from `m` to `t`. -/
def crash (m t : Machine) (k : ℕ) : ℕ → Bytes :=
  apply m.disk ((t.written.drop m.written.length).take k)

/-- Boots that are cut short in recover_from_log, after the given numbers of writes. -/
def cutBoots (start size : ℕ) (disk : ℕ → Bytes) : List ℕ → ℕ → Bytes
  | [] => disk
  | j :: js => cutBoots start size (crash (boot start size disk) (initlog start size disk) j) js

theorem get_storeBlocks_other {h : Bytes} {i : ℕ} {bs : List ℕ} {o len : ℕ}
    (ho : o + len ≤ 4 + 4 * i) : get (storeBlocks h i bs) o len = get h o len := by
  induction bs generalizing h i with
  | nil => rfl
  | cons b bs ih =>
    rw [storeBlocks, ih (by omega)]
    exact get_put_other (Or.inl ho)

theorem get_storeBlocks {h : Bytes} {i : ℕ} {bs : List ℕ} (hbs : ∀ b ∈ bs, b < 256 ^ 4)
    {j : ℕ} (hj : j < bs.length) :
    get (storeBlocks h i bs) (4 + 4 * (i + j)) 4 = bs[j] := by
  induction bs generalizing h i j with
  | nil => simp at hj
  | cons b bs ih =>
    rw [storeBlocks]
    cases j with
    | zero =>
      rw [get_storeBlocks_other (by omega)]
      exact get_put_of_lt (hbs b List.mem_cons_self)
    | succ j =>
      rw [show i + (j + 1) = i + 1 + j by omega]
      exact ih (fun c hc => hbs c (List.mem_cons_of_mem b hc)) (Nat.lt_of_succ_lt_succ hj)

/-- The header of log.c as the header of a redo log. -/
def format (start size : ℕ) : Format Bytes where
  start := start
  size := size
  targets := loadHead
  store := storeHead
  fits := fun bs => (∀ b ∈ bs, b < 256 ^ 4) ∧ bs.length < 256 ^ 4
  fits_nil := by simp
  targets_store := by
    rintro bs h ⟨hbs, hlen⟩
    have hn : get (storeHead bs h) 0 4 = bs.length := by
      rw [storeHead, get_storeBlocks_other (by omega)]
      exact get_put_of_lt hlen
    apply List.ext_getElem
    · simp [loadHead, hn]
    · intro j hj hj'
      have hget := get_storeBlocks (h := put h 0 4 bs.length) (i := 0) hbs hj'
      rw [Nat.zero_add] at hget
      simp only [loadHead, List.getElem_map, List.getElem_range]
      exact hget
  store_nil := by
    intro h
    funext i
    show put (put h 0 4 0) 0 4 0 i = put h 0 4 0 i
    by_cases hi : 0 ≤ i ∧ i < 0 + 4
    · simp only [put, if_pos hi]
    · simp only [put, if_neg hi]

end NorthOS.Commit
