import NorthOS.Param

/-!
The in-memory log of log.c: how begin_op, log_write and end_op count operations
and record block numbers. A process that has to sleep gets `none` and tries
again; the parts of commit that write to the disk are in Commit.lean.
-/
namespace NorthOS

inductive LogPanic
  /-- too big a transaction -/
  | tooBig
  /-- log_write outside of trans -/
  | outsideOfTrans
  /-- log.committing -/
  | committing
  deriving DecidableEq, Repr

/-- `lh` is `lh.block[0]` to `lh.block[lh.n - 1]`. -/
structure Log where
  start : ℕ
  size : ℕ
  outstanding : ℕ
  committing : Bool
  lh : List ℕ
  deriving DecidableEq, Repr

namespace Log

def n (log : Log) : ℕ := log.lh.length

def beginOp (log : Log) : Option Log :=
  if log.committing then none
  else if log.n + (log.outstanding + 1) * MAXOPBLOCKS > LOGSIZE then none
  else some { log with outstanding := log.outstanding + 1 }

/-- Returns do_commit. -/
def endOp (log : Log) : Except LogPanic (Log × Bool) :=
  if log.committing then .error .committing
  else if log.outstanding - 1 = 0 then
    .ok ({ log with outstanding := log.outstanding - 1, committing := true }, true)
  else .ok ({ log with outstanding := log.outstanding - 1 }, false)

/-- A block number that is in the header already is absorbed. -/
def logWrite (log : Log) (blockno : ℕ) : Except LogPanic Log :=
  if log.n ≥ LOGSIZE ∨ log.n + 1 ≥ log.size then .error .tooBig
  else if log.outstanding < 1 then .error .outsideOfTrans
  else .ok { log with lh := if blockno ∈ log.lh then log.lh else log.lh ++ [blockno] }

theorem beginOp_eq_some {log log' : Log} : log.beginOp = some log' ↔
    log.committing = false ∧ log.n + (log.outstanding + 1) * MAXOPBLOCKS ≤ LOGSIZE ∧
      log' = { log with outstanding := log.outstanding + 1 } := by
  unfold beginOp
  split
  · rename_i hc
    simp [hc]
  · rename_i hc
    rw [Bool.not_eq_true] at hc
    split
    · rename_i hfull
      simp only [reduceCtorEq, false_iff]
      rintro ⟨_, hle, _⟩
      omega
    · rename_i hfull
      rw [Option.some.injEq, eq_comm]
      exact ⟨fun h => ⟨hc, by omega, h⟩, fun h => h.2.2⟩

theorem endOp_ok {log log' : Log} {c : Bool} (h : log.endOp = .ok (log', c)) :
    log'.lh = log.lh ∧ log'.start = log.start ∧ log'.size = log.size := by
  unfold endOp at h
  split at h
  · cases h
  · split at h
    · cases h
      exact ⟨rfl, rfl, rfl⟩
    · cases h
      exact ⟨rfl, rfl, rfl⟩

theorem logWrite_tooBig {log : Log} {b : ℕ} :
    log.logWrite b = .error .tooBig ↔ LOGSIZE ≤ log.n ∨ log.size ≤ log.n + 1 := by
  unfold logWrite
  split
  · simp_all
  · split <;> simp_all

theorem logWrite_ok {log log' : Log} {b : ℕ} : log.logWrite b = .ok log' ↔
    log.n < LOGSIZE ∧ log.n + 1 < log.size ∧ 0 < log.outstanding ∧
      log' = { log with lh := if b ∈ log.lh then log.lh else log.lh ++ [b] } := by
  unfold logWrite
  split
  · simp only [reduceCtorEq, false_iff]
    omega
  · split
    · simp only [reduceCtorEq, false_iff]
      omega
    · simp only [Except.ok.injEq, eq_comm (a := log')]
      constructor
      · intro h
        exact ⟨by omega, by omega, by omega, h⟩
      · intro h
        exact h.2.2.2

end Log

end NorthOS
