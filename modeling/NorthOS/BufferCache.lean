import NorthOS.Bio
import NorthOS.LogSpace

/-!
The buffer cache while processes read, run file-system calls and commit, in any
interleaving. A call is the sequence of its begin_op, bread, log_write, brelse and
end_op; all of them are about ROOTDEV. A process that waits for the lock of a buffer
has its reference already. The last one out of the log runs commit, one call of
bio.c after the other, while the others go on reading.
-/
namespace NorthOS.BufferCache

open Bio

/-- What commit calls in bio.c, and `log.lh.n = 0`. -/
inductive Call
  | bread (blockno : ℕ)
  | bwrite (blockno : ℕ)
  | brelse (blockno : ℕ)
  | clear
  deriving DecidableEq, Repr

def writeLog (start : ℕ) : ℕ → List ℕ → List Call
  | _, [] => []
  | tail, b :: lh =>
    [.bread (start + tail + 1), .bread b, .bwrite (start + tail + 1), .brelse b,
      .brelse (start + tail + 1)] ++ writeLog start (tail + 1) lh

def writeHead (start : ℕ) : List Call := [.bread start, .bwrite start, .brelse start]

def installTrans (start : ℕ) : ℕ → List ℕ → List Call
  | _, [] => []
  | tail, b :: lh =>
    [.bread (start + tail + 1), .bread b, .bwrite b, .brelse (start + tail + 1),
      .brelse b] ++ installTrans start (tail + 1) lh

def commit (log : Log) : List Call :=
  if 0 < log.n then
    (writeLog log.start 0 log.lh ++ writeHead log.start ++ installTrans log.start 0 log.lh) ++
      .clear :: writeHead log.start
  else []

/-- `held` are the references that processes have, `committer` the process in commit
and what it has left to do. -/
structure Sys where
  ops : LogSpace.Sys
  bcache : List Buf
  held : Finset (ℕ × ℕ)
  committer : Option (ℕ × List Call)

/-- A process that asked twice for a block would wait for itself. -/
def Sys.bread (s : Sys) (p b : ℕ) : Option Sys :=
  if (p, b) ∈ s.held then none
  else (Bio.bread ROOTDEV b s.bcache).map fun bcache =>
    { s with bcache := bcache, held := insert (p, b) s.held }

def Sys.brelse (s : Sys) (p b : ℕ) : Option Sys :=
  if (p, b) ∈ s.held then
    some { s with bcache := Bio.brelse ROOTDEV b s.bcache, held := s.held.erase (p, b) }
  else none

def Sys.call (s : Sys) (p : ℕ) : Call → Option Sys
  | .bread b => s.bread p b
  | .bwrite b =>
    if (p, b) ∈ s.held then some { s with bcache := Bio.bwrite ROOTDEV b s.bcache } else none
  | .brelse b => s.brelse p b
  | .clear => (LogSpace.step s.ops .clear).map fun ops => { s with ops := ops }

def Sys.commits (s : Sys) (p : ℕ) : Bool := s.committer.any fun c => c.1 == p

/-- Outside the blocks of the on-disk log. -/
def Outside (log : Log) (b : ℕ) : Prop := b < log.start ∨ log.start + log.size ≤ b

instance (log : Log) (b : ℕ) : Decidable (Outside log b) :=
  inferInstanceAs (Decidable (b < log.start ∨ log.start + log.size ≤ b))

inductive Action
  | beginOp (p : ℕ)
  | bread (p blockno : ℕ)
  | logWrite (p blockno : ℕ)
  | brelse (p blockno : ℕ)
  | endOp (p : ℕ)
  /-- The committing process goes on. -/
  | commitStep

/-- A call logs blocks that it holds, none of them in the log itself, and has released
its buffers when it ends. A panic stops the system. -/
def step (s : Sys) : Action → Option Sys
  | .beginOp p => (LogSpace.step s.ops (.beginOp p)).map fun ops => { s with ops := ops }
  | .bread p b => if s.commits p then none else s.bread p b
  | .logWrite p b =>
    if (p, b) ∈ s.held ∧ Outside s.ops.log b then
      (LogSpace.step s.ops (.logWrite p b)).bind fun ops =>
        if ops.panicked = none then
          some { s with ops := ops, bcache := pin ROOTDEV b s.bcache }
        else none
    else none
  | .brelse p b => if s.commits p then none else s.brelse p b
  | .endOp p =>
    if ∀ h ∈ s.held, h.1 ≠ p then
      (LogSpace.step s.ops (.endOp p)).map fun ops =>
        { s with
          ops := ops
          committer := if ops.log.committing then some (p, commit ops.log) else none }
    else none
  | .commitStep =>
    match s.committer with
    | none => none
    | some (_, []) =>
      (LogSpace.step s.ops .committed).map fun ops => { s with ops := ops, committer := none }
    | some (p, c :: cs) => (s.call p c).map fun t => { t with committer := some (p, cs) }

def init (start : ℕ) : Sys := ⟨LogSpace.init start, binit, ∅, none⟩

/-- The block that the action asks bget for. -/
def Sys.breads (s : Sys) : Action → Option ℕ
  | .bread p b => if s.commits p ∨ (p, b) ∈ s.held then none else some b
  | .commitStep =>
    match s.committer with
    | some (p, .bread b :: _) => if (p, b) ∈ s.held then none else some b
    | _ => none
  | _ => none

/-- bget does not panic: where no buffer serves the block, one has no references and
is not dirty. -/
def Finds (s : Sys) (a : Action) : Prop :=
  ∀ b, s.breads a = some b → bget ROOTDEV b s.bcache ≠ none ∧
    ((∀ x ∈ s.bcache, ¬ x.isOn ROOTDEV b) → ∃ x ∈ s.bcache, x.refcnt = 0 ∧ x.dirty = false)

/-- The write of the block to its home location is ahead of the committing process. -/
def Sys.pending (s : Sys) (b : ℕ) : Bool :=
  match s.committer with
  | none => true
  | some (_, cs) => decide (.bwrite b ∈ cs.takeWhile (· ≠ .clear))

/-- The logged blocks that have not been written home. -/
def Sys.pinned (s : Sys) : Finset ℕ := s.ops.log.lh.toFinset.filter fun b => s.pending b

/-- At a miss the blocks that processes refer to and those the log has pinned are
fewer than the buffers. -/
def Spare (s : Sys) (a : Action) : Prop :=
  ∀ b, s.breads a = some b → (∀ x ∈ s.bcache, ¬ x.isOn ROOTDEV b) →
    (used s.held s.pinned).card < NBUF

/-- Each logged block is written home at most once more. -/
structure Inv (s : Sys) : Prop where
  log : LogSpace.Inv s.ops
  outside : ∀ b ∈ s.ops.log.lh, Outside s.ops.log b
  committing : s.ops.log.committing = s.committer.isSome
  once : ∀ p cs, s.committer = some (p, cs) → ∀ b ∈ s.ops.log.lh, cs.count (.bwrite b) ≤ 1
  cache : Agrees s.bcache s.held s.pinned

variable {s t : Sys} {a : Action} {p b : ℕ}

section Program

variable {start tail : ℕ} {lh : List ℕ}

theorem bwrite_notMem_writeLog (h : b < start ∨ start + tail + lh.length < b) :
    Call.bwrite b ∉ writeLog start tail lh := by
  induction lh generalizing tail with
  | nil => exact List.not_mem_nil
  | cons c lh ih =>
    rw [List.length_cons] at h
    have hrest : Call.bwrite b ∉ writeLog start (tail + 1) lh := ih (by omega)
    have hne : b ≠ start + tail + 1 := by omega
    simp [writeLog, hrest, hne]

theorem count_installTrans : (installTrans start tail lh).count (.bwrite b) = lh.count b := by
  induction lh generalizing tail with
  | nil => rfl
  | cons c lh ih => simp [installTrans, ih, List.count_cons]

theorem clear_notMem_writeLog : Call.clear ∉ writeLog start tail lh := by
  induction lh generalizing tail with
  | nil => exact List.not_mem_nil
  | cons c lh ih => simp [writeLog, ih]

theorem clear_notMem_installTrans : Call.clear ∉ installTrans start tail lh := by
  induction lh generalizing tail with
  | nil => exact List.not_mem_nil
  | cons c lh ih => simp [installTrans, ih]

end Program

/-- A commit writes each logged block home once, before it clears the header. -/
theorem count_commit {log : Log} (hn : log.lh.length < log.size) (hnodup : log.lh.Nodup)
    (hb : b ∈ log.lh) (hout : Outside log b) :
    (commit log).count (.bwrite b) = 1 ∧
      Call.bwrite b ∈ (commit log).takeWhile (· ≠ .clear) := by
  have hpos : 0 < log.n := List.length_pos_of_mem hb
  have hlog : Call.bwrite b ∉ writeLog log.start 0 log.lh := by
    apply bwrite_notMem_writeLog
    rcases hout with hout | hout <;> omega
  have hne : b ≠ log.start := by
    rcases hout with hout | hout <;> omega
  have hhead : Call.bwrite b ∉ writeHead log.start := by simp [writeHead, hne]
  have hclear : Call.clear ∉
      writeLog log.start 0 log.lh ++ writeHead log.start ++ installTrans log.start 0 log.lh := by
    simp [clear_notMem_writeLog, clear_notMem_installTrans, writeHead]
  unfold commit
  rw [if_pos hpos]
  constructor
  · simp only [List.count_append, List.count_cons, List.count_eq_zero_of_not_mem hlog,
      List.count_eq_zero_of_not_mem hhead, count_installTrans]
    simp [List.count_eq_one_of_mem hnodup hb]
  · rw [List.takeWhile_append_of_pos]
    · have hmem : Call.bwrite b ∈ installTrans log.start 0 log.lh := by
        rw [← List.count_pos_iff, count_installTrans]
        exact List.count_pos_iff.mpr hb
      exact List.mem_append_left _ (List.mem_append_right _ hmem)
    · intro c hc
      rw [decide_eq_true_eq]
      rintro rfl
      exact hclear hc

theorem mem_pinned {x : ℕ} : x ∈ s.pinned ↔ x ∈ s.ops.log.lh ∧ s.pending x = true := by
  rw [Sys.pinned, Finset.mem_filter, List.mem_toFinset]

theorem pinned_idle (h : s.committer = none) : s.pinned = s.ops.log.lh.toFinset := by
  simp [Sys.pinned, Sys.pending, h]

theorem pinned_congr (hlh : t.ops.log.lh = s.ops.log.lh) (hc : t.committer = s.committer) :
    t.pinned = s.pinned := by
  ext x
  rw [mem_pinned, mem_pinned, hlh, Sys.pending, Sys.pending, hc]

/-- Only the write of a block unpins it. -/
theorem mem_pinned_next {c : Call} {cs : List Call} {x : ℕ} (hs : s.committer = some (p, c :: cs))
    (ht : t.committer = some (p, cs)) (hlh : t.ops.log.lh = s.ops.log.lh) (hclear : c ≠ .clear)
    (hx : c ≠ .bwrite x) : x ∈ t.pinned ↔ x ∈ s.pinned := by
  rw [mem_pinned, mem_pinned, hlh, Sys.pending, Sys.pending, hs, ht]
  simp [hclear, hx.symm]

theorem notMem_pinned_written {cs : List Call} (ht : t.committer = some (p, cs))
    (honce : ∀ x ∈ t.ops.log.lh, (Call.bwrite b :: cs).count (.bwrite x) ≤ 1) : b ∉ t.pinned := by
  intro hb
  rw [mem_pinned, Sys.pending, ht] at hb
  obtain ⟨hmem, hahead⟩ := hb
  have hcs : Call.bwrite b ∈ cs := (List.takeWhile_sublist _).subset (of_decide_eq_true hahead)
  have hcount := honce b hmem
  rw [List.count_cons_self] at hcount
  have hpos := List.count_pos_iff.mpr hcs
  omega

theorem Inv.idle (h : Inv s) (hp : p ∈ s.ops.active) : s.committer = none := by
  cases hc : s.committer with
  | none => rfl
  | some c =>
    have hquiet := h.log.quiet (by rw [h.committing, hc]; rfl)
    rw [hquiet] at hp
    exact absurd hp (Finset.notMem_empty p)

section Buffers

theorem bread_cases (h : Agrees s.bcache s.held s.pinned) (ht : s.bread p b = some t) :
    t.ops = s.ops ∧ t.committer = s.committer ∧ Agrees t.bcache t.held s.pinned := by
  unfold Sys.bread at ht
  split at ht
  · cases ht
  · rename_i hp
    obtain ⟨c, hc, rfl⟩ := Option.map_eq_some_iff.mp ht
    exact ⟨rfl, rfl, h.bread hp hc⟩

theorem brelse_cases (h : Agrees s.bcache s.held s.pinned) (ht : s.brelse p b = some t) :
    t.ops = s.ops ∧ t.committer = s.committer ∧ Agrees t.bcache t.held s.pinned := by
  obtain ⟨hp, ht⟩ := Option.ite_none_right_eq_some.mp ht
  obtain rfl := Option.some.inj ht
  exact ⟨rfl, rfl, h.brelse hp⟩

end Buffers

theorem outside_congr {log log' : Log} (h : log'.start = log.start ∧ log'.size = log.size) :
    Outside log' b ↔ Outside log b := by
  rw [Outside, Outside, h.1, h.2]

namespace Inv

/-- What a process does to the buffers alone. -/
theorem buffers (h : Inv s) (hops : t.ops = s.ops) (hc : t.committer = s.committer)
    (hcache : Agrees t.bcache t.held s.pinned) : Inv t := by
  refine ⟨?_, ?_, ?_, ?_, ?_⟩
  · rw [hops]
    exact h.log
  · rw [hops]
    exact h.outside
  · rw [hops, hc]
    exact h.committing
  · rw [hops, hc]
    exact h.once
  · rw [pinned_congr (by rw [hops]) hc]
    exact hcache

theorem beginOp (h : Inv s) (ht : step s (.beginOp p) = some t) : Inv t := by
  obtain ⟨ops, hops, rfl⟩ := Option.map_eq_some_iff.mp ht
  have hlog : LogSpace.Inv ops := h.log.keep (a := .beginOp p) trivial hops
  obtain ⟨_, hops⟩ := Option.ite_none_right_eq_some.mp hops
  obtain ⟨log, hbegin, rfl⟩ := Option.map_eq_some_iff.mp hops
  obtain ⟨_, _, rfl⟩ := Log.beginOp_eq_some.mp hbegin
  exact ⟨hlog, h.outside, h.committing, h.once, h.cache⟩

theorem logWrite (h : Inv s) (ht : step s (.logWrite p b) = some t) : Inv t := by
  obtain ⟨⟨hheld, hout⟩, ht⟩ := Option.ite_none_right_eq_some.mp ht
  obtain ⟨ops, hops, ht⟩ := Option.bind_eq_some_iff.mp ht
  obtain ⟨hrun, ht⟩ := Option.ite_none_right_eq_some.mp ht
  obtain rfl := Option.some.inj ht
  have hroom := h.log.room_of_running hops (by simp [hrun])
  obtain ⟨hlog, hp, _, _, _, htrans, hcommitting⟩ := h.log.logWrite hroom hops
  have hidle := h.idle hp
  have hplace := LogSpace.step_place hops
  have hlh : ops.log.lh.toFinset = insert b s.ops.log.lh.toFinset := by
    rw [← hlog.transaction, htrans, h.log.transaction]
  refine ⟨hlog, ?_, hcommitting.trans h.committing, ?_, ?_⟩
  · intro c hc
    have hmem := List.mem_toFinset.mpr hc
    rw [hlh, Finset.mem_insert, List.mem_toFinset] at hmem
    rcases hmem with rfl | hmem
    · exact (outside_congr hplace).mpr hout
    · exact (outside_congr hplace).mpr (h.outside c hmem)
  · intro q cs hcs
    rw [hidle] at hcs
    cases hcs
  · have hold := h.cache.pin hheld
    rw [pinned_idle hidle, ← hlh] at hold
    have hpinned : Sys.pinned ⟨ops, pin ROOTDEV b s.bcache, s.held, s.committer⟩ =
        ops.log.lh.toFinset := pinned_idle hidle
    rw [hpinned]
    exact hold

theorem endOp (h : Inv s) (ht : step s (.endOp p) = some t) : Inv t := by
  obtain ⟨_, ht⟩ := Option.ite_none_right_eq_some.mp ht
  obtain ⟨ops, hops, rfl⟩ := Option.map_eq_some_iff.mp ht
  obtain ⟨hlog, hp, _⟩ := h.log.endOp hops
  have hidle := h.idle hp
  have hlh := LogSpace.endOp_lh hops
  have hplace := LogSpace.step_place hops
  have hout : ∀ b ∈ ops.log.lh, Outside ops.log b := by
    intro b hb
    rw [hlh] at hb
    exact (outside_congr hplace).mpr (h.outside b hb)
  have hn : ops.log.lh.length < ops.log.size := by
    have hfits : ops.log.lh.length ≤ LOGSIZE - 1 := hlog.fits
    rw [hlog.size]
    have hpos : 0 < LOGSIZE := by decide
    omega
  have hcache := h.cache
  rw [pinned_idle hidle, ← hlh] at hcache
  by_cases hc : ops.log.committing
  · simp only [hc, if_true]
    refine ⟨hlog, hout, hc, ?_, ?_⟩
    · intro q cs hcs b hb
      cases hcs
      exact (count_commit hn hlog.nodup hb (hout b hb)).1.le
    · -- the whole header is still to be written home
      have hpinned : Sys.pinned ⟨ops, s.bcache, s.held, some (p, commit ops.log)⟩ =
          ops.log.lh.toFinset := by
        ext b
        rw [mem_pinned, List.mem_toFinset]
        exact and_iff_left_of_imp fun hb =>
          decide_eq_true (count_commit hn hlog.nodup hb (hout b hb)).2
      rw [hpinned]
      exact hcache
  · simp only [hc, Bool.false_eq_true, if_false]
    refine ⟨hlog, hout, Bool.eq_false_of_not_eq_true hc, ?_, ?_⟩
    · intro q cs hcs
      cases hcs
    · rw [pinned_idle rfl]
      exact hcache

/-- The committing process makes a call that leaves the log alone. -/
theorem next {q : ℕ} {c : Call} {cs : List Call} (h : Inv s) (hs : s.committer = some (q, c :: cs))
    (hops : t.ops = s.ops) (ht : t.committer = some (q, cs))
    (hcache : Agrees t.bcache t.held t.pinned) : Inv t := by
  refine ⟨?_, ?_, ?_, ?_, hcache⟩
  · rw [hops]
    exact h.log
  · rw [hops]
    exact h.outside
  · rw [hops, h.committing, hs, ht]
    rfl
  · intro p ds hds b hb
    obtain ⟨rfl, rfl⟩ := Prod.mk.inj (Option.some.inj (ht.symm.trans hds))
    rw [hops] at hb
    exact List.count_le_count_cons.trans (h.once _ _ hs b hb)

theorem call {q : ℕ} {c : Call} {cs : List Call} (h : Inv s) (hs : s.committer = some (q, c :: cs))
    (ht : s.call q c = some t) : Inv { t with committer := some (q, cs) } := by
  cases c with
  | bread b =>
    obtain ⟨hops, _, hcache⟩ := bread_cases h.cache ht
    have hpinned : Sys.pinned { t with committer := some (q, cs) } = s.pinned := by
      ext x
      exact mem_pinned_next hs rfl (by rw [hops]) (by simp) (by simp)
    refine h.next hs hops rfl ?_
    rw [hpinned]
    exact hcache
  | brelse b =>
    obtain ⟨hops, _, hcache⟩ := brelse_cases h.cache ht
    have hpinned : Sys.pinned { t with committer := some (q, cs) } = s.pinned := by
      ext x
      exact mem_pinned_next hs rfl (by rw [hops]) (by simp) (by simp)
    refine h.next hs hops rfl ?_
    rw [hpinned]
    exact hcache
  | bwrite b =>
    obtain ⟨hheld, ht⟩ := Option.ite_none_right_eq_some.mp ht
    obtain rfl := Option.some.inj ht
    refine h.next hs rfl rfl ?_
    have hpinned : Sys.pinned ⟨s.ops, Bio.bwrite ROOTDEV b s.bcache, s.held, some (q, cs)⟩ =
        s.pinned.erase b := by
      ext x
      rw [Finset.mem_erase]
      by_cases hx : x = b
      · subst hx
        have hnot : x ∉ Sys.pinned ⟨s.ops, Bio.bwrite ROOTDEV x s.bcache, s.held, some (q, cs)⟩ :=
          notMem_pinned_written rfl (h.once q _ hs)
        simp [hnot]
      · have hne : Call.bwrite b ≠ .bwrite x := fun e => hx (Call.bwrite.inj e).symm
        have hnext : x ∈ Sys.pinned ⟨s.ops, Bio.bwrite ROOTDEV b s.bcache, s.held, some (q, cs)⟩ ↔
            x ∈ s.pinned := mem_pinned_next hs rfl rfl (by simp) hne
        rw [hnext]
        simp [hx]
    rw [hpinned]
    exact h.cache.bwrite hheld
  | clear =>
    obtain ⟨ops, hops, rfl⟩ := Option.map_eq_some_iff.mp ht
    have hlog : LogSpace.Inv ops := h.log.keep (a := .clear) trivial hops
    obtain ⟨_, hops⟩ := Option.ite_none_right_eq_some.mp hops
    obtain rfl := Option.some.inj hops
    have hnone : s.pinned = ∅ := by
      ext x
      rw [mem_pinned, Sys.pending, hs]
      simp
    have hcache := h.cache
    rw [hnone] at hcache
    refine ⟨hlog, fun _ hb => absurd hb List.not_mem_nil, ?_,
      fun _ _ _ _ hb => absurd hb List.not_mem_nil, hcache⟩
    show s.ops.log.committing = true
    rw [h.committing, hs]
    rfl

theorem commitStep (h : Inv s) (ht : step s .commitStep = some t) : Inv t := by
  simp only [BufferCache.step] at ht
  split at ht
  · cases ht
  · rename_i q hs
    obtain ⟨ops, hops, rfl⟩ := Option.map_eq_some_iff.mp ht
    have hlog : LogSpace.Inv ops := h.log.keep (a := .committed) trivial hops
    obtain ⟨⟨_, _, hlh⟩, hops⟩ := Option.ite_none_right_eq_some.mp hops
    obtain rfl := Option.some.inj hops
    have hnone : s.pinned = ∅ := by
      ext x
      simp [mem_pinned, hlh]
    have hcache := h.cache
    rw [hnone] at hcache
    refine ⟨hlog, h.outside, rfl, fun _ _ hcs => (nomatch hcs), ?_⟩
    rw [pinned_idle rfl]
    show Agrees s.bcache s.held s.ops.log.lh.toFinset
    rw [hlh]
    exact hcache
  · rename_i q c cs hs
    obtain ⟨u, hu, rfl⟩ := Option.map_eq_some_iff.mp ht
    exact h.call hs hu

theorem step (h : Inv s) (ht : BufferCache.step s a = some t) : Inv t := by
  cases a with
  | beginOp p => exact h.beginOp ht
  | logWrite p b => exact h.logWrite ht
  | endOp p => exact h.endOp ht
  | commitStep => exact h.commitStep ht
  | bread p b =>
    obtain ⟨_, ht⟩ := Option.ite_none_left_eq_some.mp ht
    obtain ⟨hops, hc, hcache⟩ := bread_cases h.cache ht
    exact h.buffers hops hc hcache
  | brelse p b =>
    obtain ⟨_, ht⟩ := Option.ite_none_left_eq_some.mp ht
    obtain ⟨hops, hc, hcache⟩ := brelse_cases h.cache ht
    exact h.buffers hops hc hcache

theorem init (start : ℕ) : Inv (init start) where
  log := LogSpace.init_inv start
  outside := fun _ hb => absurd hb List.not_mem_nil
  committing := rfl
  once := fun _ _ hcs => (nomatch hcs)
  cache := Agrees.binit

theorem finds_iff (h : Inv s) (a : Action) : Finds s a ↔ Spare s a := by
  have hfree := h.cache.exists_unused_iff
  simp only [Buf.unused_iff] at hfree
  constructor
  · intro hf b hb hmiss
    exact hfree.mp ((hf b hb).2 hmiss)
  · intro hs b hb
    refine ⟨?_, fun hmiss => hfree.mpr (hs b hb hmiss)⟩
    by_cases hhit : ∃ x ∈ s.bcache, x.isOn ROOTDEV b
    · exact bget_hit hhit
    · obtain ⟨x, hx, hu⟩ := hfree.mpr (hs b hb fun x hx hon => hhit ⟨x, hx, hon⟩)
      exact bget_unused ⟨x, hx, Buf.unused_iff.mpr hu⟩

end Inv

/-- The runs in which bget always finds a buffer are exactly those in which, at each
miss, the blocks in use are fewer than the buffers. -/
theorem along_finds_iff (start : ℕ) (as : List Action) :
    Runs.Along step Finds (init start) as ↔ Runs.Along step Spare (init start) as := by
  constructor
  · refine Runs.along_of_along (fun s a hs hf => (hs.finds_iff a).mp hf) ?_ (Inv.init start)
    exact fun s a t hs _ ht => hs.step ht
  · refine Runs.along_of_along (fun s a hs hf => (hs.finds_iff a).mpr hf) ?_ (Inv.init start)
    exact fun s a t hs _ ht => hs.step ht

/-- Processes that read a block each, all of them outside an operation. -/
def readers (n : ℕ) : List Action := (List.range n).map fun p => .bread p (100 + p)

theorem not_along_finds :
    ¬ ∀ (start : ℕ) (as : List Action), Runs.Along step Finds (init start) as := by
  intro h
  have hfull : (Runs.run step (init 2) (readers NBUF)).map (fun s =>
      (s.breads (.bread NBUF 130), bget ROOTDEV 130 s.bcache)) = some (some 130, none) := by
    decide +kernel
  obtain ⟨s, hs, hpair⟩ := Option.map_eq_some_iff.mp hfull
  obtain ⟨hreads, hnone⟩ := Prod.mk.inj hpair
  have hfinds := (h 2 (readers NBUF ++ [.bread NBUF 130])).last hs
  exact (hfinds 130 hreads).1 hnone

end NorthOS.BufferCache
