import Mathlib.Algebra.BigOperators.Group.Finset.Piecewise
import Mathlib.Algebra.Order.BigOperators.Group.Finset
import Mathlib.Data.List.GetD
import NorthOS.Runs
import NorthOS.Sysfile
import NorthOS.WriteBack

/-!
filewrite through one file structure that several processes share. Every chunk is an
operation of its own: begin_op, ilock, writei at the shared offset, the advance of the
offset, iunlock and end_op, each a step. What the writers asked for and in which order
writei took their chunks is recorded beside the state.
-/
namespace NorthOS.SharedFd

open LittleEndian Fs Halting Comp Runs

/-- Where a process stands in the loop of filewrite; `r` is what writei returned. -/
inductive Stage
  | test
  | begun
  | locked
  | wrote (r : ℤ)
  | advanced (r : ℤ)
  | unlocked (r : ℤ)
  | committing (r : ℤ)
  | ended (r : ℤ)
  deriving DecidableEq, Repr

/-- A call of filewrite with `n = addr.length`. -/
structure Call where
  addr : List UInt8
  i : ℕ
  stage : Stage

/-- `ip` and `off` are the fields of the file structure. -/
structure Sys (P : Type*) where
  fs : State
  ip : ℕ
  off : ℕ
  doing : P → Option Call
  calls : P → List (List UInt8)
  results : P → List ℤ
  chunks : List (P × List UInt8)

/-- A process calls filewrite, or goes on in its call. -/
inductive Act (P : Type*)
  | write (p : P) (addr : List UInt8)
  | go (p : P)

variable {P : Type*} [DecidableEq P]

namespace Call

def n1 (c : Call) : ℕ := min (c.addr.length - c.i) writeMax

/-- `addr + i` -/
def src (c : Call) : Bytes := fun k => c.addr.getD (c.i + k) 0

def chunk (c : Call) : List UInt8 := (c.addr.drop c.i).take writeMax

end Call

namespace Sys

def start (fs : State) (ip off : ℕ) : Sys P where
  fs := fs
  ip := ip
  off := off
  doing := fun _ => none
  calls := fun _ => []
  results := fun _ => []
  chunks := []

def goto (s : Sys P) (p : P) (c : Option Call) : Sys P :=
  { s with doing := Function.update s.doing p c }

def answer (s : Sys P) (p : P) (r : ℤ) : Sys P :=
  { s.goto p none with results := Function.update s.results p (s.results p ++ [r]) }

def setLog (s : Sys P) (log : Log) : Sys P := { s with fs := { s.fs with log := log } }

/-- The next step of a call; `none` where the process has to wait or the system panics. -/
def resume (s : Sys P) (p : P) (c : Call) : Option (Sys P) :=
  match c.stage with
  | .test =>
    if c.i < c.addr.length then
      s.fs.log.beginOp.map fun log => (s.setLog log).goto p (some { c with stage := .begun })
    else some (s.answer p (if c.i = c.addr.length then c.addr.length else -1))
  | .begun =>
    if (s.fs.icache s.ip).locked then none
    else match ilock s.ip s.fs with
      | .ok (_, fs) => some ({ s with fs := fs }.goto p (some { c with stage := .locked }))
      | .error _ => none
  | .locked =>
    match writei s.ip c.src s.off c.n1 s.fs with
    | .ok (r, fs) =>
      some ({ s with fs := fs, chunks := s.chunks ++ [(p, c.chunk)] }.goto p
        (some { c with stage := .wrote r }))
    | .error _ => none
  | .wrote r =>
    some ({ s with off := if 0 < r then (s.off + r.toNat) % 2 ^ 32 else s.off }.goto p
      (some { c with stage := .advanced r }))
  | .advanced r =>
    match iunlock s.ip s.fs with
    | .ok (_, fs) => some ({ s with fs := fs }.goto p (some { c with stage := .unlocked r }))
    | .error _ => none
  | .unlocked r =>
    match s.fs.log.endOp with
    | .ok (log, true) => some ((s.setLog log).goto p (some { c with stage := .committing r }))
    | .ok (log, false) => some ((s.setLog log).goto p (some { c with stage := .ended r }))
    | .error _ => none
  -- commit empties the log and leaves the buffers as they are
  | .committing r =>
    some ((s.setLog { s.fs.log with lh := [], committing := false }).goto p
      (some { c with stage := .ended r }))
  | .ended r =>
    if r < 0 then some (s.answer p (if c.i = c.addr.length then c.addr.length else -1))
    -- short filewrite
    else if r ≠ c.n1 then none
    else some (s.goto p (some { c with i := c.i + r.toNat, stage := .test }))

end Sys

def step (s : Sys P) : Act P → Option (Sys P)
  | .write p addr =>
    match s.doing p with
    | none =>
      some { s.goto p (some ⟨addr, 0, .test⟩) with
        calls := Function.update s.calls p (s.calls p ++ [addr]) }
    | some _ => none
  | .go p => (s.doing p).bind (s.resume p)

/-- A buffer cut into consecutive chunks. -/
def cut (addr : List UInt8) : List (List UInt8) :=
  if addr = [] then [] else addr.take writeMax :: cut (addr.drop writeMax)
termination_by addr.length
decreasing_by
  have : 0 < addr.length := List.length_pos_iff.mpr ‹_›
  have : 0 < writeMax := by decide
  rw [List.length_drop]
  omega

/-- All calls have returned, and every write has succeeded. -/
structure Succeeded (s : Sys P) : Prop where
  done : ∀ p, s.doing p = none
  ok : ∀ p, s.results p = (s.calls p).map fun addr => (addr.length : ℤ)

/-- The bytes that chunks one behind the other make up. -/
def laid (chunks : List (P × List UInt8)) : List UInt8 := (chunks.map Prod.snd).flatten

/-- The chunks of one writer, in their order. -/
def of (p : P) (chunks : List (P × List UInt8)) : List (List UInt8) :=
  (chunks.filter fun c => c.1 = p).map Prod.snd

/-- From `off` on the file has an interleaving of the chunks of all writers, and the offset
is behind it. -/
def NoLostUpdate (s : State) (v : Inos) (n off : ℕ) (t : Sys P) : Prop :=
  ∃ chunks : List (P × List UInt8), (∀ p, of p chunks = (t.calls p).flatMap cut) ∧
    t.off = off + (laid chunks).length ∧
    Survives n off (laid chunks).length (fun k => (laid chunks).getD k 0) s v t.fs

section Cut

variable {addr : List UInt8}

theorem cut_nil : cut [] = [] := by
  rw [cut, if_pos rfl]

theorem cut_cons (h : addr ≠ []) : cut addr = addr.take writeMax :: cut (addr.drop writeMax) := by
  rw [cut, if_neg h]

theorem cut_flatten (addr : List UInt8) : (cut addr).flatten = addr := by
  induction addr using cut.induct with
  | case1 => rw [cut_nil, List.flatten_nil]
  | case2 addr h ih => rw [cut_cons h, List.flatten_cons, ih, List.take_append_drop]

end Cut

section Laid

variable {chunks : List (P × List UInt8)} {p q : P} {b : List UInt8}

omit [DecidableEq P] in
theorem laid_append : laid (chunks ++ [(p, b)]) = laid chunks ++ b := by
  simp [laid]

theorem of_append_self : of p (chunks ++ [(p, b)]) = of p chunks ++ [b] := by
  simp [of]

theorem of_append_other (h : q ≠ p) : of q (chunks ++ [(p, b)]) = of q chunks := by
  simp [of, h.symm]

/-- Every byte is in a chunk of exactly one writer. -/
theorem laid_length [Fintype P] (chunks : List (P × List UInt8)) :
    (laid chunks).length = ∑ p, (of p chunks).flatten.length := by
  induction chunks with
  | nil => simp [laid, of]
  | cons c chunks ih =>
    have hcons : ∀ p, (of p (c :: chunks)).flatten.length =
        (if p = c.1 then c.2.length else 0) + (of p chunks).flatten.length := by
      intro p
      by_cases h : p = c.1
      · subst h
        simp [of]
      · simp [of, h, Ne.symm h]
    have hlaid : (laid (c :: chunks)).length = c.2.length + (laid chunks).length := by
      simp [laid]
    rw [hlaid, ih, Finset.sum_congr rfl fun p _ => hcons p, Finset.sum_add_distrib,
      Finset.sum_ite_eq', if_pos (Finset.mem_univ _)]

end Laid

/-- The process has the lock of the inode. -/
def Stage.holds : Stage → Bool
  | .locked | .wrote _ | .advanced _ => true
  | _ => false

/-- What writei has returned for the chunk at `i`. -/
def Stage.result : Stage → Option ℤ
  | .wrote r | .advanced r | .unlocked r | .committing r | .ended r => some r
  | _ => none

/-- The bytes that the offset does not count yet. -/
def Stage.due : Stage → ℕ
  | .wrote r => r.toNat
  | _ => 0

/-- What the call has not handed to writei yet. -/
def Call.left (c : Call) : List UInt8 :=
  c.addr.drop (if c.stage.result.isSome then c.i + c.n1 else c.i)

/-- A call in the loop whose writes have all succeeded. -/
structure Call.Fits (c : Call) : Prop where
  within : c.i ≤ c.addr.length
  more : c.stage ≠ .test → c.i < c.addr.length
  full : ∀ r, c.stage.result = some r → r = c.n1

def Sys.left (s : Sys P) (p : P) : List UInt8 := ((s.doing p).map Call.left).getD []

/-- Nobody has the lock of the inode, and the offset counts everything. -/
structure Free (s : Sys P) (pos : ℕ) : Prop where
  unlocked : (s.fs.icache s.ip).locked = false
  nobody : ∀ p c, s.doing p = some c → c.stage.holds = false
  offset : s.off = pos

/-- One process has the lock, and the offset counts everything but what it still has to
add. -/
structure HeldBy (s : Sys P) (pos : ℕ) (p : P) (c : Call) : Prop where
  call : s.doing p = some c
  holds : c.stage.holds = true
  locked : (s.fs.icache s.ip).locked = true
  others : ∀ q d, s.doing q = some d → d.stage.holds = true → q = p
  offset : s.off + c.stage.due = pos

/-- The invariant of runs that stay in front of the double-indirect blocks. -/
structure Kept (s₀ : State) (v₀ : Inos) (n off : ℕ) (s : Sys P) : Prop where
  file : ∃ v, RegularFile s.fs v s.ip n ∧
    Wrote n off (laid s.chunks).length (fun k => (laid s.chunks).getD k 0) v₀ s₀.vol v s.fs.vol ∧
    (v n).size = max (v₀ n).size (off + (laid s.chunks).length)
  lock : Free s (off + (laid s.chunks).length) ∨
    ∃ p c, HeldBy s (off + (laid s.chunks).length) p c
  fits : ∀ p c, s.doing p = some c → c.Fits
  parts : ∀ p, of p s.chunks ++ cut (s.left p) = (s.calls p).flatMap cut

/-- How many bytes the processes have asked to write. -/
def Sys.total [Fintype P] (s : Sys P) : ℕ := ∑ p, (s.calls p).flatten.length

theorem flatMap_cut_flatten (bs : List (List UInt8)) : (bs.flatMap cut).flatten = bs.flatten := by
  induction bs with
  | nil => rfl
  | cons b bs ih => rw [List.flatMap_cons, List.flatten_append, ih, cut_flatten, List.flatten_cons]

variable {s₀ : State} {v₀ : Inos} {n off : ℕ} {s t : Sys P} {p q : P} {c c' : Call}

/-- What has been written and what the call of one process has left are part of what was
asked for. -/
theorem Kept.room [Fintype P] (h : Kept s₀ v₀ n off s) (p : P) :
    (laid s.chunks).length + (s.left p).length ≤ s.total := by
  have hsum : s.total = ∑ q, ((of q s.chunks).flatten.length + (s.left q).length) := by
    refine Finset.sum_congr rfl fun q _ => ?_
    have hparts := congrArg List.flatten (h.parts q)
    rw [List.flatten_append, cut_flatten, flatMap_cut_flatten] at hparts
    rw [← hparts, List.length_append]
  rw [hsum, Finset.sum_add_distrib, laid_length]
  have hone := Finset.single_le_sum (f := fun q => (s.left q).length) (fun _ _ => Nat.zero_le _)
    (Finset.mem_univ p)
  exact Nat.add_le_add_left hone _

section Fields

@[simp] theorem goto_self {d : Option Call} : (s.goto p d).doing p = d := Function.update_self ..

@[simp] theorem goto_other {d : Option Call} (h : q ≠ p) : (s.goto p d).doing q = s.doing q :=
  Function.update_of_ne h ..

theorem left_self {d : Option Call} : (s.goto p d).left p = (d.map Call.left).getD [] := by
  rw [Sys.left, goto_self]

theorem left_other {d : Option Call} (h : q ≠ p) : (s.goto p d).left q = s.left q := by
  rw [Sys.left, goto_other h, Sys.left]

omit [DecidableEq P] in
theorem left_of (h : s.doing p = some c) : s.left p = c.left := by
  rw [Sys.left, h, Option.map_some, Option.getD_some]

end Fields

section Chunk

theorem chunk_length : c.chunk.length = c.n1 := by
  rw [Call.chunk, List.length_take, List.length_drop, Call.n1, Nat.min_comm]

theorem chunk_getD {k : ℕ} (hk : k < c.n1) : c.chunk.getD k 0 = c.src k := by
  have hlt : k < writeMax := Nat.lt_of_lt_of_le hk (Nat.min_le_right _ _)
  rw [Call.chunk, Call.src, List.getD_eq_getElem?_getD, List.getD_eq_getElem?_getD,
    List.getElem?_take_of_lt hlt, List.getElem?_drop]

theorem drop_n1 : c.addr.drop (c.i + c.n1) = (c.addr.drop c.i).drop writeMax := by
  rw [List.drop_drop]
  by_cases h : c.addr.length - c.i ≤ writeMax
  · rw [Call.n1, Nat.min_eq_left h, List.drop_eq_nil_of_le (by omega), List.drop_eq_nil_of_le
      (by omega)]
  · rw [Call.n1, Nat.min_eq_right (by omega)]

end Chunk

section Locks

variable {i k : ℕ}

def LockKept (i : ℕ) (s t : State) : Prop := (t.icache i).locked = (s.icache i).locked

/-- The computation leaves the lock of the slot as it is. -/
abbrev KeepsLock {B : Type} (i : ℕ) (x : M B) : Prop := Within (fun _ => False) (LockKept i) x

theorem lockKept_composes (i : ℕ) : Composes (LockKept i) :=
  ⟨fun _ => rfl, fun h h' => Eq.trans h' h⟩

theorem keepsLock_of_frame {B : Type} {x : M B} (h : Within Fault Frame x) : KeepsLock i x :=
  h.mono (fun _ _ hf => congrArg Inode.locked (congrFun hf.icache i)) fun _ he => he.elim

theorem look_keepsLock {B : Type} {f : State → B} : KeepsLock i (look f : M B) :=
  within_look (lockKept_composes i)

theorem pure_keepsLock {B : Type} {b : B} : KeepsLock i (pure b : M B) :=
  within_pure (lockKept_composes i)

theorem setSlot_lockKept {s : State} {j : ℕ} {f : Inode → Inode}
    (hf : (f (s.icache j)).locked = (s.icache j).locked) : LockKept i s (s.setSlot j f) := by
  show ((s.setSlot j f).icache i).locked = (s.icache i).locked
  by_cases h : i = j
  · subst h
    rw [setSlot_self, hf]
  · rw [setSlot_other _ _ _ h]

theorem addrEntry_keepsLock : KeepsLock i (addrEntry i k) := by
  have hR := lockKept_composes i
  have hset : ∀ a, KeepsLock i (setAddr i k a) := by
    intro a
    refine (within_ensure hR (by simp)).bind hR fun _ => within_update fun s => ?_
    split_ifs
    · exact setSlot_lockKept rfl
    · exact setSlot_lockKept rfl
    · exact hR.refl s
  unfold addrEntry
  refine ((within_ensure hR (by simp)).bind hR fun _ => look_keepsLock).bind hR fun addr =>
    Within.ite ?_ pure_keepsLock
  refine look_keepsLock.bind hR fun dev => ?_
  refine (keepsLock_of_frame balloc_within).bind hR fun addr => ?_
  exact (hset addr).bind hR fun _ => pure_keepsLock

theorem indexEntry_keepsLock {addr : ℕ} : KeepsLock i (indexEntry i addr k) := by
  have hR := lockKept_composes i
  unfold indexEntry
  refine look_keepsLock.bind hR fun dev => ?_
  refine (keepsLock_of_frame bread_within).bind hR fun a => Within.ite ?_ ?_
  · refine look_keepsLock.bind hR fun dev' => ?_
    refine (keepsLock_of_frame balloc_within).bind hR fun addr => ?_
    refine (keepsLock_of_frame setData_within).bind hR fun _ => ?_
    refine (keepsLock_of_frame logWrite_within).bind hR fun _ => ?_
    exact (keepsLock_of_frame brelse_within).bind hR fun _ => pure_keepsLock
  · exact (keepsLock_of_frame brelse_within).bind hR fun _ => pure_keepsLock

theorem bmap_keepsLock {bn : ℕ} : KeepsLock i (bmap i bn) := by
  have hR := lockKept_composes i
  unfold bmap
  refine addrEntry_keepsLock.ite (Within.ite ?_ (Within.ite ?_ (within_halt (by simp))))
  · exact addrEntry_keepsLock.bind hR fun _ => indexEntry_keepsLock
  · refine addrEntry_keepsLock.bind hR fun _ => ?_
    exact indexEntry_keepsLock.bind hR fun _ => indexEntry_keepsLock

theorem writei_keepsLock {src : Bytes} {off m : ℕ} : KeepsLock i (writei i src off m) := by
  have hR := lockKept_composes i
  have hloop : ∀ fuel off tot, KeepsLock i (writeLoop i m src fuel off tot) := by
    intro fuel
    induction fuel with
    | zero => exact fun _ _ => pure_keepsLock
    | succ fuel ih =>
      intro off tot
      unfold writeLoop
      refine Within.ite ?_ pure_keepsLock
      refine bmap_keepsLock.bind hR fun addr => ?_
      refine look_keepsLock.bind hR fun dev => ?_
      refine (keepsLock_of_frame bread_within).bind hR fun _ => ?_
      refine (keepsLock_of_frame setData_within).bind hR fun _ => ?_
      refine (keepsLock_of_frame logWrite_within).bind hR fun _ => ?_
      exact (keepsLock_of_frame brelse_within).bind hR fun _ => ih _ _
  have hupdate : KeepsLock i (iupdate i) := by
    unfold iupdate
    refine (within_ensure hR (by simp)).bind hR fun _ => ?_
    refine look_keepsLock.bind hR fun ip => look_keepsLock.bind hR fun sb => ?_
    refine (keepsLock_of_frame bread_within).bind hR fun _ => ?_
    refine (keepsLock_of_frame setData_within).bind hR fun _ => ?_
    refine (keepsLock_of_frame logWrite_within).bind hR fun _ => ?_
    exact keepsLock_of_frame brelse_within
  unfold writei
  refine look_keepsLock.bind hR fun ip =>
    Within.ite ?_ (pure_keepsLock.ite (pure_keepsLock.ite ?_))
  · refine look_keepsLock.bind hR fun devsw => ?_
    split
    · exact pure_keepsLock
    · exact pure_keepsLock
  · refine (hloop _ _ _).bind hR fun _ => look_keepsLock.bind hR fun size => ?_
    refine Within.bind hR (Within.ite ?_ pure_keepsLock) fun _ => pure_keepsLock
    exact (within_update fun _ => setSlot_lockKept rfl).bind hR fun _ => hupdate

end Locks

section File

variable {fs : State} {v : Inos} {i : ℕ}

theorem regular_setLog (h : RegularFile fs v i n) (log : Log) :
    RegularFile { fs with log := log } v i n where
  wf := ⟨h.wf.sb, h.wf.word, h.wf.past, h.wf.held, h.wf.outside, h.wf.inRange, h.wf.free,
    h.wf.reserved, h.wf.owned, h.wf.slots, h.wf.devs, h.wf.unique,
    fun j m hl => h.wf.cached j m ⟨hl.slot, hl.ref, hl.valid, hl.inum⟩,
    fun m hm hno => h.wf.disk m hm fun j hl => hno j ⟨hl.slot, hl.ref, hl.valid, hl.inum⟩⟩
  synced := h.synced
  loaded := ⟨h.loaded.slot, h.loaded.ref, h.loaded.valid, h.loaded.inum⟩
  type := h.type
  mapped := h.mapped

theorem regular_setLock (h : RegularFile fs v i n) (b : Bool) :
    RegularFile (fs.setSlot i fun ip => { ip with locked := b }) v i n where
  wf := h.wf.setRef rfl rfl rfl id id fun hr hv => Or.inl ⟨hr, hv⟩
  synced := h.synced
  loaded := by
    have hself : (fs.setSlot i fun ip => { ip with locked := b }).icache i =
        { fs.icache i with locked := b } := setSlot_self ..
    exact ⟨h.loaded.slot, hself ▸ h.loaded.ref, hself ▸ h.loaded.valid, hself ▸ h.loaded.inum⟩
  type := h.type
  mapped := h.mapped

end File

namespace Kept

/-- A step of a call that touches neither the chunks nor the offset. -/
theorem move (h : Kept s₀ v₀ n off s) {fs : State} (hc : s.doing p = some c)
    (hfile : ∀ v, RegularFile s.fs v s.ip n → RegularFile fs v s.ip n) (hvol : fs.vol = s.fs.vol)
    (hleft : c'.left = c.left) (hfits : c'.Fits)
    (hlock : Free (({ s with fs := fs } : Sys P).goto p (some c')) (off + (laid s.chunks).length) ∨
      ∃ p' d, HeldBy (({ s with fs := fs } : Sys P).goto p (some c'))
      (off + (laid s.chunks).length) p' d) :
    Kept s₀ v₀ n off (({ s with fs := fs } : Sys P).goto p (some c')) where
  file := by
    obtain ⟨v, hv, hwrote, hsize⟩ := h.file
    refine ⟨v, hfile v hv, ?_, hsize⟩
    show Wrote n off _ _ v₀ s₀.vol v fs.vol
    rw [hvol]
    exact hwrote
  lock := hlock
  fits := by
    intro q d hd
    by_cases e : q = p
    · subst e
      obtain rfl := Option.some.inj (goto_self.symm.trans hd)
      exact hfits
    · exact h.fits q d ((goto_other e).symm.trans hd)
  parts := by
    intro q
    by_cases e : q = p
    · subst e
      rw [left_self, Option.map_some, Option.getD_some, hleft, ← left_of hc]
      exact h.parts q
    · rw [left_other e]
      exact h.parts q

/-- Outside of the lock a call changes nothing about it. -/
theorem lock_outside {pos : ℕ} {fs : State} {d' : Option Call} (hc : s.doing p = some c)
    (hout : c.stage.holds = false) (hout' : ∀ e, d' = some e → e.stage.holds = false)
    (hsame : (fs.icache s.ip).locked = (s.fs.icache s.ip).locked)
    (h : Free s pos ∨ ∃ p d, HeldBy s pos p d) :
    Free (({ s with fs := fs } : Sys P).goto p d') pos ∨
      ∃ p' d, HeldBy (({ s with fs := fs } : Sys P).goto p d') pos p' d := by
  rcases h with hfree | ⟨p', d, hheld⟩
  · refine Or.inl ⟨hsame.trans hfree.unlocked, fun q e he => ?_, hfree.offset⟩
    by_cases eq : q = p
    · subst eq
      exact hout' e (goto_self.symm.trans he)
    · exact hfree.nobody q e ((goto_other eq).symm.trans he)
  · have hne : p' ≠ p := by
      rintro rfl
      obtain rfl := Option.some.inj (hc.symm.trans hheld.call)
      cases hout.symm.trans hheld.holds
    refine Or.inr ⟨p', d, (goto_other hne).trans hheld.call, hheld.holds, hsame.trans hheld.locked,
      fun q e he hholds => ?_, hheld.offset⟩
    by_cases eq : q = p
    · subst eq
      cases (hout' e (goto_self.symm.trans he)).symm.trans hholds
    · exact hheld.others q e ((goto_other eq).symm.trans he) hholds

/-- The process in a stage with the lock is the one that has it. -/
theorem heldBy (h : Kept s₀ v₀ n off s) (hc : s.doing p = some c) (hin : c.stage.holds = true) :
    HeldBy s (off + (laid s.chunks).length) p c := by
  rcases h.lock with hfree | ⟨p', d, hheld⟩
  · rw [hfree.nobody p c hc] at hin
    cases hin
  · obtain rfl := hheld.others p c hc hin
    obtain rfl := Option.some.inj (hc.symm.trans hheld.call)
    exact hheld

/-- Where the lock is free, whoever takes it is the only one to have it. -/
theorem take {pos : ℕ} {fs : State} (h : Free s pos) (hlocked : (fs.icache s.ip).locked = true)
    (hin : c'.stage.holds = true) (hdue : c'.stage.due = 0) :
    HeldBy (({ s with fs := fs } : Sys P).goto p (some c')) pos p c' where
  call := goto_self
  holds := hin
  locked := hlocked
  others := by
    intro q e he hholds
    by_contra eq
    have hnot := h.nobody q e ((goto_other eq).symm.trans he)
    cases hnot.symm.trans hholds
  offset := by
    rw [hdue]
    exact h.offset

theorem release {pos : ℕ} {fs : State} (h : HeldBy s pos p c) (hdue : c.stage.due = 0)
    (hunlocked : (fs.icache s.ip).locked = false) (hout : c'.stage.holds = false) :
    Free (({ s with fs := fs } : Sys P).goto p (some c')) pos where
  unlocked := hunlocked
  nobody := by
    intro q e he
    by_cases eq : q = p
    · subst eq
      obtain rfl := Option.some.inj (goto_self.symm.trans he)
      exact hout
    · refine Bool.eq_false_iff.mpr fun hholds => eq ?_
      exact h.others q e ((goto_other eq).symm.trans he) hholds
  offset := by
    have hoff := h.offset
    rw [hdue] at hoff
    exact hoff

theorem answer (h : Kept s₀ v₀ n off s) (hc : s.doing p = some c) (hout : c.stage.holds = false)
    (hleft : c.left = []) (r : ℤ) : Kept s₀ v₀ n off (s.answer p r) where
  file := h.file
  lock := by
    rcases lock_outside (s := s) hc hout (fun e he => (Option.some_ne_none e he.symm).elim) rfl
      h.lock with hf | ⟨p', d, hh⟩
    · exact Or.inl ⟨hf.unlocked, hf.nobody, hf.offset⟩
    · exact Or.inr ⟨p', d, hh.call, hh.holds, hh.locked, hh.others, hh.offset⟩
  fits := by
    intro q d hd
    by_cases e : q = p
    · subst e
      cases goto_self.symm.trans hd
    · exact h.fits q d ((goto_other e).symm.trans hd)
  parts := by
    intro q
    have hl : (s.answer p r).left q = s.left q := by
      show (s.goto p none).left q = s.left q
      by_cases e : q = p
      · subst e
        rw [left_self, left_of hc, hleft]
        rfl
      · exact left_other e
    rw [hl]
    exact h.parts q

/-- writei takes the chunk. -/
theorem store (h : Kept s₀ v₀ n off s) (hc : s.doing p = some c) (hstage : c.stage = .locked)
    (hsize₀ : (v₀ n).size ≤ nearBytes) (hnear : s.off + c.n1 ≤ nearBytes)
    {r : ℤ} {fs : State} (hrun : writei s.ip c.src s.off c.n1 s.fs = .ok (r, fs)) :
    Kept s₀ v₀ n off (({ s with fs := fs, chunks := s.chunks ++ [(p, c.chunk)] } : Sys P).goto p
      (some { c with stage := .wrote r })) := by
  have hheld := h.heldBy hc (by rw [hstage]; rfl)
  have hoffset : s.off = off + (laid s.chunks).length := by
    have := hheld.offset
    rwa [hstage] at this
  have hmore : c.i < c.addr.length := (h.fits p c hc).more (by rw [hstage]; simp)
  obtain ⟨v, hv, hwrote, hsize⟩ := h.file
  obtain ⟨hr, v', hv', hwrote', hsize'⟩ := hv.writei (by omega) (by omega) hrun
  have hlen : (laid (s.chunks ++ [(p, c.chunk)])).length = (laid s.chunks).length + c.n1 := by
    rw [laid_append, List.length_append, chunk_length]
  refine ⟨⟨v', hv', ?_, ?_⟩, Or.inr ⟨p, _, goto_self, rfl, ?_, ?_, ?_⟩, ?_, ?_⟩
  · show Wrote n off (laid (s.chunks ++ [(p, c.chunk)])).length
      (fun k => (laid (s.chunks ++ [(p, c.chunk)])).getD k 0) v₀ s₀.vol v' fs.vol
    rw [hlen]
    refine (hwrote.congr fun k hk => ?_).append (hoffset ▸ hwrote'.congr fun k hk => ?_)
    · rw [laid_append, List.getD_append _ _ _ _ hk]
    · rw [laid_append, List.getD_append_right _ _ _ _ (Nat.le_add_right _ _),
        Nat.add_sub_cancel_left, chunk_getD hk]
  · show (v' n).size = max (v₀ n).size (off + (laid (s.chunks ++ [(p, c.chunk)])).length)
    rw [hlen, hsize']
    omega
  · exact ((writei_keepsLock _).of_ok hrun).trans hheld.locked
  · intro q d hd hholds
    by_contra e
    exact e (hheld.others q d ((goto_other e).symm.trans hd) hholds)
  · show s.off + r.toNat = off + (laid (s.chunks ++ [(p, c.chunk)])).length
    rw [hlen, hr]
    omega
  · intro q d hd
    by_cases e : q = p
    · subst e
      obtain rfl := Option.some.inj (goto_self.symm.trans hd)
      refine ⟨hmore.le, fun _ => hmore, fun r' hr' => ?_⟩
      obtain rfl := Option.some.inj hr'
      exact hr
    · exact h.fits q d ((goto_other e).symm.trans hd)
  · intro q
    show of q (s.chunks ++ [(p, c.chunk)]) ++ _ = (s.calls q).flatMap cut
    rw [← h.parts q]
    by_cases e : q = p
    · subst e
      have hbefore : s.left q = c.addr.drop c.i := by
        rw [left_of hc, Call.left, hstage]
        rfl
      have hne : c.addr.drop c.i ≠ [] := by
        intro hnil
        have := List.drop_eq_nil_iff.mp hnil
        omega
      rw [of_append_self, left_self, hbefore, cut_cons hne, List.append_assoc, ← drop_n1]
      rfl
    · rw [of_append_other e, left_other e]
      rfl

/-- The offset catches up with the chunk. -/
theorem advance (h : Kept s₀ v₀ n off s) (hc : s.doing p = some c) {r : ℤ}
    (hstage : c.stage = .wrote r) (hnear : off + (laid s.chunks).length ≤ nearBytes) :
    Kept s₀ v₀ n off
      (({ s with off := if 0 < r then (s.off + r.toNat) % 2 ^ 32 else s.off } : Sys P).goto p
        (some { c with stage := .advanced r })) := by
  have hheld := h.heldBy hc (by rw [hstage]; rfl)
  have hfits := h.fits p c hc
  have hmore : c.i < c.addr.length := hfits.more (by rw [hstage]; simp)
  have hr : r = c.n1 := hfits.full r (by rw [hstage]; rfl)
  have hoffset : s.off + r.toNat = off + (laid s.chunks).length := by
    have := hheld.offset
    rwa [hstage] at this
  have hword : nearBytes < 2 ^ 32 := by decide
  have hn1 : 0 < c.n1 := by
    have hmax : 0 < writeMax := by decide
    rw [Call.n1]
    omega
  refine ⟨h.file, Or.inr ⟨p, _, goto_self, rfl, hheld.locked, ?_, ?_⟩, ?_, ?_⟩
  · intro q d hd hholds
    by_contra e
    exact e (hheld.others q d ((goto_other e).symm.trans hd) hholds)
  · show (if 0 < r then (s.off + r.toNat) % 2 ^ 32 else s.off) + 0 = off + (laid s.chunks).length
    rw [if_pos (by omega), hoffset, Nat.mod_eq_of_lt (by omega)]
    rfl
  · intro q d hd
    by_cases e : q = p
    · subst e
      obtain rfl := Option.some.inj (goto_self.symm.trans hd)
      exact ⟨hfits.within, fun _ => hmore, fun r' hr' => hr ▸ (Option.some.inj hr').symm⟩
    · exact h.fits q d ((goto_other e).symm.trans hd)
  · intro q
    by_cases e : q = p
    · subst e
      show of q s.chunks ++ _ = (s.calls q).flatMap cut
      rw [left_self, ← h.parts q, left_of hc, Call.left, hstage]
      rfl
    · rw [left_other e]
      exact h.parts q

/-- The stages outside of the lock, where the file system changes at most its log. -/
theorem outside (h : Kept s₀ v₀ n off s) (hc : s.doing p = some c) {log : Log}
    (hout : c.stage.holds = false) (hout' : c'.stage.holds = false) (hleft : c'.left = c.left)
    (hfits : c'.Fits) : Kept s₀ v₀ n off ((s.setLog log).goto p (some c')) := by
  refine h.move hc (fun v hv => regular_setLog hv log) rfl hleft hfits ?_
  refine lock_outside hc hout ?_ rfl h.lock
  rintro e he
  obtain rfl := Option.some.inj he
  exact hout'

/-- The next chunk, or the end of the loop. -/
theorem next (h : Kept s₀ v₀ n off s) (hc : s.doing p = some c) {r : ℤ}
    (hstage : c.stage = .ended r) : r = c.n1 ∧
      Kept s₀ v₀ n off (s.goto p (some { c with i := c.i + r.toNat, stage := .test })) := by
  have hfits := h.fits p c hc
  have hr : r = c.n1 := hfits.full r (by rw [hstage]; rfl)
  have hmore : c.i < c.addr.length := hfits.more (by rw [hstage]; simp)
  have hn1 : c.n1 ≤ c.addr.length - c.i := Nat.min_le_left _ _
  have hi : c.i + r.toNat = c.i + c.n1 := by omega
  refine ⟨hr, ?_⟩
  show Kept s₀ v₀ n off ((s.setLog s.fs.log).goto p
    (some { c with i := c.i + r.toNat, stage := .test }))
  refine h.outside hc (by rw [hstage]; rfl) rfl ?_
    ⟨?_, fun hne => absurd rfl hne, fun r' hr' => by cases hr'⟩
  · rw [Call.left, Call.left, hstage]
    exact congrArg (fun i => c.addr.drop i) hi
  · show c.i + r.toNat ≤ c.addr.length
    omega

theorem resume [Fintype P] (h : Kept s₀ v₀ n off s) (hc : s.doing p = some c)
    (hsize₀ : (v₀ n).size ≤ nearBytes) (hnear : off + s.total ≤ nearBytes)
    (ht : s.resume p c = some t) : Kept s₀ v₀ n off t := by
  have hfits := h.fits p c hc
  have hroom := h.room p
  have hmoved : ∀ st, c.stage.result = st.result →
      ({ c with stage := st } : Call).left = c.left := by
    intro st hst
    rw [Call.left, Call.left, hst]
    rfl
  have hkept : ∀ st, c.stage.result = st.result → c.i < c.addr.length →
      ({ c with stage := st } : Call).Fits :=
    fun st hst hi => ⟨hfits.within, fun _ => hi, fun r hr => hfits.full r (hst ▸ hr)⟩
  unfold Sys.resume at ht
  cases hstage : c.stage with
  | test =>
    simp only [hstage] at ht
    by_cases hi : c.i < c.addr.length
    · rw [if_pos hi] at ht
      obtain ⟨log, _, rfl⟩ := Option.map_eq_some_iff.mp ht
      have hresult : c.stage.result = Stage.begun.result := by rw [hstage]; rfl
      exact h.outside hc (by rw [hstage]; rfl) rfl (hmoved _ hresult) (hkept _ hresult hi)
    · rw [if_neg hi] at ht
      cases ht
      refine h.answer hc (by rw [hstage]; rfl) ?_ _
      rw [Call.left, hstage]
      exact List.drop_eq_nil_of_le (Nat.not_lt.mp hi)
  | begun =>
    simp only [hstage] at ht
    by_cases hlocked : (s.fs.icache s.ip).locked = true
    · rw [if_pos hlocked] at ht
      cases ht
    · rw [if_neg hlocked] at ht
      rw [Bool.not_eq_true] at hlocked
      obtain ⟨v, hv, _⟩ := h.file
      rw [ilock_valid hv.loaded.ref hlocked hv.loaded.valid] at ht
      cases ht
      have hresult : c.stage.result = Stage.locked.result := by rw [hstage]; rfl
      have hi : c.i < c.addr.length := hfits.more (by rw [hstage]; simp)
      refine h.move hc (fun v hv => regular_setLock hv true) rfl (hmoved _ hresult)
        (hkept _ hresult hi) (Or.inr ⟨p, _, take ?_ ?_ rfl rfl⟩)
      · rcases h.lock with hfree | ⟨q, d, hheld⟩
        · exact hfree
        · cases hlocked.symm.trans hheld.locked
      · rw [setSlot_self]
  | locked =>
    simp only [hstage] at ht
    split at ht
    · case _ r fs hrun =>
      cases ht
      have hheld := h.heldBy hc (by rw [hstage]; rfl)
      have hoffset : s.off = off + (laid s.chunks).length := by
        have := hheld.offset
        rwa [hstage] at this
      have hleft : (s.left p).length = c.addr.length - c.i := by
        rw [left_of hc, Call.left, hstage]
        exact List.length_drop
      have hn1 : c.n1 ≤ c.addr.length - c.i := Nat.min_le_left _ _
      exact h.store hc hstage hsize₀ (by omega) hrun
    · cases ht
  | wrote r =>
    simp only [hstage] at ht
    cases ht
    exact h.advance hc hstage (by omega)
  | advanced r =>
    simp only [hstage] at ht
    split at ht
    · case _ fs hrun =>
      cases ht
      obtain ⟨_, fs', h₁, h₂⟩ := bind_ok.mp hrun
      obtain ⟨_, rfl⟩ := ensure_ok.mp h₁
      rw [← update_ok.mp h₂]
      have hresult : c.stage.result = (Stage.unlocked r).result := by rw [hstage]; rfl
      have hi : c.i < c.addr.length := hfits.more (by rw [hstage]; simp)
      refine h.move hc (fun v hv => regular_setLock hv false) rfl (hmoved _ hresult)
        (hkept _ hresult hi) (Or.inl (release (h.heldBy hc ?_) ?_ ?_ rfl))
      · rw [hstage]
        rfl
      · rw [hstage]
        rfl
      · rw [setSlot_self]
    · cases ht
  | unlocked r =>
    simp only [hstage] at ht
    have hi : c.i < c.addr.length := hfits.more (by rw [hstage]; simp)
    split at ht
    · cases ht
      have hresult : c.stage.result = (Stage.committing r).result := by rw [hstage]; rfl
      exact h.outside hc (by rw [hstage]; rfl) rfl (hmoved _ hresult) (hkept _ hresult hi)
    · cases ht
      have hresult : c.stage.result = (Stage.ended r).result := by rw [hstage]; rfl
      exact h.outside hc (by rw [hstage]; rfl) rfl (hmoved _ hresult) (hkept _ hresult hi)
    · cases ht
  | committing r =>
    simp only [hstage] at ht
    cases ht
    have hi : c.i < c.addr.length := hfits.more (by rw [hstage]; simp)
    have hresult : c.stage.result = (Stage.ended r).result := by rw [hstage]; rfl
    exact h.outside hc (by rw [hstage]; rfl) rfl (hmoved _ hresult) (hkept _ hresult hi)
  | ended r =>
    simp only [hstage] at ht
    obtain ⟨hr, hnext⟩ := h.next hc hstage
    rw [if_neg (by omega), if_neg (by simpa using hr)] at ht
    cases ht
    exact hnext

/-- A process that was in no call begins one. -/
theorem write (h : Kept s₀ v₀ n off s) (hc : s.doing p = none) (addr : List UInt8) :
    Kept s₀ v₀ n off { s.goto p (some ⟨addr, 0, .test⟩) with
      calls := Function.update s.calls p (s.calls p ++ [addr]) } where
  file := h.file
  lock := by
    rcases h.lock with hfree | ⟨p', d, hheld⟩
    · refine Or.inl ⟨hfree.unlocked, fun q e he => ?_, hfree.offset⟩
      by_cases eq : q = p
      · subst eq
        obtain rfl := Option.some.inj (goto_self.symm.trans he)
        rfl
      · exact hfree.nobody q e ((goto_other eq).symm.trans he)
    · have hne : p' ≠ p := by
        rintro rfl
        cases hc.symm.trans hheld.call
      refine Or.inr ⟨p', d, (goto_other hne).trans hheld.call, hheld.holds, hheld.locked,
        fun q e he hholds => ?_, hheld.offset⟩
      by_cases eq : q = p
      · subst eq
        obtain rfl := Option.some.inj (goto_self.symm.trans he)
        cases hholds
      · exact hheld.others q e ((goto_other eq).symm.trans he) hholds
  fits := by
    intro q d hd
    by_cases e : q = p
    · subst e
      obtain rfl := Option.some.inj (goto_self.symm.trans hd)
      exact ⟨Nat.zero_le _, fun hne => absurd rfl hne, fun r hr => by cases hr⟩
    · exact h.fits q d ((goto_other e).symm.trans hd)
  parts := by
    intro q
    show of q s.chunks ++ cut ((s.goto p (some ⟨addr, 0, .test⟩)).left q) =
      (Function.update s.calls p (s.calls p ++ [addr]) q).flatMap cut
    by_cases e : q = p
    · subst e
      have hparts := h.parts q
      rw [Sys.left, hc, Option.map_none, Option.getD_none, cut_nil, List.append_nil] at hparts
      rw [left_self, Function.update_self, List.flatMap_append, hparts, List.flatMap_singleton]
      rfl
    · rw [left_other e, Function.update_of_ne e]
      exact h.parts q

theorem step [Fintype P] (h : Kept s₀ v₀ n off s) (hsize₀ : (v₀ n).size ≤ nearBytes)
    (hnear : off + s.total ≤ nearBytes) {a : Act P} (ht : step s a = some t) :
    Kept s₀ v₀ n off t := by
  cases a with
  | write p addr =>
    simp only [SharedFd.step] at ht
    split at ht
    · case _ hc =>
      cases ht
      exact h.write hc addr
    · cases ht
  | go p =>
    obtain ⟨c, hc, ht⟩ := Option.bind_eq_some_iff.mp ht
    exact h.resume hc hsize₀ hnear ht

end Kept

theorem resume_calls (ht : s.resume p c = some t) : t.calls = s.calls := by
  unfold Sys.resume at ht
  cases hstage : c.stage with
  | test =>
    simp only [hstage] at ht
    split at ht
    · obtain ⟨log, _, rfl⟩ := Option.map_eq_some_iff.mp ht
      rfl
    · cases ht
      rfl
  | begun | locked | advanced | unlocked =>
    simp only [hstage] at ht
    repeat' split at ht
    all_goals cases ht
    all_goals rfl
  | wrote | committing =>
    simp only [hstage] at ht
    cases ht
    rfl
  | ended r =>
    simp only [hstage] at ht
    split_ifs at ht
    all_goals cases ht
    all_goals rfl

/-- The history of calls only grows. -/
theorem run_calls {as : List (Act P)} (ht : run step s as = some t) (p : P) :
    s.calls p <+: t.calls p := by
  induction as generalizing s with
  | nil =>
    cases ht
    exact List.prefix_refl _
  | cons a as ih =>
    obtain ⟨u, hu, hrest⟩ := Option.bind_eq_some_iff.mp ht
    refine List.IsPrefix.trans ?_ (ih hrest)
    cases a with
    | write q addr =>
      simp only [step] at hu
      split at hu
      · cases hu
        show s.calls p <+: Function.update s.calls q (s.calls q ++ [addr]) p
        by_cases e : p = q
        · subst e
          rw [Function.update_self]
          exact List.prefix_append _ _
        · rw [Function.update_of_ne e]
      · cases hu
    | go q =>
      obtain ⟨c, _, hu⟩ := Option.bind_eq_some_iff.mp hu
      rw [resume_calls hu]

variable [Fintype P]

theorem run_total {as : List (Act P)} (ht : run step s as = some t) : s.total ≤ t.total := by
  refine Finset.sum_le_sum fun p _ => ?_
  obtain ⟨rest, hrest⟩ := run_calls ht p
  rw [← hrest, List.flatten_append, List.length_append]
  exact Nat.le_add_right _ _

/-- The invariant holds along a run that asks for no byte behind the single-indirect
blocks. -/
theorem run_kept {as : List (Act P)} (h : Kept s₀ v₀ n off s) (hsize₀ : (v₀ n).size ≤ nearBytes)
    (ht : run step s as = some t) (hnear : off + t.total ≤ nearBytes) : Kept s₀ v₀ n off t := by
  induction as generalizing s with
  | nil =>
    cases ht
    exact h
  | cons a as ih =>
    have hle := run_total ht
    obtain ⟨u, hu, hrest⟩ := Option.bind_eq_some_iff.mp ht
    exact ih (h.step hsize₀ (by omega) hu) hrest

omit [Fintype P] in
theorem start_kept {i : ℕ} (h : RegularFile s₀ v₀ i n) (hfree : (s₀.icache i).locked = false)
    (hoff : off ≤ (v₀ n).size) : Kept s₀ v₀ n off (Sys.start s₀ i off : Sys P) where
  file := ⟨v₀, h, Wrote.nothing n off _ v₀ s₀.vol, (max_eq_left hoff).symm⟩
  lock := Or.inl ⟨hfree, fun _ _ hc => (Option.some_ne_none _ hc.symm).elim, rfl⟩
  fits := fun _ _ hc => (Option.some_ne_none _ hc.symm).elim
  parts := fun _ => cut_nil

/-- When all writes have succeeded, the file has an interleaving of the chunks exactly when
it ends in front of the double-indirect blocks. -/
theorem noLostUpdate_iff {i : ℕ} (h : RegularFile s₀ v₀ i n) (hfree : (s₀.icache i).locked = false)
    (hoff : off ≤ (v₀ n).size) {as : List (Act P)} (ht : run step (Sys.start s₀ i off) as = some t)
    (hok : Succeeded t) :
    NoLostUpdate s₀ v₀ n off t ↔ max (v₀ n).size (off + t.total) ≤ nearBytes := by
  have hlen : ∀ chunks : List (P × List UInt8), (∀ p, of p chunks = (t.calls p).flatMap cut) →
      (laid chunks).length = t.total := by
    intro chunks hparts
    rw [laid_length]
    refine Finset.sum_congr rfl fun p _ => ?_
    rw [hparts, flatMap_cut_flatten]
  constructor
  · rintro ⟨chunks, hparts, _, hsurvives⟩
    have hnear := near_of_survives hoff hsurvives
    rwa [hlen chunks hparts] at hnear
  · intro hnear
    have hkept := run_kept (start_kept h hfree hoff) (by omega) ht (by omega)
    have hparts : ∀ p, of p t.chunks = (t.calls p).flatMap cut := by
      intro p
      have hleft : t.left p = [] := by
        rw [Sys.left, hok.done p]
        rfl
      have hparts := hkept.parts p
      rwa [hleft, cut_nil, List.append_nil] at hparts
    obtain ⟨v, hv, hwrote, hsize⟩ := hkept.file
    refine ⟨t.chunks, hparts, ?_, ?_⟩
    · rcases hkept.lock with hidle | ⟨p, c, hheld⟩
      · exact hidle.offset
      · cases (hok.done p).symm.trans hheld.call
    · exact survives_of_wrote h hv hwrote hsize (by rw [hlen _ hparts]; exact hnear)

/-- The full file with nobody in a call. -/
def idleFile : State :=
  { fullFile.setSlot 0 fun ip => { ip with locked := false } with log := ⟨2, nlog, 0, false, []⟩ }

theorem idleFile_regular : RegularFile idleFile fullInos 0 2 :=
  regular_setLog (regular_setLock fullFile_regular false) _

/-- One process writes one byte. -/
def oneByte : List (Act Unit) := .write () [7] :: List.replicate 9 (.go ())

def wroteOne (t : Sys Unit) : Bool :=
  (t.doing ()).isNone && decide (t.results () = [1]) && decide (t.calls () = [[7]])

theorem exists_of_wroteOne {r : Option (Sys Unit)} (h : r.any wroteOne = true) :
    ∃ t, r = some t ∧ Succeeded t ∧ t.calls () = [[7]] := by
  cases r with
  | none => cases h
  | some t =>
    obtain ⟨h₁, hcalls⟩ := (Bool.and_eq_true _ _).mp h
    obtain ⟨hdone, hresults⟩ := (Bool.and_eq_true _ _).mp h₁
    have hcalls := of_decide_eq_true hcalls
    refine ⟨t, rfl, ⟨fun _ => Option.isNone_iff_eq_none.mp hdone, fun _ => ?_⟩, hcalls⟩
    rw [hcalls]
    exact of_decide_eq_true hresults

/-- A byte at the start of the file is there. -/
theorem noLostUpdate_first : ∃ t, run step (Sys.start idleFile 0 0) oneByte = some t ∧ Succeeded t ∧
    NoLostUpdate idleFile fullInos 2 0 t := by
  have hcheck : (run step (Sys.start idleFile 0 0) oneByte).any wroteOne = true := by
    decide +kernel
  obtain ⟨t, ht, hok, hcalls⟩ := exists_of_wroteOne hcheck
  refine ⟨t, ht, hok, (noLostUpdate_iff idleFile_regular rfl (Nat.zero_le _) ht hok).mpr ?_⟩
  have htotal : t.total = 1 := by
    rw [Sys.total, Fintype.sum_unique, hcalls]
    rfl
  rw [htotal]
  decide

/-- A byte behind the single-indirect blocks is written, and it is not there when the file
is loaded again. -/
theorem not_noLostUpdate : RegularFile idleFile fullInos 0 2 ∧ nearBytes ≤ (fullInos 2).size ∧
    ∃ t, run step (Sys.start idleFile 0 nearBytes) oneByte = some t ∧ Succeeded t ∧
      ¬ NoLostUpdate idleFile fullInos 2 nearBytes t := by
  have hcheck : (run step (Sys.start idleFile 0 nearBytes) oneByte).any wroteOne = true := by
    decide +kernel
  obtain ⟨t, ht, hok, hcalls⟩ := exists_of_wroteOne hcheck
  refine ⟨idleFile_regular, Nat.le_refl _, t, ht, hok, ?_⟩
  rintro ⟨chunks, hparts, hoff, hsurvives⟩
  have hnear : max (fullInos 2).size (nearBytes + (laid chunks).length) ≤ nearBytes :=
    near_of_survives (Nat.le_refl _) hsurvives
  have hlen : (laid chunks).length = 1 := by
    rw [laid_length, Fintype.sum_unique, hparts, hcalls, flatMap_cut_flatten]
    rfl
  rw [hlen] at hnear
  omega

end NorthOS.SharedFd
