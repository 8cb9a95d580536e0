import Mathlib.Algebra.BigOperators.Fin
import Mathlib.Algebra.Order.BigOperators.Group.Finset
import NorthOS.Log
import NorthOS.Runs

/-!
Space in the log over whole runs: processes begin operations, log blocks within
their budget and end them, in any interleaving, and the last one out commits.
begin_op reserves MAXOPBLOCKS of LOGSIZE blocks for each operation, while one of
the LOGSIZE blocks of the log is its header.
-/
namespace NorthOS.LogSpace

/-- `active` are the processes between begin_op and end_op, `logged p` the distinct
blocks the operation of `p` has logged and `transaction` those logged since the log
was last cleared. -/
structure Sys where
  log : Log
  active : Finset ℕ
  logged : ℕ → Finset ℕ
  transaction : Finset ℕ
  panicked : Option LogPanic

inductive Action
  | beginOp (p : ℕ)
  | logWrite (p blockno : ℕ)
  | endOp (p : ℕ)
  /-- `log.lh.n = 0` in commit -/
  | clear
  /-- the end of end_op, behind commit -/
  | committed

/-- An operation is bracketed by begin_op and end_op and keeps to MAXOPBLOCKS blocks.
A panic stops the system. -/
def step (s : Sys) : Action → Option Sys
  | .beginOp p =>
    if s.panicked = none ∧ p ∉ s.active then
      s.log.beginOp.map fun log =>
        { s with log := log, active := insert p s.active, logged := Function.update s.logged p ∅ }
    else none
  | .logWrite p b =>
    if s.panicked = none ∧ p ∈ s.active ∧ (insert b (s.logged p)).card ≤ MAXOPBLOCKS then
      match s.log.logWrite b with
      | .ok log =>
        some { s with
          log := log
          logged := Function.update s.logged p (insert b (s.logged p))
          transaction := insert b s.transaction }
      | .error e => some { s with panicked := some e }
    else none
  | .endOp p =>
    if s.panicked = none ∧ p ∈ s.active then
      match s.log.endOp with
      | .ok (log, _) => some { s with log := log, active := s.active.erase p }
      | .error e => some { s with panicked := some e }
    else none
  | .clear =>
    if s.panicked = none ∧ s.log.committing then
      some { s with log := { s.log with lh := [] }, transaction := ∅ }
    else none
  | .committed =>
    if s.panicked = none ∧ s.log.committing ∧ s.log.lh = [] then
      some { s with log := { s.log with committing := false } }
    else none

/-- The log after initlog on a disk made by mkfs, where nlog is LOGSIZE. -/
def init (start : ℕ) : Sys where
  log := ⟨start, LOGSIZE, 0, false, []⟩
  active := ∅
  logged := fun _ => ∅
  transaction := ∅
  panicked := none

/-- The on-disk log has room for the header, and log_write has not given up. -/
def Fits (s : Sys) : Prop :=
  s.panicked ≠ some .tooBig ∧ s.log.n ≤ s.log.size - 1

/-- The transaction the block is logged in has not filled the log. -/
def Room (s : Sys) : Action → Prop
  | .logWrite _ _ => s.transaction.card < LOGSIZE - 1
  | _ => True

/-- The header lists the blocks of the transaction, each once. -/
structure Inv (s : Sys) : Prop where
  size : s.log.size = LOGSIZE
  running : s.panicked = none
  nodup : s.log.lh.Nodup
  transaction : s.transaction = s.log.lh.toFinset
  fits : s.log.n ≤ LOGSIZE - 1
  outstanding : s.log.outstanding = s.active.card
  quiet : s.log.committing → s.active = ∅

theorem Inv.card {s : Sys} (h : Inv s) : s.transaction.card = s.log.n := by
  rw [h.transaction, List.toFinset_card_of_nodup h.nodup]
  rfl

theorem Inv.active_pos {s : Sys} (h : Inv s) {p : ℕ} (hp : p ∈ s.active) :
    0 < s.log.outstanding := by
  rw [h.outstanding]
  exact Finset.card_pos.mpr ⟨p, hp⟩

/-- With room in the log a write is recorded, whether it is absorbed or not. -/
theorem Inv.logWrite {s t : Sys} {p b : ℕ} (h : Inv s) (hroom : Room s (.logWrite p b))
    (hs : step s (.logWrite p b) = some t) :
    Inv t ∧ p ∈ s.active ∧ (insert b (s.logged p)).card ≤ MAXOPBLOCKS ∧
      t.active = s.active ∧ t.logged = Function.update s.logged p (insert b (s.logged p)) ∧
      t.transaction = insert b s.transaction ∧ t.log.committing = s.log.committing := by
  obtain ⟨⟨hrun, hp, hbudget⟩, hs⟩ := Option.ite_none_right_eq_some.mp hs
  have hn : s.log.n < LOGSIZE - 1 := by
    rw [← h.card]
    exact hroom
  have hok : s.log.logWrite b = .ok
      { s.log with lh := if b ∈ s.log.lh then s.log.lh else s.log.lh ++ [b] } :=
    Log.logWrite_ok.mpr ⟨by omega, by rw [h.size]; omega, h.active_pos hp, rfl⟩
  rw [hok] at hs
  obtain rfl := Option.some.inj hs
  refine ⟨⟨h.size, hrun, ?_, ?_, ?_, h.outstanding, h.quiet⟩, hp, hbudget, rfl, rfl, rfl, rfl⟩
  · show (if b ∈ s.log.lh then s.log.lh else s.log.lh ++ [b]).Nodup
    split
    · exact h.nodup
    · rename_i hb
      rw [← List.concat_eq_append]
      exact h.nodup.concat hb
  · show insert b s.transaction = (if b ∈ s.log.lh then s.log.lh else s.log.lh ++ [b]).toFinset
    rw [h.transaction]
    split
    · rename_i hb
      exact Finset.insert_eq_of_mem (List.mem_toFinset.mpr hb)
    · ext x
      simp
  · show (if b ∈ s.log.lh then s.log.lh else s.log.lh ++ [b]).length ≤ LOGSIZE - 1
    have hn' : s.log.lh.length < LOGSIZE - 1 := hn
    split
    · omega
    · rw [List.length_append, List.length_singleton]
      omega

theorem Inv.endOp {s t : Sys} {p : ℕ} (h : Inv s) (hs : step s (.endOp p) = some t) :
    Inv t ∧ p ∈ s.active ∧ t.active = s.active.erase p ∧ t.logged = s.logged ∧
      t.transaction = s.transaction ∧
      (t.log.committing = true ↔ s.active.erase p = ∅) := by
  obtain ⟨⟨hrun, hp⟩, hs⟩ := Option.ite_none_right_eq_some.mp hs
  have hcard : (s.active.erase p).card = s.log.outstanding - 1 := by
    rw [Finset.card_erase_of_mem hp, h.outstanding]
  have hidle : s.log.committing = false := by
    by_contra hc
    rw [Bool.not_eq_false] at hc
    rw [h.quiet hc] at hp
    exact absurd hp (Finset.notMem_empty p)
  unfold Log.endOp at hs
  rw [if_neg (by simp [hidle])] at hs
  by_cases hlast : s.log.outstanding - 1 = 0
  · have hempty : s.active.erase p = ∅ := Finset.card_eq_zero.mp (hcard.trans hlast)
    rw [if_pos hlast] at hs
    obtain rfl := Option.some.inj hs
    exact ⟨⟨h.size, hrun, h.nodup, h.transaction, h.fits, hcard.symm, fun _ => hempty⟩, hp,
      rfl, rfl, rfl, by simp [hempty]⟩
  · have hne : s.active.erase p ≠ ∅ := by
      intro e
      rw [e, Finset.card_empty] at hcard
      exact hlast hcard.symm
    rw [if_neg hlast] at hs
    obtain rfl := Option.some.inj hs
    exact ⟨⟨h.size, hrun, h.nodup, h.transaction, h.fits, hcard.symm,
      fun hc => by simp [hidle] at hc⟩, hp, rfl, rfl, rfl, by simp [hidle, hne]⟩

theorem Inv.keep {s t : Sys} {a : Action} (h : Inv s) (hroom : Room s a)
    (hs : step s a = some t) : Inv t := by
  cases a with
  | beginOp p =>
    obtain ⟨⟨hrun, hp⟩, hs⟩ := Option.ite_none_right_eq_some.mp hs
    obtain ⟨log, hlog, rfl⟩ := Option.map_eq_some_iff.mp hs
    obtain ⟨hidle, _, rfl⟩ := Log.beginOp_eq_some.mp hlog
    refine ⟨h.size, hrun, h.nodup, h.transaction, h.fits, ?_, fun hc => ?_⟩
    · show s.log.outstanding + 1 = (insert p s.active).card
      rw [Finset.card_insert_of_notMem hp, h.outstanding]
    · have hc' : s.log.committing = true := hc
      simp [hidle] at hc'
  | logWrite p b => exact (h.logWrite hroom hs).1
  | endOp p => exact (h.endOp hs).1
  | clear =>
    obtain ⟨⟨hrun, _⟩, hs⟩ := Option.ite_none_right_eq_some.mp hs
    obtain rfl := Option.some.inj hs
    exact ⟨h.size, hrun, List.nodup_nil, rfl, Nat.zero_le _, h.outstanding, h.quiet⟩
  | committed =>
    obtain ⟨⟨hrun, _, _⟩, hs⟩ := Option.ite_none_right_eq_some.mp hs
    obtain rfl := Option.some.inj hs
    exact ⟨h.size, hrun, h.nodup, h.transaction, h.fits, h.outstanding,
      fun hc => absurd hc (by simp)⟩

theorem Inv.fits' {s : Sys} (h : Inv s) : Fits s := by
  refine ⟨by simp [h.running], ?_⟩
  rw [h.size]
  exact h.fits

/-- A write into a full log panics, absorbed or not. -/
theorem Inv.room_of_running {s t : Sys} {a : Action} (h : Inv s) (hs : step s a = some t)
    (ht : t.panicked ≠ some .tooBig) : Room s a := by
  cases a with
  | logWrite p b =>
    obtain ⟨⟨hrun, hp, _⟩, hs⟩ := Option.ite_none_right_eq_some.mp hs
    show s.transaction.card < LOGSIZE - 1
    rw [h.card]
    by_contra hfull
    have hbig : s.log.logWrite b = .error .tooBig :=
      Log.logWrite_tooBig.mpr (Or.inr (by rw [h.size]; omega))
    rw [hbig] at hs
    obtain rfl := Option.some.inj hs
    exact ht rfl
  | _ => trivial

theorem Inv.room {s t : Sys} {a : Action} (h : Inv s) (hs : step s a = some t)
    (ht : Fits t) : Room s a :=
  h.room_of_running hs ht.1

/-- The log stays where it is. -/
theorem step_place {s t : Sys} {a : Action} (hs : step s a = some t) :
    t.log.start = s.log.start ∧ t.log.size = s.log.size := by
  cases a with
  | beginOp p =>
    obtain ⟨_, hs⟩ := Option.ite_none_right_eq_some.mp hs
    obtain ⟨log, hlog, rfl⟩ := Option.map_eq_some_iff.mp hs
    obtain ⟨_, _, rfl⟩ := Log.beginOp_eq_some.mp hlog
    exact ⟨rfl, rfl⟩
  | logWrite p b =>
    obtain ⟨_, hs⟩ := Option.ite_none_right_eq_some.mp hs
    split at hs
    · rename_i log hlog
      obtain ⟨_, _, _, rfl⟩ := Log.logWrite_ok.mp hlog
      obtain rfl := Option.some.inj hs
      exact ⟨rfl, rfl⟩
    · obtain rfl := Option.some.inj hs
      exact ⟨rfl, rfl⟩
  | endOp p =>
    obtain ⟨_, hs⟩ := Option.ite_none_right_eq_some.mp hs
    split at hs
    · rename_i log _ hlog
      obtain ⟨_, hstart, hsize⟩ := Log.endOp_ok hlog
      obtain rfl := Option.some.inj hs
      exact ⟨hstart, hsize⟩
    · obtain rfl := Option.some.inj hs
      exact ⟨rfl, rfl⟩
  | clear =>
    obtain ⟨_, hs⟩ := Option.ite_none_right_eq_some.mp hs
    obtain rfl := Option.some.inj hs
    exact ⟨rfl, rfl⟩
  | committed =>
    obtain ⟨_, hs⟩ := Option.ite_none_right_eq_some.mp hs
    obtain rfl := Option.some.inj hs
    exact ⟨rfl, rfl⟩

/-- The end of an operation leaves the header to commit. -/
theorem endOp_lh {s t : Sys} {p : ℕ} (hs : step s (.endOp p) = some t) :
    t.log.lh = s.log.lh := by
  obtain ⟨_, hs⟩ := Option.ite_none_right_eq_some.mp hs
  split at hs
  · rename_i log _ hlog
    obtain ⟨hlh, _⟩ := Log.endOp_ok hlog
    obtain rfl := Option.some.inj hs
    exact hlh
  · obtain rfl := Option.some.inj hs
    rfl

theorem init_inv (start : ℕ) : Inv (init start) where
  size := rfl
  running := rfl
  nodup := List.nodup_nil
  transaction := rfl
  fits := Nat.zero_le _
  outstanding := rfl
  quiet := fun hc => absurd hc (by simp [init])

/-- The operation keeps one block below MAXOPBLOCKS. -/
def OneLess (s : Sys) : Action → Prop
  | .logWrite p b => (insert b (s.logged p)).card < MAXOPBLOCKS
  | _ => True

/-- What the log holds and what the running operations may still add. -/
def reserved (s : Sys) : ℕ :=
  s.log.n + ∑ p ∈ s.active, (MAXOPBLOCKS - 1 - (s.logged p).card)

structure Reserved (s : Sys) : Prop extends Inv s where
  enough : reserved s ≤ LOGSIZE - 2
  empty : s.active = ∅ → s.log.committing = false → s.log.lh = []
  mine : ∀ p ∈ s.active, s.logged p ⊆ s.transaction
  budget : ∀ p ∈ s.active, (s.logged p).card < MAXOPBLOCKS

theorem Reserved.room {s : Sys} (h : Reserved s) (a : Action) : Room s a := by
  cases a with
  | logWrite p b =>
    show s.transaction.card < LOGSIZE - 1
    have henough : s.log.n + _ ≤ 30 - 2 := h.enough
    rw [h.card]
    show s.log.n < 30 - 1
    omega
  | _ => trivial

theorem Reserved.keep {s t : Sys} {a : Action} (h : Reserved s) (hC : OneLess s a)
    (hs : step s a = some t) : Reserved t := by
  have hinv := h.toInv.keep (h.room a) hs
  have henough : s.log.n + ∑ p ∈ s.active, (MAXOPBLOCKS - 1 - (s.logged p).card) ≤ LOGSIZE - 2 :=
    h.enough
  cases a with
  | beginOp p =>
    obtain ⟨⟨_, hp⟩, hs⟩ := Option.ite_none_right_eq_some.mp hs
    obtain ⟨log, hlog, rfl⟩ := Option.map_eq_some_iff.mp hs
    obtain ⟨hidle, hroom, rfl⟩ := Log.beginOp_eq_some.mp hlog
    have hother : ∀ q ∈ s.active, Function.update s.logged p ∅ q = s.logged q := by
      intro q hq
      have hqp : q ≠ p := by
        rintro rfl
        exact hp hq
      exact Function.update_of_ne hqp _ _
    refine ⟨hinv, ?_, ?_, ?_, ?_⟩
    · -- the other operations still hold at most MAXOPBLOCKS - 1 blocks each
      have hsum : ∑ q ∈ s.active, (MAXOPBLOCKS - 1 - (s.logged q).card) ≤
          s.active.card * (MAXOPBLOCKS - 1) := by
        rw [← smul_eq_mul]
        exact Finset.sum_le_card_nsmul _ _ _ fun q _ => Nat.sub_le _ _
      have hfirst : s.active.card = 0 → s.log.n = 0 := by
        intro h₀
        show s.log.lh.length = 0
        rw [h.empty (Finset.card_eq_zero.mp h₀) hidle]
        rfl
      show s.log.n + ∑ q ∈ insert p s.active,
        (MAXOPBLOCKS - 1 - (Function.update s.logged p ∅ q).card) ≤ LOGSIZE - 2
      rw [Finset.sum_insert hp, Function.update_self, Finset.card_empty,
        Finset.sum_congr rfl fun q hq => by rw [hother q hq]]
      rw [h.outstanding] at hroom
      simp only [MAXOPBLOCKS, LOGSIZE] at *
      omega
    · intro he
      exact absurd he (Finset.insert_ne_empty p s.active)
    · intro q hq
      show Function.update s.logged p ∅ q ⊆ s.transaction
      rcases Finset.mem_insert.mp hq with rfl | hq
      · rw [Function.update_self]
        exact Finset.empty_subset _
      · rw [hother q hq]
        exact h.mine q hq
    · intro q hq
      show (Function.update s.logged p ∅ q).card < MAXOPBLOCKS
      rcases Finset.mem_insert.mp hq with rfl | hq
      · rw [Function.update_self]
        decide
      · rw [hother q hq]
        exact h.budget q hq
  | logWrite p b =>
    obtain ⟨_, hp, _, hactive, hlogged, htrans, hcommit⟩ :=
      h.toInv.logWrite (h.room (.logWrite p b)) hs
    have hless : (insert b (s.logged p)).card < MAXOPBLOCKS := hC
    have hother : ∀ q, q ≠ p → t.logged q = s.logged q := by
      intro q hq
      rw [hlogged, Function.update_of_ne hq]
    have hown : t.logged p = insert b (s.logged p) := by
      rw [hlogged, Function.update_self]
    refine ⟨hinv, ?_, ?_, ?_, ?_⟩
    · show t.log.n + ∑ q ∈ t.active, (MAXOPBLOCKS - 1 - (t.logged q).card) ≤ LOGSIZE - 2
      rw [← hinv.card, htrans, hactive, ← Finset.add_sum_erase _ _ hp, hown,
        Finset.sum_congr rfl fun q hq => by rw [hother q (Finset.ne_of_mem_erase hq)]]
      rw [← h.toInv.card, ← Finset.add_sum_erase _ _ hp] at henough
      by_cases hb : b ∈ s.logged p
      · rw [Finset.insert_eq_of_mem (h.mine p hp hb), Finset.insert_eq_of_mem hb]
        exact henough
      · -- a block that is new to the log is new to the operation too
        have hgrow := Finset.card_insert_le b s.transaction
        rw [Finset.card_insert_of_notMem hb] at hless ⊢
        omega
    · intro he
      rw [hactive] at he
      rw [he] at hp
      exact absurd hp (Finset.notMem_empty p)
    · intro q hq
      rw [hactive] at hq
      rw [htrans]
      by_cases hqp : q = p
      · rw [hqp, hown]
        exact Finset.insert_subset_insert b (h.mine p hp)
      · rw [hother q hqp]
        exact (h.mine q hq).trans (Finset.subset_insert b _)
    · intro q hq
      rw [hactive] at hq
      by_cases hqp : q = p
      · rw [hqp, hown]
        exact hless
      · rw [hother q hqp]
        exact h.budget q hq
  | endOp p =>
    obtain ⟨_, hp, hactive, hlogged, htrans, hcommit⟩ := h.toInv.endOp hs
    refine ⟨hinv, ?_, ?_, ?_, ?_⟩
    · show t.log.n + ∑ q ∈ t.active, (MAXOPBLOCKS - 1 - (t.logged q).card) ≤ LOGSIZE - 2
      have hsum := Finset.add_sum_erase s.active
        (fun q => MAXOPBLOCKS - 1 - (s.logged q).card) hp
      rw [← hinv.card, htrans, h.toInv.card, hactive, hlogged]
      omega
    · intro he hc
      rw [hactive] at he
      rw [hcommit.mpr he] at hc
      cases hc
    · intro q hq
      rw [hactive] at hq
      rw [hlogged, htrans]
      exact h.mine q (Finset.mem_of_mem_erase hq)
    · intro q hq
      rw [hactive] at hq
      rw [hlogged]
      exact h.budget q (Finset.mem_of_mem_erase hq)
  | clear =>
    obtain ⟨⟨_, hc⟩, hs⟩ := Option.ite_none_right_eq_some.mp hs
    obtain rfl := Option.some.inj hs
    have hquiet : s.active = ∅ := h.quiet hc
    refine ⟨hinv, ?_, fun _ _ => rfl, ?_, ?_⟩
    · show 0 + ∑ q ∈ s.active, (MAXOPBLOCKS - 1 - (s.logged q).card) ≤ LOGSIZE - 2
      rw [hquiet, Finset.sum_empty]
      exact Nat.zero_le _
    · intro q hq
      rw [show q ∈ s.active ↔ q ∈ (∅ : Finset ℕ) by rw [hquiet]] at hq
      exact absurd hq (Finset.notMem_empty q)
    · exact h.budget
  | committed =>
    obtain ⟨⟨_, _, hlh⟩, hs⟩ := Option.ite_none_right_eq_some.mp hs
    obtain rfl := Option.some.inj hs
    exact ⟨hinv, h.enough, fun _ _ => hlh, h.mine, h.budget⟩

theorem init_reserved (start : ℕ) : Reserved (init start) where
  toInv := init_inv start
  enough := by
    show 0 + ∑ q ∈ (∅ : Finset ℕ), _ ≤ LOGSIZE - 2
    rw [Finset.sum_empty]
    exact Nat.zero_le _
  empty := fun _ _ => rfl
  mine := fun q hq => absurd hq (Finset.notMem_empty q)
  budget := fun q hq => absurd hq (Finset.notMem_empty q)

/-- With a budget of one block less for each operation, what begin_op reserves is
enough. -/
theorem always_fits_of_oneLess (start : ℕ) (as : List Action)
    (h : Runs.Meets step OneLess (init start) as) : Runs.Always step Fits (init start) as := by
  have hres : Runs.Always step Reserved (init start) as := by
    apply Runs.always_of_meets _ (init_reserved start) h
    intro s a t hs hC hst
    exact hs.keep hC hst
  exact hres.mono fun s hs => hs.toInv.fits'

end NorthOS.LogSpace
