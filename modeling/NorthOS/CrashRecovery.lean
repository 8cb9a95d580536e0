import NorthOS.Commit
import NorthOS.Runs

/-!
Crash atomicity of the log over whole runs: operations log blocks, the last one
commits, buffers are recycled, and the power fails between any two block writes of
a commit or of a recovery. Every part of log.c is shown to write what the redo log
writes; the guarantee is then the redo log's.
-/
namespace NorthOS.Commit

open LittleEndian RedoLog

namespace Machine

variable {m t u : Machine}

/-- What bread returns. -/
def contents (m : Machine) (b : ℕ) : Bytes :=
  match m.cache b with
  | some buf => buf.data
  | none => m.disk b

def Dirty (m : Machine) (b : ℕ) : Prop := ∃ data, m.cache b = some ⟨data, true⟩

/-- A buffer that is not dirty holds its block. -/
def Coherent (m : Machine) : Prop :=
  ∀ b data, m.cache b = some ⟨data, false⟩ → data = m.disk b

theorem contents_of_not_dirty (hm : m.Coherent) {b : ℕ} (hb : ¬ m.Dirty b) :
    m.contents b = m.disk b := by
  unfold contents
  cases hc : m.cache b with
  | none => rfl
  | some buf =>
    obtain ⟨data, dirty⟩ := buf
    cases dirty with
    | false => exact hm b data hc
    | true => exact absurd ⟨data, hc⟩ hb

/-- `t` comes from `m` by the writes `ws`, and nothing becomes dirty. -/
structure Writes (m t : Machine) (ws : List (ℕ × Bytes)) : Prop where
  disk : t.disk = apply m.disk ws
  contents : t.contents = apply m.contents ws
  written : t.written = m.written ++ ws
  coherent : m.Coherent → t.Coherent
  dirty : ∀ b, t.Dirty b → m.Dirty b ∧ ∀ w ∈ ws, w.1 ≠ b

theorem Writes.refl (m : Machine) : Writes m m [] where
  disk := rfl
  contents := rfl
  written := (List.append_nil _).symm
  coherent := id
  dirty := fun _ hb => ⟨hb, fun _ hw => absurd hw List.not_mem_nil⟩

theorem Writes.trans {ws vs : List (ℕ × Bytes)} (h : Writes m t ws) (h' : Writes t u vs) :
    Writes m u (ws ++ vs) where
  disk := by rw [h'.disk, h.disk, apply_append]
  contents := by rw [h'.contents, h.contents, apply_append]
  written := by rw [h'.written, h.written, List.append_assoc]
  coherent := fun hm => h'.coherent (h.coherent hm)
  dirty := by
    intro b hb
    obtain ⟨ht, hvs⟩ := h'.dirty b hb
    obtain ⟨hm, hws⟩ := h.dirty b ht
    refine ⟨hm, fun w hw => ?_⟩
    rcases List.mem_append.mp hw with hw | hw
    · exact hws w hw
    · exact hvs w hw

theorem setLog_writes (m : Machine) (log : Log) : Writes m { m with log := log } [] where
  disk := rfl
  contents := rfl
  written := (List.append_nil _).symm
  coherent := id
  dirty := fun _ hb => ⟨hb, fun _ hw => absurd hw List.not_mem_nil⟩

@[simp] theorem bread_log (m : Machine) (b : ℕ) : (m.bread b).2.log = m.log := by
  unfold bread
  cases m.cache b <;> rfl

@[simp] theorem bwrite_log (m : Machine) (b : ℕ) (data : Bytes) :
    (m.bwrite b data).log = m.log := rfl

@[simp] theorem installFrom_log (m : Machine) (i : ℕ) (bs : List ℕ) :
    (m.installFrom i bs).log = m.log := by
  induction bs generalizing m i with
  | nil => rfl
  | cons b bs ih =>
    rw [installFrom, ih]
    simp

@[simp] theorem writeLogFrom_log (m : Machine) (i : ℕ) (bs : List ℕ) :
    (m.writeLogFrom i bs).log = m.log := by
  induction bs generalizing m i with
  | nil => rfl
  | cons b bs ih =>
    rw [writeLogFrom, ih]
    simp

@[simp] theorem installTrans_log (m : Machine) : m.installTrans.log = m.log :=
  installFrom_log m 0 m.log.lh

@[simp] theorem clear_log (m : Machine) : m.clear.log = { m.log with lh := [] } := rfl

@[simp] theorem writeHead_log (m : Machine) : m.writeHead.log = m.log := by
  simp [writeHead]

theorem bread_contents (m : Machine) (b : ℕ) : (m.bread b).1 = m.contents b := by
  unfold bread contents
  cases m.cache b <;> rfl

theorem bread_writes (m : Machine) (b : ℕ) : Writes m (m.bread b).2 [] := by
  cases hc : m.cache b with
  | some buf =>
    have hb : (m.bread b).2 = m := by simp [bread, hc]
    rw [hb]
    exact .refl m
  | none =>
    have hb : (m.bread b).2 =
        { m with cache := Function.update m.cache b (some ⟨m.disk b, false⟩) } := by
      simp [bread, hc]
    rw [hb]
    refine ⟨rfl, ?_, (List.append_nil _).symm, ?_, ?_⟩
    · funext c
      by_cases hcb : c = b
      · simp [contents, apply, hcb, hc]
      · simp [contents, apply, hcb]
    · intro hm c data hdata
      by_cases hcb : c = b
      · subst hcb
        simp only [Function.update_self, Option.some.injEq, Buf.mk.injEq, and_true] at hdata
        exact hdata.symm
      · simp only [Function.update_of_ne hcb] at hdata
        exact hm c data hdata
    · rintro c ⟨data, hdata⟩
      refine ⟨⟨data, ?_⟩, fun _ hw => absurd hw List.not_mem_nil⟩
      by_cases hcb : c = b
      · subst hcb
        simp at hdata
      · simpa only [Function.update_of_ne hcb] using hdata

theorem bwrite_writes (m : Machine) (b : ℕ) (data : Bytes) :
    Writes m (m.bwrite b data) [(b, data)] where
  disk := rfl
  contents := by
    funext c
    by_cases hcb : c = b
    · simp [contents, bwrite, apply, hcb]
    · simp [contents, bwrite, apply, hcb]
  written := rfl
  coherent := by
    intro hm c x hx
    by_cases hcb : c = b
    · subst hcb
      simp only [bwrite, Function.update_self, Option.some.injEq, Buf.mk.injEq, and_true] at hx ⊢
      exact hx.symm
    · simp only [bwrite, Function.update_of_ne hcb] at hx ⊢
      exact hm c x hx
  dirty := by
    rintro c ⟨x, hx⟩
    by_cases hcb : c = b
    · subst hcb
      simp [bwrite] at hx
    · refine ⟨⟨x, by simpa only [bwrite, Function.update_of_ne hcb] using hx⟩, ?_⟩
      intro w hw
      rw [List.mem_singleton.mp hw]
      exact fun e => hcb e.symm

/-- Reading one block and writing another with what was read. -/
theorem copy_writes (m : Machine) (b c : ℕ) (data : Bytes) :
    Writes m (((m.bread b).2.bread c).2.bwrite c data) [(c, data)] :=
  (bread_writes m b).trans ((bread_writes _ c).trans (bwrite_writes _ c data))

/-- install_trans copies the slots it was started with: home blocks are not slots. -/
theorem installFrom_writes {bs : List ℕ} {i : ℕ}
    (hhome : ∀ b ∈ bs, (format m.log.start m.log.size).Home b)
    (hroom : i + bs.length < m.log.size) :
    Writes m (m.installFrom i bs)
      ((format m.log.start m.log.size).installs m.contents i bs) := by
  induction bs generalizing m i with
  | nil => exact .refl m
  | cons b bs ih =>
    rw [List.length_cons] at hroom
    set c := ((m.bread (m.log.start + i + 1)).2.bread b).2.bwrite b
      (m.bread (m.log.start + i + 1)).1 with hc
    have hstep : Writes m c [(b, m.contents (m.log.start + i + 1))] := by
      rw [hc, bread_contents]
      exact copy_writes m _ b _
    have hlog : c.log = m.log := by
      rw [hc]
      simp
    have hslot : ∀ x, m.log.start + (i + 1) < x → x ≤ m.log.start + (i + 1) + bs.length →
        c.contents x = m.contents x := by
      intro x hlo hhi
      rw [hstep.contents]
      have hb : b < m.log.start ∨ m.log.start + m.log.size ≤ b := hhome b List.mem_cons_self
      exact Function.update_of_ne (by omega) _ _
    have hrest := ih (m := c) (i := i + 1)
      (by rw [hlog]; exact fun x hx => hhome x (List.mem_cons_of_mem b hx))
      (by rw [hlog]; omega)
    rw [hlog, Format.installs_congr hslot] at hrest
    exact hstep.trans hrest

theorem writeLogFrom_writes {bs : List ℕ} {i : ℕ}
    (hhome : ∀ b ∈ bs, (format m.log.start m.log.size).Home b)
    (hroom : i + bs.length < m.log.size) :
    Writes m (m.writeLogFrom i bs) ((format m.log.start m.log.size).slots m.contents i bs) := by
  induction bs generalizing m i with
  | nil => exact .refl m
  | cons b bs ih =>
    rw [List.length_cons] at hroom
    set x := m.log.start + i + 1 with hx
    set c := ((m.bread x).2.bread b).2.bwrite x ((m.bread x).2.bread b).1 with hc
    have hread : ((m.bread x).2.bread b).1 = m.contents b := by
      rw [bread_contents, (bread_writes m x).contents]
      rfl
    have hstep : Writes m c [(x, m.contents b)] := by
      rw [hc, hread]
      exact (bread_writes m x).trans ((bread_writes _ b).trans (bwrite_writes _ x _))
    have hlog : c.log = m.log := by
      rw [hc]
      simp
    have hsame : ∀ y ∈ bs, c.contents y = m.contents y := by
      intro y hy
      rw [hstep.contents]
      have hhy : y < m.log.start ∨ m.log.start + m.log.size ≤ y :=
        hhome y (List.mem_cons_of_mem b hy)
      exact Function.update_of_ne (by omega) _ _
    have hrest := ih (m := c) (i := i + 1)
      (by rw [hlog]; exact fun y hy => hhome y (List.mem_cons_of_mem b hy))
      (by rw [hlog]; omega)
    rw [hlog, Format.slots_congr hsame] at hrest
    exact hstep.trans hrest

theorem writeHead_writes (m : Machine) :
    Writes m m.writeHead [(m.log.start, storeHead m.log.lh (m.contents m.log.start))] := by
  unfold writeHead
  rw [bread_contents]
  exact (bread_writes m m.log.start).trans (bwrite_writes _ _ _)

/-- recover_from_log writes what the redo log's recovery writes. -/
theorem recoverFromLog_writes
    (hv : (format m.log.start m.log.size).Valid (loadHead (m.contents m.log.start))) :
    Writes m m.recoverFromLog ((format m.log.start m.log.size).recoverWrites m.contents) ∧
      m.recoverFromLog.log = { m.log with lh := [] } := by
  set F := format m.log.start m.log.size with hF
  have hroom : (loadHead (m.contents m.log.start)).length < m.log.size := hv.room
  have hread : Writes m m.readHead [] :=
    (bread_writes m m.log.start).trans (setLog_writes _ _)
  have hlog : m.readHead.log = { m.log with lh := loadHead (m.contents m.log.start) } := by
    rw [← bread_contents]
    rfl
  have hinst : Writes m.readHead m.readHead.installTrans
      (F.installs m.readHead.contents 0 (loadHead (m.contents m.log.start))) := by
    have h := @installFrom_writes m.readHead m.readHead.log.lh 0
    rw [hlog] at h
    unfold installTrans
    rw [hlog]
    apply h hv.home
    show 0 + (loadHead (m.contents m.log.start)).length < m.log.size
    omega
  have hcon : m.readHead.contents = m.contents := by
    rw [hread.contents]
    rfl
  rw [hcon] at hinst
  have hclear : Writes m.readHead.installTrans m.readHead.installTrans.clear [] :=
    setLog_writes _ _
  have hlog' : m.readHead.installTrans.clear.log = { m.log with lh := [] } := by
    rw [clear_log, installTrans_log, hlog]
  have hhead := writeHead_writes m.readHead.installTrans.clear
  rw [hlog'] at hhead
  -- the header is not among the blocks installed
  have hsame : m.readHead.installTrans.clear.contents m.log.start =
      m.contents m.log.start := by
    rw [hclear.contents, hinst.contents, hcon]
    show apply m.contents (F.installs m.contents 0 (loadHead (m.contents m.log.start))) _ = _
    apply apply_of_notMem
    intro w hw
    exact (hv.home w.1 (Format.installs_key w hw)).ne (Nat.le_refl _) (by
      show m.log.start < m.log.start + m.log.size
      omega)
  have hall := hread.trans (hinst.trans (hclear.trans hhead))
  refine ⟨?_, ?_⟩
  · rw [hsame] at hall
    exact hall
  · show m.readHead.installTrans.clear.writeHead.log = _
    rw [writeHead_log, hlog']

/-- commit writes what the redo log's commit writes. -/
theorem commit_writes (hn : 0 < m.log.n)
    (hv : (format m.log.start m.log.size).Valid m.log.lh) :
    Writes m m.commit
        ((format m.log.start m.log.size).commitWrites m.contents m.contents m.log.lh) ∧
      m.commit.log = { m.log with lh := [] } := by
  set F := format m.log.start m.log.size with hF
  have hroom : m.log.lh.length < m.log.size := hv.room
  have hstart : m.log.start < m.log.start + m.log.size := by omega
  have hfill : Writes m m.writeLog (F.slots m.contents 0 m.log.lh) :=
    writeLogFrom_writes hv.home (by omega)
  have hlog₁ : m.writeLog.log = m.log := writeLogFrom_log m 0 m.log.lh
  have hhead₁ := writeHead_writes m.writeLog
  have hsame₁ : m.writeLog.contents m.log.start = m.contents m.log.start := by
    rw [hfill.contents]
    apply apply_of_notMem
    intro w hw
    have hlo : m.log.start + 0 < w.1 := (Format.slots_key w hw).1
    omega
  rw [hlog₁, hsame₁] at hhead₁
  have hlog₂ : m.writeLog.writeHead.log = m.log := by rw [writeHead_log, hlog₁]
  -- the slots hold the logged blocks when they are installed
  have hhold : F.Holds m.writeLog.writeHead.contents m.contents 0 m.log.lh := by
    apply (Format.holds_slots (F := F) (f := m.contents) m.contents 0).congr
    intro x hlo hhi
    have hlo' : m.log.start + 0 < x := hlo
    rw [hhead₁.contents, hfill.contents]
    exact Function.update_of_ne (by omega) _ _
  have hinst : Writes m.writeLog.writeHead m.writeLog.writeHead.installTrans
      (m.log.lh.map fun b => (b, m.contents b)) := by
    have h := @installFrom_writes m.writeLog.writeHead m.log.lh 0
    rw [hlog₂] at h
    unfold installTrans
    rw [hlog₂, ← Format.installs_of_holds hhold]
    exact h hv.home (by omega)
  have hclear : Writes m.writeLog.writeHead.installTrans
      m.writeLog.writeHead.installTrans.clear [] := setLog_writes _ _
  have hlog₃ : m.writeLog.writeHead.installTrans.clear.log = { m.log with lh := [] } := by
    rw [clear_log, installTrans_log, hlog₂]
  have hhead₂ := writeHead_writes m.writeLog.writeHead.installTrans.clear
  have hsame₂ : m.writeLog.writeHead.installTrans.clear.contents m.log.start =
      storeHead m.log.lh (m.contents m.log.start) := by
    rw [hclear.contents, hinst.contents, hhead₁.contents]
    show apply (Function.update _ m.log.start _) _ m.log.start = _
    rw [apply_map, if_neg, Function.update_self]
    intro hmem
    exact (hv.home _ hmem).ne (Nat.le_refl _) hstart rfl
  rw [hlog₃, hsame₂] at hhead₂
  have hall := hfill.trans (hhead₁.trans (hinst.trans (hclear.trans hhead₂)))
  have hcommit : m.commit = m.writeLog.writeHead.installTrans.clear.writeHead := by
    rw [commit, if_pos hn]
  rw [hcommit]
  exact ⟨hall, by rw [writeHead_log, hlog₃]⟩

end Machine

theorem contents_boot (start size : ℕ) (disk : ℕ → Bytes) :
    (boot start size disk).contents = disk := rfl

theorem initlog_writes {start size : ℕ} {disk : ℕ → Bytes}
    (hv : (format start size).Valid (loadHead (disk start))) :
    Machine.Writes (boot start size disk) (initlog start size disk)
        ((format start size).recoverWrites disk) ∧
      (initlog start size disk).log = ⟨start, size, 0, false, []⟩ := by
  have h := Machine.recoverFromLog_writes (m := boot start size disk) hv
  rw [contents_boot] at h
  exact h

theorem initlog_disk {start size : ℕ} {disk : ℕ → Bytes}
    (hv : (format start size).Valid (loadHead (disk start))) :
    (initlog start size disk).disk = (format start size).recover disk :=
  (initlog_writes hv).1.disk

/-- Boots that are cut short are recoveries of the redo log that are cut short. -/
theorem cutBoots_eq {start size : ℕ} {disk : ℕ → Bytes}
    (hv : (format start size).Valid (loadHead (disk start))) (js : List ℕ) :
    cutBoots start size disk js = (format start size).interrupted disk js ∧
      (format start size).Valid (loadHead (cutBoots start size disk js start)) := by
  induction js generalizing disk with
  | nil => exact ⟨rfl, hv⟩
  | cons j js ih =>
    have hcrash : crash (boot start size disk) (initlog start size disk) j =
        apply disk (((format start size).recoverWrites disk).take j) := by
      have hw := (initlog_writes hv).1.written
      unfold crash
      rw [hw, List.drop_left]
      rfl
    have hv' := (Format.recover_cut hv j).2
    rw [← hcrash] at hv'
    obtain ⟨heq, hvalid⟩ := ih hv'
    refine ⟨?_, hvalid⟩
    rw [cutBoots, heq, Format.interrupted, hcrash]

/-- The machine with the home blocks as the transactions committed so far left them
and as the open transaction has them. -/
structure Sys where
  m : Machine
  before : ℕ → Bytes
  pending : ℕ → Bytes

namespace Sys

def format (s : Sys) : Format Bytes := Commit.format s.m.log.start s.m.log.size

/-- The disk that a boot finds when the power fails after `k` writes of the commit of
`s`, and again in the boots that follow, after `js` writes. -/
def crashed (s : Sys) (k : ℕ) (js : List ℕ) : ℕ → Bytes :=
  cutBoots s.m.log.start s.m.log.size (crash s.m s.m.commit k) js

def recovered (s : Sys) (disk : ℕ → Bytes) : ℕ → Bytes :=
  (initlog s.m.log.start s.m.log.size disk).disk

theorem recovered_eq (s : Sys) {d : ℕ → Bytes}
    (hv : s.format.Valid (s.format.targets (d s.format.start))) :
    s.recovered d = s.format.recover d := initlog_disk hv

theorem recovered_recovered (s : Sys) {d : ℕ → Bytes}
    (hv : s.format.Valid (s.format.targets (d s.format.start))) :
    s.recovered (s.recovered d) = s.recovered d := by
  have hsize : 0 < s.format.size := Nat.zero_lt_of_lt hv.room
  have hclear : s.format.targets (s.format.recover d s.format.start) = [] := by
    rw [Format.recover_header, Format.targets_clear]
  have hvalid : s.format.Valid (s.format.targets (s.format.recover d s.format.start)) := by
    rw [hclear]
    exact .nil hsize
  rw [s.recovered_eq hv, s.recovered_eq hvalid, Format.recover_recover]

end Sys

inductive Action
  | beginOp
  | logWrite (blockno : ℕ) (data : Bytes)
  | evict (blockno : ℕ)
  | endOp
  | crash (k : ℕ) (js : List ℕ)

/-- Only home blocks are logged. A crash is in a commit when one operation is left,
and outside of it otherwise; the commit point is the write of the header, which comes
behind those of the slots. A panic is a crash. -/
def step (s : Sys) : Action → Option Sys
  | .beginOp => s.m.log.beginOp.map fun log => { s with m := { s.m with log := log } }
  | .logWrite b data =>
    if (b < s.m.log.start ∨ s.m.log.start + s.m.log.size ≤ b) ∧ b < 256 ^ 4 then
      match s.m.logWrite b data with
      | .ok m => some { s with m := m, pending := Function.update s.pending b data }
      | .error _ => none
    else none
  | .evict b => (s.m.evict b).map fun m => { s with m := m }
  | .endOp =>
    if 0 < s.m.log.outstanding then
      match s.m.endOp with
      | .ok m =>
        some ⟨m, if s.m.log.outstanding = 1 then s.pending else s.before, s.pending⟩
      | .error _ => none
    else none
  | .crash k js =>
    if k = 0 ∨ s.m.log.outstanding = 1 then
      let home := if s.m.log.n < k then s.pending else s.before
      some ⟨initlog s.m.log.start s.m.log.size (s.crashed k js), home, home⟩
    else none

def init (start size : ℕ) (disk : ℕ → Bytes) : Sys :=
  ⟨initlog start size disk, disk, disk⟩

/-- Wherever the commit of the open transaction and the boots after it are cut short,
recovery makes all home blocks as they were before it, or all as they are after it, and
repeating recovery changes no block of the disk. -/
structure Atomic (s : Sys) : Prop where
  choice : ∀ k js,
    (∀ b, s.format.Home b → s.recovered (s.crashed k js) b = s.before b) ∨
      (∀ b, s.format.Home b → s.recovered (s.crashed k js) b = s.pending b)
  again : ∀ k js n,
    s.recovered^[n + 1] (s.crashed k js) = s.recovered (s.crashed k js)

structure Inv (s : Sys) : Prop where
  coherent : s.m.Coherent
  valid : s.format.Valid s.m.log.lh
  dirty : ∀ b, s.m.Dirty b → b ∈ s.m.log.lh
  clear : s.format.targets (s.m.disk s.format.start) = []
  before : ∀ b, s.format.Home b → s.m.disk b = s.before b
  pending : ∀ b, s.format.Home b → s.m.contents b = s.pending b

namespace Inv

variable {s t : Sys}

theorem room (h : Inv s) : s.m.log.lh.length < s.m.log.size := h.valid.room

theorem header_home (h : Inv s) : s.m.log.start ∉ s.m.log.lh := by
  intro hmem
  have hroom := h.room
  exact (h.valid.home _ hmem).ne (Nat.le_refl s.m.log.start)
    (show s.m.log.start < s.m.log.start + s.m.log.size by omega) rfl

theorem contents_of_notMem (h : Inv s) {b : ℕ} (hb : b ∉ s.m.log.lh) :
    s.m.contents b = s.m.disk b :=
  Machine.contents_of_not_dirty h.coherent fun hd => hb (h.dirty b hd)

theorem pending_eq (h : Inv s) {b : ℕ} (hb : s.format.Home b) :
    (if b ∈ s.m.log.lh then s.m.contents b else s.m.disk b) = s.pending b := by
  rw [← h.pending b hb]
  split
  · rfl
  · rename_i hmem
    exact (h.contents_of_notMem hmem).symm

/-- The disk after `k` writes of commit. -/
theorem crash_eq (h : Inv s) (hn : 0 < s.m.log.n) (k : ℕ) :
    crash s.m s.m.commit k =
      apply s.m.disk ((s.format.commitWrites s.m.disk s.m.contents s.m.log.lh).take k) := by
  have hw := (Machine.commit_writes hn h.valid).1.written
  have hhead : s.format.commitWrites s.m.contents s.m.contents s.m.log.lh =
      s.format.commitWrites s.m.disk s.m.contents s.m.log.lh := by
    unfold Format.commitWrites
    rw [show s.m.contents s.format.start = s.m.disk s.format.start from
      h.contents_of_notMem h.header_home]
  unfold crash
  rw [hw, List.drop_left]
  exact congrArg (fun ws : List (ℕ × Bytes) => apply s.m.disk (ws.take k)) hhead

/-- What recovery makes of a commit that was cut after `k` writes. -/
theorem recover_crash (h : Inv s) (k : ℕ) :
    s.format.Valid (s.format.targets (crash s.m s.m.commit k s.format.start)) ∧
      ∀ b, s.format.Home b → s.format.recover (crash s.m s.m.commit k) b =
        if s.m.log.n < k then s.pending b else s.before b := by
  have hroom := h.room
  have hnil : s.format.Valid [] := .nil (show 0 < s.m.log.size by omega)
  by_cases hn : 0 < s.m.log.n
  · rw [h.crash_eq hn k]
    by_cases hk : s.m.log.n < k
    · obtain ⟨hv, hrec⟩ := Format.recover_commit_late (d := s.m.disk) (f := s.m.contents)
        h.valid hk
      refine ⟨hv, fun b hb => ?_⟩
      rw [if_pos hk, hrec b hb, h.pending_eq hb]
    · obtain ⟨hv, hrec⟩ := Format.recover_commit_early (f := s.m.contents) h.clear h.valid
        (k := k) (Nat.not_lt.mp hk)
      refine ⟨?_, fun b hb => ?_⟩
      · rw [hv]
        exact hnil
      · rw [if_neg hk, hrec b hb, h.before b hb]
  · -- nothing is logged, so commit writes nothing
    have hlh : s.m.log.lh = [] := List.length_eq_zero_iff.mp (Nat.eq_zero_of_not_pos hn)
    have hcrash : crash s.m s.m.commit k = s.m.disk := by
      unfold crash Machine.commit
      rw [if_neg hn, List.drop_length, List.take_nil]
      rfl
    rw [hcrash]
    refine ⟨by rw [h.clear]; exact hnil, fun b hb => ?_⟩
    have hne : b ≠ s.m.log.start :=
      hb.ne (Nat.le_refl _) (show s.m.log.start < s.m.log.start + s.m.log.size by omega)
    rw [Format.recover_other (by rw [h.clear]; exact List.not_mem_nil) hne]
    have hpend := h.pending_eq hb
    rw [hlh, if_neg List.not_mem_nil] at hpend
    split
    · exact hpend
    · exact h.before b hb

theorem recovered_crashed (h : Inv s) (k : ℕ) (js : List ℕ) :
    s.format.Valid (s.format.targets (s.crashed k js s.format.start)) ∧
      s.recovered (s.crashed k js) = s.format.recover (crash s.m s.m.commit k) := by
  obtain ⟨hv, _⟩ := h.recover_crash k
  obtain ⟨heq, hvalid⟩ := cutBoots_eq hv js
  have heq' : s.crashed k js = s.format.interrupted (crash s.m s.m.commit k) js := heq
  have hv' : s.format.Valid (s.format.targets (s.crashed k js s.format.start)) := hvalid
  refine ⟨hv', ?_⟩
  rw [s.recovered_eq hv', heq']
  exact Format.recover_interrupted hv js

theorem atomic (h : Inv s) : Atomic s where
  choice := by
    intro k js
    obtain ⟨_, hrec⟩ := h.recover_crash k
    rw [(h.recovered_crashed k js).2]
    by_cases hk : s.m.log.n < k
    · right
      intro b hb
      rw [hrec b hb, if_pos hk]
    · left
      intro b hb
      rw [hrec b hb, if_neg hk]
  again := by
    intro k js n
    obtain ⟨hv, _⟩ := h.recovered_crashed k js
    have hfix := s.recovered_recovered hv
    induction n with
    | zero => rfl
    | succ n ih => rw [Function.iterate_succ_apply', ih, hfix]

end Inv

/-- After recovery the cache agrees with the disk, and no transaction is open. -/
theorem inv_initlog {start size : ℕ} {disk home : ℕ → Bytes}
    (hv : (format start size).Valid ((format start size).targets (disk start)))
    (hhome : ∀ b, (format start size).Home b → (format start size).recover disk b = home b) :
    Inv ⟨initlog start size disk, home, home⟩ := by
  have hsize : 0 < size := Nat.zero_lt_of_lt hv.room
  obtain ⟨hw, hlog⟩ := initlog_writes hv
  have hdisk := initlog_disk hv
  have hboot : (boot start size disk).Coherent := fun b data hc => by cases hc
  have hcoh : (initlog start size disk).Coherent := hw.coherent hboot
  have hclean : ∀ b, ¬ (initlog start size disk).Dirty b := by
    intro b hb
    obtain ⟨⟨data, hc⟩, _⟩ := hw.dirty b hb
    cases hc
  have hformat : Sys.format ⟨initlog start size disk, home, home⟩ = format start size := by
    unfold Sys.format
    rw [hlog]
  refine ⟨hcoh, ?_, ?_, ?_, ?_, ?_⟩
  · rw [hformat]
    show (format start size).Valid (initlog start size disk).log.lh
    rw [hlog]
    exact .nil hsize
  · intro b hb
    exact absurd hb (hclean b)
  · rw [hformat]
    have hhead : (initlog start size disk).disk (format start size).start =
        (format start size).store [] (disk (format start size).start) := by
      rw [hdisk, Format.recover_header]
    rw [hhead, Format.targets_clear]
  · intro b hb
    rw [hformat] at hb
    show (initlog start size disk).disk b = home b
    rw [hdisk]
    exact hhome b hb
  · intro b hb
    rw [hformat] at hb
    show (initlog start size disk).contents b = home b
    rw [Machine.contents_of_not_dirty hcoh (hclean b), hdisk]
    exact hhome b hb

namespace Inv

variable {s t : Sys}

/-- The log may count and flag as it likes: only the header entries matter. -/
theorem setLog (h : Inv s) (log : Log) (hstart : log.start = s.m.log.start)
    (hsize : log.size = s.m.log.size) (hlh : log.lh = s.m.log.lh) :
    Inv { s with m := { s.m with log := log } } := by
  have hformat : Sys.format { s with m := { s.m with log := log } } = s.format := by
    unfold Sys.format
    rw [hstart, hsize]
  refine ⟨h.coherent, ?_, ?_, ?_, ?_, ?_⟩
  · rw [hformat]
    show s.format.Valid log.lh
    rw [hlh]
    exact h.valid
  · intro b hb
    show b ∈ log.lh
    rw [hlh]
    exact h.dirty b hb
  · rw [hformat]
    exact h.clear
  · intro b hb
    rw [hformat] at hb
    exact h.before b hb
  · intro b hb
    rw [hformat] at hb
    exact h.pending b hb

theorem logWrite (h : Inv s) {b : ℕ} {data : Bytes} {m : Machine} (hb : s.format.Home b)
    (hfit : b < 256 ^ 4) (hlen : LOGSIZE < 256 ^ 4) (hm : s.m.logWrite b data = .ok m) :
    Inv { s with m := m, pending := Function.update s.pending b data } := by
  unfold Machine.logWrite at hm
  cases hlog : s.m.log.logWrite b with
  | error e =>
    rw [hlog] at hm
    cases hm
  | ok log =>
    rw [hlog] at hm
    obtain ⟨hn, hroom, _, hlog⟩ := Log.logWrite_ok.mp hlog
    have hread := Machine.bread_writes s.m b
    obtain rfl := Except.ok.inj hm
    have hstart : log.start = s.m.log.start := by rw [hlog]
    have hsize : log.size = s.m.log.size := by rw [hlog]
    have hmem : ∀ c, c ∈ log.lh ↔ c ∈ s.m.log.lh ∨ c = b := by
      intro c
      rw [hlog]
      show c ∈ (if b ∈ s.m.log.lh then s.m.log.lh else s.m.log.lh ++ [b]) ↔ _
      split
      · rename_i hin
        exact ⟨Or.inl, fun hc => hc.elim id fun e => e ▸ hin⟩
      · simp
    have hlength : log.lh.length ≤ s.m.log.n + 1 := by
      rw [hlog]
      show (if b ∈ s.m.log.lh then s.m.log.lh else s.m.log.lh ++ [b]).length ≤
        s.m.log.lh.length + 1
      split
      · omega
      · rw [List.length_append, List.length_singleton]
    have hdisk : (s.m.bread b).2.disk = s.m.disk := hread.disk
    refine ⟨?_, ⟨⟨?_, ?_⟩, ?_, ?_⟩, ?_, ?_, ?_, ?_⟩
    · intro c x hx
      by_cases hcb : c = b
      · subst hcb
        simp at hx
      · simp only [Function.update_of_ne hcb] at hx
        exact hread.coherent h.coherent c x hx
    · intro c hc
      rcases (hmem c).mp hc with hc | rfl
      · exact h.valid.fits.1 c hc
      · exact hfit
    · show log.lh.length < 256 ^ 4
      omega
    · intro c hc
      show c < log.start ∨ log.start + log.size ≤ c
      rw [hstart, hsize]
      rcases (hmem c).mp hc with hc | rfl
      · exact h.valid.home c hc
      · exact hb
    · show log.lh.length < log.size
      omega
    · rintro c ⟨x, hx⟩
      show c ∈ log.lh
      rw [hmem]
      by_cases hcb : c = b
      · exact Or.inr hcb
      · simp only [Function.update_of_ne hcb] at hx
        exact Or.inl (h.dirty c (hread.dirty c ⟨x, hx⟩).1)
    · have hclear : loadHead (s.m.disk s.m.log.start) = [] := h.clear
      show loadHead ((s.m.bread b).2.disk log.start) = []
      rw [hdisk, hstart, hclear]
    · intro c hc
      show (s.m.bread b).2.disk c = s.before c
      rw [hdisk]
      apply h.before
      show c < s.m.log.start ∨ s.m.log.start + s.m.log.size ≤ c
      rw [← hstart, ← hsize]
      exact hc
    · intro c hc
      have hc' : s.format.Home c := by
        show c < s.m.log.start ∨ s.m.log.start + s.m.log.size ≤ c
        rw [← hstart, ← hsize]
        exact hc
      by_cases hcb : c = b
      · subst hcb
        simp [Machine.contents]
      · show Machine.contents _ c = Function.update s.pending b data c
        rw [Function.update_of_ne hcb, ← h.pending c hc',
          show s.m.contents c = (s.m.bread b).2.contents c by rw [hread.contents]; rfl]
        simp [Machine.contents, hcb]

theorem evict (h : Inv s) {b : ℕ} {m : Machine} (hm : s.m.evict b = some m) :
    Inv { s with m := m } := by
  have hclean : ¬ s.m.Dirty b := by
    rintro ⟨data, hc⟩
    rw [Machine.evict, hc] at hm
    cases hm
  have hmb : m = { s.m with cache := Function.update s.m.cache b none } := by
    unfold Machine.evict at hm
    split at hm
    · cases hm
    · exact (Option.some.inj hm).symm
  have hcon : m.contents = s.m.contents := by
    funext c
    by_cases hcb : c = b
    · subst hcb
      rw [Machine.contents_of_not_dirty h.coherent hclean, hmb]
      simp [Machine.contents]
    · rw [hmb]
      simp [Machine.contents, hcb]
  have hcache : ∀ c buf, m.cache c = some buf → s.m.cache c = some buf := by
    intro c buf hc
    rw [hmb] at hc
    by_cases hcb : c = b
    · subst hcb
      simp at hc
    · simpa only [Function.update_of_ne hcb] using hc
  have hdisk : m.disk = s.m.disk := by rw [hmb]
  have hlog : m.log = s.m.log := by rw [hmb]
  have hformat : Sys.format { s with m := m } = s.format := by
    unfold Sys.format
    rw [hlog]
  refine ⟨?_, ?_, ?_, ?_, ?_, ?_⟩
  · intro c x hx
    rw [hdisk]
    exact h.coherent c x (hcache c _ hx)
  · rw [hformat, hlog]
    exact h.valid
  · rintro c ⟨x, hx⟩
    rw [hlog]
    exact h.dirty c ⟨x, hcache c _ hx⟩
  · rw [hformat, hdisk]
    exact h.clear
  · intro c hc
    rw [hformat] at hc
    rw [hdisk]
    exact h.before c hc
  · intro c hc
    rw [hformat] at hc
    rw [hcon]
    exact h.pending c hc

/-- A whole commit puts the open transaction on the home blocks. -/
theorem commit (h : Inv s) : Inv ⟨s.m.commit, s.pending, s.pending⟩ := by
  by_cases hn : 0 < s.m.log.n
  · obtain ⟨hw, hlog⟩ := Machine.commit_writes hn h.valid
    have hroom := h.room
    have hformat : Sys.format ⟨s.m.commit, s.pending, s.pending⟩ = s.format := by
      unfold Sys.format
      rw [hlog]
    have hclean : ∀ b, ¬ s.m.commit.Dirty b := by
      intro b hb
      obtain ⟨hd, hne⟩ := hw.dirty b hb
      have hmem : (b, s.m.contents b) ∈
          s.format.commitWrites s.m.contents s.m.contents s.m.log.lh := by
        apply List.mem_append_right
        apply List.mem_cons_of_mem
        apply List.mem_append_left
        exact List.mem_map.mpr ⟨b, h.dirty b hd, rfl⟩
      exact hne _ hmem rfl
    have hhome : ∀ b, s.format.Home b → s.m.commit.contents b = s.pending b := by
      intro b hb
      have hcommit := Format.commit_home (F := s.format) (d := s.m.contents)
        (f := s.m.contents) h.valid hb
      rw [hw.contents, ← h.pending b hb]
      refine Eq.trans hcommit ?_
      split <;> rfl
    have hcoh : s.m.commit.Coherent := hw.coherent h.coherent
    refine ⟨hcoh, ?_, fun b hb => absurd hb (hclean b), ?_, ?_, ?_⟩
    · rw [hformat, hlog]
      exact .nil (show 0 < s.m.log.size by omega)
    · have hhead : s.m.commit.disk s.format.start =
          s.format.store [] (s.format.store s.m.log.lh (s.m.contents s.format.start)) := by
        rw [← Machine.contents_of_not_dirty hcoh (hclean _), hw.contents]
        exact Format.commit_header
      rw [hformat, hhead, Format.targets_clear]
    · intro b hb
      rw [hformat] at hb
      rw [← Machine.contents_of_not_dirty hcoh (hclean b)]
      exact hhome b hb
    · intro b hb
      rw [hformat] at hb
      exact hhome b hb
  · have hlh : s.m.log.lh = [] := List.length_eq_zero_iff.mp (Nat.eq_zero_of_not_pos hn)
    have hsame : s.m.commit = s.m := if_neg hn
    rw [hsame]
    refine ⟨h.coherent, h.valid, h.dirty, h.clear, ?_, h.pending⟩
    intro b hb
    have hpend := h.pending_eq hb
    rw [hlh, if_neg List.not_mem_nil] at hpend
    exact hpend

theorem endOp (h : Inv s) {m : Machine} (hpos : 0 < s.m.log.outstanding)
    (hm : s.m.endOp = .ok m) :
    Inv ⟨m, if s.m.log.outstanding = 1 then s.pending else s.before, s.pending⟩ := by
  unfold Machine.endOp Log.endOp at hm
  split at hm
  · cases hm
  · split at hm
    · rename_i hlast
      obtain rfl := Except.ok.inj hm
      rw [if_pos (by omega)]
      have hset := h.setLog
        { s.m.log with outstanding := s.m.log.outstanding - 1, committing := true } rfl rfl rfl
      exact hset.commit.setLog _ rfl rfl rfl
    · rename_i hlast
      obtain rfl := Except.ok.inj hm
      rw [if_neg (by omega)]
      exact h.setLog _ rfl rfl rfl

theorem keep {a : Action} (h : Inv s) (hs : step s a = some t) : Inv t := by
  cases a with
  | beginOp =>
    obtain ⟨log, hlog, rfl⟩ := Option.map_eq_some_iff.mp hs
    obtain ⟨_, _, rfl⟩ := Log.beginOp_eq_some.mp hlog
    exact h.setLog _ rfl rfl rfl
  | logWrite b data =>
    obtain ⟨⟨hb, hfit⟩, hs⟩ := Option.ite_none_right_eq_some.mp hs
    cases hm : s.m.logWrite b data with
    | error e =>
      rw [hm] at hs
      cases hs
    | ok m =>
      rw [hm] at hs
      obtain rfl := Option.some.inj hs
      exact h.logWrite hb hfit (by decide) hm
  | evict b =>
    obtain ⟨m, hm, rfl⟩ := Option.map_eq_some_iff.mp hs
    exact h.evict hm
  | endOp =>
    obtain ⟨hpos, hs⟩ := Option.ite_none_right_eq_some.mp hs
    cases hm : s.m.endOp with
    | error e =>
      rw [hm] at hs
      cases hs
    | ok m =>
      rw [hm] at hs
      obtain rfl := Option.some.inj hs
      exact h.endOp hpos hm
  | crash k js =>
    obtain ⟨_, hs⟩ := Option.ite_none_right_eq_some.mp hs
    obtain rfl := Option.some.inj hs
    obtain ⟨hv, hrec⟩ := h.recovered_crashed k js
    apply inv_initlog hv
    intro b hb
    rw [show (Commit.format s.m.log.start s.m.log.size).recover (s.crashed k js) =
      s.recovered (s.crashed k js) from (s.recovered_eq hv).symm, hrec, (h.recover_crash k).2 b hb]
    split <;> rfl

end Inv

/-- In every state of every run the log is crash atomic. The disk at the start is one
whose log is clear, as mkfs makes it. -/
theorem always_atomic (start size : ℕ) (disk : ℕ → Bytes) (hsize : 0 < size)
    (hclear : get (disk start) 0 4 = 0) (as : List Action) :
    Runs.Always step Atomic (init start size disk) as := by
  have hhead : (format start size).targets (disk start) = [] := by
    show loadHead (disk start) = []
    rw [loadHead, hclear]
    rfl
  have hv : (format start size).Valid ((format start size).targets (disk start)) := by
    rw [hhead]
    exact .nil hsize
  have hinit : Inv (init start size disk) := by
    apply inv_initlog hv
    intro b hb
    apply Format.recover_other
    · rw [show (format start size).targets (disk (format start size).start) = [] from hhead]
      exact List.not_mem_nil
    · exact hb.ne (Nat.le_refl _) (show start < start + size by omega)
  have halways : Runs.Always step Inv (init start size disk) as := by
    apply Runs.always_of_invariant _ hinit
    intro s a t hs hst
    exact hs.keep hst
  exact halways.mono fun s hs => hs.atomic

/-- A commit of two blocks that is cut behind its header, and a recovery cut in turn. -/
theorem always_atomic_cut_commit :
    Runs.Always step Atomic (init 2 LOGSIZE fun _ _ => 0)
      [.beginOp, .logWrite 100 fun _ => 1, .logWrite 200 fun _ => 2, .crash 4 [1, 0]] :=
  always_atomic 2 LOGSIZE (fun _ _ => 0) (by decide) (by decide) _

end NorthOS.Commit
