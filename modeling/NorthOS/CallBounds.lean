import NorthOS.Programs

/-!
How many blocks a call logs between begin_op and end_op: at most MAXOPBLOCKS, where it
keeps clear of the double-indirect blocks, and one more in exec of a program that has
such blocks.
-/
namespace NorthOS.Fs

open LittleEndian Halting Comp Ownership

/-- The calls with their arguments; slots stand for inode pointers. -/
inductive Call
  | openFile (path : Name) (omode : ℕ) (room : Bool)
  | mkdir (path : Name)
  | mknod (path : Name) (major minor : ℕ)
  | link (old new : Name)
  | unlink (path : Name)
  | chdir (path : Name)
  | close (ip : ℕ)
  | exec (vm : Vm) (path : Name)
  | exit
  | write (f : File) (src : Bytes) (left : ℕ)

/-- What a call does between begin_op and end_op for a process with its working directory
in slot `cwd`. A filewrite that has `left` bytes to go writes one chunk. -/
def Call.body (cwd : ℕ) : Call → M Unit
  | .openFile path omode room => do
    let _ ← Fs.openFile cwd path omode room
  | .mkdir path => do
    let _ ← Fs.mkdir cwd path
  | .mknod path major minor => do
    let _ ← Fs.mknod cwd path major minor
  | .link old new => do
    let _ ← Fs.link cwd old new
  | .unlink path => do
    let _ ← Fs.unlink cwd path
  | .chdir path => do
    let _ ← Fs.chdir cwd path
  | .close ip => putInode ip
  | .exec vm path => do
    let _ ← Fs.exec vm cwd path
  | .exit => putInode cwd
  | .write f src left => do
    let _ ← writeChunk f src (min left writeMax)

/-- The state when the call is the first of its transaction. -/
def State.emptied (s : State) : State := { s with log := { s.log with lh := [] } }

/-- The blocks that a call passes to log_write, each once. -/
def loggedBy (x : M Unit) (s : State) : List ℕ :=
  match x s.emptied with
  | .ok (_, t) => t.log.lh
  | .error _ => []

section WellFormed

/-- The places of a file's blocks on the disk, with those of the double-indirect tree. -/
inductive Spot
  | near (p : Place)
  | double
  | middle (i : ℕ)
  | far (i j : ℕ)

/-- Entry `k` of the index block `b`, if there is one. -/
def indexed (data : ℕ → Bytes) (b k : ℕ) : ℕ := if k < NINDIRECT ∧ b ≠ 0 then get (data b) (4 * k) 4 else 0

def Volume.entry (vol : Volume) (n : ℕ) : Spot → ℕ
  | .near p => (vol.ino n).entry vol.data p
  | .double => vol.far n
  | .middle i => indexed vol.data (vol.far n) i
  | .far i j => indexed vol.data (indexed vol.data (vol.far n) i) j

def spotOf (bn : ℕ) : Spot :=
  if bn < smallBlocks then .near (placeOf bn)
  else .far ((bn - smallBlocks) / NINDIRECT) ((bn - smallBlocks) % NINDIRECT)

/-- Every block belongs to one place at most, used data blocks to one exactly, and files
have all their blocks. -/
structure Volume.Whole (vol : Volume) : Prop where
  owned : Owned DataBlock (fun q : ℕ × Spot => vol.entry q.1 q.2) vol.used
  noLeak : NoLeak (fun b => nmeta ≤ b) (fun q : ℕ × Spot => vol.entry q.1 q.2) vol.used
  mapped : ∀ n o, o < (vol.ino n).size → vol.entry n (spotOf (o / BSIZE)) ≠ 0

/-- A file system between two calls with the files `A` and the slots `σ`, to which the
processes have the references `E`. -/
structure WellFormed (s : State) (A : Files) (σ : Slots) (E : Multiset ℕ) : Prop where
  good : Good False s A σ E 0
  whole : s.vol.Whole
  root : (A ROOTINO).type = T_DIR

variable {s : State} {A : Files} {σ : Slots} {E : Multiset ℕ}

/-- What the header of the log holds does not matter. -/
theorem Good.emptied (h : Good False s A σ E 0) : Good False s.emptied A σ E 0 := by
  obtain ⟨v, hv, hA, hσ⟩ := h.shows
  have hloaded : ∀ i n, Loaded s.emptied i n → Loaded s i n :=
    fun _ _ hl => ⟨hl.slot, hl.ref, hl.valid, hl.inum⟩
  have hsound : Sound False s.emptied v :=
    { hv with
      cached := fun i n hl => hv.cached i n (hloaded i n hl)
      disk := fun n hn hno => hv.disk n hn fun i hl => hno i ⟨hl.slot, hl.ref, hl.valid, hl.inum⟩
      typed := fun i n hl => hv.typed i n (hloaded i n hl) }
  exact { h with shows := ⟨v, hsound, hA, hσ⟩ }

end WellFormed

section Bounds

variable {s t : State} {A : Files} {σ : Slots} {E E' K : Multiset ℕ} {cwd c i n : ℕ} {X : Set ℕ}

/-- An empty header takes at most the bitmap blocks and those of `D`. -/
theorem Logged.length_le {D : Finset ℕ} (h : Logged (bitmapAnd D) s t) (hempty : s.log.lh = [])
    (hc : D.card ≤ c) : t.log.lh.length ≤ nbitmap + c := by
  have hnodup : t.log.lh.Nodup := h.nodup (by rw [hempty]; exact List.nodup_nil)
  have hsub : t.log.lh.toFinset ⊆ bitmapBlocks ∪ D := by
    intro b hb
    rcases h.only b (List.mem_toFinset.mp hb) with hold | hnew
    · rw [hempty] at hold
      exact absurd hold List.not_mem_nil
    · exact Finset.mem_union.mpr hnew
  calc t.log.lh.length = t.log.lh.toFinset.card := (List.toFinset_card_of_nodup hnodup).symm
    _ ≤ (bitmapBlocks ∪ D).card := Finset.card_le_card hsub
    _ ≤ bitmapBlocks.card + D.card := Finset.card_union_le _ _
    _ ≤ nbitmap + c := by
      rw [bitmapBlocks_card]
      exact Nat.add_le_add_left hc _

theorem Done.length_le (h : Done False c K s A σ t E') (hempty : s.log.lh = []) :
    t.log.lh.length ≤ nbitmap + c := by
  obtain ⟨D, A', σ', hcard, hdoes⟩ := h
  exact hdoes.logged.length_le hempty hcard

theorem loggedBy_le {x : M Unit} {m : ℕ} (h : Gives (x s.emptied) fun _ t => t.log.lh.length ≤ m) :
    (loggedBy x s).length ≤ m := by
  unfold loggedBy
  cases hx : x s.emptied with
  | ok p => exact h.of_ok (a := p.1) (t := p.2) hx
  | error e => exact Nat.zero_le m

/-- A chunk of filewrite comes to two file blocks at most. -/
theorem writeChunk_logs {f : File} {src : Bytes} {m : ℕ} (hm : m ≤ writeMax)
    (hready : Ready f.ip n s) :
    Gives (writeChunk f src m s) fun _ t => ∃ D : Finset ℕ, D.card ≤ 7 ∧
      Logged (bitmapAnd D) s t := by
  have hlock : Logs f.ip n ∅ (Fs.ilock f.ip) := ilock_logs
  have hunlock : Logs f.ip n ∅ (Fs.iunlock f.ip) := iunlock_logs
  have hmax : writeMax = 1536 := rfl
  have hfit : m + f.off % BSIZE ≤ 2 * BSIZE := by
    have hblock : BSIZE = 2048 := rfl
    have hmod := mod_BSIZE_lt f.off
    omega
  unfold writeChunk
  refine Ends.bind (hlock s) fun _ t _ hst => ?_
  refine Ends.bind (writei_logs (i := f.ip) (n := n) (c := 3) hfit fun o u _ _ => bmap_logs)
    fun r u _ htu => ?_
  obtain ⟨D, hcard, htu⟩ := htu
  refine Ends.bind (hunlock u) fun _ w _ huw => ?_
  have hall := logsAt_composes.trans (hst.mono (Set.empty_subset _))
    (logsAt_composes.trans htu (huw.mono (Set.empty_subset _)))
  refine ⟨insert (IBLOCK n mkfsSuperblock) D, ?_, (hall hready).2⟩
  exact Nat.le_trans (Finset.card_insert_le _ _) (Nat.succ_le_succ hcard)

end Bounds

/-- The reference that the call gives back or uses. -/
def Call.Holds (E : Multiset ℕ) : Call → Prop
  | .close ip => ip ∈ E
  | .write f _ _ => f.ip ∈ E
  | _ => True

/-- The call keeps clear of the double-indirect blocks: the directories that it looks
into are shorter, and what exec reads of the program lies in front of them. -/
def Call.Near (A : Files) (n : ℕ) : Call → Prop
  | .openFile path omode _ => Roomy A (looked A (decide (omode &&& O_CREATE ≠ 0)) n path)
  | .mkdir path => Roomy A (looked A true n path)
  | .mknod path _ _ => Roomy A (looked A true n path)
  | .link old new => Roomy A (looked A false n old) ∧
    ∀ v ∈ resolve A n old, (A v).type ≠ T_DIR → Roomy A (looked A true n new)
  | .unlink path => Roomy A (looked A true n path) ∧
    ∀ v ∈ victim A n path, (A v).type = T_DIR → (A v).size < nearBytes
  | .chdir path => Roomy A (looked A false n path)
  | .exec vm path => Roomy A (looked A false n path) ∧ ∀ v ∈ resolve A n path, (A v).NearExec vm
  | .close _ => True
  | .exit => True
  | .write _ _ _ => True

section Calls

variable {s : State} {A : Files} {σ : Slots} {E : Multiset ℕ} {cwd m : ℕ}

/-- A call that keeps clear of the double-indirect blocks logs at most MAXOPBLOCKS blocks. -/
theorem Call.loggedBy_le (c : Call) (h : WellFormed s A σ E) (hcwd : cwd ∈ E) (hholds : c.Holds E)
    (hnear : c.Near A (σ cwd).inum) : (loggedBy (c.body cwd) s).length ≤ MAXOPBLOCKS := by
  have hgood := h.good.emptied
  have hempty : s.emptied.log.lh = [] := rfl
  have hbitmap : nbitmap = 2 := rfl
  have hmax : MAXOPBLOCKS = 10 := rfl
  apply Fs.loggedBy_le
  cases c with
  | openFile path omode room =>
    refine Ends.bind (hgood.openFile hcwd hnear) fun r t _ hopen => ?_
    cases r with
    | none => exact Nat.le_trans (Done.length_le hopen hempty) (by omega)
    | some f =>
      obtain ⟨D, A', σ', n, hcard, hdoes, _⟩ := hopen
      exact hdoes.logged.length_le hempty hcard
  | mkdir path =>
    refine Ends.bind (hgood.mkdir hcwd hnear) fun _ t _ hdone => ?_
    exact hdone.length_le hempty
  | mknod path major minor =>
    refine Ends.bind (hgood.mknod hcwd hnear) fun _ t _ hdone => ?_
    exact hdone.length_le hempty
  | link old new =>
    refine Ends.bind (hgood.link hcwd hnear.1 hnear.2) fun _ t _ hdone => ?_
    exact Nat.le_trans (hdone.length_le hempty) (by omega)
  | unlink path =>
    refine Ends.bind (hgood.unlink hcwd hnear.1 hnear.2) fun _ t _ hdone => ?_
    exact Nat.le_trans (hdone.length_le hempty) (by omega)
  | chdir path =>
    obtain ⟨E₀, rfl⟩ := Multiset.exists_cons_of_mem hcwd
    refine Ends.bind (hgood.chdir hnear) fun r t _ hdone => ?_
    exact Nat.le_trans (hdone.length_le hempty) (by omega)
  | close ip =>
    obtain ⟨E₀, rfl⟩ := Multiset.exists_cons_of_mem hholds
    refine hgood.putInode.mono fun _ t hdone => ?_
    exact Nat.le_trans (hdone.length_le hempty) (by omega)
  | exec vm path =>
    refine Ends.bind (hgood.exec hcwd hnear.1 hnear.2) fun _ t _ hdone => ?_
    exact Nat.le_trans (hdone.length_le hempty) (by omega)
  | exit =>
    obtain ⟨E₀, rfl⟩ := Multiset.exists_cons_of_mem hcwd
    refine hgood.putInode.mono fun _ t hdone => ?_
    exact Nat.le_trans (hdone.length_le hempty) (by omega)
  | write f src left =>
    refine Ends.bind (writeChunk_logs (Nat.min_le_right _ _) hgood.ready) fun _ t _ hlog => ?_
    obtain ⟨D, hcard, hlog⟩ := hlog
    exact Nat.le_trans (hlog.length_le hempty hcard) (by omega)

end Calls

end NorthOS.Fs
