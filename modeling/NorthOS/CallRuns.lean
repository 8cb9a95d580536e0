import NorthOS.CallBounds
import NorthOS.Runs

/-!
Whole runs of the file system. The system has the working directories of the processes and
the open files; each step is one system call, or one operation of a filewrite, from its
begin_op to its end_op. Calls that fail, and processes that come and go, are steps as well.
While directories and files end in front of the double-indirect blocks, what holds of the
disk and the inode cache in a state holds after every such step.
-/
namespace NorthOS.Fs

open LittleEndian Halting Comp Ownership Runs

/-- Slots stand for inode pointers. -/
structure Sys where
  fs : State
  cwds : List ℕ
  files : List File

/-- The process is named by its place in the list, and so is the file. -/
inductive Act
  | openFile (p : ℕ) (path : Name) (omode : ℕ) (room : Bool)
  | mkdir (p : ℕ) (path : Name)
  | mknod (p : ℕ) (path : Name) (major minor : ℕ)
  | link (p : ℕ) (old new : Name)
  | unlink (p : ℕ) (path : Name)
  | chdir (p : ℕ) (path : Name)
  | exec (p : ℕ) (vm : Vm) (path : Name)
  | fork (p : ℕ)
  | exit (p : ℕ)
  | close (k : ℕ)
  | read (k n : ℕ)
  | write (k : ℕ) (src : Bytes) (left : ℕ)

namespace Sys

/-- The inode references of the processes and of the open files. -/
def refs (s : Sys) : Multiset ℕ := (s.cwds : Multiset ℕ) + (s.files.map File.ip : List ℕ)

/-- A panic stops the system. -/
def after {B : Type} (s : Sys) (x : M B) (f : B → State → Sys) : Option Sys :=
  match x s.fs with
  | .ok (r, fs) => some (f r fs)
  | .error _ => none

def step (s : Sys) : Act → Option Sys
  | .openFile p path omode room => s.cwds[p]?.bind fun cwd =>
    s.after (transaction (Fs.openFile cwd path omode room)) fun r fs =>
      { s with fs := fs, files := r.toList ++ s.files }
  | .mkdir p path => s.cwds[p]?.bind fun cwd =>
    s.after (transaction (Fs.mkdir cwd path)) fun _ fs => { s with fs := fs }
  | .mknod p path major minor => s.cwds[p]?.bind fun cwd =>
    s.after (transaction (Fs.mknod cwd path major minor)) fun _ fs => { s with fs := fs }
  | .link p old new => s.cwds[p]?.bind fun cwd =>
    s.after (transaction (Fs.link cwd old new)) fun _ fs => { s with fs := fs }
  | .unlink p path => s.cwds[p]?.bind fun cwd =>
    s.after (transaction (Fs.unlink cwd path)) fun _ fs => { s with fs := fs }
  | .chdir p path => s.cwds[p]?.bind fun cwd =>
    s.after (transaction (Fs.chdir cwd path)) fun r fs =>
      { s with fs := fs, cwds := s.cwds.set p (r.getD cwd) }
  | .exec p vm path => s.cwds[p]?.bind fun cwd =>
    s.after (transaction (Fs.exec vm cwd path)) fun _ fs => { s with fs := fs }
  | .fork p => s.cwds[p]?.bind fun cwd =>
    s.after (idup cwd) fun _ fs => { s with fs := fs, cwds := cwd :: s.cwds }
  | .exit p => s.cwds[p]?.bind fun cwd =>
    s.after (transaction (putInode cwd)) fun _ fs => { s with fs := fs, cwds := s.cwds.eraseIdx p }
  | .close k => s.files[k]?.bind fun f =>
    s.after (transaction (putInode f.ip)) fun _ fs => { s with fs := fs, files := s.files.eraseIdx k }
  | .read k n => s.files[k]?.bind fun f =>
    s.after (fileread f n) fun r fs => { s with fs := fs, files := s.files.set k r.2.2 }
  | .write k src left => s.files[k]?.bind fun f =>
    if f.writable then
      s.after (transaction (writeChunk f src (min left writeMax))) fun r fs =>
        { s with fs := fs, files := s.files.set k r.2 }
    else some s

end Sys

/-- The inodes on the disk. -/
abbrev State.inos (s : State) : Inos := s.vol.ino

/-- No directory is full, a write ends in front of the double-indirect blocks, and a read is of an int. -/
def KeepsClear (s : Sys) : Act → Prop
  | .fork _ | .exit _ | .close _ => True
  | .read _ n => n < 2 ^ 31
  | .write k _ left => ∀ f ∈ s.files[k]?, f.off + min left writeMax ≤ nearBytes
  | _ => ∀ n, (s.fs.inos n).type = T_DIR → (s.fs.inos n).size < nearBytes

/-- Each block has one owner, and the bitmap marks just the blocks that have one; every block
of a file is there; the cache agrees with the disk and counts the references to it; an inode
without links is held by somebody; and directories name inodes. -/
structure Tidy (s : Sys) : Prop where
  owned : Owned DataBlock (blocks s.fs.inos s.fs.vol) s.fs.vol.used
  noLeak : NoLeak (fun b => nmeta ≤ b) (blocks s.fs.inos s.fs.vol) s.fs.vol.used
  far : ∀ n, s.fs.vol.far n = 0
  mapped : ∀ n, NearMapped s.fs.inos s.fs.vol n
  cached : ∀ i n, Loaded s.fs i n → (s.fs.icache i).ino = s.fs.inos n
  unique : ∀ i j, i < NINODE → j < NINODE → 0 < (s.fs.icache i).ref → 0 < (s.fs.icache j).ref →
    (s.fs.icache i).inum = (s.fs.icache j).inum → i = j
  refs : ∀ i, i < NINODE → (s.fs.icache i).ref = s.refs.count i
  linked : ∀ n, (s.fs.inos n).type ≠ 0 → (s.fs.inos n).nlink = 0 → ∃ i ∈ s.refs, Loaded s.fs i n
  entries : ∀ n k, (s.fs.inos n).type = T_DIR → k < (nodeOf s.fs.inos s.fs.vol n).entries →
    (nodeOf s.fs.inos s.fs.vol n).inumAt k < maxInodes

/-- An open file refers to a loaded inode, which is no directory if the file is writable. -/
def Opened (A : Files) (σ : Slots) (f : File) : Prop :=
  ∃ n, At σ f.ip n ∧ (f.writable = true → (A n).type ≠ T_DIR)

/-- The invariant, with the files and the slots as the layers above see them. -/
def Stands (s : Sys) : Prop :=
  ∃ A σ, Good True s.fs A σ s.refs 0 ∧ ∀ f ∈ s.files, Opened A σ f

section View

variable {s : Sys} {A : Files} {σ : Slots} {E : Multiset ℕ}

/-- The inodes of the invariant are those on the disk. -/
theorem Sound.inos_eq {near : Prop} {s : State} {v : Inos} (h : Sound near s v) : v = s.inos := by
  funext n
  by_cases hn : n < maxInodes
  · exact (h.synced n hn).symm
  · rw [h.outside n (Nat.le_of_not_lt hn)]
    exact (if_neg hn).symm

theorem Stands.tidy (h : Stands s) : Tidy s := by
  obtain ⟨A, σ, hgood, _⟩ := h
  obtain ⟨v, hv, rfl, rfl⟩ := hgood.shows
  obtain rfl := hv.inos_eq
  refine ⟨hv.owned, hv.leaks trivial, hv.far trivial, hv.mapped, hv.cached, hv.unique,
    fun i hi => ?_, fun n htype hnlink => ?_, hgood.dirs.inum⟩
  · have hrefs := hgood.refs i hi
    rwa [Multiset.add_zero] at hrefs
  obtain ⟨i, hi, hat⟩ := hgood.linked n htype hnlink
  exact ⟨i, hi, hat.loaded⟩

/-- The directories of a path have room when all have. -/
theorem visited_dirs {nameiparent : Bool} {fuel m : ℕ} {path : Name} :
    ∀ n ∈ visited A nameiparent fuel m path, (A n).type = T_DIR := by
  induction fuel generalizing m path with
  | zero => exact fun n hn => absurd hn List.not_mem_nil
  | succ fuel ih =>
    unfold visited
    split
    · exact fun n hn => absurd hn List.not_mem_nil
    · split
      · exact fun n hn => absurd hn List.not_mem_nil
      · rename_i hdir
        rw [not_not] at hdir
        split
        · intro n hn
          rw [List.mem_singleton.mp hn]
          exact hdir
        · intro n hn
          rcases List.mem_cons.mp hn with rfl | hn
          · exact hdir
          · split at hn
            · exact absurd hn List.not_mem_nil
            · exact ih n hn

theorem roomy_of_dirs (h : ∀ n, (A n).type = T_DIR → (A n).size < nearBytes) (nameiparent : Bool)
    (n : ℕ) (path : Name) : Roomy A (looked A nameiparent n path) :=
  fun m hm => h m (visited_dirs m hm)

end View

section Log

variable {near : Prop} {s : State} {A : Files} {σ : Slots} {E L : Multiset ℕ}

/-- Nothing of the file system is in the log. -/
theorem Good.setLog (h : Good near s A σ E L) (log : Log) :
    Good near { s with log := log } A σ E L := by
  obtain ⟨v, hv, hA, hσ⟩ := h.shows
  have hloaded : ∀ i n, Loaded { s with log := log } i n → Loaded s i n :=
    fun _ _ hl => ⟨hl.slot, hl.ref, hl.valid, hl.inum⟩
  have hsound : Sound near { s with log := log } v :=
    { hv with
      cached := fun i n hl => hv.cached i n (hloaded i n hl)
      disk := fun n hn hno => hv.disk n hn fun i hl => hno i ⟨hl.slot, hl.ref, hl.valid, hl.inum⟩
      typed := fun i n hl => hv.typed i n (hloaded i n hl) }
  exact { h with shows := ⟨v, hsound, hA, hσ⟩ }

theorem beginOp_log : Gives (beginOp s) fun _ t => ∃ log, { s with log := log } = t := by
  unfold beginOp
  split
  · exact ⟨_, rfl⟩
  · exact id

theorem endOp_log : Gives (endOp s) fun _ t => ∃ log, { s with log := log } = t := by
  unfold endOp
  split
  · exact ⟨_, rfl⟩
  · exact id

/-- begin_op and end_op change the log only. -/
theorem gives_transaction {B : Type} {body : M B} {Q : B → State → Prop}
    (hbody : ∀ log, Gives (body { s with log := log }) Q)
    (hQ : ∀ r t log, Q r t → Q r { t with log := log }) : Gives (transaction body s) Q := by
  unfold transaction
  refine Ends.bind beginOp_log ?_
  rintro _ _ _ ⟨log, rfl⟩
  refine Ends.bind (hbody log) fun r t _ hr => ?_
  refine Ends.bind endOp_log ?_
  rintro _ _ _ ⟨log', rfl⟩
  exact hQ r t log' hr

end Log

section Reading

variable {s : State} {A : Files} {σ : Slots} {E L : Multiset ℕ} {i n off m : ℕ} {src : Bytes}

/-- readi of a small file changes nothing. -/
theorem Shows.readAny (h : Shows True s A σ) (hat : At σ i n) (hsize : (A n).size ≤ nearBytes)
    (hm : m < 2 ^ 32) : Gives (Fs.readi i off m s) fun _ t => s = t := by
  by_cases hdev : (A n).type = T_DEV
  · exact h.readDevice hat hdev
  have hnear : nearBytes = 1069056 := rfl
  by_cases hoff : off ≤ (A n).size
  · refine (h.readNear hat hdev (by omega) hm (Or.inr (by omega))).mono ?_
    exact fun _ _ hread => hread.1
  · obtain ⟨_, _, htype, _, _, _, hlen⟩ := h.fields hat
    unfold Fs.readi
    refine Ends.bind (Q := fun ip t => ip.type ≠ T_DEV ∧ ip.size = (A n).size ∧ s = t)
      ⟨by rwa [htype], hlen, rfl⟩ ?_
    rintro ip _ _ ⟨hip, hip_size, rfl⟩
    rw [if_neg hip, hip_size, if_pos (Or.inl (Nat.lt_of_not_le hoff))]
    exact rfl

/-- writei to a device, or behind the end of a file, changes nothing. -/
theorem Shows.writeNothing (h : Shows True s A σ) (hat : At σ i n)
    (hno : (A n).type = T_DEV ∨ (A n).size < off) :
    Gives (Fs.writei i src off m s) fun _ t => s = t := by
  obtain ⟨_, _, htype, _, _, _, hlen⟩ := h.fields hat
  unfold Fs.writei
  refine Ends.bind (Q := fun ip t => ip.type = (A n).type ∧ ip.size = (A n).size ∧ s = t)
    ⟨htype, hlen, rfl⟩ ?_
  rintro ip _ _ ⟨hip, hip_size, rfl⟩
  rw [hip, hip_size]
  by_cases hdev : (A n).type = T_DEV
  · rw [if_pos hdev]
    refine Ends.bind (Q := fun _ t => s = t) rfl ?_
    rintro devsw _ _ rfl
    generalize (if short ip.major < 0 ∨ short ip.major ≥ NDEV then none else devsw ip.major) = entry
    cases entry with
    | none => exact rfl
    | some d => exact rfl
  · rw [if_neg hdev, if_pos (Or.inl (hno.resolve_left hdev))]
    exact rfl

/-- writei of a file that is no directory. -/
theorem Good.writeAny (h : Good True s A σ E L) (hat : At σ i n) (hdir : (A n).type ≠ T_DIR)
    (hm : m ≤ writeMax) (hend : off + m ≤ nearBytes) :
    Gives (Fs.writei i src off m s) fun _ t => ∃ A', Good True t A' σ E L ∧
      ∀ k, (A' k).type = (A k).type := by
  by_cases hno : (A n).type = T_DEV ∨ (A n).size < off
  · refine (h.shows.writeNothing hat hno).mono ?_
    rintro _ _ rfl
    exact ⟨A, h, fun _ => rfl⟩
  obtain ⟨hdev, hoff⟩ := not_or.mp hno
  have hsmall : (A n).size ≤ nearBytes := h.dirs.small trivial n
  have hfit : m + off % BSIZE ≤ 2 * BSIZE := by
    have hmax : writeMax = 1536 := rfl
    have hblock : BSIZE = 2048 := rfl
    have hmod := mod_BSIZE_lt off
    omega
  have hlogs := @writei_logs i n m s src off _ 3 hfit fun o u _ _ => bmap_logs
  refine ((h.shows.writei hat hdev (Nat.le_of_not_lt hoff) hend hsmall).gives.and hlogs).mono ?_
  rintro r t ⟨⟨_, hshows⟩, D, _, hlog⟩
  have hready : Ready i n s := by
    rw [← hat.inum]
    exact h.ready
  refine ⟨_, ⟨hshows, (hlog hready).1.hint, h.inside, h.refs, ?_, ?_⟩, fun k => type_update rfl⟩
  · refine h.dirs.update (fun _ => ?_) fun _ htype => absurd htype hdir
    show max (A n).size (off + m) ≤ nearBytes
    omega
  · intro k htype hzero
    by_cases hk : k = n
    · rw [hk] at htype hzero ⊢
      rw [Function.update_self] at htype hzero
      exact h.linked n htype hzero
    · rw [Function.update_of_ne hk] at htype hzero
      exact h.linked k htype hzero

end Reading

section Steps

variable {s t : Sys} {fs : State} {A A' : Files} {σ σ' : Slots} {E E' K : Multiset ℕ}
    {c cwd m p k : ℕ} {f : File}
  {a : Act}

/-- What a call leaves: the references `E'`, and for those of `K` the same inodes of the same types. -/
def Leaves (K : Multiset ℕ) (A : Files) (σ : Slots) (E' : Multiset ℕ) (fs : State) : Prop :=
  ∃ A' σ', Good True fs A' σ' E' 0 ∧ Keeps K σ σ' ∧
    ∀ i ∈ K, (σ i).valid = true → (A' (σ i).inum).type = (A (σ i).inum).type

theorem Leaves.setLog (h : Leaves K A σ E' fs) (log : Log) :
    Leaves K A σ E' { fs with log := log } := by
  obtain ⟨A', σ', hgood, hrest⟩ := h
  exact ⟨A', σ', hgood.setLog log, hrest⟩

theorem Done.leaves {s : State} (h : Done True c K s A σ fs E') : Leaves K A σ E' fs := by
  obtain ⟨_, A', σ', _, hdoes⟩ := h
  exact ⟨A', σ', hdoes.good, hdoes.keeps, hdoes.types⟩

theorem mem_refs_cwd (h : s.cwds[p]? = some cwd) : cwd ∈ s.refs :=
  Multiset.mem_add.mpr (Or.inl (List.mem_of_getElem? h))

theorem mem_refs_file (h : f ∈ s.files) : f.ip ∈ s.refs :=
  Multiset.mem_add.mpr (Or.inr (List.mem_map_of_mem h))

theorem Opened.keep (hf : Opened A σ f) (hgood : Good True fs A' σ' E' 0) (hkeeps : Keeps K σ σ')
    (htypes : ∀ i ∈ K, (σ i).valid = true → (A' (σ i).inum).type = (A (σ i).inum).type)
    (hK : f.ip ∈ K) (hE : f.ip ∈ E') : Opened A' σ' f := by
  obtain ⟨n, hat, hdir⟩ := hf
  have htype := htypes f.ip hK hat.valid
  rw [hat.inum] at htype
  refine ⟨n, hat.keep hgood (mem_refs hE) hkeeps hK, fun hw => ?_⟩
  rw [htype]
  exact hdir hw

/-- The files that were open stay in order. -/
theorem Leaves.stands (h : Leaves K A σ t.refs t.fs)
    (hfiles : ∀ f ∈ t.files, f.ip ∈ K ∧ Opened A σ f) : Stands t := by
  obtain ⟨A', σ', hgood, hkeeps, htypes⟩ := h
  exact ⟨A', σ', hgood, fun f hf =>
    (hfiles f hf).2.keep hgood hkeeps htypes (hfiles f hf).1 (mem_refs_file hf)⟩

theorem after_some {B : Type} {x : M B} {g : B → State → Sys} (h : s.after x g = some t) :
    ∃ r fs, x s.fs = .ok (r, fs) ∧ t = g r fs := by
  unfold Sys.after at h
  split at h
  · rename_i r fs hrun
    exact ⟨r, fs, hrun, (Option.some.inj h).symm⟩
  · cases h

/-- A call that keeps all references. -/
theorem Stands.call {B : Type} {x : M B} (hfiles : ∀ f ∈ s.files, Opened A σ f)
    (hx : Gives (x s.fs) fun _ fs => Leaves s.refs A σ s.refs fs)
    (h : s.after x (fun _ fs => { s with fs := fs }) = some t) : Stands t := by
  obtain ⟨r, fs, hrun, rfl⟩ := after_some h
  exact Leaves.stands (hx.of_ok hrun) fun f hf => ⟨mem_refs_file hf, hfiles f hf⟩

/-- The operation of a call between begin_op and end_op. -/
theorem gives_call {B : Type} {x : M B} {s : State} (hgood : Good True s A σ E 0)
    (hx : ∀ u, Good True u A σ E 0 → Gives (x u) fun _ fs => ∃ c, Done True c K u A σ fs E') :
    Gives (transaction x s) fun _ fs => Leaves K A σ E' fs :=
  gives_transaction (fun log => (hx _ (hgood.setLog log)).mono fun _ _ ⟨_, hdone⟩ => hdone.leaves)
    fun _ _ log h => h.setLog log

/-- fileread leaves the files as they are, and moves the offset of its own only. -/
theorem Good.fileread {s : State} (h : Good True s A σ E 0) (hf : f.ip ∈ E) (hm : m < 2 ^ 32) :
    Gives (Fs.fileread f m s) fun r fs => r.2.2.ip = f.ip ∧ r.2.2.writable = f.writable ∧
      Leaves E A σ E fs := by
  unfold Fs.fileread
  split
  · refine Ends.bind (h.ilock (mem_refs hf)) fun _ u _ hlock => ?_
    obtain ⟨σ₁, hlock, hat, _⟩ := hlock
    refine Ends.bind (hlock.good.shows.readAny hat (hlock.good.dirs.small trivial _) hm) ?_
    rintro r _ _ rfl
    refine Ends.bind hlock.good.iunlock fun _ w _ hunlock => ?_
    have hdoes := hlock.trans hunlock
    refine ⟨?_, ?_, A, σ₁, hdoes.good, fun i hi => hdoes.keeps i (mem_refs hi), fun _ _ _ => rfl⟩
    · dsimp only
      split <;> rfl
    · dsimp only
      split <;> rfl
  · exact ⟨rfl, rfl, A, σ, h, Keeps.refl _ _, fun _ _ _ => rfl⟩

/-- One operation of filewrite. -/
theorem Good.writeChunk {s : State} (h : Good True s A σ E 0) (hf : f.ip ∈ E) (hopen : Opened A σ f)
    (hw : f.writable = true) {src : Bytes} (hm : m ≤ writeMax) (hend : f.off + m ≤ nearBytes) :
    Gives (Fs.writeChunk f src m s) fun r fs =>
      r.2.ip = f.ip ∧ r.2.writable = f.writable ∧ Leaves E A σ E fs := by
  obtain ⟨n, hat, hdir⟩ := hopen
  unfold Fs.writeChunk
  refine Ends.bind (h.ilock (mem_refs hf)) fun _ u _ hlock => ?_
  obtain ⟨σ₁, hlock, hat₁, _⟩ := hlock
  rw [hat.inum] at hat₁
  refine Ends.bind (hlock.good.writeAny hat₁ (hdir hw) hm hend) fun r v _ hwrite => ?_
  obtain ⟨A', hgood, htype⟩ := hwrite
  refine Ends.bind hgood.iunlock fun _ w _ hunlock => ?_
  refine ⟨?_, ?_, A', σ₁, hunlock.good, fun i hi => hlock.keeps i (mem_refs hi),
    fun _ _ _ => htype _⟩
  · dsimp only
    split <;> rfl
  · dsimp only
    split <;> rfl

theorem eraseIdx_refs {l : List ℕ} {x : ℕ} (h : l[p]? = some x) :
    (l : Multiset ℕ) = x ::ₘ (l.eraseIdx p : List ℕ) := by
  obtain ⟨hlt, rfl⟩ := List.getElem?_eq_some_iff.mp h
  exact Multiset.coe_eq_coe.mpr (List.getElem_cons_eraseIdx_perm hlt).symm

theorem set_refs {l : List ℕ} {x : ℕ} (h : l[p]? = some x) (y : ℕ) :
    (l.set p y : Multiset ℕ) = y ::ₘ (l.eraseIdx p : List ℕ) := by
  obtain ⟨hlt, rfl⟩ := List.getElem?_eq_some_iff.mp h
  exact Multiset.coe_eq_coe.mpr (List.set_perm_cons_eraseIdx hlt y)

theorem set_ips {l : List File} {g : File} (h : l[k]? = some f) (hg : g.ip = f.ip) :
    (l.set k g).map File.ip = l.map File.ip := by
  obtain ⟨hlt, rfl⟩ := List.getElem?_eq_some_iff.mp h
  have hlt' : k < (l.map File.ip).length := by rwa [List.length_map]
  have hget : (l.map File.ip)[k] = g.ip := by rw [List.getElem_map, hg]
  rw [List.map_set, ← hget, List.set_getElem_self hlt']

/-- A call on an open file, which stays open with another offset. -/
theorem Stands.onFile {g : File} (hfiles : ∀ f ∈ s.files, Opened A σ f) (hf : s.files[k]? = some f)
    (hip : g.ip = f.ip) (hwritable : g.writable = f.writable) (h : Leaves s.refs A σ s.refs fs) :
    Stands { s with fs := fs, files := s.files.set k g } := by
  have hrefs : Sys.refs { s with fs := fs, files := s.files.set k g } = s.refs := by
    unfold Sys.refs
    rw [set_ips hf hip]
  have hleaves : Leaves s.refs A σ (Sys.refs { s with fs := fs, files := s.files.set k g }) fs := by
    rwa [hrefs]
  refine hleaves.stands fun f' hf' => ?_
  have hmem := List.mem_of_getElem? hf
  rcases List.mem_or_eq_of_mem_set hf' with hf' | rfl
  · exact ⟨mem_refs_file hf', hfiles f' hf'⟩
  · unfold Opened
    rw [hip, hwritable]
    exact ⟨mem_refs_file hmem, hfiles f hmem⟩

/-- What sys_open leaves. -/
def OpenLeaves (A : Files) (σ : Slots) (E : Multiset ℕ) (r : Option File) (fs : State) : Prop :=
  match r with
  | none => Leaves E A σ E fs
  | some f => ∃ A' σ', Good True fs A' σ' (f.ip ::ₘ E) 0 ∧ Keeps E σ σ' ∧
    (∀ i ∈ E, (σ i).valid = true → (A' (σ i).inum).type = (A (σ i).inum).type) ∧ Opened A' σ' f

theorem gives_openFile {s : State} (hgood : Good True s A σ E 0) (hcwd : cwd ∈ E)
    (hdirs : ∀ n, (A n).type = T_DIR → (A n).size < nearBytes) {path : Name} {omode : ℕ}
    {room : Bool} : Gives (transaction (Fs.openFile cwd path omode room) s) (OpenLeaves A σ E) := by
  refine gives_transaction (fun log => ?_) fun r fs log h => ?_
  · refine ((hgood.setLog log).openFile hcwd (roomy_of_dirs hdirs _ _ path)).mono fun r fs hr => ?_
    cases r with
    | none => exact Done.leaves hr
    | some f =>
      obtain ⟨_, A', σ', n, _, hdoes, hat, hdir⟩ := hr
      exact ⟨A', σ', hdoes.good, hdoes.keeps, hdoes.types, n, hat, hdir⟩
  · cases r with
    | none => exact Leaves.setLog h log
    | some f =>
      obtain ⟨A', σ', hgood, hrest⟩ := h
      exact ⟨A', σ', hgood.setLog log, hrest⟩

theorem Stands.openFile {r : Option File} (hfiles : ∀ f ∈ s.files, Opened A σ f)
    (h : OpenLeaves A σ s.refs r fs) :
    Stands { s with fs := fs, files := r.toList ++ s.files } := by
  cases r with
  | none => exact Leaves.stands h fun f hf => ⟨mem_refs_file hf, hfiles f hf⟩
  | some f =>
    obtain ⟨A', σ', hgood, hkeeps, htypes, hopen⟩ := h
    have hrefs : Sys.refs { s with fs := fs, files := f :: s.files } = f.ip ::ₘ s.refs := by
      unfold Sys.refs
      rw [List.map_cons, ← Multiset.cons_coe, Multiset.add_cons]
    refine ⟨A', σ', ?_, fun g hg => ?_⟩
    · show Good True fs A' σ' (Sys.refs { s with fs := fs, files := f :: s.files }) 0
      rwa [hrefs]
    · rcases List.mem_cons.mp hg with rfl | hg
      · exact hopen
      · have hmem : g.ip ∈ s.refs := mem_refs_file hg
        exact (hfiles g hg).keep hgood hkeeps htypes hmem (Multiset.mem_cons_of_mem hmem)

/-- A call in which the process gives up its working directory for `l`. -/
theorem Stands.cwds {l : List ℕ} (hfiles : ∀ f ∈ s.files, Opened A σ f)
    (h : Leaves (Sys.refs { s with cwds := s.cwds.eraseIdx p }) A σ
      (Sys.refs { s with cwds := l }) fs) :
    Stands { s with fs := fs, cwds := l } := by
  refine Leaves.stands (t := { s with fs := fs, cwds := l }) h fun f hf => ⟨?_, hfiles f hf⟩
  exact mem_refs_file (s := { s with cwds := s.cwds.eraseIdx p }) hf

theorem refs_cwd {l : List ℕ} (h : (l : Multiset ℕ) = cwd ::ₘ (s.cwds.eraseIdx p : List ℕ)) :
    Sys.refs { s with cwds := l } = cwd ::ₘ Sys.refs { s with cwds := s.cwds.eraseIdx p } := by
  unfold Sys.refs
  rw [h, Multiset.cons_add]

/-- A small file has no byte that exec could read behind it. -/
theorem nearExec_of_small {x : Node} (h : x.size ≤ nearBytes) (vm : Vm) : x.NearExec vm :=
  Or.inr fun _ _ => Or.inr (Nat.le_trans (Nat.min_le_right _ _) h)

theorem Stands.step (h : Stands s) (hclear : KeepsClear s a) (ht : s.step a = some t) :
    Stands t := by
  obtain ⟨A, σ, hgood, hfiles⟩ := h
  have hshown : A = nodeOf s.fs.inos s.fs.vol := by
    obtain ⟨v, hv, hA, _⟩ := hgood.shows
    rw [← hv.inos_eq, hA]
  have hsmall : ∀ n, (A n).size ≤ nearBytes := hgood.dirs.small trivial
  have hdirs : (∀ n, (s.fs.inos n).type = T_DIR → (s.fs.inos n).size < nearBytes) →
      ∀ n, (A n).type = T_DIR → (A n).size < nearBytes := by
    rw [hshown]
    exact id
  cases a with
  | openFile p path omode room =>
    obtain ⟨cwd, hcwd, ht⟩ := Option.bind_eq_some_iff.mp ht
    obtain ⟨r, fs, hrun, rfl⟩ := after_some ht
    exact Stands.openFile hfiles
      ((gives_openFile hgood (mem_refs_cwd hcwd) (hdirs hclear)).of_ok hrun)
  | mkdir p path =>
    obtain ⟨cwd, hcwd, ht⟩ := Option.bind_eq_some_iff.mp ht
    refine Stands.call hfiles (gives_call hgood fun u hu => ?_) ht
    exact (hu.mkdir (mem_refs_cwd hcwd) (roomy_of_dirs (hdirs hclear) _ _ _)).mono fun _ _ hdone =>
      ⟨_, hdone⟩
  | mknod p path major minor =>
    obtain ⟨cwd, hcwd, ht⟩ := Option.bind_eq_some_iff.mp ht
    refine Stands.call hfiles (gives_call hgood fun u hu => ?_) ht
    exact (hu.mknod (mem_refs_cwd hcwd) (roomy_of_dirs (hdirs hclear) _ _ _)).mono fun _ _ hdone =>
      ⟨_, hdone⟩
  | link p old new =>
    obtain ⟨cwd, hcwd, ht⟩ := Option.bind_eq_some_iff.mp ht
    refine Stands.call hfiles (gives_call hgood fun u hu => ?_) ht
    exact (hu.link (mem_refs_cwd hcwd) (roomy_of_dirs (hdirs hclear) _ _ _)
      fun _ _ _ => roomy_of_dirs (hdirs hclear) _ _ _).mono fun _ _ hdone => ⟨_, hdone⟩
  | unlink p path =>
    obtain ⟨cwd, hcwd, ht⟩ := Option.bind_eq_some_iff.mp ht
    refine Stands.call hfiles (gives_call hgood fun u hu => ?_) ht
    exact (hu.unlink (mem_refs_cwd hcwd) (roomy_of_dirs (hdirs hclear) _ _ _)
      fun v _ => hdirs hclear v).mono fun _ _ hdone => ⟨_, hdone⟩
  | exec p vm path =>
    obtain ⟨cwd, hcwd, ht⟩ := Option.bind_eq_some_iff.mp ht
    refine Stands.call hfiles (gives_call hgood fun u hu => ?_) ht
    exact (hu.exec (mem_refs_cwd hcwd) (roomy_of_dirs (hdirs hclear) _ _ _)
      fun v _ => nearExec_of_small (hsmall v) vm).mono fun _ _ hdone => ⟨_, hdone⟩
  | chdir p path =>
    obtain ⟨cwd, hcwd, ht⟩ := Option.bind_eq_some_iff.mp ht
    obtain ⟨r, fs, hrun, rfl⟩ := after_some ht
    have hrefs := refs_cwd (s := s) (eraseIdx_refs hcwd)
    have hchdir : Gives (transaction (Fs.chdir cwd path) s.fs) fun r fs =>
        Leaves (Sys.refs { s with cwds := s.cwds.eraseIdx p }) A σ
          (r.getD cwd ::ₘ Sys.refs { s with cwds := s.cwds.eraseIdx p }) fs := by
      have hgood : Good True s.fs A σ (cwd ::ₘ Sys.refs { s with cwds := s.cwds.eraseIdx p }) 0 :=
        hrefs ▸ hgood
      refine gives_transaction (fun log => ?_) fun _ _ log h => h.setLog log
      exact ((hgood.setLog log).chdir (roomy_of_dirs (hdirs hclear) _ _ _)).mono fun _ _ hdone =>
        hdone.leaves
    refine Stands.cwds (p := p) hfiles ?_
    rw [refs_cwd (set_refs hcwd _)]
    exact hchdir.of_ok hrun
  | fork p =>
    obtain ⟨cwd, hcwd, ht⟩ := Option.bind_eq_some_iff.mp ht
    obtain ⟨_, fs, hrun, rfl⟩ := after_some ht
    obtain ⟨σ', hdoes, _⟩ := (hgood.idup (mem_refs (mem_refs_cwd hcwd))).of_ok hrun
    have hrefs : Sys.refs { s with fs := fs, cwds := cwd :: s.cwds } = cwd ::ₘ s.refs := by
      unfold Sys.refs
      rw [← Multiset.cons_coe, Multiset.cons_add]
    refine Leaves.stands (K := s.refs) ⟨A, σ', ?_, fun i hi => hdoes.keeps i (mem_refs hi),
      fun _ _ _ => rfl⟩ fun f hf => ⟨mem_refs_file hf, hfiles f hf⟩
    rw [hrefs]
    exact hdoes.promote.good
  | exit p =>
    obtain ⟨cwd, hcwd, ht⟩ := Option.bind_eq_some_iff.mp ht
    obtain ⟨_, fs, hrun, rfl⟩ := after_some ht
    have hrefs := refs_cwd (s := s) (eraseIdx_refs hcwd)
    have hgood : Good True s.fs A σ (cwd ::ₘ Sys.refs { s with cwds := s.cwds.eraseIdx p }) 0 :=
      hrefs ▸ hgood
    have hput := gives_call (K := Sys.refs { s with cwds := s.cwds.eraseIdx p }) hgood
      (x := Fs.putInode cwd) fun u hu => hu.putInode.mono fun _ _ hdone => ⟨_, hdone⟩
    exact Stands.cwds (p := p) hfiles (hput.of_ok hrun)
  | close k =>
    obtain ⟨f, hf, ht⟩ := Option.bind_eq_some_iff.mp ht
    obtain ⟨_, fs, hrun, rfl⟩ := after_some ht
    have hrefs : s.refs = f.ip ::ₘ Sys.refs { s with files := s.files.eraseIdx k } := by
      obtain ⟨hlt, rfl⟩ := List.getElem?_eq_some_iff.mp hf
      have hperm := ((List.getElem_cons_eraseIdx_perm hlt).map File.ip).symm
      unfold Sys.refs
      rw [Multiset.coe_eq_coe.mpr hperm, List.map_cons, ← Multiset.cons_coe, Multiset.add_cons]
    have hgood : Good True s.fs A σ (f.ip ::ₘ Sys.refs { s with files := s.files.eraseIdx k }) 0 :=
      hrefs ▸ hgood
    have hput := gives_call (K := Sys.refs { s with files := s.files.eraseIdx k }) hgood
      (x := Fs.putInode f.ip) fun u hu => hu.putInode.mono fun _ _ hdone => ⟨_, hdone⟩
    refine Leaves.stands (hput.of_ok hrun) fun g hg => ⟨?_, hfiles g (List.mem_of_mem_eraseIdx hg)⟩
    exact mem_refs_file (s := { s with files := s.files.eraseIdx k }) hg
  | read k m =>
    obtain ⟨f, hf, ht⟩ := Option.bind_eq_some_iff.mp ht
    obtain ⟨r, fs, hrun, rfl⟩ := after_some ht
    have hmem := List.mem_of_getElem? hf
    have hm : m < 2 ^ 32 := Nat.lt_trans hclear (by decide)
    obtain ⟨hip, hwritable, hleaves⟩ := (hgood.fileread (mem_refs_file hmem) hm).of_ok hrun
    exact Stands.onFile hfiles hf hip hwritable hleaves
  | write k src left =>
    obtain ⟨f, hf, ht⟩ := Option.bind_eq_some_iff.mp ht
    have hmem := List.mem_of_getElem? hf
    split at ht
    · rename_i hw
      obtain ⟨r, fs, hrun, rfl⟩ := after_some ht
      have hwrite : Gives (transaction (Fs.writeChunk f src (min left writeMax)) s.fs) fun r fs =>
          r.2.ip = f.ip ∧ r.2.writable = f.writable ∧ Leaves s.refs A σ s.refs fs := by
        refine gives_transaction (fun log => ?_) fun _ _ log h => ⟨h.1, h.2.1, h.2.2.setLog log⟩
        exact (hgood.setLog log).writeChunk (mem_refs_file hmem) (hfiles f hmem) hw
          (Nat.min_le_right _ _) (hclear f hf)
      obtain ⟨hip, hwritable, hleaves⟩ := hwrite.of_ok hrun
      exact Stands.onFile hfiles hf hip hwritable hleaves
    · obtain rfl := Option.some.inj ht
      exact ⟨A, σ, hgood, hfiles⟩

/-- Along every run that keeps clear of the double-indirect blocks the disk, the inode cache
and the references of the processes stay in order. -/
theorem always_tidy (h : Stands s) {as : List Act} (has : Meets Sys.step KeepsClear s as) :
    Always Sys.step Tidy s as :=
  (always_of_meets (fun _ _ _ hs hclear ht => hs.step hclear ht) h has).mono fun _ hs => hs.tidy

end Steps

end NorthOS.Fs
