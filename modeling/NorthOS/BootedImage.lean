import NorthOS.CallRuns
import NorthOS.Commit
import NorthOS.Lookups
import NorthOS.MkfsFiles

/-!
From mkfs to the running kernel. The kernel reads the superblock that mkfs wrote, recovers an
empty log, and has the root directory as its first working directory; what it sees of the
image are the files that mkfs was given.
-/
namespace NorthOS.Fs

open LittleEndian Halting Comp Ownership Runs

/-- `readsb` -/
def readsb (disk : ℕ → Bytes) : Superblock where
  size := get (disk 1) 0 4
  nblocks := get (disk 1) 4 4
  ninodes := get (disk 1) 8 4
  nlog := get (disk 1) 12 4
  logstart := get (disk 1) 16 4
  inodestart := get (disk 1) 20 4
  bmapstart := get (disk 1) 24 4

/-- The superblock, where its parameters are valid. -/
def iinit (disk : ℕ → Bytes) : Option Superblock :=
  if (readsb disk).size < (readsb disk).nblocks ∨ (readsb disk).ninodes < 1 ∨ (readsb disk).nblocks < 1 then none
  else some (readsb disk)

/-- The file system when iinit and initlog are done; no inode is cached yet. -/
def initialized (disk : ℕ → Bytes) (sb : Superblock) (devsw : ℕ → Option Devsw) : State where
  sb := sb
  blk := fun _ => (Commit.initlog sb.logstart sb.nlog disk).disk
  held := []
  log := (Commit.initlog sb.logstart sb.nlog disk).log
  last_alloc_hint := 0
  icache := fun _ => unusedInode
  past := 0
  devsw := devsw
  strict := false

/-- The first process has `namei("/")` as its working directory, which takes a slot of the cache
and reads nothing, so that userinit may call it before iinit. `none` stands for a panic. -/
def boot (disk : ℕ → Bytes) (devsw : ℕ → Option Devsw) : Option Sys :=
  (iinit disk).bind fun sb =>
    match namei 0 [slash] (initialized disk sb devsw) with
    | .ok (some ip, fs) => some ⟨fs, [ip], []⟩
    | _ => none

section Recovery

/-- A log whose header is empty is recovered by writing the header back. -/
theorem initlog_empty {start size : ℕ} {disk : ℕ → Bytes} (h : disk start = fun _ => 0) :
    (Commit.initlog start size disk).disk = disk ∧
      (Commit.initlog start size disk).log = ⟨start, size, 0, false, []⟩ := by
  have hhead : Commit.loadHead (disk start) = [] := by
    rw [h]
    rfl
  have hput : put (disk start) 0 4 0 = disk start := by
    rw [h]
    have hget : get (fun _ => 0) 0 4 = 0 := rfl
    have hself := put_get (fun _ => 0) 0 4
    rwa [hget] at hself
  have hlog : (Commit.boot start size disk).readHead.log = ⟨start, size, 0, false, []⟩ := by
    show (⟨start, size, 0, false, Commit.loadHead (disk start)⟩ : Log) = _
    rw [hhead]
  have hinstall : (Commit.boot start size disk).readHead.installTrans =
      (Commit.boot start size disk).readHead := by
    unfold Commit.Machine.installTrans
    rw [hlog]
    rfl
  have hcache : (Commit.boot start size disk).readHead.clear.bread start =
      (disk start, (Commit.boot start size disk).readHead.clear) := by
    have hbuf : (Commit.boot start size disk).readHead.clear.cache start =
        some ⟨disk start, false⟩ :=
      Function.update_self (β := fun _ => Option Commit.Buf) start _ fun _ => none
    unfold Commit.Machine.bread
    rw [hbuf]
  have hwrite : (Commit.boot start size disk).readHead.clear.writeHead =
      (Commit.boot start size disk).readHead.clear.bwrite start (put (disk start) 0 4 0) := by
    show Commit.Machine.bwrite (Commit.Machine.bread _ start).2 start
      (Commit.storeHead [] (Commit.Machine.bread _ start).1) = _
    rw [hcache]
    rfl
  unfold Commit.initlog Commit.Machine.recoverFromLog
  rw [hinstall, hwrite, hput]
  exact ⟨Function.update_eq_self start disk, by rw [Commit.Machine.bwrite,
    Commit.Machine.clear, hlog]⟩

end Recovery

section Pointers

open Mkfs (Ptr pointer table fbnPlace dinAddr dinSize fileByte)

variable {t : Mkfs.State} {b : Bytes} {n k o len fbn : ℕ} {p p' : Place}

/-- The place of a pointer in the image. -/
def ptrOf : Place → Ptr
  | .direct k => .addr k
  | .index => .addr NDIRECT
  | .leaf j => .leaf j

/-- The pointers that an inode in the cache has. -/
def InMap (p : Place) : Prop := ∀ k, p = .direct k → k < NDIRECT

theorem inMap_index : InMap .index := fun _ h => by cases h

theorem inMap_leaf {j : ℕ} : InMap (.leaf j) := fun _ h => by cases h

/-- The inodes of the volume are the dinodes of the image. -/
theorem ino_table (img : ℕ → Bytes) (n : ℕ) : (volume img).ino n = readIno (table img n) 0 := by
  simp only [volume, table]
  split
  · ext
    · exact get_shift.symm
    · exact get_shift.symm
    · exact get_shift.symm
    · exact get_shift.symm
    · exact get_shift.symm
    · rename_i k
      show (if k < NDIRECT + 1 then _ else 0) = (if k < NDIRECT + 1 then _ else 0)
      split
      · rw [get_shift, Nat.zero_add, ← Nat.add_assoc]
      · rfl
  · exact (readIno_zero 0).symm

theorem far_table (img : ℕ → Bytes) (n : ℕ) :
    (volume img).far n = dinAddr (table img n) (NDIRECT + 1) := by
  simp only [volume, table]
  split
  · exact get_shift.symm
  · exact (get_zero fun _ _ _ => rfl).symm

theorem addrs_of_lt (img : ℕ → Bytes) (hk : k < NDIRECT + 1) :
    ((volume img).ino n).addrs k = dinAddr (table img n) k := by
  rw [ino_table]
  show (if k < NDIRECT + 1 then _ else 0) = _
  rw [if_pos hk, Nat.zero_add]
  rfl

theorem pointer_addr (img : ℕ → Bytes) (hk : k < NDIRECT + 1) :
    pointer (table img) img (n, .addr k) = ((volume img).ino n).addrs k := by
  rw [addrs_of_lt img hk]
  exact if_pos (Nat.lt_succ_of_lt hk)

/-- The block map of the kernel is that of mkfs. -/
theorem blocks_volume (h : Mkfs.Sound (table t.img) t) (hp : InMap p) :
    blocks (volume t.img).ino (volume t.img) (n, p) = pointer (table t.img) t.img (n, ptrOf p) := by
  cases p with
  | direct k =>
    have hk := hp k rfl
    rw [blocks_direct _ _ _ hk, ptrOf, pointer_addr t.img (by omega)]
  | index =>
    rw [blocks_index, ptrOf, pointer_addr t.img (Nat.lt_succ_self _)]
  | leaf j =>
    have hroot := pointer_addr (n := n) t.img (Nat.lt_succ_self NDIRECT)
    rw [ptrOf, Mkfs.pointer_of_parent (p := .leaf j) rfl, hroot]
    show (if _ then _ else 0) = (if _ then _ else 0)
    by_cases hc : ((volume t.img).ino n).addrs NDIRECT = 0
    · rw [if_neg fun h' => h'.2 hc, if_neg fun h' => h'.1 hc]
    · have hlo := (h.pointer_lt (q := (n, .addr NDIRECT)) (by rwa [hroot])).1
      rw [hroot] at hlo
      have hdata : (volume t.img).data (((volume t.img).ino n).addrs NDIRECT) =
          t.img (((volume t.img).ino n).addrs NDIRECT) := if_pos hlo
      rw [hdata]
      by_cases hj : j < NINDIRECT
      · rw [if_pos ⟨hj, hc⟩, if_pos ⟨hc, hj⟩]
      · rw [if_neg fun h' => hj h'.1, if_neg fun h' => hj h'.2]

theorem ptrOf_inj (hp : InMap p) (hp' : InMap p') (h : ptrOf p = ptrOf p') : p = p' := by
  have hlast : ¬ NDIRECT < NDIRECT := Nat.lt_irrefl _
  cases p <;> cases p' <;> simp only [ptrOf, Ptr.addr.injEq, Ptr.leaf.injEq, reduceCtorEq] at h
  · rw [h]
  · exact absurd (hp _ rfl) (by rw [h]; exact hlast)
  · exact absurd (hp' _ rfl) (by rw [← h]; exact hlast)
  · rfl
  · rw [h]

theorem inMap_of_ne {v : Inos} {vol : Volume} (h : blocks v vol (n, p) ≠ 0) : InMap p := by
  rintro k rfl
  by_contra hk
  exact h (if_neg hk)

theorem ptrOf_placeOf (h : fbn < NDIRECT + NINDIRECT) :
    ptrOf (placeOf fbn) = fbnPlace fbn ∧ InMap (placeOf fbn) := by
  unfold placeOf fbnPlace
  by_cases hd : fbn < NDIRECT
  · rw [if_pos hd, if_pos hd]
    refine ⟨rfl, fun k hk => ?_⟩
    rw [← Place.direct.inj hk]
    exact hd
  · rw [if_neg hd, if_neg hd, if_pos h]
    exact ⟨rfl, inMap_leaf⟩

/-- No pointer of a small file is out of the kernel's sight. -/
theorem exists_place (hfar : ∀ n, dinAddr (table t.img n) (NDIRECT + 1) = 0) {q : ℕ × Ptr}
    (hq : pointer (table t.img) t.img q ≠ 0) : ∃ p, InMap p ∧ ptrOf p = q.2 := by
  obtain ⟨n, p⟩ := q
  have hempty : pointer (table t.img) t.img (n, .addr (NDIRECT + 1)) = 0 := by
    show Mkfs.dinEntry (table t.img n) (NDIRECT + 1) = 0
    rw [Mkfs.dinEntry, if_pos (Nat.lt_succ_self _)]
    exact hfar n
  have houter : ∀ j, pointer (table t.img) t.img (n, .outer j) = 0 := fun j => by
    rw [Mkfs.pointer_of_parent (p := .outer j) rfl, hempty]
    exact if_neg fun h => h.1 rfl
  cases p with
  | addr k =>
    rcases Nat.lt_trichotomy k NDIRECT with hk | rfl | hk
    · refine ⟨.direct k, fun j hj => ?_, rfl⟩
      rw [← Place.direct.inj hj]
      exact hk
    · exact ⟨.index, inMap_index, rfl⟩
    · by_cases hlast : k = NDIRECT + 1
      · rw [hlast] at hq
        exact absurd hempty hq
      · exact absurd (if_neg (by omega)) hq
  | leaf j => exact ⟨.leaf j, inMap_leaf, rfl⟩
  | outer j => exact absurd (houter j) hq
  | inner j k =>
    refine absurd ?_ hq
    rw [Mkfs.pointer_of_parent (p := .inner j k) rfl, houter]
    exact if_neg fun h => h.1 rfl

end Pointers

section Boot

variable {t : Mkfs.State} {es : List (ℕ × Name)} {cs : List (List UInt8)} {devsw : ℕ → Option Devsw}

theorem readsb_mkfs (h : t.img 1 = Mkfs.superblockBytes) : readsb t.img = mkfsSuperblock := by
  unfold readsb
  rw [h]
  rfl

/-- The first slot of the cache is for the root. -/
theorem namei_root (disk : ℕ → Bytes) (sb : Superblock) :
    namei 0 [slash] (initialized disk sb devsw) =
    .ok (some 0, (initialized disk sb devsw).setSlot 0 fun ip =>
      { ip with dev := ROOTDEV, inum := ROOTINO, ref := 1, valid := false }) := rfl

theorem initialized_vol (h : Mkfs.Image es cs t) :
    (initialized t.img mkfsSuperblock devsw).vol = volume t.img := by
  have hlog : t.img mkfsSuperblock.logstart = fun _ => 0 := h.log _ (by decide) (by decide)
  show volume (Commit.initlog mkfsSuperblock.logstart mkfsSuperblock.nlog t.img).disk = _
  rw [(initlog_empty hlog).1]

theorem initialized_log (h : Mkfs.Image es cs t) :
    (initialized t.img mkfsSuperblock devsw).log = ⟨2, nlog, 0, false, []⟩ := by
  have hlog := @initlog_empty _ mkfsSuperblock.nlog _ (h.log mkfsSuperblock.logstart (by decide)
      (by decide))
  unfold initialized
  rw [hlog.2]
  rfl

/-- An inode that mkfs handed out. -/
theorem ino_made (h : Mkfs.Image es cs t) {n : ℕ} (hpos : 0 < n) (hlt : n < t.freeinode) :
    ((volume t.img).ino n).type = Mkfs.madeType n ∧ ((volume t.img).ino n).major = 0 ∧
      ((volume t.img).ino n).minor = 0 ∧ ((volume t.img).ino n).nlink = 1 := by
  have hget : ∀ o len, o + len ≤ 8 → get (Mkfs.table t.img n) o len =
      get (Mkfs.newDinode (Mkfs.madeType n)) o len :=
    fun o len hend => get_congr fun i _ hi => h.fields n hpos hlt i (by omega)
  have htype : Mkfs.madeType n < 256 ^ 2 := by
    unfold Mkfs.madeType
    split <;> decide
  rw [ino_table]
  refine ⟨?_, ?_, ?_, ?_⟩
  · show get (Mkfs.table t.img n) 0 2 = _
    rw [hget _ _ (by omega), Mkfs.newDinode, get_put_other (by omega), get_put_of_lt htype]
  · show get (Mkfs.table t.img n) 2 2 = _
    rw [hget _ _ (by omega), Mkfs.newDinode, get_put_other (by omega), get_put_other (by omega)]
    exact get_zero fun _ _ _ => rfl
  · show get (Mkfs.table t.img n) 4 2 = _
    rw [hget _ _ (by omega), Mkfs.newDinode, get_put_other (by omega), get_put_other (by omega)]
    exact get_zero fun _ _ _ => rfl
  · show get (Mkfs.table t.img n) 6 2 = _
    rw [hget _ _ (by omega), Mkfs.newDinode]
    exact get_put_of_lt (by decide)

theorem ino_free (h : Mkfs.Image es cs t) {n : ℕ} (hn : n = 0 ∨ t.freeinode ≤ n) :
    (volume t.img).ino n = .free := by
  rw [ino_table, ← readIno_zero 0]
  exact readIno_congr fun i _ hi => h.blank n hn i (by omega)

theorem ino_cases (h : Mkfs.Image es cs t) (n : ℕ) :
    (0 < n ∧ n < t.freeinode) ∨ (volume t.img).ino n = .free := by
  by_cases hn : 0 < n ∧ n < t.freeinode
  · exact Or.inl hn
  · exact Or.inr (ino_free h (by omega))

theorem ino_size (n : ℕ) : ((volume t.img).ino n).size = Mkfs.dinSize (Mkfs.table t.img n) := by
  rw [ino_table]
  rfl

theorem used_iff (h : Mkfs.Image es cs t) (b : ℕ) :
    (volume t.img).used b = decide (b < t.freeblock) := by
  have hbits : BPB = 16384 := rfl
  have hblocks := h.blocks
  simp only [volume]
  split
  · rename_i hb
    exact h.finished.bitmap b hb
  · rename_i hb
    rw [bitmap_bits] at hb
    exact (decide_eq_false (by omega)).symm

/-- All entries are in the blocks that the root has, although mkfs rounds its size up. -/
theorem root_mapped (h : Mkfs.Image es cs t) (hround : direntSize * es.length % BSIZE ≠ 0) {o : ℕ}
    (ho : o < Mkfs.dinSize (Mkfs.table t.img ROOTINO)) :
    Mkfs.pointer (Mkfs.table t.img) t.img (ROOTINO, Mkfs.fbnPlace (o / BSIZE)) ≠ 0 := by
  have hblock : BSIZE = 2048 := rfl
  rw [h.finished.size] at ho
  rw [hblock] at ho hround
  have hmapped := h.mapped ROOTINO (o / 2048 * 2048)
  rw [if_pos rfl] at hmapped
  have hsame : o / 2048 * 2048 / BSIZE = o / BSIZE := Nat.mul_div_cancel _ (by decide)
  rw [hsame] at hmapped
  exact hmapped (by omega)

theorem image_mapped (h : Mkfs.Image es cs t) (hround : direntSize * es.length % BSIZE ≠ 0)
    (n : ℕ) : NearMapped (volume t.img).ino (volume t.img) n := by
  intro o ho hnear
  have hblock : BSIZE = 2048 := rfl
  have hsmall : NDIRECT + NINDIRECT = 522 := rfl
  have hend : nearBytes = 1069056 := rfl
  rw [ino_size] at ho
  obtain ⟨hplace, hin⟩ := ptrOf_placeOf (show o / BSIZE < NDIRECT + NINDIRECT by rw [hblock]; omega)
  rw [blocks_volume h.finished.sound hin, hplace]
  by_cases hroot : n = ROOTINO
  · rw [hroot] at ho ⊢
    exact root_mapped h hround ho
  · have hmapped := h.mapped n o
    rw [if_neg hroot] at hmapped
    exact hmapped ho

theorem image_owned (h : Mkfs.Image es cs t) :
    Owned DataBlock (blocks (volume t.img).ino (volume t.img)) (volume t.img).used := by
  have hbits : BPB = 16384 := rfl
  have hblocks := h.blocks
  have hmany : nblocks = 25553 := rfl
  have hptr : ∀ q, blocks (volume t.img).ino (volume t.img) q ≠ 0 → InMap q.2 ∧
      blocks (volume t.img).ino (volume t.img) q = Mkfs.pointer (Mkfs.table t.img) t.img
      (q.1, ptrOf q.2) := by
    intro q hq
    have hin : InMap q.2 := inMap_of_ne hq
    exact ⟨hin, blocks_volume h.finished.sound hin⟩
  refine ⟨fun q hq => ?_, fun q r hq hqr => ?_⟩
  · have heq := (hptr q hq).2
    rw [heq] at hq ⊢
    obtain ⟨hlo, hhi⟩ := h.finished.sound.pointer_lt hq
    exact ⟨⟨hlo, by omega⟩, by rw [used_iff h]; exact decide_eq_true hhi⟩
  · obtain ⟨hin, heq⟩ := hptr q hq
    obtain ⟨hin', heq'⟩ := hptr r (by rwa [← hqr])
    rw [heq] at hq
    have hsame := h.finished.sound.exclusive.once _ (r.1, ptrOf r.2) hq (by rw [← heq, hqr, heq'])
    obtain ⟨hn, hp⟩ := Prod.ext_iff.mp hsame
    exact Prod.ext hn (ptrOf_inj hin hin' hp)

theorem image_noLeak (h : Mkfs.Image es cs t) :
    NoLeak (fun b => nmeta ≤ b) (blocks (volume t.img).ino (volume t.img)) (volume t.img).used := by
  intro b hb hused
  rw [used_iff h] at hused
  obtain ⟨q, hq⟩ := h.taken b hb (of_decide_eq_true hused)
  have hmeta : nmeta = 47 := rfl
  obtain ⟨p, hin, hp⟩ := exists_place h.far (q := q) (by omega)
  refine ⟨(q.1, p), ?_⟩
  rw [blocks_volume h.finished.sound hin, hp]
  exact hq

/-- What iinit and initlog find on the image is in order. -/
theorem image_sound (h : Mkfs.Image es cs t) (hround : direntSize * es.length % BSIZE ≠ 0) :
    Sound True (initialized t.img mkfsSuperblock devsw) (volume t.img).ino := by
  have hvol : (initialized t.img mkfsSuperblock devsw).vol = volume t.img := initialized_vol h
  have hmeta : nmeta = 47 := rfl
  have hnone : ∀ i n, ¬ Loaded (initialized t.img mkfsSuperblock devsw) i n :=
    fun i n hl => absurd hl.ref (Nat.lt_irrefl 0)
  have hlo := h.finished.sound.lo
  have hword : (volume t.img).word = FSSIZE := by
    show get (t.img 1) 0 4 = _
    rw [h.word]
    rfl
  refine ⟨⟨rfl, by rw [hvol, hword], rfl, List.nodup_nil, fun n hn => ?_, fun n => ?_,
    fun n htype k => ?_,
    fun b hb => ?_, by rw [hvol]; exact image_owned h, fun i _ href => absurd href
    (Nat.lt_irrefl 0),
    fun _ _ => Or.inl rfl, fun i j _ _ href => absurd href (Nat.lt_irrefl 0),
    fun i n hl => absurd hl (hnone i n),
    fun n _ _ => by rw [hvol]⟩, rfl, fun n _ => by rw [hvol], fun i n hl => absurd hl (hnone i n),
    fun n => ?_, fun _ => ?_, fun _ n => ?_⟩
  · exact ino_free h (Or.inr (Nat.le_trans h.inodes hn))
  · rw [ino_table]
    exact readIno_inRange _ _
  · rcases ino_cases h n with ⟨hpos, hlt⟩ | hfree
    · have hmade := (ino_made h hpos hlt).1
      rw [htype, Mkfs.madeType] at hmade
      split at hmade <;> cases hmade
    · rw [hfree]
      rfl
  · rw [hvol, used_iff h]
    exact decide_eq_true (by omega)
  · rw [hvol]
    exact image_mapped h hround n
  · unfold NoLeaks
    rw [hvol]
    exact image_noLeak h
  · rw [hvol, far_table]
    exact h.far n

/-- The bytes that the kernel sees. -/
theorem byteAt_image (h : Mkfs.Image es cs t) {n o : ℕ} (ho : o < nearBytes) :
    byteAt (volume t.img).ino (volume t.img) n o = Mkfs.fileByte (Mkfs.table t.img) t.img n o := by
  have hblock : BSIZE = 2048 := rfl
  have hsmall : NDIRECT + NINDIRECT = 522 := rfl
  have hend : nearBytes = 1069056 := rfl
  obtain ⟨hplace, hin⟩ := ptrOf_placeOf (show o / BSIZE < NDIRECT + NINDIRECT by rw [hblock]; omega)
  have hptr := blocks_volume (n := n) h.finished.sound hin
  rw [hplace] at hptr
  unfold byteAt bytes Mkfs.fileByte
  rw [hptr]
  split
  · rfl
  · rename_i hne
    have hlo := (h.finished.sound.pointer_lt hne).1
    exact congrFun (if_pos hlo : (volume t.img).data _ = _) (o % BSIZE)

/-- The files of an image. -/
def seen (img : ℕ → Bytes) : Files := nodeOf (volume img).ino (volume img)

/-- A file as it was on the host. -/
def fileNode (c : List UInt8) : Node := ⟨T_FILE, 0, 0, 1, c.length, fun o => c.getD o 0⟩

theorem nodeOf_file (h : Mkfs.Image es cs t) {k : ℕ} {c : List UInt8} (hk : cs[k]? = some c)
    (hc : c.length ≤ nearBytes) : seen t.img (k + 2) = fileNode c := by
  have hcount := h.filled.count
  have hholds := h.filled.holds k c hk
  have hlt : k < cs.length := (List.getElem?_eq_some_iff.mp hk).1
  obtain ⟨htype, hmajor, hminor, hnlink⟩ := ino_made h (Nat.succ_pos (k + 1)) (by omega)
  have hroot : ROOTINO = 1 := rfl
  have hfile : Mkfs.madeType (k + 2) = T_FILE := if_neg (by omega)
  have hsize : ((volume t.img).ino (k + 2)).size = c.length := (ino_size _).trans hholds.size
  unfold seen nodeOf fileNode
  rw [htype, hmajor, hminor, hnlink, hsize, hfile]
  congr 1
  funext o
  by_cases ho : o < c.length
  · rw [if_pos ho, byteAt_image h (by omega), hholds.bytes o ho]
    exact (List.getD_eq_getElem _ _ ho).symm
  · rw [if_neg ho, List.getD_eq_default _ _ (Nat.not_lt.mp ho)]

/-- The root is filled up to the end of its last block. -/
theorem root_size (h : Mkfs.Image es cs t) :
    (seen t.img ROOTINO).size = (direntSize * es.length / BSIZE + 1) * BSIZE :=
  (ino_size _).trans h.finished.size

theorem root_size_le (h : Mkfs.Image es cs t) (hes : es.length ≤ maxInodes) : (seen t.img ROOTINO).size ≤ 4096 := by
  have hmax : maxInodes = 208 := rfl
  have hsixteen : direntSize = 16 := rfl
  have hblock : BSIZE = 2048 := rfl
  rw [root_size h, hsixteen, hblock]
  omega

/-- The entries of the root directory as the kernel sees them. -/
theorem dirent_root (h : Mkfs.Image es cs t) (hes : es.length ≤ maxInodes) {k j : ℕ}
    (hk : k < (seen t.img ROOTINO).entries) (hj : j < direntSize) :
    (seen t.img ROOTINO).dirent k j = (Mkfs.rootDir t.img).dirent k j := by
  have hend := Node.entry_end hk
  have hsize := root_size_le h hes
  have hnear : nearBytes = 1069056 := rfl
  show (if _ then _ else 0) = Mkfs.fileByte (Mkfs.table t.img) t.img ROOTINO (direntSize * k + j)
  rw [if_pos, byteAt_image h (by omega)]
  show direntSize * k + j < (seen t.img ROOTINO).size
  omega

theorem inumAt_root (h : Mkfs.Image es cs t) (hes : es.length ≤ maxInodes)
    (hlt : ∀ e ∈ es, e.1 < maxInodes) {k : ℕ} (hk : k < (seen t.img ROOTINO).entries) :
    (seen t.img ROOTINO).inumAt k = (es[k]?.map Prod.fst).getD 0 := by
  have hsixteen : direntSize = 16 := rfl
  have hmax : maxInodes = 208 := rfl
  have hbyte := fun j (hj : j < 2) =>
    (dirent_root h hes hk (show j < direntSize by omega)).trans (h.finished.dirent (by omega))
  cases he : es[k]? with
  | none =>
    rw [he] at hbyte
    exact get_zero fun j _ hj => hbyte j (by omega)
  | some e =>
    rw [he] at hbyte
    have hin := hlt e (List.mem_of_getElem? he)
    have hget : (seen t.img ROOTINO).inumAt k = get (Fs.dirent e.1 e.2) 0 2 :=
      get_congr fun j _ hj => hbyte j (by omega)
    exact hget.trans (get_put_of_lt (show e.1 < 256 ^ 2 by omega))

/-- The limits under which the kernel sees all of an image: no file reaches into the
double-indirect blocks, and the entries of the root do not end with a block. -/
structure Fits (es : List (ℕ × Name)) (cs : List (List UInt8)) : Prop where
  round : direntSize * es.length % BSIZE ≠ 0
  many : es.length ≤ maxInodes
  inums : ∀ e ∈ es, e.1 < maxInodes
  small : ∀ c ∈ cs, c.length ≤ nearBytes

theorem root_type (h : Mkfs.Image es cs t) : (seen t.img ROOTINO).type = T_DIR := by
  have hroot : ROOTINO = 1 := rfl
  have hcount := h.filled.count
  exact (ino_made h (by omega) (by omega)).1

/-- The root is the only directory. -/
theorem image_dir (h : Mkfs.Image es cs t) (htype : (seen t.img n).type = T_DIR) : n = ROOTINO := by
  rcases ino_cases h n with ⟨hpos, hlt⟩ | hfree
  · have hmade := (ino_made h hpos hlt).1.symm.trans htype
    unfold Mkfs.madeType at hmade
    split at hmade
    · assumption
    · cases hmade
  · have hzero : ((volume t.img).ino n).type = 0 := by
      rw [hfree]
      rfl
    cases hzero.symm.trans htype

theorem image_good (h : Mkfs.Image es cs t) (hfits : Fits es cs) :
    Good True (initialized t.img mkfsSuperblock devsw) (seen t.img)
      (initialized t.img mkfsSuperblock devsw).slots 0 0 := by
  have hroot : ROOTINO = 1 := rfl
  have hcount := h.filled.count
  refine ⟨⟨_, image_sound h hfits.round, by rw [initialized_vol h]; rfl, rfl⟩, ?_, fun i hi => ?_,
    fun i _ => rfl, ⟨fun _ n => ?_, fun n k htype hk => ?_⟩, fun n htype hnlink => ?_⟩
  · exact (by decide : 0 < nblocks)
  · exact absurd hi (Multiset.notMem_zero i)
  · rcases ino_cases h n with ⟨hpos, hlt⟩ | hfree
    · by_cases hn : n = ROOTINO
      · rw [hn]
        exact Nat.le_trans (root_size_le h hfits.many) (by decide)
      · obtain ⟨k, rfl⟩ : ∃ k, n = k + 2 := ⟨n - 2, by omega⟩
        obtain ⟨c, hk⟩ : ∃ c, cs[k]? = some c := ⟨_, List.getElem?_eq_getElem (by omega)⟩
        have hc := hfits.small c (List.mem_of_getElem? hk)
        rw [nodeOf_file h hk hc]
        exact hc
    · show ((volume t.img).ino n).size ≤ nearBytes
      rw [hfree]
      exact Nat.zero_le _
  · rw [image_dir h htype] at hk ⊢
    rw [inumAt_root h hfits.many hfits.inums hk]
    cases he : es[k]? with
    | none => decide
    | some e => exact hfits.inums e (List.mem_of_getElem? he)
  · rcases ino_cases h n with ⟨hpos, hlt⟩ | hfree
    · cases (ino_made h hpos hlt).2.2.2.symm.trans hnlink
    · refine absurd ?_ htype
      show ((volume t.img).ino n).type = 0
      rw [hfree]
      rfl

/-- The kernel that came up: it sees the files of the image, with the root as the working
directory of the first process. -/
structure Booted (img : ℕ → Bytes) (fs : State) (σ : Slots) : Prop where
  good : Good True fs (seen img) σ {0} 0
  cwd : (σ 0).inum = ROOTINO
  idle : Idle fs
  vol : fs.vol = volume img
  log : fs.log = ⟨2, nlog, 0, false, []⟩

theorem boot_image (devsw : ℕ → Option Devsw) (h : Mkfs.Image es cs t) (hfits : Fits es cs) :
    ∃ fs σ, boot t.img devsw = some ⟨fs, [0], []⟩ ∧ Booted t.img fs σ := by
  have hget : iget ROOTDEV ROOTINO (initialized t.img mkfsSuperblock devsw) =
      .ok (0, (initialized t.img mkfsSuperblock devsw).setSlot 0 fun ip =>
        { ip with dev := ROOTDEV, inum := ROOTINO, ref := 1, valid := false }) := rfl
  obtain ⟨σ, hdoes, hinum⟩ :=
    ((image_good h hfits).iget (n := ROOTINO) (by decide) (by decide)).of_ok hget
  refine ⟨_, σ, ?_, hdoes.promote.good, hinum, fun i _ => ?_, ?_, ?_⟩
  · unfold boot iinit
    rw [readsb_mkfs h.word]
    rfl
  · have hlocks := locks_setSlot (initialized t.img mkfsSuperblock devsw) 0 fun ip =>
      { ip with dev := ROOTDEV, inum := ROOTINO, ref := 1, valid := false }
    refine (congrFun hlocks i).trans ?_
    by_cases hi : i = 0
    · rw [hi, Function.update_self]
      rfl
    · rw [Function.update_of_ne hi]
      rfl
  · have hvol : (initialized t.img mkfsSuperblock devsw).vol = volume t.img := initialized_vol h
    exact hvol
  · exact (setSlot_quiet _).of_ok rfl |>.log.trans (initialized_log h)

end Boot

section Runs

variable {files : List Mkfs.HostFile} {t : Mkfs.State}

theorem fileEntries_inums {n : ℕ} :
    ∀ e ∈ Mkfs.fileEntries n files, e.1 < n + files.countP Mkfs.accepted := by
  induction files generalizing n with
  | nil => exact fun e he => absurd he List.not_mem_nil
  | cons f fs ih =>
    unfold Mkfs.fileEntries
    by_cases hf : Mkfs.accepted f
    · rw [if_pos hf, List.countP_cons_of_pos hf]
      intro e he
      rcases List.mem_cons.mp he with rfl | he
      · show n < _
        omega
      · have hrest := ih e he
        omega
    · rw [if_neg hf, List.countP_cons_of_neg hf]
      exact ih

/-- The arguments of mkfs are not too many, no file that it takes is longer than the direct and
single-indirect blocks, and the number of entries is no multiple of those in a block. -/
structure Modest (files : List Mkfs.HostFile) : Prop where
  count : files.countP Mkfs.accepted + 2 ≤ maxInodes
  small : ∀ f ∈ files, Mkfs.accepted f → (Mkfs.copied f.reads).length ≤ nearBytes
  round : (files.countP Mkfs.accepted + 2) % (BSIZE / direntSize) ≠ 0

theorem Modest.fits (h : Modest files) : Fits (Mkfs.rootEntries files) (Mkfs.contents files) := by
  have hlen : (Mkfs.rootEntries files).length = files.countP Mkfs.accepted + 2 := by
    rw [Mkfs.rootEntries, List.length_append, Mkfs.fileEntries_length]
    exact Nat.add_comm 2 _
  have hround := h.round
  have hblock : BSIZE / direntSize = 128 := rfl
  have hsixteen : direntSize = 16 := rfl
  have hsize : BSIZE = 2048 := rfl
  rw [hblock] at hround
  refine ⟨?_, by rw [hlen]; exact h.count, fun e he => ?_, fun c hc => ?_⟩
  · rw [hlen, hsixteen, hsize]
    omega
  · have hcount := h.count
    rcases List.mem_append.mp he with he | he
    · simp only [List.mem_cons, List.not_mem_nil, or_false] at he
      rcases he with rfl | rfl
      · exact (by decide : ROOTINO < maxInodes)
      · exact (by decide : ROOTINO < maxInodes)
    · have hlt := fileEntries_inums e he
      omega
  · obtain ⟨f, hf, rfl⟩ := List.mem_map.mp hc
    obtain ⟨hmem, hacc⟩ := List.mem_filter.mp hf
    exact h.small f hmem hacc

/-- From an image of mkfs the kernel boots, and what holds of the disk and the cache then holds
after every step. -/
theorem always_tidy_mkfs {image : Option Bool}
    (hrun : Mkfs.main image files Mkfs.start = .ok ((), t))
    (hfiles : Modest files) (devsw : ℕ → Option Devsw) :
    ∃ s, boot t.img devsw = some s ∧
      ∀ as, Meets Sys.step KeepsClear s as → Always Sys.step Tidy s as := by
  have himage := (Mkfs.main_image hfiles.count hfiles.small).of_ok hrun
  obtain ⟨fs, σ, hboot, hbooted⟩ := boot_image devsw himage hfiles.fits
  have hrefs : Sys.refs ⟨fs, [0], []⟩ = {0} := rfl
  have hstands : Stands ⟨fs, [0], []⟩ :=
    ⟨_, σ, by rw [hrefs]; exact hbooted.good, fun f hf => absurd hf List.not_mem_nil⟩
  exact ⟨_, hboot, fun as has => always_tidy hstands has⟩

/-- A short text on the host. -/
def readme : Mkfs.HostFile where
  path := [97]
  cstring := by decide
  opens := true
  stat := some 5
  reads := [[104, 105, 32, 121, 10]]
  short := by decide

theorem readme_runs : ∃ t, Mkfs.main (some true) [readme] Mkfs.start = .ok ((), t) := by
  rw [Mkfs.main_start]
  exact Mkfs.returns_of_isOk (by decide +kernel)

theorem readme_modest : Modest [readme] := ⟨by decide, by decide, by decide⟩

theorem always_tidy_mkfs_open : ∃ t s, Mkfs.main (some true) [readme] Mkfs.start = .ok ((), t) ∧
    boot t.img (fun _ => none) = some s ∧
      Always Sys.step Tidy s [.openFile 0 [slash, 97] 0 true, .fork 0, .close 0] := by
  obtain ⟨t, hrun⟩ := readme_runs
  obtain ⟨s, hboot, hall⟩ := always_tidy_mkfs hrun readme_modest fun _ => none
  have himage := (Mkfs.main_image readme_modest.count readme_modest.small).of_ok hrun
  obtain ⟨fs, σ, hboot', hbooted⟩ := boot_image (fun _ => none) himage readme_modest.fits
  obtain rfl := Option.some.inj (hboot.symm.trans hboot')
  have hclear : ∀ n, (fs.inos n).type = T_DIR → (fs.inos n).size < nearBytes := by
    intro n htype
    show (fs.vol.ino n).size < nearBytes
    have hdir : (fs.vol.ino n).type = T_DIR := htype
    rw [hbooted.vol] at hdir ⊢
    have hsize : ((volume t.img).ino n).size = 2048 := by
      rw [image_dir himage hdir]
      exact root_size himage
    rw [hsize]
    decide
  exact ⟨t, _, hrun, hboot,
    hall _ fun _ _ => ⟨hclear, fun _ _ => ⟨trivial, fun _ _ => ⟨trivial, trivial⟩⟩⟩⟩

end Runs

end NorthOS.Fs
