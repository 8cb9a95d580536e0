import Mathlib.Data.Finset.Card
import NorthOS.Trunc

/-!
itrunc on an inode with any other contents of the inode cache. Up to the single-indirect
block it frees each block of the map once. The entry behind that is read from the next slot
of the cache, or from the word that follows the cache: only where this is 0, and where the
inode has no double-indirect block on the disk, does itrunc free exactly what the inode has.
-/
namespace NorthOS.Fs

open LittleEndian Halting Comp Ownership

variable {i n k b : ℕ} {s t u : State}

/-- What itrunc takes for the double-indirect entry. -/
def State.behind (s : State) (i : ℕ) : ℕ :=
  if i + 1 < NINODE then (s.icache (i + 1)).dev else s.past

/-- The places of the map of an inode, with those of the double-indirect block on the disk. -/
inductive Reference
  | near (p : Place)
  | top
  | mid (j : ℕ)
  | bottom (j k : ℕ)
  deriving DecidableEq

def State.midEntry (s : State) (n j : ℕ) : ℕ :=
  if j < NINDIRECT ∧ s.vol.far n ≠ 0 then get (s.vol.data (s.vol.far n)) (4 * j) 4 else 0

def State.reference (s : State) (i n : ℕ) : Reference → ℕ
  | .near p => (s.icache i).ino.entry s.vol.data p
  | .top => s.vol.far n
  | .mid j => s.midEntry n j
  | .bottom j k =>
    if k < NINDIRECT ∧ s.midEntry n j ≠ 0 then get (s.vol.data (s.midEntry n j)) (4 * k) 4 else 0

def State.Refers (s : State) (i n b : ℕ) : Prop := b ≠ 0 ∧ ∃ r, s.reference i n r = b

/-- The blocks that itrunc logs: those of the bitmap, and the one of the inode. -/
def logged (n : ℕ) : Finset ℕ := {45, 46, IBLOCK n mkfsSuperblock}

/-- A transaction has begun, and the log takes these blocks. -/
structure LogRoom (T : Finset ℕ) (log : Log) : Prop where
  begun : 0 < log.outstanding
  header : log.n + (T \ log.lh.toFinset).card < LOGSIZE
  disk : log.n + (T \ log.lh.toFinset).card + 1 < log.size

/-- Slot `i` holds the inode `n`, locked and with a well-formed block map; nothing is said of
the other slots. -/
structure WellMapped (s : State) (i n : ℕ) : Prop where
  sb : s.sb = mkfsSuperblock
  held : s.held = []
  strict : s.strict = false
  dev : (s.icache i).dev = ROOTDEV
  inum : (s.icache i).inum = n
  inum_lt : n < maxInodes
  locked : (s.icache i).locked = true
  inRange : (s.icache i).ino.InRange
  owned : Owned DataBlock (s.reference i n) s.vol.used
  room : LogRoom (logged n) s.log

section Guarded

/-- Reading an index block only if it passes the test. -/
def within (ok : ℕ → Bool) (read : ℕ → M Unit) (addr : ℕ) : M Unit := do
  ensure (fun _ => ok addr) .outOfBounds
  read addr

def freeNearWithin (ok : ℕ → Bool) (i : ℕ) : M Unit := do
  forBelow (fun k => freeAddr i k fun _ => pure ()) NDIRECT
  freeAddr i NDIRECT (within ok (freeEntries i fun _ => pure ()))

/-- itrunc that stops before it reads an index block outside of the test. -/
def itruncWithin (ok : ℕ → Bool) (i : ℕ) : M Unit := do
  freeNearWithin ok i
  freeAddr i (NDIRECT + 1)
    (within ok (freeEntries i (within ok (freeEntries i fun _ => pure ()))))
  setSlot i fun ip => { ip with size := 0 }
  iupdate i

end Guarded

/-- itrunc returns and has read no index block but those of the inode, cleared the bits of the
blocks that the inode refers to and no others, and left the inode empty, in its slot and on
the disk. As bfree halts at a free block, each block is freed once. -/
def Truncates (s : State) (i n : ℕ) : Prop :=
  ∃ t, itrunc i s = .ok ((), t) ∧
    (∀ ok : ℕ → Bool, (∀ b, s.Refers i n b → ok b = true) → itruncWithin ok i s = .ok ((), t)) ∧
    (∀ b, t.vol.used b = true ↔ s.vol.used b = true ∧ ¬ s.Refers i n b) ∧
    ((t.icache i).ino = (s.icache i).ino.truncated) ∧
    t.vol.ino n = (s.icache i).ino.truncated ∧ t.vol.far n = 0

section Logging

variable {T : Finset ℕ} {log log' : Log}

theorem LogRoom.logWrite (h : LogRoom T log) (hb : b ∈ T) :
    ∃ log', log.logWrite b = .ok log' ∧ LogRoom T log' := by
  obtain ⟨hbegun, hheader, hdisk⟩ := h
  refine ⟨_, Log.logWrite_ok.mpr ⟨by omega, by omega, hbegun, rfl⟩, ?_⟩
  by_cases hmem : b ∈ log.lh
  · rw [if_pos hmem]
    exact ⟨hbegun, hheader, hdisk⟩
  · rw [if_neg hmem]
    have hcard : (T \ (log.lh ++ [b]).toFinset).card + 1 ≤ (T \ log.lh.toFinset).card := by
      refine Finset.card_lt_card (Finset.ssubset_iff_of_subset ?_ |>.mpr ⟨b, ?_, ?_⟩)
      · refine Finset.sdiff_subset_sdiff (Finset.Subset.refl T) ?_
        rw [List.toFinset_append]
        exact Finset.subset_union_left
      · rw [Finset.mem_sdiff, List.mem_toFinset]
        exact ⟨hb, hmem⟩
      · rw [Finset.mem_sdiff, List.mem_toFinset]
        exact fun h => h.2 (List.mem_append_right _ (List.mem_singleton_self b))
    have hlen : Log.n { log with lh := log.lh ++ [b] } = log.n + 1 := by
      unfold Log.n
      rw [List.length_append, List.length_singleton]
    refine ⟨hbegun, ?_, ?_⟩
    · rw [hlen]
      show log.n + 1 + (T \ (log.lh ++ [b]).toFinset).card < LOGSIZE
      omega
    · rw [hlen]
      show log.n + 1 + (T \ (log.lh ++ [b]).toFinset).card + 1 < log.size
      omega

theorem logWrite_runs (h : LogRoom T s.log) (hb : b ∈ T) :
    ∃ log, logWrite b s = .ok ((), { s with log := log }) ∧ LogRoom T log := by
  obtain ⟨log, hlog, hroom⟩ := h.logWrite hb
  refine ⟨log, ?_, hroom⟩
  unfold logWrite
  rw [hlog]

end Logging

section Runs

variable {dev : ℕ} {T : Finset ℕ}

theorem bread_runs (hheld : (dev, b) ∉ s.held) (hb : b < FSSIZE) :
    bread dev b s = .ok (s.blk dev b, { s with held := (dev, b) :: s.held }) :=
  bread_ok.mpr ⟨hheld, hb, rfl, rfl⟩

/-- Changing a locked buffer, logging and releasing it succeeds where the log has room. -/
theorem finish_runs {f : Bytes → Bytes} (h : LogRoom T s.log) (hb : b ∈ T)
    (hheld : (dev, b) ∈ s.held) :
    ∃ t, (do
      setData dev b f
      logWrite b
      brelse dev b : M Unit) s = .ok ((), t) ∧ LogRoom T t.log := by
  let changed := s.setBlk dev b (f (s.blk dev b))
  obtain ⟨log, hlog, hroom⟩ := logWrite_runs (s := changed) h hb
  have hset : setData dev b f s = .ok ((), changed) := setData_ok.mpr rfl
  refine ⟨{ changed with log := log, held := s.held.erase (dev, b) }, ?_, hroom⟩
  rw [bind_of_ok hset, bind_of_ok hlog]
  exact brelse_ok.mpr ⟨hheld, rfl⟩

theorem bmapblock_mem (hb : b < nblocks) : BMAPBLOCK b mkfsSuperblock ∈ logged n ∧
    BMAPBLOCK b mkfsSuperblock < nmeta := by
  have hnblocks : nblocks = 25553 := rfl
  have hcases : BMAPBLOCK b mkfsSuperblock = 45 ∨ BMAPBLOCK b mkfsSuperblock = 46 := by
    rw [BMAPBLOCK_mkfs]
    omega
  unfold logged
  rw [nmeta_eq, Finset.mem_insert, Finset.mem_insert]
  omega

theorem bfree_runs (hsb : s.sb = mkfsSuperblock) (hroom : LogRoom (logged n) s.log)
    (hheld : ∀ x ∈ s.held, nmeta ≤ x.2) (hb : b < nblocks) (hused : s.vol.used b = true) :
    ∃ t, bfree ROOTDEV b s = .ok ((), t) ∧ LogRoom (logged n) t.log := by
  obtain ⟨hmem, hlow⟩ := bmapblock_mem (n := n) hb
  have hfree : (ROOTDEV, BMAPBLOCK b mkfsSuperblock) ∉ s.held := by
    intro hin
    exact absurd (hheld _ hin) (Nat.not_le.mpr hlow)
  have hread := bread_runs hfree (hlow.trans (by decide))
  have htest : Bitmap.test (s.blk ROOTDEV (BMAPBLOCK b mkfsSuperblock)) (b % BPB) = true := by
    have hbits : b < nbitmap * BPB := hb.trans (by decide)
    have hvol : s.vol.used b =
        Bitmap.test (s.blk ROOTDEV (BMAPBLOCK b mkfsSuperblock)) (b % BPB) := if_pos hbits
    rw [← hvol]
    exact hused
  have hsb' : (look State.sb : M Superblock) s = .ok (mkfsSuperblock, s) := look_ok.mpr ⟨hsb, rfl⟩
  have hrange : (ensure (fun _ => decide (b < mkfsSuperblock.nblocks)) .bfreeRange : M Unit) s =
      .ok ((), s) := ensure_ok.mpr ⟨decide_eq_true hb, rfl⟩
  have hset : (ensure (fun _ => Bitmap.test (s.blk ROOTDEV (BMAPBLOCK b mkfsSuperblock)) (b % BPB))
      .bfreeFree : M Unit) { s with held := (ROOTDEV, BMAPBLOCK b mkfsSuperblock) :: s.held } =
      .ok ((), _) := ensure_ok.mpr ⟨htest, rfl⟩
  obtain ⟨t, ht, hroom'⟩ := finish_runs
    (s := { s with held := (ROOTDEV, BMAPBLOCK b mkfsSuperblock) :: s.held })
    (f := fun d => Bitmap.clear d (b % BPB)) hroom hmem List.mem_cons_self
  refine ⟨t, ?_, hroom'⟩
  unfold bfree
  rw [bind_of_ok hsb', bind_of_ok hrange, bind_of_ok hread, bind_of_ok hset]
  exact ht

theorem getAddr_runs (hk : k < NDIRECT + 1) : getAddr i k s = .ok ((s.icache i).addrs k, s) := by
  have hbound : (ensure (fun s => decide (k < NDIRECT + 1) || !s.strict) .outOfBounds : M Unit) s =
      .ok ((), s) := ensure_ok.mpr ⟨by rw [decide_eq_true hk]; rfl, rfl⟩
  unfold getAddr
  rw [bind_of_ok hbound]
  exact look_ok.mpr ⟨if_pos hk, rfl⟩

theorem setAddr_runs (hk : k < NDIRECT + 1) : setAddr i k b s =
    .ok ((), s.setSlot i fun ip => { ip with addrs := Function.update ip.addrs k b }) := by
  have hbound : (ensure (fun s => decide (k < NDIRECT + 1) || !s.strict) .outOfBounds : M Unit) s =
      .ok ((), s) := ensure_ok.mpr ⟨by rw [decide_eq_true hk]; rfl, rfl⟩
  unfold setAddr
  rw [bind_of_ok hbound]
  exact update_ok.mpr (if_pos hk)

/-- One entry of the map, of what a loaded inode has in its slot. -/
theorem freeAddr_runs {g : ℕ → M Unit} {B : ℕ → Prop} (hsb : s.sb = mkfsSuperblock)
    (hdev : (s.icache i).dev = ROOTDEV) (hheld : s.held = []) (hk : k < NDIRECT + 1)
    (hroom : LogRoom (logged n) s.log)
    (hg : (s.icache i).addrs k ≠ 0 → ∃ u, g ((s.icache i).addrs k) s = .ok ((), u) ∧
      Freed i B s u ∧ u.icache = s.icache ∧ LogRoom (logged n) u.log)
    (hentry : (s.icache i).addrs k ≠ 0 → (s.icache i).addrs k < nblocks ∧
      s.vol.used ((s.icache i).addrs k) = true ∧ ¬ B ((s.icache i).addrs k)) :
    ∃ t, freeAddr i k g s = .ok ((), t) ∧ LogRoom (logged n) t.log := by
  unfold freeAddr
  rw [bind_of_ok (getAddr_runs hk)]
  by_cases hzero : (s.icache i).addrs k = 0
  · rw [if_pos hzero]
    exact ⟨s, rfl, hroom⟩
  rw [if_neg hzero]
  obtain ⟨u, hu, hfreed, hicache, hroom'⟩ := hg hzero
  obtain ⟨hlt, hused, hnot⟩ := hentry hzero
  have hdev' : (look (fun s => (s.icache i).dev) : M ℕ) u = .ok (ROOTDEV, u) := by
    refine look_ok.mpr ⟨?_, rfl⟩
    rw [hicache]
    exact hdev
  obtain ⟨t, ht, hroom''⟩ := bfree_runs (s := u) (hfreed.sb.trans hsb) hroom'
    (by rw [hfreed.held, hheld]; exact fun _ h => nomatch h) hlt ((hfreed.used _).mpr ⟨hused, hnot⟩)
  rw [bind_of_ok hu, bind_of_ok hdev', bind_of_ok (getAddr_runs hk), hicache, bind_of_ok ht,
    setAddr_runs hk]
  exact ⟨_, rfl, hroom''⟩

/-- The loop over an index block whose entries are blocks in use, each named once. -/
theorem freeEntries_runs {addr : ℕ} (hsb : s.sb = mkfsSuperblock)
    (hdev : (s.icache i).dev = ROOTDEV) (hheld : s.held = []) (haddr : DataBlock addr)
    (hroom : LogRoom (logged n) s.log)
    (hused : ∀ j, j < NINDIRECT → get (s.vol.data addr) (4 * j) 4 ≠ 0 →
      get (s.vol.data addr) (4 * j) 4 < nblocks ∧ s.vol.used
      (get (s.vol.data addr) (4 * j) 4) = true)
    (honce : ∀ j k, j < NINDIRECT → k < NINDIRECT → get (s.vol.data addr) (4 * j) 4 ≠ 0 →
      get (s.vol.data addr) (4 * j) 4 = get (s.vol.data addr) (4 * k) 4 → j = k) :
    ∃ t, freeEntries i (fun _ => pure ()) addr s = .ok ((), t) ∧ LogRoom (logged n) t.log := by
  have hlook {u : State} (hicache : u.icache = s.icache) :
      (look (fun s => (s.icache i).dev) : M ℕ) u = .ok (ROOTDEV, u) := by
    refine look_ok.mpr ⟨?_, rfl⟩
    rw [hicache]
    exact hdev
  have hread : bread ROOTDEV addr s =
      .ok (s.blk ROOTDEV addr, { s with held := (ROOTDEV, addr) :: s.held }) :=
    bread_runs (by rw [hheld]; exact List.not_mem_nil) (haddr.2.trans (by decide))
  generalize hs₁ : ({ s with held := (ROOTDEV, addr) :: s.held } : State) = s₁ at hread
  have hstart : s₁.sb = s.sb ∧ s₁.icache = s.icache ∧ s₁.log = s.log ∧ s₁.vol = s.vol ∧
      s₁.held = [(ROOTDEV, addr)] := by
    rw [← hs₁, hheld]
    exact ⟨rfl, rfl, rfl, rfl, rfl⟩
  obtain ⟨hsb₁, hicache₁, hlog₁, hvol₁, hheld₁⟩ := hstart
  obtain ⟨t, ht, hfreed, hicache, hroom'⟩ := forBelow_runs (s := s₁) (n := NINDIRECT)
    (f := fun j => do
      let a ← look fun s => s.blk ROOTDEV addr
      if get a (4 * j) 4 = 0 then pure ()
      else do
        (fun _ => pure ()) (get a (4 * j) 4)
        let dev' ← look fun s => (s.icache i).dev
        bfree dev' (get a (4 * j) 4))
    (I := fun k u => Freed i (fun b => ∃ j, j < k ∧ get (s.vol.data addr) (4 * j) 4 ≠ 0 ∧
        b = get (s.vol.data addr) (4 * j) 4) s₁ u ∧ u.icache = s.icache ∧ LogRoom (logged n) u.log)
    ⟨Freed.nothing i s₁ (by simp), hicache₁, hlog₁ ▸ hroom⟩ (by
      rintro j u hj ⟨hfreed, hicache, hroom⟩
      have hdata : (look (fun s => s.blk ROOTDEV addr) : M Bytes) u =
          .ok (s.vol.data addr, u) := by
        refine look_ok.mpr ⟨?_, rfl⟩
        rw [← hvol₁, ← hfreed.data]
        exact (if_pos haddr.1).symm
      rw [bind_of_ok hdata]
      by_cases hzero : get (s.vol.data addr) (4 * j) 4 = 0
      · rw [if_pos hzero]
        refine ⟨u, rfl, hfreed.congr fun b => ?_, hicache, hroom⟩
        constructor
        · rintro ⟨l, hl, hb⟩
          exact ⟨l, by omega, hb⟩
        · rintro ⟨l, hl, hne, hb⟩
          have hlj : l ≠ j := by
            rintro rfl
            exact hne hzero
          exact ⟨l, by omega, hne, hb⟩
      rw [if_neg hzero]
      obtain ⟨hlt, hmark⟩ := hused j hj hzero
      have hstill : u.vol.used (get (s.vol.data addr) (4 * j) 4) = true := by
        rw [hfreed.used, hvol₁]
        refine ⟨hmark, ?_⟩
        rintro ⟨l, hl, hne, he⟩
        exact absurd (honce l j (by omega) hj hne he.symm) (by omega)
      obtain ⟨t, ht, hroom'⟩ := bfree_runs (n := n) (hfreed.sb.trans (hsb₁.trans hsb)) hroom
        (by
          rw [hfreed.held, hheld₁]
          rintro x hx
          rw [List.mem_singleton.mp hx]
          exact haddr.1) hlt hstill
      obtain ⟨hfreed', hicache'⟩ := bfree_freed (i := i) (hfreed.sb.trans (hsb₁.trans hsb)) ht
      have hpure : (pure () : M Unit) u = .ok ((), u) := rfl
      refine ⟨t, ?_, (hfreed.trans hfreed').congr fun b => ?_, hicache'.trans hicache, hroom'⟩
      · rw [bind_of_ok hpure, bind_of_ok (hlook hicache)]
        exact ht
      · constructor
        · rintro (⟨l, hl, hb⟩ | hb)
          · exact ⟨l, by omega, hb⟩
          · exact ⟨j, Nat.lt_succ_self j, hzero, hb⟩
        · rintro ⟨l, hl, hne, hb⟩
          by_cases hlj : l = j
          · exact .inr (hlj ▸ hb)
          · exact .inl ⟨l, by omega, hne, hb⟩)
  refine ⟨{ t with held := t.held.erase (ROOTDEV, addr) }, ?_, hroom'⟩
  unfold freeEntries
  rw [bind_of_ok (hlook rfl), bind_of_ok hread, bind_of_ok ht]
  refine brelse_ok.mpr ⟨?_, rfl⟩
  rw [hfreed.held, hheld₁]
  exact List.mem_cons_self

end Runs

section Near

variable {ok : ℕ → Bool}

theorem within_runs {read : ℕ → M Unit} (hok : ok b = true) : within ok read b s = read b s := by
  have hpass : (ensure (fun _ => ok b) .outOfBounds : M Unit) s = .ok ((), s) :=
    ensure_ok.mpr ⟨hok, rfl⟩
  unfold within
  rw [bind_of_ok hpass]

theorem within_ok {read : ℕ → M Unit} (h : within ok read b s = .ok ((), t)) :
    read b s = .ok ((), t) := by
  obtain ⟨_, u, hu, hread⟩ := bind_ok.mp h
  obtain ⟨_, rfl⟩ := ensure_ok.mp hu
  exact hread

theorem reference_direct (hk : k < NDIRECT) :
    s.reference i n (.near (.direct k)) = (s.icache i).addrs k := if_pos hk

theorem reference_leaf {j : ℕ} (hj : j < NINDIRECT)
    (hindex : (s.icache i).addrs NDIRECT ≠ 0) :
    s.reference i n (.near (.leaf j)) = get (s.vol.data ((s.icache i).addrs NDIRECT)) (4 * j) 4 :=
  if_pos ⟨hj, hindex⟩

/-- The blocks of the direct entries below `k`. -/
def directBelow (a : ℕ → ℕ) (k b : ℕ) : Prop := ∃ j, j < k ∧ a j ≠ 0 ∧ b = a j

theorem directBelow_succ {a : ℕ → ℕ} : directBelow a (k + 1) b ↔
    directBelow a k b ∨ a k ≠ 0 ∧ b = a k := by
  constructor
  · rintro ⟨j, hj, hb⟩
    by_cases hjk : j = k
    · exact .inr (hjk ▸ hb)
    · exact .inl ⟨j, by omega, hb⟩
  · rintro (⟨j, hj, hb⟩ | hb)
    · exact ⟨j, by omega, hb⟩
    · exact ⟨k, Nat.lt_succ_self k, hb⟩

/-- What the first loop of itrunc has done after `k` turns. -/
structure DirectFreed (s : State) (i n k : ℕ) (u : State) : Prop where
  freed : Freed i (directBelow (s.icache i).addrs k) s u
  addrs : (u.icache i).addrs = clearedBelow (s.icache i).addrs k
  room : LogRoom (logged n) u.log

theorem DirectFreed.dev (h : DirectFreed s i n k u) (hdev : (s.icache i).dev = ROOTDEV) :
    (u.icache i).dev = ROOTDEV := by
  rw [h.freed.slot]
  exact hdev

theorem DirectFreed.turn (h : WellMapped s i n) (hu : DirectFreed s i n k u) (hk : k < NDIRECT) :
    ∃ t, freeAddr i k (fun _ => pure ()) u = .ok ((), t) ∧ DirectFreed s i n (k + 1) t := by
  have hentry : (u.icache i).addrs k = (s.icache i).addrs k := by
    rw [hu.addrs]
    exact if_neg (Nat.lt_irrefl k)
  have hsb : u.sb = mkfsSuperblock := hu.freed.sb.trans h.sb
  obtain ⟨t, ht, hroom⟩ := freeAddr_runs (n := n)
    (g := fun _ => pure ()) (B := fun _ => False) hsb (hu.dev h.dev)
    (hu.freed.held.trans h.held) (Nat.lt_succ_of_lt hk) hu.room
    (fun _ => ⟨u, rfl, Freed.nothing i u fun _ => id, rfl, hu.room⟩) (by
      rw [hentry]
      intro hne
      have hown := h.owned.inside (.near (.direct k)) (by rw [reference_direct hk]; exact hne)
      rw [reference_direct hk] at hown
      refine ⟨hown.1.2, (hu.freed.used _).mpr ⟨hown.2, ?_⟩, id⟩
      rintro ⟨j, hj, hne', he⟩
      have hsame := h.owned.once (.near (.direct j)) (.near (.direct k))
        (by rw [reference_direct (by omega)]; exact hne') (by
          rw [reference_direct (by omega), reference_direct hk]
          exact he.symm)
      simp only [Reference.near.injEq, Place.direct.injEq] at hsame
      omega)
  obtain ⟨hfreed, haddrs⟩ := freeAddr_freed (B := fun _ => False) hsb (hu.dev h.dev)
    (Nat.lt_succ_of_lt hk) (fun w _ hpure => by
      obtain ⟨_, rfl⟩ := pure_ok.mp hpure
      exact ⟨Freed.nothing i u fun _ => id, rfl⟩) ht
  rw [hentry] at hfreed
  refine ⟨t, ht, (hu.freed.trans hfreed).congr fun b => ?_, ?_, hroom⟩
  · rw [directBelow_succ, false_or]
  · rw [haddrs, hu.addrs]
    exact clearedBelow_succ

/-- Up to the single-indirect block itrunc returns, whatever the other slots hold. -/
theorem freeNearWithin_runs (h : WellMapped s i n) (hok : ∀ b, s.Refers i n b → ok b = true) :
    ∃ t, freeNearWithin ok i s = .ok ((), t) ∧ LogRoom (logged n) t.log := by
  have hstart : DirectFreed s i n 0 s := by
    refine ⟨Freed.nothing i s ?_, ?_, h.room⟩
    · rintro b ⟨j, hj, _⟩
      exact absurd hj (Nat.not_lt_zero j)
    · funext j
      exact (if_neg (Nat.not_lt_zero j)).symm
  obtain ⟨u, hu, hdirect⟩ := forBelow_runs (n := NDIRECT)
    (I := fun k u => DirectFreed s i n k u) hstart fun k u hk hI => hI.turn h hk
  have hentry : (u.icache i).addrs NDIRECT = (s.icache i).addrs NDIRECT := by
    rw [hdirect.addrs]
    exact if_neg (Nat.lt_irrefl _)
  have hsb : u.sb = mkfsSuperblock := hdirect.freed.sb.trans h.sb
  have hheld : u.held = [] := hdirect.freed.held.trans h.held
  have hdata : u.vol.data = s.vol.data := hdirect.freed.data
  -- what is behind the single-indirect block is still in use after the direct blocks
  have hstill : ∀ p : Place, (∀ j, p ≠ .direct j) → s.reference i n (.near p) ≠ 0 →
      u.vol.used (s.reference i n (.near p)) = true := by
    intro p hp hne
    refine (hdirect.freed.used _).mpr ⟨(h.owned.inside _ hne).2, ?_⟩
    rintro ⟨j, hj, _, he⟩
    rw [← reference_direct hj] at he
    exact hp j (Reference.near.inj (h.owned.once _ _ hne he))
  obtain ⟨t, ht, hroom⟩ := freeAddr_runs (n := n) (s := u) (k := NDIRECT)
    (g := within ok (freeEntries i fun _ => pure ()))
    (B := fun b => ∃ j, j < NINDIRECT ∧ get (s.vol.data ((s.icache i).addrs NDIRECT))
    (4 * j) 4 ≠ 0 ∧
      b = get (s.vol.data ((s.icache i).addrs NDIRECT)) (4 * j) 4)
    hsb (hdirect.dev h.dev) hheld (Nat.lt_succ_self _) hdirect.room (by
      rw [hentry]
      intro hne
      have hindex : DataBlock ((s.icache i).addrs NDIRECT) := (h.owned.inside (.near .index) hne).1
      have hleaf {j : ℕ} (hj : j < NINDIRECT) := reference_leaf (n := n) hj hne
      obtain ⟨t, ht, hroom⟩ := freeEntries_runs (n := n) (i := i) (s := u)
        hsb (hdirect.dev h.dev) hheld hindex hdirect.room (by
          intro j hj hne'
          rw [hdata, ← hleaf hj] at hne' ⊢
          exact ⟨(h.owned.inside _ hne').1.2, hstill (.leaf j) (fun _ => nofun) hne'⟩) (by
          intro j k hj hk hne' he
          rw [hdata, ← hleaf hj] at hne' he
          rw [← hleaf hk] at he
          have hsame := h.owned.once _ _ hne' he
          simp only [Reference.near.injEq, Place.leaf.injEq] at hsame
          exact hsame)
      obtain ⟨hfreed, hicache⟩ := freeEntries_freed hsb (hdirect.dev h.dev) hindex.1 ht
      rw [hdata] at hfreed
      refine ⟨t, ?_, hfreed, hicache, hroom⟩
      rw [within_runs (hok _ ⟨hne, .near .index, rfl⟩)]
      exact ht) (by
      rw [hentry]
      intro hne
      refine ⟨(h.owned.inside (.near .index) hne).1.2, hstill .index (fun _ => nofun) hne, ?_⟩
      rintro ⟨j, hj, hne', he⟩
      rw [← reference_leaf hj hne] at he
      exact absurd (h.owned.once (.near .index) _ hne he) nofun)
  refine ⟨t, ?_, hroom⟩
  unfold freeNearWithin
  rw [bind_of_ok hu]
  exact ht

end Near

section Guards

variable {ok : ℕ → Bool} {inner inner' : ℕ → M Unit}

theorem freeAddr_mono (hinner : ∀ a s t, inner a s = .ok ((), t) → inner' a s = .ok ((), t))
    (h : freeAddr i k inner s = .ok ((), t)) : freeAddr i k inner' s = .ok ((), t) := by
  obtain ⟨addr, s₁, h₁, h⟩ := bind_ok.mp h
  unfold freeAddr
  rw [bind_of_ok h₁]
  split at h
  · rw [if_pos ‹_›]
    exact h
  · rw [if_neg ‹_›]
    obtain ⟨_, s₂, h₂, h⟩ := bind_ok.mp h
    rw [bind_of_ok (hinner _ _ _ h₂)]
    exact h

theorem freeNear_of_within (h : freeNearWithin ok i s = .ok ((), t)) :
    freeNear i s = .ok ((), t) := by
  obtain ⟨_, s₁, h₁, h₂⟩ := bind_ok.mp h
  unfold freeNear
  rw [bind_of_ok h₁]
  exact freeAddr_mono (fun _ _ _ => within_ok) h₂

theorem getAddr_behind (hstrict : s.strict = false) :
    getAddr i (NDIRECT + 1) s = .ok (s.behind i, s) := by
  have hbound : (ensure (fun s => decide (NDIRECT + 1 < NDIRECT + 1) || !s.strict)
      .outOfBounds : M Unit) s = .ok ((), s) := by
    refine ensure_ok.mpr ⟨?_, rfl⟩
    rw [hstrict]
    rfl
  unfold getAddr
  rw [bind_of_ok hbound]
  exact look_ok.mpr ⟨if_neg (Nat.lt_irrefl _), rfl⟩

theorem freeAddr_skip (hstrict : s.strict = false) (hzero : s.behind i = 0) :
    freeAddr i (NDIRECT + 1) inner s = .ok ((), s) := by
  unfold freeAddr
  rw [bind_of_ok (getAddr_behind hstrict), if_pos hzero]
  rfl

end Guards

section Store

/-- iupdate stores the slot in the inode of the disk, up to the single-indirect entry. -/
theorem iupdate_stores (hsb : s.sb = mkfsSuperblock) (hdev : (s.icache i).dev = ROOTDEV)
    (hinum : (s.icache i).inum = n) (hlt : n < maxInodes) (hrange : (s.icache i).ino.InRange)
    (hrun : iupdate i s = .ok ((), t)) :
    Frame s t ∧ t.vol = { s.vol with ino := Function.update s.vol.ino n (s.icache i).ino } := by
  obtain ⟨_, s₀, h₀, g₀⟩ := bind_ok.mp hrun
  obtain ⟨_, rfl⟩ := ensure_ok.mp h₀
  obtain ⟨ip, s₁, h₁, g₁⟩ := bind_ok.mp g₀
  obtain ⟨rfl, rfl⟩ := look_ok.mp h₁
  obtain ⟨sb, s₂, h₂, g₂⟩ := bind_ok.mp g₁
  obtain ⟨hsb', rfl⟩ := look_ok.mp h₂
  rw [hdev, hinum, ← hsb', hsb] at g₂
  obtain ⟨hframe, _, hblk⟩ := rewrite_spec g₂
  refine ⟨hframe, ?_⟩
  show volume (t.blk ROOTDEV) = _
  rw [hblk, Function.update_self]
  exact volume_store hlt hrange

theorem iupdate_runs (hsb : s.sb = mkfsSuperblock) (hdev : (s.icache i).dev = ROOTDEV)
    (hinum : (s.icache i).inum = n) (hlt : n < maxInodes) (hlocked : (s.icache i).locked = true)
    (hheld : s.held = []) (hroom : LogRoom (logged n) s.log) :
    ∃ t, iupdate i s = .ok ((), t) := by
  have hbound : IBLOCK n mkfsSuperblock < FSSIZE := by
    rw [maxInodes_eq] at hlt
    rw [IBLOCK_mkfs]
    have hsize : FSSIZE = 25600 := rfl
    omega
  have hlock : (ensure (fun s => (s.icache i).locked) .iupdate : M Unit) s = .ok ((), s) :=
    ensure_ok.mpr ⟨hlocked, rfl⟩
  have hslot : (look (fun s => s.icache i) : M Inode) s = .ok (s.icache i, s) := rfl
  have hsb' : (look State.sb : M Superblock) s = .ok (mkfsSuperblock, s) := look_ok.mpr ⟨hsb, rfl⟩
  have hread : bread ROOTDEV (IBLOCK n mkfsSuperblock) s =
      .ok (s.blk ROOTDEV (IBLOCK n mkfsSuperblock),
        { s with held := (ROOTDEV, IBLOCK n mkfsSuperblock) :: s.held }) :=
    bread_runs (by rw [hheld]; exact List.not_mem_nil) hbound
  obtain ⟨t, ht, _⟩ := finish_runs (T := logged n) (b := IBLOCK n mkfsSuperblock)
    (s := { s with held := (ROOTDEV, IBLOCK n mkfsSuperblock) :: s.held })
    (f := fun b => storeDinode b (dinodeOffset n) (s.icache i)) hroom
    (by
      unfold logged
      rw [Finset.mem_insert, Finset.mem_insert, Finset.mem_singleton]
      exact .inr (.inr rfl)) List.mem_cons_self
  refine ⟨t, ?_⟩
  unfold iupdate
  rw [bind_of_ok hlock, bind_of_ok hslot, bind_of_ok hsb', hdev, hinum, bind_of_ok hread]
  exact ht

end Store

section Shrinking

/-- Bits of the bitmap may have been cleared; the rest of the volume is as it was. -/
structure Shrinks (s t : State) : Prop where
  frame : Frame s t
  ino : t.vol.ino = s.vol.ino
  far : t.vol.far = s.vol.far
  used : ∀ b, t.vol.used b = true → s.vol.used b = true

/-- On a volume of mkfs. -/
def ShrinksOn (s t : State) : Prop := s.sb = mkfsSuperblock → Shrinks s t

theorem Shrinks.of_vol (hframe : Frame s t) (hvol : t.vol = s.vol) : Shrinks s t :=
  ⟨hframe, by rw [hvol], by rw [hvol], fun b => by rw [hvol]; exact id⟩

theorem shrinksOn_composes : Composes ShrinksOn where
  refl := fun s _ => Shrinks.of_vol (Frame.refl s) rfl
  trans := by
    intro s t u h h' hsb
    have ht := h hsb
    have hu := h' (ht.frame.sb.trans hsb)
    exact ⟨ht.frame.trans hu.frame, hu.ino.trans ht.ino, hu.far.trans ht.far,
      fun b hb => ht.used b (hu.used b hb)⟩

theorem shrinks_of_ok {A : Type} {x : M A} (h : ∀ s a t, x s = .ok (a, t) → ShrinksOn s t) :
    Within (fun _ => False) ShrinksOn x := fun s =>
  ends_iff.mpr ⟨fun a t hok => h s a t hok, fun _ _ => id⟩

theorem bread_shrinks {dev : ℕ} : Within (fun _ => False) ShrinksOn (bread dev b) := by
  refine shrinks_of_ok fun s d t h _ => ?_
  obtain ⟨hframe, hblk, _⟩ := bread_spec h
  exact Shrinks.of_vol hframe (vol_congr hblk)

theorem brelse_shrinks {dev : ℕ} : Within (fun _ => False) ShrinksOn (brelse dev b) := by
  refine shrinks_of_ok fun s d t h _ => ?_
  obtain ⟨hframe, hblk, _⟩ := brelse_spec h
  exact Shrinks.of_vol hframe (vol_congr hblk)

theorem bfree_shrinks {dev : ℕ} : Within (fun _ => False) ShrinksOn (bfree dev b) := by
  refine shrinks_of_ok fun s _ t h hsb => ?_
  by_cases hdev : dev = ROOTDEV
  · subst hdev
    obtain ⟨hframe, _, _, _, hvol⟩ := bfree_spec hsb h
    refine ⟨hframe, by rw [hvol], by rw [hvol], fun c hc => ?_⟩
    have hmarks : t.vol.used = Function.update s.vol.used b false := by rw [hvol]
    rw [hmarks] at hc
    by_cases hcb : c = b
    · rw [hcb, Function.update_self] at hc
      cases hc
    · rwa [Function.update_of_ne hcb] at hc
  · obtain ⟨sb, s₀, h₀, h⟩ := bind_ok.mp h
    obtain ⟨_, rfl⟩ := look_ok.mp h₀
    obtain ⟨_, s₁, h₁, h⟩ := bind_ok.mp h
    obtain ⟨_, rfl⟩ := ensure_ok.mp h₁
    obtain ⟨data, s₂, h₂, h⟩ := bind_ok.mp h
    obtain ⟨hframe₂, hblk₂, _⟩ := bread_spec h₂
    obtain ⟨_, s₃, h₃, h⟩ := bind_ok.mp h
    obtain ⟨_, rfl⟩ := ensure_ok.mp h₃
    obtain ⟨hframe, _, hblk⟩ := finish_spec h
    refine Shrinks.of_vol (hframe₂.trans hframe) ?_
    show volume (t.blk ROOTDEV) = volume (s.blk ROOTDEV)
    rw [hblk, Function.update_of_ne (Ne.symm hdev), hblk₂]

theorem freeEntries_shrinks {inner : ℕ → M Unit} {addr : ℕ}
    (hinner : ∀ a, Within (fun _ => False) ShrinksOn (inner a)) :
    Within (fun _ => False) ShrinksOn (freeEntries i inner addr) := by
  have hR := shrinksOn_composes
  unfold freeEntries
  generalize NINDIRECT = n
  refine (within_look hR).bind hR fun dev => ?_
  refine bread_shrinks.bind hR fun _ => ?_
  refine (within_forBelow hR fun j _ => ?_).bind hR fun _ => brelse_shrinks
  refine (within_look hR).bind hR fun a => ?_
  refine Within.ite (within_pure hR) ?_
  refine (hinner _).bind hR fun _ => ?_
  refine (within_look hR).bind hR fun dev' => ?_
  exact bfree_shrinks

end Shrinking

section Far

variable {inner : ℕ → M Unit}

theorem Frame.behind (h : Frame s t) : t.behind i = s.behind i := by
  unfold State.behind
  rw [h.icache, h.past]

/-- Where the entry behind the map is not 0, its block was in use and is not any more. -/
theorem freeAddr_behind (hsb : s.sb = mkfsSuperblock) (hstrict : s.strict = false)
    (hdev : (s.icache i).dev = ROOTDEV)
    (hinner : ∀ a, Within (fun _ => False) ShrinksOn (inner a))
    (hrun : freeAddr i (NDIRECT + 1) inner s = .ok ((), t)) :
    t.sb = s.sb ∧ t.icache i = s.icache i ∧ t.vol.far = s.vol.far ∧
      (s.behind i ≠ 0 → s.vol.used (s.behind i) = true ∧ t.vol.used (s.behind i) = false) := by
  obtain ⟨addr, s₁, h₁, hrun⟩ := bind_ok.mp hrun
  obtain ⟨rfl, rfl⟩ := Prod.mk.inj (Except.ok.inj ((getAddr_behind hstrict).symm.trans h₁))
  split at hrun
  · rename_i hzero
    obtain ⟨_, rfl⟩ := pure_ok.mp hrun
    exact ⟨rfl, rfl, rfl, fun hne => absurd hzero hne⟩
  obtain ⟨_, s₂, h₂, hrun⟩ := bind_ok.mp hrun
  have hshrinks : Shrinks s s₂ := Ends.of_ok (hinner _ s) h₂ hsb
  obtain ⟨dev, s₃, h₃, hrun⟩ := bind_ok.mp hrun
  obtain ⟨rfl, rfl⟩ := look_ok.mp h₃
  rw [hshrinks.frame.icache, hdev] at hrun
  obtain ⟨addr, s₄, h₄, hrun⟩ := bind_ok.mp hrun
  have hbehind := getAddr_behind (i := i) (hshrinks.frame.strict.trans hstrict)
  rw [hshrinks.frame.behind] at hbehind
  obtain ⟨rfl, rfl⟩ := Prod.mk.inj (Except.ok.inj (hbehind.symm.trans h₄))
  obtain ⟨_, s₅, h₅, hrun⟩ := bind_ok.mp hrun
  obtain ⟨hframe, _, _, hused, hvol⟩ := bfree_spec (hshrinks.frame.sb.trans hsb) h₅
  obtain ⟨_, s₆, h₆, h₇⟩ := bind_ok.mp hrun
  obtain ⟨_, rfl⟩ := ensure_ok.mp h₆
  have ht := update_ok.mp h₇
  have hset : t.vol = s₅.vol ∧ t.sb = s₅.sb ∧ t.icache i = s₅.icache i := by
    rw [← ht, if_neg (Nat.lt_irrefl _)]
    split
    · exact ⟨rfl, rfl, setSlot_other _ _ _ (by omega)⟩
    · exact ⟨rfl, rfl, rfl⟩
  refine ⟨?_, ?_, ?_, fun _ => ⟨hshrinks.used _ hused, ?_⟩⟩
  · rw [hset.2.1, hframe.sb, hshrinks.frame.sb]
  · rw [hset.2.2, hframe.icache, hshrinks.frame.icache]
  · rw [hset.1, hvol]
    exact hshrinks.far
  · rw [hset.1, hvol]
    exact Function.update_self ..

end Far

section Exact

/-- Without a double-indirect block on the disk the inode refers to the near places only. -/
theorem refers_near (hfar : s.vol.far n = 0) :
    s.Refers i n b ↔ b ≠ 0 ∧ ∃ p, (s.icache i).ino.entry s.vol.data p = b := by
  have hmid : ∀ j, s.midEntry n j = 0 := fun j => if_neg fun h => h.2 hfar
  refine and_congr_right fun hne => ⟨?_, fun ⟨p, hp⟩ => ⟨.near p, hp⟩⟩
  rintro ⟨r, hr⟩
  cases r with
  | near p => exact ⟨p, hr⟩
  | top => exact absurd (hr.symm.trans hfar) hne
  | mid j => exact absurd (hr.symm.trans (hmid j)) hne
  | bottom j k =>
    have hzero : s.reference i n (.bottom j k) = 0 := if_neg fun h => h.2 (hmid j)
    exact absurd (hr.symm.trans hzero) hne

theorem WellMapped.near (h : WellMapped s i n) (hrun : freeNear i s = .ok ((), t)) :
    Freed i (fun b => b ≠ 0 ∧ ∃ p, (s.icache i).ino.entry s.vol.data p = b) s t ∧
      t.icache i = { s.icache i with addrs := fun _ => 0 } := by
  obtain ⟨hfreed, haddrs⟩ := freeNear_frees h.sb h.dev
    (fun hne => (h.owned.inside (.near .index) hne).1.1) h.inRange.rest hrun
  refine ⟨hfreed, ?_⟩
  rw [hfreed.slot, haddrs]

/-- What a returning itrunc did: the near blocks are gone, and the block that the entry behind
the map names, if it names one. -/
theorem itrunc_gone (h : WellMapped s i n) (hrun : itrunc i s = .ok ((), t)) :
    t.vol.far n = s.vol.far n ∧
      (s.behind i ≠ 0 → s.vol.used (s.behind i) = true ∧ t.vol.used (s.behind i) = false ∧
        ∀ p, (s.icache i).ino.entry s.vol.data p ≠ s.behind i) := by
  rw [itrunc_eq] at hrun
  obtain ⟨_, s₁, h₁, hrun⟩ := bind_ok.mp hrun
  obtain ⟨hfreed, hslot⟩ := h.near h₁
  obtain ⟨_, s₂, h₂, hrun⟩ := bind_ok.mp hrun
  have hbehind : s₁.behind i = s.behind i := by
    unfold State.behind
    split
    · rw [hfreed.slots _ (by omega)]
    · exact hfreed.past
  obtain ⟨hsb₂, hicache₂, hfar₂, hgone⟩ := freeAddr_behind (hfreed.sb.trans h.sb)
    (hfreed.strict.trans h.strict) (by rw [hslot]; exact h.dev)
    (fun a => freeEntries_shrinks fun b => freeEntries_shrinks fun _ =>
      within_pure shrinksOn_composes) h₂
  obtain ⟨_, s₃, h₃, h₄⟩ := bind_ok.mp hrun
  have hs₃ : s₂.setSlot i (fun ip => { ip with size := 0 }) = s₃ := update_ok.mp h₃
  have hself : s₃.icache i = { s.icache i with size := 0, addrs := fun _ => 0 } := by
    rw [← hs₃, setSlot_self, hicache₂, hslot]
  obtain ⟨_, hvol⟩ := iupdate_stores (n := n)
    (by rw [← hs₃]; exact hsb₂.trans (hfreed.sb.trans h.sb))
    (by rw [hself]; exact h.dev) (by rw [hself]; exact h.inum) h.inum_lt
    (by rw [hself]; exact h.inRange.truncated) h₄
  have hused : t.vol.used = s₂.vol.used := by rw [hvol, ← hs₃]; rfl
  have hfar : t.vol.far = s₂.vol.far := by rw [hvol, ← hs₃]; rfl
  refine ⟨by rw [hfar, hfar₂, hfreed.far], fun hne => ?_⟩
  rw [hbehind] at hgone
  obtain ⟨hbefore, hafter⟩ := hgone hne
  obtain ⟨hstart, hnot⟩ := (hfreed.used _).mp hbefore
  exact ⟨hstart, by rw [hused]; exact hafter, fun p hp => hnot ⟨hne, p, hp⟩⟩

theorem Truncates.nothing_behind (h : WellMapped s i n) (ht : Truncates s i n) :
    s.behind i = 0 ∧ s.vol.far n = 0 := by
  obtain ⟨t, hrun, _, hused, _, _, hfar⟩ := ht
  obtain ⟨hkept, hgone⟩ := itrunc_gone h hrun
  have hzero : s.vol.far n = 0 := hkept.symm.trans hfar
  refine ⟨?_, hzero⟩
  by_contra hne
  obtain ⟨hbefore, hafter, hnot⟩ := hgone hne
  have hstays : t.vol.used (s.behind i) = true := by
    refine (hused _).mpr ⟨hbefore, ?_⟩
    rw [refers_near hzero]
    rintro ⟨_, p, hp⟩
    exact hnot p hp
  rw [hafter] at hstays
  cases hstays

theorem truncates_of_nothing (h : WellMapped s i n) (hbehind : s.behind i = 0)
    (hfar : s.vol.far n = 0) : Truncates s i n := by
  obtain ⟨s₁, h₁, hroom₁⟩ := freeNearWithin_runs h fun _ _ => rfl
  have hnear := freeNear_of_within h₁
  obtain ⟨hfreed, hslot⟩ := h.near hnear
  have hbehind₁ : s₁.behind i = 0 := by
    rw [← hbehind]
    unfold State.behind
    split
    · rw [hfreed.slots _ (by omega)]
    · exact hfreed.past
  have hstrict : s₁.strict = false := hfreed.strict.trans h.strict
  generalize hs₂ : s₁.setSlot i (fun ip => { ip with size := 0 }) = s₂
  have hself : s₂.icache i = { s.icache i with size := 0, addrs := fun _ => 0 } := by
    rw [← hs₂, setSlot_self, hslot]
  have hino : (s₂.icache i).ino = (s.icache i).ino.truncated := by
    rw [hself]
    rfl
  have hsb : s₂.sb = mkfsSuperblock := by
    rw [← hs₂]
    exact hfreed.sb.trans h.sb
  have hdev : (s₂.icache i).dev = ROOTDEV := by
    rw [hself]
    exact h.dev
  have hinum : (s₂.icache i).inum = n := by
    rw [hself]
    exact h.inum
  obtain ⟨t, ht⟩ := iupdate_runs (s := s₂) hsb hdev hinum h.inum_lt
    (by rw [hself]; exact h.locked) (by rw [← hs₂]; exact hfreed.held.trans h.held)
    (by rw [← hs₂]; exact hroom₁)
  obtain ⟨hframe, hvol⟩ := iupdate_stores hsb hdev hinum h.inum_lt
    (hino ▸ h.inRange.truncated) ht
  have hset : setSlot i (fun ip => { ip with size := 0 }) s₁ = .ok ((), s₂) := update_ok.mpr hs₂
  have hvol₂ : s₂.vol = s₁.vol := by rw [← hs₂, setSlot_vol]
  refine ⟨t, ?_, fun ok hok => ?_, fun b => ?_, ?_, ?_, ?_⟩
  · rw [itrunc_eq, bind_of_ok hnear]
    unfold freeFar
    rw [bind_of_ok (freeAddr_skip hstrict hbehind₁), bind_of_ok hset]
    exact ht
  · obtain ⟨s₁', h₁', _⟩ := freeNearWithin_runs h hok
    obtain ⟨_, rfl⟩ := Prod.mk.inj (Except.ok.inj (hnear.symm.trans (freeNear_of_within h₁')))
    unfold itruncWithin
    rw [bind_of_ok h₁', bind_of_ok (freeAddr_skip hstrict hbehind₁), bind_of_ok hset]
    exact ht
  · rw [hvol, hvol₂, refers_near hfar]
    exact hfreed.used b
  · rw [hframe.icache, hino]
  · rw [hvol, ← hino]
    exact Function.update_self ..
  · rw [hvol, hvol₂, hfreed.far]
    exact hfar

/-- itrunc is exact just where the word that it takes for the double-indirect entry is 0 and
the inode has no double-indirect block on the disk. -/
theorem truncates_iff (h : WellMapped s i n) :
    Truncates s i n ↔ s.behind i = 0 ∧ s.vol.far n = 0 :=
  ⟨Truncates.nothing_behind h, fun hzero => truncates_of_nothing h hzero.1 hzero.2⟩

end Exact

section Samples

/-- Inode 2 in slot 0 with block 100 alone, and a device number in the slot behind it. -/
def oneBlock (dev : ℕ) : State where
  sb := mkfsSuperblock
  blk := fun _ b i => if b = 45 ∧ i = 12 then 16 else 0
  held := []
  log := ⟨2, nlog, 1, false, []⟩
  last_alloc_hint := 0
  icache := fun j =>
    if j = 0 then ⟨ROOTDEV, 2, 1, true, true, T_FILE, 0, 0, 0, 10, fun k => if k = 0 then 100 else 0⟩
    else ⟨dev, 0, 0, false, false, 0, 0, 0, 0, 0, fun _ => 0⟩
  past := 0
  devsw := fun _ => none
  strict := false

theorem oneBlock_far (dev : ℕ) : (oneBlock dev).vol.far 2 = 0 := by
  have hin : 2 < maxInodes := by decide
  have hblock : IBLOCK 2 mkfsSuperblock ≠ 45 := by decide
  show (if 2 < maxInodes then _ else 0) = 0
  rw [if_pos hin]
  refine get_zero fun i _ _ => ?_
  show (if IBLOCK 2 mkfsSuperblock = 45 ∧ i = 12 then (16 : UInt8) else 0) = 0
  rw [if_neg fun h => hblock h.1]

theorem oneBlock_used (dev : ℕ) : (oneBlock dev).vol.used 100 = true := by
  have hin : 100 < nbitmap * BPB := by decide
  have hbit : Bitmap.test (fun i => if BMAPBLOCK 100 mkfsSuperblock = 45 ∧ i = 12 then 16 else 0)
      (100 % BPB) = true := by decide
  show (if 100 < nbitmap * BPB then Bitmap.test _ _ else false) = true
  rw [if_pos hin]
  exact hbit

theorem oneBlock_reference (dev : ℕ) (r : Reference) :
    (oneBlock dev).reference 0 2 r = if r = .near (.direct 0) then 100 else 0 := by
  have hmid : ∀ j, (oneBlock dev).midEntry 2 j = 0 := fun j => if_neg fun h => h.2
      (oneBlock_far dev)
  cases r with
  | near p =>
    cases p with
    | direct k =>
      by_cases hk : k = 0
      · subst hk
        rfl
      · rw [if_neg fun h => hk (Place.direct.inj (Reference.near.inj h))]
        show (if k < NDIRECT then if k = 0 then 100 else 0 else 0) = 0
        rw [if_neg hk, ite_self]
    | index => rfl
    | leaf j => exact if_neg fun h => h.2 rfl
  | top => exact oneBlock_far dev
  | mid j => exact hmid j
  | bottom j k => exact if_neg fun h => h.2 (hmid j)

theorem oneBlock_mapped (dev : ℕ) : WellMapped (oneBlock dev) 0 2 where
  sb := rfl
  held := rfl
  strict := rfl
  dev := rfl
  inum := rfl
  inum_lt := by decide
  locked := rfl
  inRange := by
    refine ⟨show T_FILE < 2 ^ 16 by decide, Nat.two_pow_pos 16, Nat.two_pow_pos 16,
      Nat.two_pow_pos 16, show 10 < 2 ^ 32 by decide, fun k => ?_, fun k hk => ?_⟩
    · show (if k = 0 then 100 else 0) < 2 ^ 32
      split <;> decide
    · exact if_neg (by omega)
  owned := by
    constructor
    · intro r hr
      rw [oneBlock_reference] at hr ⊢
      by_cases hnear : r = .near (.direct 0)
      · have hdata : DataBlock 100 := ⟨by decide, by decide⟩
        rw [if_pos hnear]
        exact ⟨hdata, oneBlock_used dev⟩
      · exact absurd (if_neg hnear) hr
    · intro r r' hr he
      rw [oneBlock_reference] at hr
      rw [oneBlock_reference, oneBlock_reference] at he
      by_cases hnear : r = .near (.direct 0)
      · by_cases hnear' : r' = .near (.direct 0)
        · rw [hnear, hnear']
        · rw [if_pos hnear, if_neg hnear'] at he
          cases he
      · exact absurd (if_neg hnear) hr
  room := by
    have hroom : LogRoom (logged 2) ⟨2, nlog, 1, false, []⟩ := ⟨Nat.one_pos, by decide, by decide⟩
    exact hroom

theorem truncates_iff_oneBlock :
    Truncates (oneBlock 0) 0 2 ↔ (oneBlock 0).behind 0 = 0 ∧ (oneBlock 0).vol.far 2 = 0 :=
  truncates_iff (oneBlock_mapped 0)

/-- The slot behind has been used, for an inode of the root device. -/
theorem not_always_truncates : ¬∀ s i n, WellMapped s i n → Truncates s i n := by
  intro h
  have hmapped := oneBlock_mapped ROOTDEV
  have hzero := ((h _ _ _ hmapped).nothing_behind hmapped).1
  exact absurd hzero (by decide)

end Samples

end NorthOS.Fs
