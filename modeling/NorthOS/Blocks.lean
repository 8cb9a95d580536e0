import NorthOS.Volume

/-!
What the block layer of fs.c does to a volume: balloc sets a clear bit and zeroes its
block, bfree clears a set bit, and nothing else changes but the log and the hint.
-/
namespace NorthOS.Fs

open LittleEndian Halting Comp

/-- Only blocks, locked buffers, the log and the allocation hint differ, and of the log
not the number of operations. -/
structure Frame (s t : State) : Prop where
  sb : t.sb = s.sb
  icache : t.icache = s.icache
  past : t.past = s.past
  devsw : t.devsw = s.devsw
  strict : t.strict = s.strict
  outstanding : t.log.outstanding = s.log.outstanding

theorem Frame.refl (s : State) : Frame s s := ⟨rfl, rfl, rfl, rfl, rfl, rfl⟩

theorem Frame.trans {s t u : State} (h : Frame s t) (h' : Frame t u) : Frame s u :=
  ⟨h'.sb.trans h.sb, h'.icache.trans h.icache, h'.past.trans h.past, h'.devsw.trans h.devsw,
    h'.strict.trans h.strict, h'.outstanding.trans h.outstanding⟩

section Slots

variable (s : State) (i : ℕ) (f : Inode → Inode)

@[simp] theorem setSlot_self : (s.setSlot i f).icache i = f (s.icache i) :=
  Function.update_self ..

theorem setSlot_other {j : ℕ} (hj : j ≠ i) : (s.setSlot i f).icache j = s.icache j :=
  Function.update_of_ne hj ..

@[simp] theorem setSlot_blk : (s.setSlot i f).blk = s.blk := rfl

@[simp] theorem setSlot_vol : (s.setSlot i f).vol = s.vol := rfl

@[simp] theorem setSlot_held : (s.setSlot i f).held = s.held := rfl

@[simp] theorem setSlot_sb : (s.setSlot i f).sb = s.sb := rfl

@[simp] theorem setSlot_past : (s.setSlot i f).past = s.past := rfl

@[simp] theorem setSlot_devsw : (s.setSlot i f).devsw = s.devsw := rfl

@[simp] theorem setSlot_strict : (s.setSlot i f).strict = s.strict := rfl

@[simp] theorem setSlot_log : (s.setSlot i f).log = s.log := rfl

end Slots

section Primitives

variable {s t : State} {dev b : ℕ} {d : Bytes} {r : Unit}

theorem bread_ok : bread dev b s = .ok (d, t) ↔
    (dev, b) ∉ s.held ∧ b < FSSIZE ∧ d = s.blk dev b ∧
      t = { s with held := (dev, b) :: s.held } := by
  unfold bread
  simp only [bind_ok, ensure_ok, update_ok, look_ok, decide_eq_true_eq]
  constructor
  · rintro ⟨_, _, ⟨hheld, rfl⟩, _, _, ⟨hrange, rfl⟩, _, _, rfl, rfl, rfl⟩
    exact ⟨hheld, hrange, rfl, rfl⟩
  · rintro ⟨hheld, hrange, rfl, rfl⟩
    exact ⟨(), s, ⟨hheld, rfl⟩, (), s, ⟨hrange, rfl⟩, (), _, rfl, rfl, rfl⟩

theorem brelse_ok : brelse dev b s = .ok (r, t) ↔
    (dev, b) ∈ s.held ∧ t = { s with held := s.held.erase (dev, b) } := by
  unfold brelse
  simp only [bind_ok, ensure_ok, update_ok, decide_eq_true_eq]
  constructor
  · rintro ⟨_, _, ⟨hheld, rfl⟩, rfl⟩
    exact ⟨hheld, rfl⟩
  · rintro ⟨hheld, rfl⟩
    exact ⟨(), s, ⟨hheld, rfl⟩, rfl⟩

theorem setData_ok {f : Bytes → Bytes} : setData dev b f s = .ok (r, t) ↔
    t = s.setBlk dev b (f (s.blk dev b)) := by
  unfold setData
  rw [update_ok, eq_comm]

theorem bread_spec (h : bread dev b s = .ok (d, t)) :
    Frame s t ∧ t.blk = s.blk ∧ t.held = (dev, b) :: s.held ∧ d = s.blk dev b ∧
      (dev, b) ∉ s.held ∧ b < FSSIZE := by
  obtain ⟨hheld, hrange, rfl, rfl⟩ := bread_ok.mp h
  exact ⟨⟨rfl, rfl, rfl, rfl, rfl, rfl⟩, rfl, rfl, rfl, hheld, hrange⟩

theorem brelse_spec (h : brelse dev b s = .ok (r, t)) :
    Frame s t ∧ t.blk = s.blk ∧ t.held = s.held.erase (dev, b) ∧ (dev, b) ∈ s.held := by
  obtain ⟨hheld, rfl⟩ := brelse_ok.mp h
  exact ⟨⟨rfl, rfl, rfl, rfl, rfl, rfl⟩, rfl, rfl, hheld⟩

theorem setData_spec {f : Bytes → Bytes} (h : setData dev b f s = .ok (r, t)) :
    Frame s t ∧ t.held = s.held ∧
      t.blk = Function.update s.blk dev
        (Function.update (s.blk dev) b (f (s.blk dev b))) := by
  obtain rfl := setData_ok.mp h
  exact ⟨⟨rfl, rfl, rfl, rfl, rfl, rfl⟩, rfl, rfl⟩

theorem logWrite_spec (h : logWrite b s = .ok (r, t)) :
    Frame s t ∧ t.held = s.held ∧ t.blk = s.blk ∧ 0 < s.log.outstanding := by
  unfold logWrite at h
  cases hlog : s.log.logWrite b with
  | error p =>
    rw [hlog] at h
    cases h
  | ok log =>
    rw [hlog] at h
    obtain ⟨_, rfl⟩ := Prod.mk.inj (Except.ok.inj h)
    obtain ⟨_, _, hpos, rfl⟩ := Log.logWrite_ok.mp hlog
    exact ⟨⟨rfl, rfl, rfl, rfl, rfl, rfl⟩, rfl, rfl, hpos⟩

end Primitives

section Compound

variable {s t : State} {dev b : ℕ}

/-- Changing the data of a buffer that is locked already, logging and releasing it. -/
theorem finish_spec {f : Bytes → Bytes}
    (h : (do
      setData dev b f
      logWrite b
      brelse dev b : M Unit) s = .ok ((), t)) :
    Frame s t ∧ t.held = s.held.erase (dev, b) ∧
      t.blk = Function.update s.blk dev
        (Function.update (s.blk dev) b (f (s.blk dev b))) := by
  obtain ⟨_, s₁, h₁, h⟩ := bind_ok.mp h
  obtain ⟨_, s₂, h₂, h₃⟩ := bind_ok.mp h
  obtain ⟨hf₁, hheld₁, hblk₁⟩ := setData_spec h₁
  obtain ⟨hf₂, hheld₂, hblk₂, _⟩ := logWrite_spec h₂
  obtain ⟨hf₃, hblk₃, hheld₃, _⟩ := brelse_spec h₃
  exact ⟨hf₁.trans (hf₂.trans hf₃), by rw [hheld₃, hheld₂, hheld₁],
    by rw [hblk₃, hblk₂, hblk₁]⟩

/-- The idiom of fs.c: read a block, change its data, log it, release it. -/
theorem rewrite_spec {f : Bytes → Bytes}
    (h : (do
      let _ ← bread dev b
      setData dev b f
      logWrite b
      brelse dev b : M Unit) s = .ok ((), t)) :
    Frame s t ∧ t.held = s.held ∧
      t.blk = Function.update s.blk dev
        (Function.update (s.blk dev) b (f (s.blk dev b))) := by
  obtain ⟨d, s₁, h₁, h⟩ := bind_ok.mp h
  obtain ⟨hf₁, hblk₁, hheld₁, _⟩ := bread_spec h₁
  obtain ⟨hf₂, hheld₂, hblk₂⟩ := finish_spec h
  refine ⟨hf₁.trans hf₂, ?_, ?_⟩
  · rw [hheld₂, hheld₁]
    exact List.erase_cons_head _ _
  · rw [hblk₂, hblk₁]

theorem bzero_spec (h : bzero dev b s = .ok ((), t)) :
    Frame s t ∧ t.held = s.held ∧
      t.blk = Function.update s.blk dev (Function.update (s.blk dev) b fun _ => 0) := by
  obtain ⟨_, s₁, h₁, h⟩ := bind_ok.mp h
  obtain ⟨_, rfl⟩ := ensure_ok.mp h₁
  exact rewrite_spec h

end Compound

/-- What an allocation of block `b` does to the volume. -/
structure Allocates (s t : State) (b : ℕ) : Prop extends Frame s t where
  clear : s.vol.used b = false
  bound : b < nblocks
  vol : nmeta ≤ b → t.vol =
    { s.vol with
      used := Function.update s.vol.used b true
      data := Function.update s.vol.data b fun _ => 0 }

theorem vol_congr {s t : State} (h : t.blk = s.blk) : t.vol = s.vol := by
  unfold State.vol
  rw [h]

/-- Setting the bit of a clear block and zeroing the block. -/
theorem allocates_of_set {s t : State} {k j : ℕ} (hk : 45 ≤ k) (hj : j < BPB)
    (hf : Frame s t) (hclear : Bitmap.test (s.blk ROOTDEV k) j = false)
    (hbound : (k - 45) * BPB + j < nblocks)
    (hblk : t.blk ROOTDEV = Function.update
      (Function.update (s.blk ROOTDEV) k (Bitmap.set (s.blk ROOTDEV k) j))
      ((k - 45) * BPB + j) fun _ => 0) : Allocates s t ((k - 45) * BPB + j) := by
  have hbits : BPB = 16384 := rfl
  have hnb : nblocks = 25553 := rfl
  rw [hbits] at hj
  set b := (k - 45) * BPB + j with hb
  have hbk : BMAPBLOCK b mkfsSuperblock = k := by
    rw [BMAPBLOCK_mkfs, hb, hbits]
    omega
  have hbmod : b % BPB = j := by
    rw [hb, hbits]
    omega
  have hlast : b < nbitmap * BPB := by
    rw [bitmap_bits]
    omega
  refine ⟨hf, ?_, hbound, fun hmeta => ?_⟩
  · show (if b < nbitmap * BPB then _ else false) = false
    rw [if_pos hlast, hbk, hbmod]
    exact hclear
  · have hset := @volume_set (s.blk ROOTDEV) b hlast
    rw [hbk, hbmod] at hset
    unfold State.vol
    rw [hblk, volume_data hmeta, hset]

/-- How a scan of bitmap block `k` ends: with an allocated block and the buffer released,
without a change, or, after it met a bit of no data block, with the buffer released. -/
def Scans (k : ℕ) (s t : State) : Option ℕ → Prop
  | some b => (ROOTDEV, k) ∈ s.held ∧ t.held = s.held.erase (ROOTDEV, k) ∧ Allocates s t b
  | none => t = s ∨ (ROOTDEV, k) ∈ s.held ∧ (ROOTDEV, k) ∉ t.held ∧ t.held.Nodup ∧
      t.sb = s.sb

/-- A scan that goes on after one that found nothing. -/
theorem Scans.trans {k : ℕ} {s t u : State} {r : Option ℕ} (h : Scans k s t none)
    (h' : Scans k t u r) : Scans k s u r := by
  rcases h with rfl | ⟨hmem, hgone, hnd, hsb⟩
  · exact h'
  · cases r with
    | some b => exact absurd h'.1 hgone
    | none =>
      rcases h' with rfl | ⟨hmem', _⟩
      · exact Or.inr ⟨hmem, hgone, hnd, hsb⟩
      · exact absurd hmem' hgone

theorem Scans.kept {k : ℕ} {s t : State} (h : Scans k s t none)
    (hsb : s.sb = mkfsSuperblock) (hnd : s.held.Nodup) :
    t.sb = mkfsSuperblock ∧ t.held.Nodup := by
  rcases h with rfl | ⟨_, _, hnd', hsb'⟩
  · exact ⟨hsb, hnd⟩
  · exact ⟨hsb'.trans hsb, hnd'⟩

theorem scanBits_spec {s t : State} {k i fuel bit : ℕ} {r : Option ℕ}
    (hsb : s.sb = mkfsSuperblock) (hk : 45 ≤ k) (hnd : s.held.Nodup)
    (hi : i * 8 + bit + fuel ≤ BPB)
    (h : scanBits ROOTDEV k i fuel bit s = .ok (r, t)) : Scans k s t r := by
  induction fuel generalizing s bit with
  | zero =>
    obtain ⟨rfl, rfl⟩ := pure_ok.mp h
    exact Or.inl rfl
  | succ fuel ih =>
    obtain ⟨data, s₀, h₀, h⟩ := bind_ok.mp h
    obtain ⟨rfl, rfl⟩ := look_ok.mp h₀
    split at h
    · exact ih hsb hnd (by omega) h
    · rename_i hclear
      obtain ⟨_, s₁, h₁, h⟩ := bind_ok.mp h
      obtain ⟨_, s₂, h₂, h⟩ := bind_ok.mp h
      obtain ⟨_, s₃, h₃, h⟩ := bind_ok.mp h
      obtain ⟨sb, s₄, h₄, h⟩ := bind_ok.mp h
      obtain ⟨hf₁, hheld₁, hblk₁⟩ := setData_spec h₁
      obtain ⟨hf₂, hheld₂, hblk₂, _⟩ := logWrite_spec h₂
      obtain ⟨hf₃, hblk₃, hheld₃, hmem⟩ := brelse_spec h₃
      obtain ⟨hsb', rfl⟩ := look_ok.mp h₄
      have hf : Frame s s₃ := hf₁.trans (hf₂.trans hf₃)
      have hheld : s₃.held = s.held.erase (ROOTDEV, k) := by rw [hheld₃, hheld₂, hheld₁]
      rw [hheld₂, hheld₁] at hmem
      have hgone : (ROOTDEV, k) ∉ s₃.held := by
        rw [hheld]
        exact fun e => (hnd.mem_erase_iff.mp e).1 rfl
      have hsb₃ : sb = mkfsSuperblock := by rw [← hsb', hf.sb, hsb]
      rw [hsb₃] at h
      split at h
      · -- the block is no data block: the buffer is released, and the scan goes on
        have hnd₃ : s₃.held.Nodup := by
          rw [hheld]
          exact hnd.erase _
        have hfirst : Scans k s s₃ none := Or.inr ⟨hmem, hgone, hnd₃, hf.sb⟩
        exact hfirst.trans (ih (hf.sb.trans hsb) hnd₃ (by omega) h)
      · rename_i hbound
        obtain ⟨_, s₅, h₅, h⟩ := bind_ok.mp h
        obtain ⟨_, s₆, h₆, h⟩ := bind_ok.mp h
        obtain ⟨hf₅, hheld₅, hblk₅⟩ := bzero_spec h₅
        have hs₆ := update_ok.mp h₆
        obtain ⟨rfl, rfl⟩ := pure_ok.mp h
        have hf₆ : Frame s₅ s₆ := by
          rw [← hs₆]
          exact ⟨rfl, rfl, rfl, rfl, rfl, rfl⟩
        have hheld₆ : s₆.held = s₅.held := by rw [← hs₆]
        have hblk₆ : s₆.blk = s₅.blk := by rw [← hs₆]
        refine ⟨hmem, by rw [hheld₆, hheld₅, hheld], ?_⟩
        apply allocates_of_set hk (by omega) (hf.trans (hf₅.trans hf₆))
        · simpa using hclear
        · exact Nat.not_le.mp hbound
        · rw [hblk₆, hblk₅, Function.update_self, hblk₃, hblk₂, hblk₁, Function.update_self]
          rfl

theorem scanWords_spec {s t : State} {k i fuel : ℕ} {r : Option ℕ}
    (hsb : s.sb = mkfsSuperblock) (hk : 45 ≤ k) (hnd : s.held.Nodup)
    (hi : i + 4 * fuel ≤ BSIZE)
    (h : scanWords ROOTDEV k fuel i s = .ok (r, t)) : Scans k s t r := by
  have hbits : BPB = 16384 := rfl
  have hsize : BSIZE = 2048 := rfl
  induction fuel generalizing s i with
  | zero =>
    obtain ⟨rfl, rfl⟩ := pure_ok.mp h
    exact Or.inl rfl
  | succ fuel ih =>
    obtain ⟨data, s₀, h₀, h⟩ := bind_ok.mp h
    obtain ⟨rfl, rfl⟩ := look_ok.mp h₀
    obtain ⟨found, s₁, h₁, h⟩ := bind_ok.mp h
    have hfound : Scans k s s₁ found := by
      split at h₁
      · exact scanBits_spec hsb hk hnd (by omega) h₁
      · obtain ⟨rfl, rfl⟩ := pure_ok.mp h₁
        exact Or.inl rfl
    cases found with
    | some b =>
      obtain ⟨rfl, rfl⟩ := pure_ok.mp h
      exact hfound
    | none =>
      obtain ⟨hsb₁, hnd₁⟩ := hfound.kept hsb hnd
      exact hfound.trans (ih hsb₁ hnd₁ (by omega) h)

/-- A bitmap block that is scanned in vain was released before it is released. -/
theorem scanBlocks_spec {s t : State} {fuel k : ℕ} {r : Option ℕ}
    (hsb : s.sb = mkfsSuperblock) (hk : 45 ≤ k) (hnd : s.held.Nodup)
    (h : scanBlocks ROOTDEV fuel k s = .ok (r, t)) :
    (∃ b, r = some b ∧ t.held = s.held ∧ Allocates s t b) ∨ (r = none ∧ t = s) := by
  induction fuel generalizing s k with
  | zero =>
    obtain ⟨rfl, rfl⟩ := pure_ok.mp h
    exact Or.inr ⟨rfl, rfl⟩
  | succ fuel ih =>
    obtain ⟨_, s₁, h₁, h⟩ := bind_ok.mp h
    obtain ⟨found, s₂, h₂, h⟩ := bind_ok.mp h
    obtain ⟨hnot, _, _, hs₁⟩ := bread_ok.mp h₁
    obtain ⟨hf₁, hblk₁, hheld₁, _⟩ := bread_spec h₁
    have hnd₁ : s₁.held.Nodup := by
      rw [hheld₁]
      exact List.nodup_cons.mpr ⟨hnot, hnd⟩
    have hscan := scanWords_spec (hf₁.sb.trans hsb) hk hnd₁ (by decide) h₂
    cases found with
    | some b =>
      obtain ⟨rfl, rfl⟩ := pure_ok.mp h
      obtain ⟨_, hheld₂, halloc⟩ := hscan
      have hvol := vol_congr hblk₁
      refine Or.inl ⟨b, rfl, ?_, hf₁.trans halloc.toFrame, ?_, halloc.bound, ?_⟩
      · rw [hheld₂, hheld₁]
        exact List.erase_cons_head _ _
      · rw [← hvol]
        exact halloc.clear
      · rw [← hvol]
        exact halloc.vol
    | none =>
      obtain ⟨_, s₃, h₃, hrest⟩ := bind_ok.mp h
      obtain ⟨hmem, hs₃⟩ := brelse_ok.mp h₃
      rcases hscan with hs₂ | ⟨_, hgone, _⟩
      · have hback : s₃ = s := by
          rw [hs₃, hs₂, hheld₁, List.erase_cons_head, hs₁]
        rw [hback] at hrest
        exact ih hsb (by omega) hnd hrest
      · exact absurd hmem hgone

theorem balloc_spec {s t : State} {b : ℕ} (hsb : s.sb = mkfsSuperblock) (hnd : s.held.Nodup)
    (h : balloc ROOTDEV s = .ok (b, t)) : t.held = s.held ∧ Allocates s t b := by
  obtain ⟨sb, s₀, h₀, g₀⟩ := bind_ok.mp h
  obtain ⟨start, s₁, h₁, g₁⟩ := bind_ok.mp g₀
  obtain ⟨first, s₂, h₂, g₂⟩ := bind_ok.mp g₁
  obtain ⟨hsb', rfl⟩ := look_ok.mp h₀
  obtain ⟨_, rfl⟩ := look_ok.mp h₁
  have hstart : sb.bmapstart = 45 := by
    rw [← hsb']
    exact congrArg Superblock.bmapstart hsb
  rcases scanBlocks_spec hsb (hstart ▸ Nat.le_add_right _ _) hnd h₂ with
    ⟨c, hc, hheld, halloc⟩ | ⟨hnone, hs₂⟩
  · rw [hc] at g₂
    obtain ⟨rfl, rfl⟩ := pure_ok.mp g₂
    exact ⟨hheld, halloc⟩
  · rw [hnone, hs₂] at g₂
    obtain ⟨second, s₃, h₃, g₃⟩ := bind_ok.mp g₂
    rcases scanBlocks_spec hsb (Nat.le_of_eq hstart.symm) hnd h₃ with
      ⟨c, hc, hheld, halloc⟩ | ⟨hnone, hs₃⟩
    · rw [hc] at g₃
      obtain ⟨rfl, rfl⟩ := pure_ok.mp g₃
      exact ⟨hheld, halloc⟩
    · rw [hnone] at g₃
      cases g₃

/-- Nothing is allocated outside a transaction. -/
theorem scanBits_outside {s t : State} {dev k i fuel bit : ℕ} {r : Option ℕ}
    (hout : s.log.outstanding = 0) (h : scanBits dev k i fuel bit s = .ok (r, t)) :
    r = none ∧ t = s := by
  induction fuel generalizing bit with
  | zero =>
    obtain ⟨rfl, rfl⟩ := pure_ok.mp h
    exact ⟨rfl, rfl⟩
  | succ fuel ih =>
    obtain ⟨data, s₀, h₀, h⟩ := bind_ok.mp h
    obtain ⟨rfl, rfl⟩ := look_ok.mp h₀
    split at h
    · exact ih h
    · obtain ⟨_, s₁, h₁, h⟩ := bind_ok.mp h
      obtain ⟨_, s₂, h₂, h⟩ := bind_ok.mp h
      obtain ⟨hf₁, _⟩ := setData_spec h₁
      obtain ⟨_, _, _, hpos⟩ := logWrite_spec h₂
      rw [hf₁.outstanding] at hpos
      omega

theorem scanWords_outside {s t : State} {dev k i fuel : ℕ} {r : Option ℕ}
    (hout : s.log.outstanding = 0) (h : scanWords dev k fuel i s = .ok (r, t)) :
    r = none ∧ t = s := by
  induction fuel generalizing i with
  | zero =>
    obtain ⟨rfl, rfl⟩ := pure_ok.mp h
    exact ⟨rfl, rfl⟩
  | succ fuel ih =>
    obtain ⟨data, s₀, h₀, g₀⟩ := bind_ok.mp h
    obtain ⟨found, s₁, h₁, g₁⟩ := bind_ok.mp g₀
    obtain ⟨_, rfl⟩ := look_ok.mp h₀
    have hfound : found = none ∧ s₁ = s := by
      split at h₁
      · exact scanBits_outside hout h₁
      · obtain ⟨rfl, rfl⟩ := pure_ok.mp h₁
        exact ⟨rfl, rfl⟩
    rw [hfound.1, hfound.2] at g₁
    exact ih g₁

theorem scanBlocks_outside {s t : State} {dev fuel k : ℕ} {r : Option ℕ}
    (hout : s.log.outstanding = 0) (h : scanBlocks dev fuel k s = .ok (r, t)) :
    r = none ∧ t = s := by
  induction fuel generalizing k with
  | zero =>
    obtain ⟨rfl, rfl⟩ := pure_ok.mp h
    exact ⟨rfl, rfl⟩
  | succ fuel ih =>
    obtain ⟨_, s₁, h₁, h⟩ := bind_ok.mp h
    obtain ⟨found, s₂, h₂, h⟩ := bind_ok.mp h
    obtain ⟨hf₁, _, hheld₁, _⟩ := bread_spec h₁
    obtain ⟨_, _, _, hs₁⟩ := bread_ok.mp h₁
    obtain ⟨rfl, hs₂⟩ := scanWords_outside (hf₁.outstanding.trans hout) h₂
    obtain ⟨_, s₃, h₃, hrest⟩ := bind_ok.mp h
    obtain ⟨_, hs₃⟩ := brelse_ok.mp h₃
    have hback : s₃ = s := by
      rw [hs₃, hs₂, hheld₁, List.erase_cons_head, hs₁]
    rw [hback] at hrest
    exact ih hrest

theorem balloc_outside {s t : State} {dev b : ℕ} (hout : s.log.outstanding = 0) :
    balloc dev s ≠ .ok (b, t) := by
  intro h
  obtain ⟨sb, s₀, h₀, g₀⟩ := bind_ok.mp h
  obtain ⟨start, s₁, h₁, g₁⟩ := bind_ok.mp g₀
  obtain ⟨first, s₂, h₂, g₂⟩ := bind_ok.mp g₁
  obtain ⟨_, rfl⟩ := look_ok.mp h₀
  obtain ⟨_, rfl⟩ := look_ok.mp h₁
  obtain ⟨hnone, hs₂⟩ := scanBlocks_outside hout h₂
  rw [hnone, hs₂] at g₂
  obtain ⟨second, s₃, h₃, g₃⟩ := bind_ok.mp g₂
  rw [(scanBlocks_outside hout h₃).1] at g₃
  cases g₃

theorem bfree_spec {s t : State} {b : ℕ} (hsb : s.sb = mkfsSuperblock)
    (h : bfree ROOTDEV b s = .ok ((), t)) :
    Frame s t ∧ t.held = s.held ∧ b < nblocks ∧ s.vol.used b = true ∧
      t.vol = { s.vol with used := Function.update s.vol.used b false } := by
  obtain ⟨sb, s₀, h₀, h⟩ := bind_ok.mp h
  obtain ⟨hsb', rfl⟩ := look_ok.mp h₀
  rw [hsb] at hsb'
  subst hsb'
  obtain ⟨_, s₁, h₁, h⟩ := bind_ok.mp h
  obtain ⟨hbound, rfl⟩ := ensure_ok.mp h₁
  obtain ⟨data, s₂, h₂, h⟩ := bind_ok.mp h
  obtain ⟨hf₂, hblk₂, hheld₂, hdata, _⟩ := bread_spec h₂
  obtain ⟨_, s₃, h₃, h⟩ := bind_ok.mp h
  obtain ⟨htest, rfl⟩ := ensure_ok.mp h₃
  obtain ⟨hf₃, hheld₃, hblk₃⟩ := finish_spec h
  have hb : b < nblocks := of_decide_eq_true hbound
  have hlast : b < nbitmap * BPB := by
    rw [bitmap_bits]
    have hnb : nblocks = 25553 := rfl
    omega
  refine ⟨hf₂.trans hf₃, ?_, hb, ?_, ?_⟩
  · rw [hheld₃, hheld₂]
    exact List.erase_cons_head _ _
  · show (if b < nbitmap * BPB then _ else false) = true
    rw [if_pos hlast, ← hdata]
    exact htest
  · unfold State.vol
    rw [hblk₃, hblk₂, Function.update_self, volume_clear hlast]

section Outcomes

theorem frame_composes : Composes Frame := ⟨Frame.refl, fun h h' => h.trans h'⟩

/-- The panic of ilock and the stopped accesses: no block operation ends so. -/
def Fault (e : Halt) : Prop := e = .noType ∨ e = .outOfBounds

theorem not_fault {e : Halt} (h : e ≠ .noType) (h' : e ≠ .outOfBounds) : ¬ Fault e := by
  rintro (rfl | rfl)
  · exact h rfl
  · exact h' rfl

variable {dev b k i j fuel : ℕ}

theorem bread_within : Within Fault Frame (bread dev b) := by
  unfold bread
  refine Within.bind frame_composes
    (within_ensure frame_composes (not_fault (by simp) (by simp))) fun _ => ?_
  refine Within.bind frame_composes
    (within_ensure frame_composes (not_fault (by simp) (by simp))) fun _ => ?_
  refine Within.bind frame_composes (within_update fun _ => ?_) fun _ => ?_
  · exact ⟨rfl, rfl, rfl, rfl, rfl, rfl⟩
  exact within_look frame_composes

theorem brelse_within : Within Fault Frame (brelse dev b) := by
  unfold brelse
  refine Within.bind frame_composes
    (within_ensure frame_composes (not_fault (by simp) (by simp))) fun _ => ?_
  exact within_update fun _ => ⟨rfl, rfl, rfl, rfl, rfl, rfl⟩

theorem setData_within {f : Bytes → Bytes} : Within Fault Frame (setData dev b f) :=
  within_update fun _ => ⟨rfl, rfl, rfl, rfl, rfl, rfl⟩

theorem logWrite_within : Within Fault Frame (logWrite b) := by
  intro s
  unfold logWrite Ends
  cases hlog : s.log.logWrite b with
  | error p => exact not_fault (by simp) (by simp)
  | ok log =>
    obtain ⟨_, _, _, rfl⟩ := Log.logWrite_ok.mp hlog
    exact ⟨rfl, rfl, rfl, rfl, rfl, rfl⟩

theorem bzero_within : Within Fault Frame (bzero dev b) := by
  unfold bzero
  refine Within.bind frame_composes
    (within_ensure frame_composes (not_fault (by simp) (by simp))) fun _ => ?_
  apply bread_within.bind frame_composes
  intro _
  apply setData_within.bind frame_composes
  intro _
  apply logWrite_within.bind frame_composes
  intro _
  exact brelse_within

theorem scanBits_within : Within Fault Frame (scanBits dev k i fuel j) := by
  induction fuel generalizing j with
  | zero => exact within_pure frame_composes
  | succ fuel ih =>
    apply (within_look frame_composes).bind frame_composes
    intro data
    refine ih.ite ?_
    apply setData_within.bind frame_composes
    intro _
    apply logWrite_within.bind frame_composes
    intro _
    apply brelse_within.bind frame_composes
    intro _
    apply (within_look frame_composes).bind frame_composes
    intro sb
    refine ih.ite ?_
    apply bzero_within.bind frame_composes
    intro _
    refine Within.bind frame_composes (within_update fun _ => ?_) fun _ => ?_
    · exact ⟨rfl, rfl, rfl, rfl, rfl, rfl⟩
    exact within_pure frame_composes

theorem scanWords_within : Within Fault Frame (scanWords dev k fuel i) := by
  induction fuel generalizing i with
  | zero => exact within_pure frame_composes
  | succ fuel ih =>
    apply (within_look frame_composes).bind frame_composes
    intro data
    refine Within.bind frame_composes (scanBits_within.ite (within_pure frame_composes)) ?_
    rintro (_ | bno)
    · exact ih
    · exact within_pure frame_composes

theorem scanBlocks_within : Within Fault Frame (scanBlocks dev fuel k) := by
  induction fuel generalizing k with
  | zero => exact within_pure frame_composes
  | succ fuel ih =>
    apply bread_within.bind frame_composes
    intro _
    apply scanWords_within.bind frame_composes
    rintro (_ | bno)
    · apply brelse_within.bind frame_composes
      intro _
      exact ih
    · exact within_pure frame_composes

theorem balloc_within : Within Fault Frame (balloc dev) := by
  apply (within_look frame_composes).bind frame_composes
  intro sb
  apply (within_look frame_composes).bind frame_composes
  intro start
  apply scanBlocks_within.bind frame_composes
  rintro (_ | bno)
  · apply scanBlocks_within.bind frame_composes
    rintro (_ | bno)
    · exact within_halt (not_fault (by simp) (by simp))
    · exact within_pure frame_composes
  · exact within_pure frame_composes

theorem bfree_within : Within Fault Frame (bfree dev b) := by
  apply (within_look frame_composes).bind frame_composes
  intro sb
  refine Within.bind frame_composes
    (within_ensure frame_composes (not_fault (by simp) (by simp))) fun _ => ?_
  apply bread_within.bind frame_composes
  intro _
  refine Within.bind frame_composes
    (within_ensure frame_composes (not_fault (by simp) (by simp))) fun _ => ?_
  apply setData_within.bind frame_composes
  intro _
  apply logWrite_within.bind frame_composes
  intro _
  exact brelse_within

end Outcomes

end NorthOS.Fs
