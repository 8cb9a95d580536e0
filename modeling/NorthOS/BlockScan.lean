import Mathlib.Data.Nat.Find
import NorthOS.Truncation

/-!
The scan of balloc. Bits are met in the order of the block numbers from the bitmap block of the
hint on, and then of those before it. The first clear bit decides: balloc allocates its block,
or, when the number is not below nblocks, has marked and released it and releases it again.
-/
namespace NorthOS.Fs

open LittleEndian Halting Comp

/-- The bit of a block number, where balloc looks for it. -/
def State.bit (s : State) (b : ℕ) : Bool :=
  Bitmap.test (s.blk ROOTDEV (BMAPBLOCK b mkfsSuperblock)) (b % BPB)

/-- The bits from `lo` up to `hi` are set. -/
def Full (s : State) (lo hi : ℕ) : Prop := ∀ b, lo ≤ b → b < hi → s.bit b = true

/-- A call in a transaction with room for two blocks; what the caller has locked are data
blocks in use. -/
structure Prepared (s : State) : Prop where
  sb : s.sb = mkfsSuperblock
  nodup : s.held.Nodup
  locked : ∀ b, (ROOTDEV, b) ∈ s.held → nmeta ≤ b ∧ s.vol.used b = true
  begun : 0 < s.log.outstanding
  header : s.log.n + 1 < LOGSIZE
  disk : s.log.n + 2 < s.log.size

variable {s t : State} {b i j k bit fuel : ℕ}

theorem used_eq (hb : b < nbitmap * BPB) : s.vol.used b = s.bit b := if_pos hb

theorem Prepared.room (h : Prepared s) (k : ℕ) : LogRoom {k} s.log := by
  have hcard : (({k} : Finset ℕ) \ s.log.lh.toFinset).card ≤ 1 :=
    (Finset.card_le_card Finset.sdiff_subset).trans_eq (Finset.card_singleton k)
  have hheader := h.header
  have hdisk := h.disk
  exact ⟨h.begun, by omega, by omega⟩

/-- The block of a clear bit is not locked. -/
theorem Prepared.unlocked (h : Prepared s) (hb : b < nblocks) (hclear : s.bit b = false) :
    (ROOTDEV, b) ∉ s.held := by
  intro hheld
  have hused := (h.locked b hheld).2
  have hnb : nblocks = 25553 := rfl
  have hbits := bitmap_bits
  rw [used_eq (by omega), hclear] at hused
  cases hused

section Words

/-- A word of ones. -/
theorem word_full {d : Bytes} (h : get d i 4 = 0xFFFFFFFF) (hbit : bit < 32) :
    Bitmap.test d (i * 8 + bit) = true := by
  have hbytes : ∀ m, m < 4 → (d (i + m)).toNat = 255 := by
    simp only [LittleEndian.get] at h
    have h₀ := UInt8.toNat_lt (d i)
    have h₁ := UInt8.toNat_lt (d (i + 1))
    have h₂ := UInt8.toNat_lt (d (i + 1 + 1))
    have h₃ := UInt8.toNat_lt (d (i + 1 + 1 + 1))
    intro m hm
    obtain rfl | rfl | rfl | rfl : m = 0 ∨ m = 1 ∨ m = 2 ∨ m = 3 := by omega
    · show (d i).toNat = 255
      omega
    · omega
    · show (d (i + 1 + 1)).toNat = 255
      omega
    · show (d (i + 1 + 1 + 1)).toNat = 255
      omega
  unfold Bitmap.test
  have hbyte : (i * 8 + bit) / 8 = i + bit / 8 := by omega
  rw [hbyte, hbytes _ (by omega), show 255 = 2 ^ 8 - 1 from rfl, Nat.testBit_two_pow_sub_one]
  exact decide_eq_true (Nat.mod_lt _ (by decide))

/-- Bits that are set are passed. -/
theorem scanBits_skip (fuel bit m : ℕ)
    (h : ∀ l, bit ≤ l → l < bit + m → Bitmap.test (s.blk ROOTDEV k) (i * 8 + l) = true) :
    scanBits ROOTDEV k i (fuel + m) bit s = scanBits ROOTDEV k i fuel (bit + m) s := by
  induction m generalizing bit with
  | zero => rfl
  | succ m ih =>
    rw [← Nat.add_assoc, scanBits, bind_of_ok (look_ok.mpr ⟨rfl, rfl⟩),
      if_pos (h bit le_rfl (by omega)), ih _ fun l hl hlt => h l (by omega) (by omega)]
    congr 1
    omega

end Words

section Marks

variable {A : Type}

/-- The locked buffer `k` after it was changed, logged and released. -/
def State.released (s : State) (k : ℕ) (d : Bytes) (log : Log) : State :=
  { s.setBlk ROOTDEV k d with log := log, held := s.held.erase (ROOTDEV, k) }

theorem mark_runs (f : Bytes → Bytes) (rest : M A) (hroom : LogRoom {k} s.log)
    (hheld : (ROOTDEV, k) ∈ s.held) : ∃ log, LogRoom {k} log ∧ (do
      setData ROOTDEV k f
      logWrite k
      brelse ROOTDEV k
      rest : M A) s = rest (s.released k (f (s.blk ROOTDEV k)) log) := by
  let changed := s.setBlk ROOTDEV k (f (s.blk ROOTDEV k))
  obtain ⟨log, hlog, hroom'⟩ := logWrite_runs (s := changed) hroom (Finset.mem_singleton_self k)
  have hset : setData ROOTDEV k f s = .ok ((), changed) := setData_ok.mpr rfl
  have hrelease : brelse ROOTDEV k { changed with log := log } =
      .ok ((), s.released k (f (s.blk ROOTDEV k)) log) := brelse_ok.mpr ⟨hheld, rfl⟩
  refine ⟨log, hroom', ?_⟩
  rw [bind_of_ok hset, bind_of_ok hlog, bind_of_ok hrelease]

/-- Who has released the buffer before cannot release it again. -/
theorem mark_dooms {f : Bytes → Bytes} {rest : M A} (hroom : LogRoom {k} s.log)
    (hheld : (ROOTDEV, k) ∉ s.held) : (do
      setData ROOTDEV k f
      logWrite k
      brelse ROOTDEV k
      rest : M A) s = .error .brelse := by
  let changed := s.setBlk ROOTDEV k (f (s.blk ROOTDEV k))
  obtain ⟨log, hlog, _⟩ := logWrite_runs (s := changed) hroom (Finset.mem_singleton_self k)
  have hset : setData ROOTDEV k f s = .ok ((), changed) := setData_ok.mpr rfl
  rw [bind_of_ok hset, bind_of_ok hlog]
  refine bind_of_error (bind_of_error ?_)
  unfold ensure
  exact if_neg fun h => hheld (of_decide_eq_true h)

/-- The scan of a buffer that is released already ends in vain, or in the panic of brelse. -/
def Doomed (s : State) (r : Except Halt (Option ℕ × State)) : Prop :=
  r = .ok (none, s) ∨ r = .error .brelse

theorem scanBits_doomed (i fuel bit : ℕ) (hroom : LogRoom {k} s.log)
    (hheld : (ROOTDEV, k) ∉ s.held) : Doomed s (scanBits ROOTDEV k i fuel bit s) := by
  induction fuel generalizing bit with
  | zero => exact Or.inl rfl
  | succ fuel ih =>
    rw [scanBits, bind_of_ok (look_ok.mpr ⟨rfl, rfl⟩)]
    split
    · exact ih (bit + 1)
    · exact Or.inr (mark_dooms hroom hheld)

theorem scanWords_doomed (hroom : LogRoom {k} s.log) (hheld : (ROOTDEV, k) ∉ s.held) :
    Doomed s (scanWords ROOTDEV k fuel i s) := by
  induction fuel generalizing i with
  | zero => exact Or.inl rfl
  | succ fuel ih =>
    rw [scanWords, bind_of_ok (look_ok.mpr ⟨rfl, rfl⟩)]
    have hword : Doomed s ((if get (s.blk ROOTDEV k) i 4 ≠ 0xFFFFFFFF then scanBits ROOTDEV k i 32 0
        else pure none : M (Option ℕ)) s) := by
      split
      · exact scanBits_doomed i 32 0 hroom hheld
      · exact Or.inl rfl
    rcases hword with hnone | hpanic
    · rw [bind_of_ok hnone]
      exact ih
    · rw [bind_of_error hpanic]
      exact Or.inr rfl

end Marks

section Blocks

theorem blk_setBlk (s : State) (b : ℕ) (d : Bytes) :
    (s.setBlk ROOTDEV b d).blk ROOTDEV = Function.update (s.blk ROOTDEV) b d :=
  Function.update_self ROOTDEV _ s.blk

/-- What an allocation of `b` leaves behind. -/
structure Took (s t : State) (b : ℕ) : Prop where
  held : t.held = s.held.erase (ROOTDEV, BMAPBLOCK b mkfsSuperblock)
  blk : t.blk ROOTDEV = Function.update (Function.update (s.blk ROOTDEV) (BMAPBLOCK b mkfsSuperblock)
    (Bitmap.set (s.blk ROOTDEV (BMAPBLOCK b mkfsSuperblock)) (b % BPB))) b fun _ => 0

theorem block_of {c : ℕ} (hk : k = BMAPBLOCK c mkfsSuperblock) (hj : j = c % BPB) :
    (k - mkfsSuperblock.bmapstart) * BPB + j = c := by
  have hbits : BPB = 16384 := rfl
  have hstart : mkfsSuperblock.bmapstart = 45 := rfl
  rw [hk, hj, BMAPBLOCK_mkfs, hstart, hbits]
  omega

/-- The log takes one more block, whichever. -/
theorem logWrite_once {T : Finset ℕ} (h : LogRoom T s.log) (b : ℕ) :
    ∃ log, logWrite b s = .ok ((), { s with log := log }) := by
  have hheader := h.header
  have hdisk := h.disk
  obtain ⟨log, hlog⟩ : ∃ log, s.log.logWrite b = .ok log :=
    ⟨_, Log.logWrite_ok.mpr ⟨by omega, by omega, h.begun, rfl⟩⟩
  refine ⟨log, ?_⟩
  unfold logWrite
  rw [hlog]

theorem bzero_runs {T : Finset ℕ} (hsb : s.sb = mkfsSuperblock) (hroom : LogRoom T s.log)
    (hb : b < FSSIZE) (hfree : (ROOTDEV, b) ∉ s.held) :
    ∃ log, bzero ROOTDEV b s = .ok ((), { s.setBlk ROOTDEV b fun _ => 0 with log := log }) := by
  let locked : State := { s with held := (ROOTDEV, b) :: s.held }
  let zeroed := locked.setBlk ROOTDEV b fun _ => 0
  obtain ⟨log, hlog⟩ := logWrite_once (s := zeroed) hroom b
  have hcheck : ensure (fun s => decide (b < s.sb.size)) Halt.bzero s = .ok ((), s) := by
    refine ensure_ok.mpr ⟨?_, rfl⟩
    rw [hsb]
    exact decide_eq_true hb
  have hset : setData ROOTDEV b (fun _ _ => 0) locked = .ok ((), zeroed) := setData_ok.mpr rfl
  have hrelease : brelse ROOTDEV b { zeroed with log := log } =
      .ok ((), { s.setBlk ROOTDEV b fun _ => 0 with log := log }) := by
    refine brelse_ok.mpr ⟨List.mem_cons_self, ?_⟩
    show _ = { zeroed with log := log, held := ((ROOTDEV, b) :: s.held).erase (ROOTDEV, b) }
    rw [List.erase_cons_head]
    rfl
  refine ⟨log, ?_⟩
  unfold bzero
  rw [bind_of_ok hcheck, bind_of_ok (bread_runs hfree hb), bind_of_ok hset, bind_of_ok hlog]
  exact hrelease

/-- At a clear bit: the bit is set, and the buffer logged and released. -/
theorem scanBits_clear (i fuel bit : ℕ) (hsb : s.sb = mkfsSuperblock) (hroom : LogRoom {k} s.log)
    (hheld : (ROOTDEV, k) ∈ s.held) (hk : k = BMAPBLOCK b mkfsSuperblock)
    (hj : i * 8 + bit = b % BPB) (hclear : s.bit b = false) : ∃ log, LogRoom {k} log ∧
      scanBits ROOTDEV k i (fuel + 1) bit s =
        (if b ≥ nblocks then scanBits ROOTDEV k i fuel (bit + 1)
        else do
          bzero ROOTDEV b
          update fun s => { s with last_alloc_hint := b }
          pure (some b) : M (Option ℕ))
        (s.released k (Bitmap.set (s.blk ROOTDEV k) (b % BPB)) log) := by
  have htest : Bitmap.test (s.blk ROOTDEV k) (i * 8 + bit) = false := by
    rw [hk, hj]
    exact hclear
  rw [scanBits, bind_of_ok (look_ok.mpr ⟨rfl, rfl⟩), if_neg (by rw [htest]; exact nofun)]
  obtain ⟨log, hlog, hrun⟩ := mark_runs (fun d => Bitmap.set d (i * 8 + bit)) (do
    let sb ← look State.sb
    let bno := (k - sb.bmapstart) * BPB + (i * 8 + bit)
    if bno ≥ sb.nblocks then scanBits ROOTDEV k i fuel (bit + 1)
    else do
      bzero ROOTDEV bno
      update fun s => { s with last_alloc_hint := bno }
      pure (some bno)) hroom hheld
  let marked := s.released k (Bitmap.set (s.blk ROOTDEV k) (i * 8 + bit)) log
  have hsb' : marked.sb = mkfsSuperblock := hsb
  refine ⟨log, hlog, hrun.trans ?_⟩
  rw [bind_of_ok (look_ok.mpr ⟨hsb', rfl⟩), block_of hk hj, ← hj]
  rfl

/-- Below nblocks the block is allocated. -/
theorem scanBits_take (i fuel bit : ℕ) (hsb : s.sb = mkfsSuperblock) (hroom : LogRoom {k} s.log)
    (hheld : (ROOTDEV, k) ∈ s.held) (hk : k = BMAPBLOCK b mkfsSuperblock)
    (hj : i * 8 + bit = b % BPB)
    (hclear : s.bit b = false) (hb : b < nblocks)
    (hfree : (ROOTDEV, b) ∉ s.held.erase (ROOTDEV, k)) :
    ∃ t, scanBits ROOTDEV k i (fuel + 1) bit s = .ok (some b, t) ∧ Took s t b := by
  obtain ⟨log, hlog, hrun⟩ := scanBits_clear i fuel bit hsb hroom hheld hk hj hclear
  let marked := s.released k (Bitmap.set (s.blk ROOTDEV k) (b % BPB)) log
  have hsize : b < FSSIZE := by
    have hnb : nblocks = 25553 := rfl
    have hfs : FSSIZE = 25600 := rfl
    omega
  obtain ⟨log', hzero⟩ := bzero_runs (s := marked) hsb hlog hsize hfree
  rw [if_neg (Nat.not_le.mpr hb), bind_of_ok hzero] at hrun
  refine ⟨_, hrun, ⟨?_, ?_⟩⟩
  · rw [← hk]
    rfl
  · rw [← hk]
    exact (blk_setBlk (s.setBlk ROOTDEV k _) b _).trans
      (congrArg (fun blk => Function.update blk b fun _ => 0) (blk_setBlk s k _))

/-- From nblocks on the scan goes on without the buffer. -/
theorem scanBits_pass (i fuel bit : ℕ) (hsb : s.sb = mkfsSuperblock) (hroom : LogRoom {k} s.log)
    (hnodup : s.held.Nodup)
    (hheld : (ROOTDEV, k) ∈ s.held) (hk : k = BMAPBLOCK b mkfsSuperblock)
    (hj : i * 8 + bit = b % BPB) (hclear : s.bit b = false) (hb : nblocks ≤ b) :
    ∃ u, LogRoom {k} u.log ∧ (ROOTDEV, k) ∉ u.held ∧
      scanBits ROOTDEV k i (fuel + 1) bit s = scanBits ROOTDEV k i fuel (bit + 1) u := by
  obtain ⟨log, hlog, hrun⟩ := scanBits_clear i fuel bit hsb hroom hheld hk hj hclear
  rw [if_pos hb] at hrun
  exact ⟨_, hlog, fun h => (hnodup.mem_erase_iff.mp h).1 rfl, hrun⟩

/-- Words of ones, or with their bits looked at one by one. -/
theorem scanWord_full (hfull : ∀ l, l < 32 → Bitmap.test (s.blk ROOTDEV k) (i * 8 + l) = true) :
    (if get (s.blk ROOTDEV k) i 4 ≠ 0xFFFFFFFF then scanBits ROOTDEV k i 32 0
      else pure none : M (Option ℕ)) s = .ok (none, s) := by
  split
  · have hskip := scanBits_skip 0 0 32 (k := k) (i := i) (s := s)
      fun l _ hl => hfull l (by omega)
    rw [Nat.zero_add] at hskip
    rw [hskip]
    rfl
  · rfl

theorem scanWords_full
    (hfull : ∀ l, i * 8 ≤ l → l < (i + 4 * fuel) * 8 → Bitmap.test (s.blk ROOTDEV k) l = true) :
    scanWords ROOTDEV k fuel i s = .ok (none, s) := by
  induction fuel generalizing i with
  | zero => rfl
  | succ fuel ih =>
    rw [scanWords, bind_of_ok (look_ok.mpr ⟨rfl, rfl⟩),
      bind_of_ok (scanWord_full fun l hl => hfull _ (by omega) (by omega))]
    exact ih fun l hl hlt => hfull l (by omega) (by omega)

/-- The word that has the first clear bit is entered. -/
theorem scanWord_enter (hk : k = BMAPBLOCK b mkfsSuperblock) (hlo : i * 8 ≤ b % BPB)
    (hhi : b % BPB < i * 8 + 32) (hclear : s.bit b = false)
    (hfull : ∀ l, i * 8 ≤ l → l < b % BPB → Bitmap.test (s.blk ROOTDEV k) l = true) :
    (if get (s.blk ROOTDEV k) i 4 ≠ 0xFFFFFFFF then scanBits ROOTDEV k i 32 0
      else pure none : M (Option ℕ)) s =
    scanBits ROOTDEV k i (i * 8 + 31 - b % BPB + 1) (b % BPB - i * 8) s := by
  rw [if_pos]
  · have hskip := scanBits_skip (i * 8 + 31 - b % BPB + 1) 0 (b % BPB - i * 8) (k := k)
      (i := i) (s := s) fun l _ hl => hfull _ (by omega) (by omega)
    rw [Nat.zero_add, show i * 8 + 31 - b % BPB + 1 + (b % BPB - i * 8) = 32 by omega] at hskip
    exact hskip
  · intro hword
    have hset : Bitmap.test (s.blk ROOTDEV k) (i * 8 + (b % BPB - i * 8)) = true :=
      word_full hword (by omega)
    rw [hk, show i * 8 + (b % BPB - i * 8) = b % BPB by omega] at hset
    unfold State.bit at hclear
    rw [hset] at hclear
    cases hclear

/-- The scan of a block up to its first clear bit, of a block number below nblocks. -/
theorem scanWords_take (fuel : ℕ) (hsb : s.sb = mkfsSuperblock) (hroom : LogRoom {k} s.log)
    (hheld : (ROOTDEV, k) ∈ s.held) (hk : k = BMAPBLOCK b mkfsSuperblock) (hlo : i * 8 ≤ b % BPB)
    (hhi : b % BPB < (i + 4 * fuel) * 8) (hclear : s.bit b = false)
    (hfull : ∀ l, i * 8 ≤ l → l < b % BPB → Bitmap.test (s.blk ROOTDEV k) l = true)
    (hb : b < nblocks) (hfree : (ROOTDEV, b) ∉ s.held.erase (ROOTDEV, k)) :
    ∃ t, scanWords ROOTDEV k fuel i s = .ok (some b, t) ∧ Took s t b := by
  induction fuel generalizing i with
  | zero => omega
  | succ fuel ih =>
    rw [scanWords, bind_of_ok (look_ok.mpr ⟨rfl, rfl⟩)]
    by_cases hin : b % BPB < i * 8 + 32
    · obtain ⟨t, ht, htook⟩ := scanBits_take i (i * 8 + 31 - b % BPB) (b % BPB - i * 8)
        hsb hroom hheld hk (by omega) hclear hb hfree
      rw [← scanWord_enter hk hlo hin hclear hfull] at ht
      rw [bind_of_ok ht]
      exact ⟨t, rfl, htook⟩
    · rw [bind_of_ok (scanWord_full fun l hl => hfull _ (by omega) (by omega))]
      exact ih (by omega) (by omega) fun l hl hlt => hfull l (by omega) hlt

/-- The scan of a block whose first clear bit is of no block below nblocks. -/
theorem scanWords_pass (fuel : ℕ) (hsb : s.sb = mkfsSuperblock) (hroom : LogRoom {k} s.log)
    (hnodup : s.held.Nodup)
    (hheld : (ROOTDEV, k) ∈ s.held) (hk : k = BMAPBLOCK b mkfsSuperblock) (hlo : i * 8 ≤ b % BPB)
    (hhi : b % BPB < (i + 4 * fuel) * 8) (hclear : s.bit b = false)
    (hfull : ∀ l, i * 8 ≤ l → l < b % BPB → Bitmap.test (s.blk ROOTDEV k) l = true)
    (hb : nblocks ≤ b) : ∃ u, (ROOTDEV, k) ∉ u.held ∧ Doomed u (scanWords ROOTDEV k fuel i s) := by
  induction fuel generalizing i with
  | zero => omega
  | succ fuel ih =>
    rw [scanWords, bind_of_ok (look_ok.mpr ⟨rfl, rfl⟩)]
    by_cases hin : b % BPB < i * 8 + 32
    · obtain ⟨u, hu, hgone, hscan⟩ := scanBits_pass i (i * 8 + 31 - b % BPB)
        (b % BPB - i * 8) hsb hroom hnodup hheld hk (by omega) hclear hb
      rw [← scanWord_enter hk hlo hin hclear hfull] at hscan
      refine ⟨u, hgone, ?_⟩
      have hrest := scanBits_doomed i (i * 8 + 31 - b % BPB) (b % BPB - i * 8 + 1) hu hgone
      rcases hrest with hnone | hpanic
      · rw [bind_of_ok (hscan.trans hnone)]
        exact scanWords_doomed hu hgone
      · rw [bind_of_error (hscan.trans hpanic)]
        exact Or.inr rfl
    · rw [bind_of_ok (scanWord_full fun l hl => hfull _ (by omega) (by omega))]
      exact ih (by omega) (by omega) fun l hl hlt => hfull l (by omega) hlt

end Blocks

section Passes

/-- bread returns with the block. -/
def Readable (s : State) (k : ℕ) : Prop := k < FSSIZE ∧ (ROOTDEV, k) ∉ s.held

def lock (s : State) (k : ℕ) : State := { s with held := (ROOTDEV, k) :: s.held }

theorem bread_lock (h : Readable s k) : bread ROOTDEV k s = .ok (s.blk ROOTDEV k, lock s k) :=
  bread_runs h.2 h.1

theorem bread_stuck (h : ¬ Readable s k) :
    bread ROOTDEV k s = .error .deadlock ∨ bread ROOTDEV k s = .error .blockRange := by
  unfold bread
  by_cases hheld : (ROOTDEV, k) ∈ s.held
  · exact Or.inl (bind_of_error (ensure_of_false (decide_eq_false (not_not.mpr hheld))))
  · have hrange : ¬ k < FSSIZE := fun hlt => h ⟨hlt, hheld⟩
    have hfirst : ensure (fun s => decide ((ROOTDEV, k) ∉ s.held)) Halt.deadlock s = .ok ((), s) :=
      ensure_of_true (decide_eq_true hheld)
    rw [bind_of_ok hfirst]
    exact Or.inr (bind_of_error (ensure_of_false (decide_eq_false hrange)))

theorem bit_block {a l : ℕ} (hl : l < BPB) :
    s.bit (a * BPB + l) = Bitmap.test (s.blk ROOTDEV (45 + a)) l := by
  have hbits : BPB = 16384 := rfl
  unfold State.bit
  rw [BMAPBLOCK_mkfs]
  rw [hbits] at hl ⊢
  rw [show (a * 16384 + l) / 16384 + 45 = 45 + a by omega,
    show (a * 16384 + l) % 16384 = l by omega]

/-- A block of ones is passed. -/
theorem scanBlocks_skip {a : ℕ} (hfull : Full s (a * BPB) ((a + 1) * BPB))
    (hread : Readable s (45 + a)) :
    scanBlocks ROOTDEV (fuel + 1) (45 + a) s = scanBlocks ROOTDEV fuel (45 + (a + 1)) s := by
  have hwords : (0 + 4 * (BSIZE / 4)) * 8 = BPB := rfl
  have hscan : scanWords ROOTDEV (45 + a) (BSIZE / 4) 0 (lock s (45 + a)) =
      .ok (none, lock s (45 + a)) := by
    refine scanWords_full fun l _ hl => ?_
    rw [hwords] at hl
    have hend : a * BPB + l < (a + 1) * BPB := by
      rw [Nat.succ_mul]
      exact Nat.add_lt_add_left hl _
    rw [← hfull (a * BPB + l) (Nat.le_add_right _ _) hend, bit_block hl]
    rfl
  have hrelease : brelse ROOTDEV (45 + a) (lock s (45 + a)) = .ok ((), s) := by
    refine brelse_ok.mpr ⟨List.mem_cons_self, ?_⟩
    unfold lock
    dsimp only
    rw [List.erase_cons_head]
  rw [scanBlocks, bind_of_ok (bread_lock hread), bind_of_ok hscan]
  exact bind_of_ok hrelease

/-- Blocks of ones are passed, up to the one of `a`. -/
theorem scanBlocks_reach (fuel : ℕ) {a₀ a : ℕ} (hle : a₀ ≤ a) (hfull : Full s (a₀ * BPB) (a * BPB))
    (hread : ∀ k, 45 + a₀ ≤ k → k < 45 + a → Readable s k) :
    scanBlocks ROOTDEV (a - a₀ + fuel) (45 + a₀) s = scanBlocks ROOTDEV fuel (45 + a) s := by
  induction hm : a - a₀ generalizing a₀ with
  | zero =>
    have he : a₀ = a := by omega
    rw [he, Nat.zero_add]
  | succ m ih =>
    rw [show m + 1 + fuel = m + fuel + 1 by omega]
    rw [scanBlocks_skip (fun b hlo hhi => hfull b hlo ?_) (hread _ le_rfl (by omega))]
    · have hfirst : a₀ * BPB ≤ (a₀ + 1) * BPB := Nat.mul_le_mul_right _ (Nat.le_succ a₀)
      exact ih (by omega) (fun b hlo hhi => hfull b (hfirst.trans hlo) hhi)
        (fun k hlo hhi => hread k (by omega) hhi) (by omega)
    · have hmul : (a₀ + 1) * BPB ≤ a * BPB := Nat.mul_le_mul_right _ (by omega)
      omega

variable {a₀ a₁ : ℕ}

theorem scanBlocks_full (hle : a₀ ≤ a₁) (hfull : Full s (a₀ * BPB) (a₁ * BPB))
    (hread : ∀ k, 45 + a₀ ≤ k → k < 45 + a₁ → Readable s k) :
    scanBlocks ROOTDEV (a₁ - a₀) (45 + a₀) s = .ok (none, s) :=
  scanBlocks_reach 0 hle hfull hread

/-- The first clear bit of a pass. -/
structure First (s : State) (a₀ a₁ b : ℕ) : Prop where
  low : a₀ * BPB ≤ b
  high : b < a₁ * BPB
  before : Full s (a₀ * BPB) b
  clear : s.bit b = false

theorem First.block (h : First s a₀ a₁ b) : a₀ ≤ b / BPB ∧ b / BPB < a₁ :=
  ⟨(Nat.le_div_iff_mul_le (by decide)).mpr h.low, (Nat.div_lt_iff_lt_mul (by decide)).mpr h.high⟩

theorem bmapblock_eq (b : ℕ) : BMAPBLOCK b mkfsSuperblock = 45 + b / BPB := Nat.add_comm ..

/-- The pass comes to the block that has the first clear bit. -/
theorem First.reach (h : First s a₀ a₁ b)
    (hread : ∀ k, 45 + a₀ ≤ k → k < 45 + b / BPB → Readable s k) :
    scanBlocks ROOTDEV (a₁ - a₀) (45 + a₀) s =
      scanBlocks ROOTDEV (a₁ - b / BPB - 1 + 1) (BMAPBLOCK b mkfsSuperblock) s := by
  obtain ⟨hlow, hhigh⟩ := h.block
  have hstart : b / BPB * BPB ≤ b := Nat.div_mul_le_self ..
  have hreach := scanBlocks_reach (a₁ - b / BPB - 1 + 1) hlow
    (fun c hlo hhi => h.before c hlo (by omega)) hread
  rw [show b / BPB - a₀ + (a₁ - b / BPB - 1 + 1) = a₁ - a₀ by omega] at hreach
  rw [hreach, bmapblock_eq]

/-- The bits of its block before the first clear one. -/
theorem First.words (h : First s a₀ a₁ b) {l : ℕ} (hl : l < b % BPB) :
    Bitmap.test (s.blk ROOTDEV (BMAPBLOCK b mkfsSuperblock)) l = true := by
  have hmod : b % BPB < BPB := Nat.mod_lt _ (by decide)
  have hsplit : b / BPB * BPB + b % BPB = b := Nat.div_add_mod' ..
  have hlow := Nat.mul_le_mul_right BPB h.block.1
  rw [bmapblock_eq, ← bit_block (hl.trans hmod)]
  exact h.before _ (by omega) (by omega)

theorem First.take (h : First s a₀ a₁ b) (hprep : Prepared s) (hb : b < nblocks)
    (hread : ∀ k, 45 + a₀ ≤ k → k ≤ 45 + b / BPB → Readable s k) :
    ∃ t, scanBlocks ROOTDEV (a₁ - a₀) (45 + a₀) s = .ok (some b, t) ∧
      Took (lock s (BMAPBLOCK b mkfsSuperblock)) t b := by
  have hwords : (0 + 4 * (BSIZE / 4)) * 8 = BPB := rfl
  have hmod : b % BPB < BPB := Nat.mod_lt _ (by decide)
  have hlast := hread (45 + b / BPB) (by have := h.block.1; omega) le_rfl
  rw [← bmapblock_eq] at hlast
  set k := BMAPBLOCK b mkfsSuperblock with hk
  have hfree : (ROOTDEV, b) ∉ (lock s k).held.erase (ROOTDEV, k) := by
    unfold lock
    rw [List.erase_cons_head]
    exact hprep.unlocked hb h.clear
  obtain ⟨t, ht, htook⟩ := scanWords_take (s := lock s k) (i := 0) (BSIZE / 4) hprep.sb
    (hprep.room k) List.mem_cons_self hk (by omega) (by omega) h.clear (fun l _ hl => h.words hl) hb
    hfree
  refine ⟨t, ?_, htook⟩
  rw [h.reach fun k hlo hhi => hread k hlo hhi.le, ← hk, scanBlocks, bind_of_ok (bread_lock hlast),
    bind_of_ok ht]
  rfl

/-- A pass that comes to a block that it cannot read. -/
theorem scanBlocks_stuck {a : ℕ} (hlo : a₀ ≤ a) (hhi : a < a₁) (hfull : Full s (a₀ * BPB) (a * BPB))
    (hstuck : ¬ Readable s (45 + a)) :
    ∃ e, scanBlocks ROOTDEV (a₁ - a₀) (45 + a₀) s = .error e ∧ e ≠ .outOfBlocks := by
  classical
  have hex : ∃ m, a₀ ≤ m ∧ ¬ Readable s (45 + m) := ⟨a, hlo, hstuck⟩
  obtain ⟨hm, hfirst⟩ := Nat.find_spec hex
  have hma : Nat.find hex ≤ a := Nat.find_min' hex ⟨hlo, hstuck⟩
  have hbefore : ∀ k, 45 + a₀ ≤ k → k < 45 + Nat.find hex → Readable s k := by
    intro k hk hlt
    by_contra hnot
    have hmin := Nat.find_min hex (m := k - 45) (by omega)
    refine hmin ⟨by omega, ?_⟩
    rw [show 45 + (k - 45) = k by omega]
    exact hnot
  generalize Nat.find hex = m at hm hfirst hma hbefore
  have hreach := scanBlocks_reach (a₁ - m - 1 + 1) hm
    (fun c hc hc' => hfull c hc (hc'.trans_le (Nat.mul_le_mul_right _ hma))) hbefore
  rw [show m - a₀ + (a₁ - m - 1 + 1) = a₁ - a₀ by omega] at hreach
  rw [hreach, scanBlocks]
  rcases bread_stuck hfirst with hdead | hrange
  · exact ⟨_, bind_of_error hdead, nofun⟩
  · exact ⟨_, bind_of_error hrange, nofun⟩

/-- When the first clear bit is of no block below nblocks, brelse panics. -/
theorem First.fails (h : First s a₀ a₁ b) (hprep : Prepared s) (hb : nblocks ≤ b) :
    ∃ e, scanBlocks ROOTDEV (a₁ - a₀) (45 + a₀) s = .error e ∧ e ≠ .outOfBlocks := by
  obtain ⟨hlow, hhigh⟩ := h.block
  by_cases hall : ∀ k, 45 + a₀ ≤ k → k ≤ 45 + b / BPB → Readable s k
  · have hwords : (0 + 4 * (BSIZE / 4)) * 8 = BPB := rfl
    have hmod : b % BPB < BPB := Nat.mod_lt _ (by decide)
    have hlast := hall (45 + b / BPB) (by omega) le_rfl
    rw [← bmapblock_eq] at hlast
    set k := BMAPBLOCK b mkfsSuperblock with hk
    have hnodup : (lock s k).held.Nodup := List.nodup_cons.mpr ⟨hlast.2, hprep.nodup⟩
    obtain ⟨u, hgone, hdoomed⟩ := scanWords_pass (s := lock s k) (i := 0) (BSIZE / 4) hprep.sb
      (hprep.room k) hnodup List.mem_cons_self hk (by omega) (by omega) h.clear
      (fun l _ hl => h.words hl) hb
    refine ⟨.brelse, ?_, nofun⟩
    rw [h.reach fun k hlo hhi => hall k hlo hhi.le, ← hk, scanBlocks, bind_of_ok (bread_lock hlast)]
    rcases hdoomed with hnone | hpanic
    · rw [bind_of_ok hnone]
      exact bind_of_error (bind_of_error (ensure_of_false (decide_eq_false hgone)))
    · exact bind_of_error hpanic
  · obtain ⟨k, hk⟩ := not_forall.mp hall
    obtain ⟨hlo, hk⟩ := not_forall.mp hk
    obtain ⟨hhi, hstuck⟩ := not_forall.mp hk
    have hstart : b / BPB * BPB ≤ b := Nat.div_mul_le_self ..
    have hmul : (k - 45) * BPB ≤ b / BPB * BPB := Nat.mul_le_mul_right _ (by omega)
    refine scanBlocks_stuck (a := k - 45) (by omega) (by omega)
      (fun c hc hc' => h.before c hc (by omega)) ?_
    rw [show 45 + (k - 45) = k by omega]
    exact hstuck

/-- The block numbers of a pass over the bitmap blocks `a₀` to `a₁ - 1`. -/
def pass (a₀ a₁ : ℕ) : List ℕ := List.range' (a₀ * BPB) (a₁ * BPB - a₀ * BPB)

theorem First.of_find (h : (pass a₀ a₁).find? (fun b => !s.bit b) = some b) : First s a₀ a₁ b := by
  obtain ⟨hclear, hmem, hbefore⟩ := List.find?_range'_eq_some.mp h
  rw [List.mem_range'_1] at hmem
  refine ⟨hmem.1, by omega, fun c hlo hhi => ?_, by simpa using hclear⟩
  simpa using hbefore c hlo hhi

theorem full_of_find (h : (pass a₀ a₁).find? (fun b => !s.bit b) = none) :
    Full s (a₀ * BPB) (a₁ * BPB) := by
  intro c hlo hhi
  have hset := List.find?_eq_none.mp h c (List.mem_range'_1.mpr ⟨hlo, by omega⟩)
  simpa using hset

end Passes

section Decision

/-- The block numbers in the order in which balloc comes to their bits. -/
def scanOrder (hint : ℕ) : List ℕ := pass (hint / BPB) nbitmap ++ pass 0 (hint / BPB)

def State.firstClear (s : State) : Option ℕ := (scanOrder s.last_alloc_hint).find? fun b => !s.bit b

/-- To zero block `b` takes no bit of the bitmap away, nor the one of `b`. -/
def Harmless (s : State) (b : ℕ) : Prop :=
  ∀ c, c < nbitmap * BPB → BMAPBLOCK c mkfsSuperblock = b → c ≠ b ∧ s.bit c = false

/-- The first clear bit is of a block that balloc may take. Where there is none, no block is
read as a bitmap block that cannot be read. -/
def FirstFits (s : State) : Prop :=
  match s.firstClear with
  | some b => b < nblocks ∧ Harmless s b
  | none => ∀ k, 45 + nbitmap ≤ k → k < 45 + s.last_alloc_hint / BPB → Readable s k

/-- What balloc returns was free, and now it is not, and is zeroed; the buffer that balloc
locked is released. -/
structure Allocated (s t : State) (b : ℕ) : Prop where
  bound : b < s.sb.size
  clear : s.bit b = false
  bits : ∀ c, c < nbitmap * BPB → t.bit c = (decide (c = b) || s.bit c)
  zeroed : t.blk ROOTDEV b = fun _ => 0
  others : ∀ k, k ≠ b → k ≠ BMAPBLOCK b mkfsSuperblock → t.blk ROOTDEV k = s.blk ROOTDEV k
  released : t.held = s.held

/-- balloc allocates a block, or there is none. -/
def Serves (s : State) : Prop :=
  match balloc ROOTDEV s with
  | .ok (b, t) => Allocated s t b
  | .error .outOfBlocks => ∀ b, b < s.sb.size → s.bit b = true
  | .error _ => False

theorem Prepared.readable (h : Prepared s) (hk : k < 45 + nbitmap) : Readable s k := by
  have hbitmap : nbitmap = 2 := rfl
  have hmeta : nmeta = 47 := rfl
  have hfs : FSSIZE = 25600 := rfl
  refine ⟨by omega, fun hheld => ?_⟩
  have hdata := (h.locked k hheld).1
  omega

theorem balloc_eq (hsb : s.sb = mkfsSuperblock) : balloc ROOTDEV s = (do
    match ← scanBlocks ROOTDEV (nbitmap - s.last_alloc_hint / BPB)
      (45 + s.last_alloc_hint / BPB) with
    | some bno => pure bno
    | none => do
      match ← scanBlocks ROOTDEV (s.last_alloc_hint / BPB - 0) (45 + 0) with
      | some bno => pure bno
      | none => halt .outOfBlocks : M ℕ) s := by
  have hend : min (mkfsSuperblock.bmapstart + mkfsSuperblock.nblocks / BPB + 1)
      (mkfsSuperblock.bmapstart + mkfsSuperblock.size / BPB + 1) = 47 := rfl
  have hstart : mkfsSuperblock.bmapstart = 45 := rfl
  have hbitmap : nbitmap = 2 := rfl
  unfold balloc
  rw [bind_of_ok (look_ok.mpr ⟨hsb, rfl⟩), bind_of_ok (look_ok.mpr ⟨rfl, rfl⟩), hend, hstart]
  rw [show 47 - (45 + s.last_alloc_hint / BPB) = nbitmap - s.last_alloc_hint / BPB by omega]
  rfl

/-- The first pass over blocks of ones. -/
theorem Prepared.passes {a : ℕ} (h : Prepared s) (hfull : Full s (a * BPB) (nbitmap * BPB)) :
    scanBlocks ROOTDEV (nbitmap - a) (45 + a) s = .ok (none, s) := by
  by_cases ha : a ≤ nbitmap
  · exact scanBlocks_full ha hfull fun k _ hhi => h.readable hhi
  · rw [Nat.sub_eq_zero_of_le (by omega)]
    rfl

theorem bitmapBlock_lt (hb : b < nblocks) : b / BPB < nbitmap := by
  have hnb : nblocks = 25553 := rfl
  have hbits : BPB = 16384 := rfl
  have hbitmap : nbitmap = 2 := rfl
  rw [hbits]
  omega

/-- A first clear bit of a block below nblocks: the block is allocated. -/
theorem balloc_takes (h : Prepared s) (hfirst : s.firstClear = some b) (hb : b < nblocks) :
    ∃ t, balloc ROOTDEV s = .ok (b, t) ∧ s.bit b = false ∧
      Took (lock s (BMAPBLOCK b mkfsSuperblock)) t b := by
  have hblock := bitmapBlock_lt hb
  unfold State.firstClear scanOrder at hfirst
  rw [List.find?_append] at hfirst
  rw [balloc_eq h.sb]
  generalize s.last_alloc_hint / BPB = a at hfirst ⊢
  cases hpass : (pass a nbitmap).find? fun b => !s.bit b with
  | some c =>
    rw [hpass, Option.some_or] at hfirst
    obtain rfl : c = b := Option.some.inj hfirst
    have hc := First.of_find hpass
    obtain ⟨t, ht, htook⟩ := hc.take h hb fun k _ hhi => h.readable (by omega)
    rw [bind_of_ok ht]
    exact ⟨t, rfl, hc.clear, htook⟩
  | none =>
    rw [hpass, Option.none_or] at hfirst
    have hc : First s 0 a b := First.of_find hfirst
    obtain ⟨t, ht, htook⟩ := hc.take h hb fun k _ hhi => h.readable (by omega)
    rw [bind_of_ok (h.passes (full_of_find hpass))]
    dsimp only
    rw [bind_of_ok ht]
    exact ⟨t, rfl, hc.clear, htook⟩

/-- A first clear bit of no such block is a panic, and not for want of blocks. -/
theorem balloc_fails (h : Prepared s) (hfirst : s.firstClear = some b) (hb : nblocks ≤ b) :
    ∃ e, balloc ROOTDEV s = .error e ∧ e ≠ .outOfBlocks := by
  unfold State.firstClear scanOrder at hfirst
  rw [List.find?_append] at hfirst
  rw [balloc_eq h.sb]
  generalize s.last_alloc_hint / BPB = a at hfirst ⊢
  cases hpass : (pass a nbitmap).find? fun b => !s.bit b with
  | some c =>
    rw [hpass, Option.some_or] at hfirst
    obtain rfl : c = b := Option.some.inj hfirst
    obtain ⟨e, he, hne⟩ := (First.of_find hpass).fails h hb
    exact ⟨e, bind_of_error he, hne⟩
  | none =>
    rw [hpass, Option.none_or] at hfirst
    have hc : First s 0 a b := First.of_find hfirst
    obtain ⟨e, he, hne⟩ := hc.fails h hb
    rw [bind_of_ok (h.passes (full_of_find hpass))]
    exact ⟨e, bind_of_error he, hne⟩

/-- Without a clear bit balloc gives up, if it can read what it takes for the bitmap. -/
theorem balloc_none (h : Prepared s) (hfirst : s.firstClear = none) :
    (∀ b, b < nbitmap * BPB → s.bit b = true) ∧
      ((∀ k, 45 + nbitmap ≤ k → k < 45 + s.last_alloc_hint / BPB → Readable s k) →
        balloc ROOTDEV s = .error .outOfBlocks) ∧
      (¬ (∀ k, 45 + nbitmap ≤ k → k < 45 + s.last_alloc_hint / BPB → Readable s k) →
        ∃ e, balloc ROOTDEV s = .error e ∧ e ≠ .outOfBlocks) := by
  unfold State.firstClear scanOrder at hfirst
  rw [List.find?_append] at hfirst
  rw [balloc_eq h.sb]
  generalize s.last_alloc_hint / BPB = a at hfirst ⊢
  obtain ⟨hpass, hrest⟩ := Option.or_eq_none_iff.mp hfirst
  have hfull := full_of_find hpass
  have hfull' : Full s (0 * BPB) (a * BPB) := full_of_find hrest
  rw [bind_of_ok (h.passes hfull)]
  dsimp only
  refine ⟨fun b hb => ?_, fun hread => ?_, fun hread => ?_⟩
  · by_cases hlow : b < a * BPB
    · exact hfull' b (by omega) hlow
    · exact hfull b (by omega) hb
  · have hscan : scanBlocks ROOTDEV (a - 0) (45 + 0) s = .ok (none, s) := by
      refine scanBlocks_full (Nat.zero_le _) hfull' fun k hlo hhi => ?_
      by_cases hk : k < 45 + nbitmap
      · exact h.readable hk
      · exact hread k (by omega) hhi
    rw [bind_of_ok hscan]
    rfl
  · obtain ⟨k, hk⟩ := not_forall.mp hread
    obtain ⟨hlo, hk⟩ := not_forall.mp hk
    obtain ⟨hhi, hstuck⟩ := not_forall.mp hk
    have hmul : (k - 45) * BPB ≤ a * BPB := Nat.mul_le_mul_right _ (by omega)
    have hstuck' : ¬ Readable s (45 + (k - 45)) := by
      rw [show 45 + (k - 45) = k by omega]
      exact hstuck
    obtain ⟨e, he, hne⟩ : ∃ e, scanBlocks ROOTDEV (a - 0) (45 + 0) s = .error e ∧
      e ≠ .outOfBlocks :=
      scanBlocks_stuck (a := k - 45) (Nat.zero_le _) (by omega)
        (fun c hc hc' => hfull' c hc (by omega)) hstuck'
    exact ⟨e, bind_of_error he, hne⟩

/-- Zeroing the block keeps what setting its bit made, unless the block is of the bitmap. -/
theorem Took.allocated_iff (h : Took (lock s (BMAPBLOCK b mkfsSuperblock)) t b)
    (hsb : s.sb = mkfsSuperblock) (hb : b < nblocks) (hclear : s.bit b = false) :
    Allocated s t b ↔ Harmless s b := by
  have hnb : nblocks = 25553 := rfl
  have hbit : ∀ c, t.bit c = if BMAPBLOCK c mkfsSuperblock = b then false
      else decide (c = b) || s.bit c := by
    intro c
    have hblk := h.blk
    unfold State.bit
    rw [hblk]
    by_cases hc : BMAPBLOCK c mkfsSuperblock = b
    · rw [if_pos hc, hc, Function.update_self]
      unfold Bitmap.test
      exact Nat.zero_testBit _
    · rw [if_neg hc, Function.update_of_ne hc]
      by_cases hk : BMAPBLOCK c mkfsSuperblock = BMAPBLOCK b mkfsSuperblock
      · rw [hk, Function.update_self, Bitmap.test_set]
        have hsame : c % BPB = b % BPB ↔ c = b := by
          have hbits : BPB = 16384 := rfl
          rw [BMAPBLOCK_mkfs, BMAPBLOCK_mkfs] at hk
          rw [hbits]
          omega
        rw [decide_eq_decide.mpr hsame]
        rfl
      · have hne : c ≠ b := fun he => hk (by rw [he])
        rw [Function.update_of_ne hk, decide_eq_false hne, Bool.false_or]
        rfl
  constructor
  · intro halloc c hc hcb
    have hbits := halloc.bits c hc
    rw [hbit c, if_pos hcb] at hbits
    obtain ⟨hne, hfree⟩ := Bool.or_eq_false_iff.mp hbits.symm
    exact ⟨of_decide_eq_false hne, hfree⟩
  · intro hharm
    refine ⟨?_, hclear, fun c hc => ?_, ?_, fun k hk hk' => ?_, ?_⟩
    · rw [hsb]
      have hsize : mkfsSuperblock.size = 25600 := rfl
      omega
    · rw [hbit c]
      split
      · rename_i hcb
        obtain ⟨hne, hfree⟩ := hharm c hc hcb
        rw [decide_eq_false hne, hfree]
        rfl
      · rfl
    · rw [h.blk, Function.update_self]
    · rw [h.blk, Function.update_of_ne hk, Function.update_of_ne hk']
      rfl
    · rw [h.held]
      exact List.erase_cons_head _ _

theorem serves_of_ok (ht : balloc ROOTDEV s = .ok (b, t)) : Serves s ↔ Allocated s t b := by
  unfold Serves
  rw [ht]

theorem serves_of_none (h : balloc ROOTDEV s = .error .outOfBlocks) :
    Serves s ↔ ∀ b, b < s.sb.size → s.bit b = true := by
  unfold Serves
  rw [h]

theorem not_serves {e : Halt} (he : balloc ROOTDEV s = .error e) (hne : e ≠ .outOfBlocks) :
    ¬ Serves s := by
  unfold Serves
  rw [he]
  cases e <;> first | exact id | exact absurd rfl hne

/-- balloc does its work exactly when the first clear bit that it comes to fits. -/
theorem serves_iff (h : Prepared s) : Serves s ↔ FirstFits s := by
  unfold FirstFits
  cases hfirst : s.firstClear with
  | some b =>
    dsimp only
    by_cases hb : b < nblocks
    · obtain ⟨t, ht, hclear, htook⟩ := balloc_takes h hfirst hb
      rw [serves_of_ok ht, and_iff_right hb]
      exact htook.allocated_iff h.sb hb hclear
    · obtain ⟨e, he, hne⟩ := balloc_fails h hfirst (Nat.le_of_not_lt hb)
      exact iff_of_false (not_serves he hne) fun hfits => hb hfits.1
  | none =>
    dsimp only
    obtain ⟨hset, hgives, hstuck⟩ := balloc_none h hfirst
    by_cases hread : ∀ k, 45 + nbitmap ≤ k → k < 45 + s.last_alloc_hint / BPB → Readable s k
    · have hsize : ∀ b, b < s.sb.size → s.bit b = true := by
        intro b hb
        rw [h.sb] at hb
        exact hset b (Nat.lt_of_lt_of_le hb (by decide))
      exact iff_of_true ((serves_of_none (hgives hread)).mpr hsize) hread
    · obtain ⟨e, he, hne⟩ := hstuck hread
      exact iff_of_false (not_serves he hne) hread

/-- balloc on a file system with one file. -/
theorem oneFile_prepared : Prepared oneFile where
  sb := rfl
  nodup := List.nodup_nil
  locked := fun _ h => absurd h List.not_mem_nil
  begun := by decide
  header := by decide
  disk := by decide

theorem serves_iff_oneFile : Serves oneFile ↔ FirstFits oneFile := serves_iff oneFile_prepared

/-- All blocks below nblocks are in use; the bits behind are as mkfs leaves them. -/
def nearlyFull : State :=
  { oneFile with
    blk := fun _ b i =>
      if b = 45 then 255
      else if b = 46 then if i < 1146 then 255 else if i = 1146 then 1 else 0
      else 0 }

theorem nearlyFull_prepared : Prepared nearlyFull :=
  ⟨rfl, List.nodup_nil, fun _ h => absurd h List.not_mem_nil, by decide, by decide, by decide⟩

/-- The first clear bit is that of block 25553: balloc sets it and panics in brelse. -/
theorem not_always_serves : ¬ ∀ s, Prepared s → Serves s := by
  obtain ⟨s, hprep, hpanic⟩ : ∃ s, Prepared s ∧ (match balloc ROOTDEV s with
      | .error .brelse => true
      | _ => false) = true := ⟨nearlyFull, nearlyFull_prepared, by decide +kernel⟩
  intro h
  have hserves := h s hprep
  unfold Serves at hserves
  split at hserves
  · rename_i hrun
    rw [hrun] at hpanic
    cases hpanic
  · rename_i hrun
    rw [hrun] at hpanic
    cases hpanic
  · exact hserves

end Decision

end NorthOS.Fs
