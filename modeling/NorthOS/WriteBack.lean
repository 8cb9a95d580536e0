import NorthOS.InodeOps

/-!
A file that is written, dropped from the inode cache and loaded again. Up to the
single-indirect blocks what was written is there again; the double-indirect entry is
not part of what iupdate writes and ilock reads, so nothing behind those blocks is.
-/
namespace NorthOS.Fs

open LittleEndian Halting Comp

/-- Slot `i` holds the regular file `n` of a file system whose inodes are on the disk. -/
structure RegularFile (s : State) (v : Inos) (i n : ℕ) : Prop where
  wf : Wf s v
  synced : Synced s v
  loaded : Loaded s i n
  type : (v n).type = T_FILE
  mapped : ∀ o, o < (v n).size → o < nearBytes → blocks v s.vol (n, placeOf (o / BSIZE)) ≠ 0

/-- Some later state with the same disk and no operation in progress. Inode `n` has left
the cache, which has room for it; the inodes that are in the cache are those of the
disk. -/
structure Recycled (n : ℕ) (t u : State) : Prop where
  sb : u.sb = t.sb
  blk : u.blk = t.blk
  held : u.held = []
  outstanding : u.log.outstanding = 0
  past : u.past = 0
  gone : ∀ j, j < NINODE → 0 < (u.icache j).ref → (u.icache j).inum ≠ n
  room : ∃ j, j < NINODE ∧ (u.icache j).ref = 0
  unlocked : ∀ j, (u.icache j).ref = 0 → (u.icache j).locked = false
  slots : ∀ j, j < NINODE → 0 < (u.icache j).ref →
    (u.icache j).dev = ROOTDEV ∧ 0 < (u.icache j).inum ∧ (u.icache j).inum < maxInodes
  devs : ∀ j, j < NINODE → (u.icache j).dev = 0 ∨ (u.icache j).dev = ROOTDEV
  unique : ∀ j k, j < NINODE → k < NINODE → 0 < (u.icache j).ref → 0 < (u.icache k).ref →
    (u.icache j).inum = (u.icache k).inum → j = k
  cached : ∀ j m, Loaded u j m → (u.icache j).ino = t.vol.ino m

/-- Loaded again in whatever later cache, the file has the bytes of `src` from `off` on,
its old bytes elsewhere, and the size that goes with them. -/
def Survives (n off m : ℕ) (src : Bytes) (s : State) (v : Inos) (t : State) : Prop :=
  ∀ u, Recycled n t u → ∃ j u₁ u₂, iget ROOTDEV n u = .ok (j, u₁) ∧ ilock j u₁ = .ok ((), u₂) ∧
    (u₂.icache j).type = T_FILE ∧ (u₂.icache j).size = max (v n).size (off + m) ∧
    (∃ d w, readi j off m u₂ = .ok ((m, d), w) ∧ ∀ k, k < m → d k = src k) ∧
    ∀ o, o < (v n).size → o < off ∨ off + m ≤ o →
      ∃ d w, readi j o 1 u₂ = .ok ((1, d), w) ∧ bytes v s.vol n o = some (d 0)

variable {i n j off m : ℕ} {s t u : State} {v v' : Inos} {src : Bytes}

section Near

/-- A cache that agrees with a disk that has the logical inodes. -/
theorem Recycled.wf (hu : Recycled n t u) (h : Wf t v) (hs : Synced t v) : Wf u v := by
  have hvol : u.vol = t.vol := vol_congr hu.blk
  refine ⟨hu.sb.trans h.sb, by rw [hvol]; exact h.word,
    hu.past, by rw [hu.held]; exact List.nodup_nil,
    h.outside, h.inRange, h.free, by rw [hvol]; exact h.reserved, by rw [hvol]; exact h.owned,
    hu.slots, hu.devs, hu.unique, ?_, ?_⟩
  · intro j k hl
    have hlt : k < maxInodes := by
      rw [← hl.inum]
      exact (hu.slots j hl.slot hl.ref).2.2
    rw [hu.cached j k hl]
    exact hs k hlt
  · intro k hk _
    rw [hvol]
    exact hs k hk

/-- iget and ilock of an inode that is not in the cache. -/
theorem Recycled.load (hu : Recycled n t u) (h : Wf u v) (hpos : 0 < n) (hlt : n < maxInodes)
    (htype : (v n).type ≠ 0) :
    ∃ j u₁ u₂, iget ROOTDEV n u = .ok (j, u₁) ∧ ilock j u₁ = .ok ((), u₂) ∧ Wf u₂ v ∧
      u₂.vol = u.vol ∧ u₂.held = [] ∧ Loaded u₂ j n := by
  have hno : ∀ k, k < NINODE → ¬ Holds u.icache ROOTDEV n k :=
    fun k hk hh => hu.gone k hk hh.1 hh.2.2
  obtain ⟨j, hget⟩ := iget_unused hno hu.room
  obtain ⟨hj, ⟨hh, _⟩ | ⟨_, href, _⟩⟩ := iget_cases hget
  · exact absurd hh (hno j (iget_cases hget).1)
  set u₁ := u.setSlot j fun ip => ip.taken ROOTDEV n with hu₁
  have hwf₁ : Wf u₁ v := h.take hj hpos hlt hno href
  have hslot : u₁.icache j = (u.icache j).taken ROOTDEV n := setSlot_self ..
  have hinum : (u₁.icache j).inum = n := by rw [hslot]; rfl
  have href₁ : 0 < (u₁.icache j).ref := by rw [hslot]; exact Nat.one_pos
  have hunlocked : (u₁.icache j).locked = false := by
    rw [hslot]
    exact hu.unlocked j href
  have hvalid : (u₁.icache j).valid = false := by rw [hslot]; rfl
  have hheld : u₁.held = [] := hu.held
  have hends := ilock_ends hwf₁ hheld hj fun _ => by rw [hinum]; exact htype
  have hrun := ilock_load href₁ hunlocked hvalid hheld (by rw [hinum]; exact hwf₁.iblock_lt hlt)
  split at hrun
  · exact absurd rfl (hends.of_error hrun)
  · obtain ⟨_, hwf₂, hcache, hl, _⟩ := hends.of_ok hrun
    exact ⟨j, u₁, _, hget, hrun, hwf₂, hcache.vol, hcache.held.trans hheld,
      ⟨hl.slot, hl.ref, hl.valid, hl.inum.trans hinum⟩⟩

theorem Loaded.ino_eq (h : Wf s v) (hl : Loaded s i n) :
    (s.icache i).type = (v n).type ∧ (s.icache i).size = (v n).size := by
  rw [← h.cached i n hl]
  exact ⟨rfl, rfl⟩

/-- writei leaves a regular file that ends in front of the double-indirect blocks. -/
theorem RegularFile.writei (h : RegularFile s v i n) (hoff : off ≤ (v n).size)
    (hnear : max (v n).size (off + m) ≤ nearBytes) {r : ℤ}
    (hrun : writei i src off m s = .ok (r, t)) :
    r = m ∧ ∃ v', RegularFile t v' i n ∧ Wrote n off m src v s.vol v' t.vol ∧
      (v' n).size = max (v n).size (off + m) := by
  have htype : (v n).type ≠ 0 := by
    rw [h.type]
    decide
  have hdev : (v n).type ≠ T_DEV := by
    rw [h.type]
    decide
  have hnear' := nearBytes_eq
  obtain ⟨hr, v', hw⟩ := writei_spec h.wf h.loaded htype hdev hoff (by omega) hrun
  have hmap : Mapped v s.vol n := fun o ho => h.mapped o ho (by omega)
  have hnode : (v' n).size = max (v n).size (off + m) := by rw [hw.node]
  refine ⟨hr, v', ⟨hw.wf, hw.synced h.synced hmap, hw.steady.loaded.mpr h.loaded, ?_, ?_⟩,
    hw.wrote, hnode⟩
  · rw [hw.node]
    exact h.type
  · intro o ho _ hzero
    rw [hnode] at ho
    have hnone := bytes_none.mpr hzero
    by_cases hin : off ≤ o ∧ o < off + m
    · rw [hw.wrote.inside o hin.1 hin.2] at hnone
      cases hnone
    · have hold := h.mapped o (by omega) (by omega)
      cases hbyte : bytes v s.vol n o with
      | none => exact hold (bytes_none.mp hbyte)
      | some x =>
        rw [hw.wrote.outside o x (by omega) hbyte] at hnone
        cases hnone

/-- What was written into a file survives if the file ends in front of the
double-indirect blocks. -/
theorem survives_of_wrote (h : RegularFile s v i n) (h' : RegularFile t v' j n)
    (hw : Wrote n off m src v s.vol v' t.vol) (hnode : (v' n).size = max (v n).size (off + m))
    (hnear : max (v n).size (off + m) ≤ nearBytes) : Survives n off m src s v t := by
  have hnear' := nearBytes_eq
  obtain ⟨hword, _⟩ := small_lt
  intro u hu
  have hwf := hu.wf h'.wf h'.synced
  obtain ⟨hslot, hpos, hlt⟩ := h.wf.slots i h.loaded.slot h.loaded.ref
  rw [h.loaded.inum] at hpos hlt
  obtain ⟨j, u₁, u₂, hget, hlock, hwf₂, hvol₂, hheld₂, hl₂⟩ :=
    hu.load hwf hpos hlt (by rw [h'.type]; decide)
  have hvol : u₂.vol = t.vol := hvol₂.trans (vol_congr hu.blk)
  obtain ⟨hty, hsz⟩ := Loaded.ino_eq hwf₂ hl₂
  have hmap₂ : Mapped v' u₂.vol n := by
    rw [hvol]
    exact fun o ho => h'.mapped o ho (by omega)
  have hread : ∀ o c, o + c ≤ max (v n).size (off + m) → ∃ d,
      readi j o c u₂ = .ok (((c : ℤ), d), u₂) ∧ ∀ k, k < c → d k = byteAt v' t.vol n (o + k) := by
    intro o c hoc
    obtain ⟨d, hd, hvalue⟩ := readi_mapped hwf₂ hl₂ hheld₂ (by rw [h'.type]; decide)
      (fun k _ hk _ => hmap₂ k hk) (by rw [hnode]; omega : o ≤ (v' n).size)
      (by omega : o + c < 2 ^ 32)
    have hlen : min c ((v' n).size - o) = c := by omega
    rw [hlen] at hd hvalue
    rw [hvol] at hvalue
    exact ⟨d, hd, hvalue⟩
  refine ⟨j, u₁, u₂, hget, hlock, hty.trans h'.type, hsz.trans hnode, ?_, ?_⟩
  · obtain ⟨d, hd, hvalue⟩ := hread off m (by omega)
    refine ⟨d, u₂, hd, fun k hk => ?_⟩
    rw [hvalue k hk, byteAt, hw.inside (off + k) (by omega) (by omega)]
    show src (off + k - off) = src k
    rw [Nat.add_sub_cancel_left]
  · intro o ho hout
    obtain ⟨d, hd, hvalue⟩ := hread o 1 (by omega)
    refine ⟨d, u₂, hd, ?_⟩
    have hbyte := hvalue 0 Nat.one_pos
    rw [Nat.add_zero] at hbyte
    cases hold : bytes v s.vol n o with
    | none => exact absurd (bytes_none.mp hold) (h.mapped o ho (by omega))
    | some x =>
      rw [hbyte, byteAt, hw.outside o x hout hold]
      rfl

theorem survives_near (h : RegularFile s v i n) (hoff : off ≤ (v n).size)
    (hnear : max (v n).size (off + m) ≤ nearBytes)
    (hrun : writei i src off m s = .ok ((m : ℤ), t)) :
    Survives n off m src s v t := by
  obtain ⟨_, v', h', hw, hnode⟩ := h.writei hoff hnear hrun
  exact survives_of_wrote h h' hw hnode hnear

end Near

section Far

/-- Nothing is allocated for the inode outside a transaction, and the double-indirect
entry of its slot reads as 0. -/
structure Bare (j : ℕ) (s : State) : Prop where
  outstanding : s.log.outstanding = 0
  next : j + 1 < NINODE → (s.icache (j + 1)).dev = 0
  past : s.past = 0

theorem Bare.of_frameBut (h : Bare j s) (hf : FrameBut j s t) : Bare j t where
  outstanding := hf.outstanding.trans h.outstanding
  next := by
    intro hj
    rw [hf.others _ (by omega)]
    exact h.next hj
  past := hf.past.trans h.past

/-- Without a double-indirect block, bmap finds no block behind the single-indirect ones. -/
theorem Bare.bmap_far (h : Bare j s) {bn a : ℕ} (hbn : smallBlocks ≤ bn) :
    bmap j bn s ≠ .ok (a, t) := by
  intro hrun
  have hsmall : smallBlocks = NDIRECT + NINDIRECT := rfl
  unfold bmap at hrun
  rw [if_neg (by omega), if_neg (by omega)] at hrun
  split at hrun
  · obtain ⟨addr, s₁, h₁, _⟩ := bind_ok.mp hrun
    obtain ⟨addr', s₂, h₂, h₃⟩ := bind_ok.mp h₁
    obtain ⟨_, s₃, h₄, h₅⟩ := bind_ok.mp h₂
    obtain ⟨_, rfl⟩ := ensure_ok.mp h₄
    obtain ⟨hzero, rfl⟩ := look_ok.mp h₅
    have haddr : addr' = 0 := by
      rw [← hzero, if_neg (by omega)]
      split
      · rename_i hj
        exact h.next hj
      · exact h.past
    rw [if_pos haddr] at h₃
    obtain ⟨dev, s₄, h₆, h₇⟩ := bind_ok.mp h₃
    obtain ⟨_, rfl⟩ := look_ok.mp h₆
    obtain ⟨b, s₅, h₈, _⟩ := bind_ok.mp h₇
    exact balloc_outside h.outstanding h₈
  · cases hrun

theorem Bare.readLoop_far (h : Bare j s) {fuel tot : ℕ} {dst d : Bytes} (htot : tot < m)
    (hfuel : m ≤ tot + fuel) (hfar : nearBytes < off + (m - tot)) :
    readLoop j m fuel off tot dst s ≠ .ok (d, t) := by
  induction fuel generalizing s off tot dst with
  | zero => omega
  | succ fuel ih =>
    intro hrun
    unfold readLoop at hrun
    rw [if_pos htot] at hrun
    obtain ⟨addr, s₁, h₁, hrun⟩ := bind_ok.mp hrun
    by_cases hbn : smallBlocks ≤ off / BSIZE
    · exact h.bmap_far hbn h₁
    · have hoff : off < nearBytes := by
        by_contra hle
        exact hbn ((Nat.le_div_iff_mul_le (by decide)).mpr (by simpa [nearBytes] using hle))
      have hend : off + (BSIZE - off % BSIZE) ≤ nearBytes := by
        have hsmall : smallBlocks = 522 := rfl
        unfold nearBytes at hoff ⊢
        rw [hsmall] at hoff ⊢
        unfold BSIZE at *
        omega
      have hbare₁ := h.of_frameBut ((bmap_within (Or.inl (Nat.not_le.mp hbn)) s).of_ok h₁)
      obtain ⟨dev, s₂, h₂, hrun⟩ := bind_ok.mp hrun
      obtain ⟨_, rfl⟩ := look_ok.mp h₂
      obtain ⟨data, s₃, h₃, hrun⟩ := bind_ok.mp hrun
      obtain ⟨_, s₄, h₄, hrun⟩ := bind_ok.mp hrun
      have hbare₃ := hbare₁.of_frameBut ((bread_within _).of_ok h₃ |>.but j)
      have hbare₄ := hbare₃.of_frameBut ((brelse_within _).of_ok h₄ |>.but j)
      have hmod := mod_BSIZE_lt off
      exact ih hbare₄ (by omega) (by omega) (by omega) hrun

/-- A regular file cannot be read behind its single-indirect blocks. -/
theorem Bare.readi_far (h : Bare j s) (htype : (s.icache j).type = T_FILE) {d : Bytes}
    (hm : 0 < m) (hsize : off + m ≤ (s.icache j).size) (hword : off + m < 2 ^ 32)
    (hfar : nearBytes < off + m) : readi j off m s ≠ .ok (((m : ℤ), d), t) := by
  intro hrun
  have hdev : (s.icache j).type ≠ T_DEV := by
    rw [htype]
    decide
  obtain ⟨ip, s₀, h₀, g₀⟩ := bind_ok.mp hrun
  obtain ⟨hip, hs₀⟩ := look_ok.mp h₀
  rw [← hip, ← hs₀, if_neg hdev, if_neg (by rw [Nat.mod_eq_of_lt hword]; omega)] at g₀
  have hlen : (if off + m > (s.icache j).size then (s.icache j).size - off else m) = m :=
    if_neg (by omega)
  obtain ⟨dst, s₁, h₁, _⟩ := bind_ok.mp (show (let m' :=
    if off + m > (s.icache j).size then (s.icache j).size - off else m
    readLoop j m' m' off 0 (fun _ => 0) >>= fun dst => pure (((m' : ℕ) : ℤ), dst)) s = _ from g₀)
  rw [hlen] at h₁
  exact h.readLoop_far hm (by omega) (by omega) h₁

/-- The state after a restart: an empty cache and no operation in progress. -/
def restart (t : State) : State where
  sb := t.sb
  blk := t.blk
  held := []
  log := ⟨t.log.start, t.log.size, 0, false, []⟩
  last_alloc_hint := 0
  icache := fun _ => unusedInode
  past := 0
  devsw := t.devsw
  strict := t.strict

theorem restart_recycled (n : ℕ) (t : State) : Recycled n t (restart t) where
  sb := rfl
  blk := rfl
  held := rfl
  outstanding := rfl
  past := rfl
  gone := fun _ _ h => absurd h (Nat.lt_irrefl 0)
  room := ⟨0, by decide, rfl⟩
  unlocked := fun _ _ => rfl
  slots := fun _ _ h => absurd h (Nat.lt_irrefl 0)
  devs := fun _ _ => Or.inl rfl
  unique := fun _ _ _ _ h => absurd h (Nat.lt_irrefl 0)
  cached := fun _ _ hl => absurd hl.ref (Nat.lt_irrefl 0)

/-- After iget and ilock from an empty cache the next slot is still unused. -/
theorem bare_restart {u₁ u₂ : State} (hget : iget ROOTDEV n (restart t) = .ok (j, u₁))
    (hlock : ilock j u₁ = .ok ((), u₂)) : Bare j u₂ := by
  have hbare : Bare j (restart t) := ⟨rfl, fun _ => rfl, rfl⟩
  have hframe : FrameBut j (restart t) u₁ := by
    obtain ⟨_, ⟨_, rfl⟩ | ⟨_, _, rfl⟩⟩ := iget_cases hget
    · exact ⟨rfl, rfl, rfl, rfl, rfl, fun k hk => setSlot_other _ _ _ hk⟩
    · exact ⟨rfl, rfl, rfl, rfl, rfl, fun k hk => setSlot_other _ _ _ hk⟩
  exact (hbare.of_frameBut hframe).of_frameBut ((ilock_within _).of_ok hlock)

/-- The size that ilock reads is a word. -/
theorem ilock_size_lt (hvalid : (s.icache j).valid = false) (hlock : ilock j s = .ok ((), t)) :
    (t.icache j).size < 2 ^ 32 := by
  obtain ⟨_, s₁, h₁, g₁⟩ := bind_ok.mp hlock
  obtain ⟨_, rfl⟩ := ensure_ok.mp h₁
  obtain ⟨_, s₂, h₂, g₂⟩ := bind_ok.mp g₁
  obtain ⟨_, rfl⟩ := ensure_ok.mp h₂
  obtain ⟨_, s₃, h₃, g₃⟩ := bind_ok.mp g₂
  have hs₃ : _ = s₃ := update_ok.mp h₃
  obtain ⟨ip, s₄, h₄, g₄⟩ := bind_ok.mp g₃
  obtain ⟨hip, rfl⟩ := look_ok.mp h₄
  have hipvalid : ip.valid = false := by
    rw [← hip, ← hs₃, setSlot_self]
    exact hvalid
  rw [hipvalid, if_neg Bool.false_ne_true] at g₄
  obtain ⟨sb, s₅, h₅, g₅⟩ := bind_ok.mp g₄
  obtain ⟨data, s₆, h₆, g₆⟩ := bind_ok.mp g₅
  obtain ⟨_, s₇, h₇, g₇⟩ := bind_ok.mp g₆
  have hs₇ : _ = s₇ := update_ok.mp h₇
  obtain ⟨_, s₈, h₈, g₈⟩ := bind_ok.mp g₇
  obtain ⟨_, hs₈⟩ := brelse_ok.mp h₈
  obtain ⟨_, s₉, h₉, g₉⟩ := bind_ok.mp g₈
  have hs₉ : _ = s₉ := update_ok.mp h₉
  obtain ⟨_, rfl⟩ := ensure_ok.mp g₉
  rw [← hs₉, setSlot_self, hs₈, ← hs₇]
  show ((State.setSlot s₆ j _).icache j).size < 2 ^ 32
  rw [setSlot_self]
  exact get_lt data _ 4

/-- What is stored behind the single-indirect blocks does not survive. -/
theorem near_of_survives (hoff : off ≤ (v n).size) (h : Survives n off m src s v t) :
    max (v n).size (off + m) ≤ nearBytes := by
  obtain ⟨j, u₁, u₂, hget, hlock, htype, hsize, ⟨d, w, hread, _⟩, hold⟩ :=
    h (restart t) (restart_recycled n t)
  have hword : (u₂.icache j).size < 2 ^ 32 := by
    refine ilock_size_lt ?_ hlock
    obtain ⟨_, ⟨hh, _⟩ | ⟨_, _, rfl⟩⟩ := iget_cases hget
    · exact absurd hh.1 (Nat.lt_irrefl 0)
    · rw [setSlot_self]
      rfl
  have hbare := bare_restart hget hlock
  by_contra hfar
  by_cases hend : nearBytes < off + m ∧ 0 < m
  · exact hbare.readi_far htype hend.2 (by omega) (by omega) hend.1 hread
  · -- what was written ends in front, and an old byte lies behind
    obtain ⟨d', w', hread', _⟩ := hold nearBytes (by omega) (by omega)
    exact hbare.readi_far htype Nat.one_pos (by omega) (by omega) (by omega) hread'

end Far

/-- What writei stored survives the recycling of the cache slot exactly when the file
ends in front of the double-indirect blocks. -/
theorem survives_iff (h : RegularFile s v i n) (hoff : off ≤ (v n).size) (hm : 0 < m)
    (hmax : off + m ≤ MAXFILE * BSIZE) (hrun : writei i src off m s = .ok ((m : ℤ), t)) :
    Survives n off m src s v t ↔ max (v n).size (off + m) ≤ nearBytes := by
  have hword : MAXFILE * BSIZE + 1 < 2 ^ 32 := by decide
  have hnear : nearBytes < MAXFILE * BSIZE := by decide
  constructor
  · intro hsurvives
    by_contra hfar
    obtain ⟨j, u₁, u₂, hget, hlock, htype, hsize, ⟨d, w, hread, _⟩, hold⟩ :=
      hsurvives (restart t) (restart_recycled n t)
    have hbare := bare_restart hget hlock
    by_cases hend : nearBytes < off + m
    · exact hbare.readi_far htype hm (by omega) (by omega) hend hread
    · -- the write ends in front, and an old byte lies behind
      obtain ⟨d', w', hread', _⟩ := hold nearBytes (by omega) (by omega)
      exact hbare.readi_far htype Nat.one_pos (by omega) (by omega) (by omega) hread'
  · intro hnear
    exact survives_near h hoff hnear hrun

section FullFile

/-- The inode of a file that ends where the double-indirect blocks would begin. -/
def fullIno : Ino where
  type := T_FILE
  major := 0
  minor := 0
  nlink := 1
  size := nearBytes
  addrs := fun k => if k < NDIRECT + 1 then nmeta + k else 0

def fullInode : Inode where
  dev := ROOTDEV
  inum := 2
  ref := 1
  locked := true
  valid := true
  type := fullIno.type
  major := fullIno.major
  minor := fullIno.minor
  nlink := fullIno.nlink
  size := fullIno.size
  addrs := fullIno.addrs

/-- The bitmap of the first 570 blocks and the first word of the superblock. -/
def fullBase : ℕ → Bytes := fun b i =>
  if b = 45 then if i < 71 then 255 else if i = 71 then 3 else 0
  else if b = 1 then if i = 1 then 100 else 0
  else 0

/-- The blocks behind the metadata belong to the file: ten of its own, the index block
57 and the blocks named there. -/
def fullBlk : ℕ → Bytes :=
  Function.update (Function.update fullBase 57 (putAddrs (fun _ => 0) 0 (fun j => 58 + j) NINDIRECT))
    32 (storeDinode (fun _ => 0) 256 fullInode)

/-- The file in the first slot of the cache, inside a transaction. -/
def fullFile : State where
  sb := mkfsSuperblock
  blk := fun _ => fullBlk
  held := []
  log := ⟨2, nlog, 1, false, []⟩
  last_alloc_hint := 0
  icache := fun i => if i = 0 then fullInode else unusedInode
  past := 0
  devsw := fun _ => none
  strict := false

def fullInos : Inos := Function.update (fun _ => Ino.free) 2 fullIno

theorem fullIno_inRange : fullIno.InRange where
  type := by decide
  major := by decide
  minor := by decide
  nlink := by decide
  size := by decide
  addrs := by
    intro k
    show (if k < NDIRECT + 1 then nmeta + k else 0) < 2 ^ 32
    have hmeta : nmeta = 47 := rfl
    have hlast : NDIRECT = 10 := rfl
    split <;> omega
  rest := fun k hk => if_neg (by omega)

theorem fullBase_volume : volume fullBase =
    ⟨fun _ => .free, fun _ => 0, fun b => decide (b < 570), fun _ _ => 0, FSSIZE⟩ := by
  have hzero : ∀ b, b ≠ 45 → b ≠ 1 → fullBase b = fun _ => 0 := by
    intro b h45 h1
    funext i
    unfold fullBase
    rw [if_neg h45, if_neg h1]
  have hinode : ∀ n, n < maxInodes → fullBase (IBLOCK n mkfsSuperblock) = fun _ => 0 := by
    intro n hn
    rw [maxInodes_eq] at hn
    rw [IBLOCK_mkfs]
    exact hzero _ (by omega) (by omega)
  ext1
  · funext n
    simp only [volume]
    split
    · rename_i hn
      rw [hinode n hn]
      exact readIno_zero _
    · rfl
  · funext n
    simp only [volume]
    split
    · rename_i hn
      rw [hinode n hn]
      exact get_zero fun _ _ _ => rfl
    · rfl
  · funext b
    simp only [volume, BMAPBLOCK_mkfs]
    have hbit : ∀ k, k < 8 → (255 : UInt8).toNat.testBit k = true ∧
        (3 : UInt8).toNat.testBit k = decide (k < 2) := by decide
    split
    · rename_i hb
      rw [bitmap_bits] at hb
      unfold Bitmap.test
      have hmod : b % BPB % 8 < 8 := Nat.mod_lt _ (by omega)
      have hbits : BPB = 16384 := rfl
      rw [hbits] at hmod ⊢
      by_cases hfirst : b / 16384 = 0
      · have hblock : fullBase (b / 16384 + 45) =
            fun i => if i < 71 then 255 else if i = 71 then 3 else 0 := by
          rw [hfirst]
          rfl
        rw [hblock]
        dsimp only
        split
        · rw [(hbit _ hmod).1]
          symm
          apply decide_eq_true
          omega
        · split
          · rw [(hbit _ hmod).2, decide_eq_decide]
            omega
          · symm
            simp only [UInt8.toNat_zero, Nat.zero_testBit, decide_eq_false_iff_not]
            omega
      · rw [hzero _ (by omega) (by omega)]
        symm
        simp only [UInt8.toNat_zero, Nat.zero_testBit, decide_eq_false_iff_not]
        omega
    · rename_i hb
      rw [bitmap_bits] at hb
      symm
      apply decide_eq_false
      omega
  · funext b
    simp only [volume]
    split
    · rename_i hb
      rw [nmeta_eq] at hb
      exact hzero b (by omega) (by omega)
    · rfl
  · decide

theorem fullFile_vol : fullFile.vol = ⟨fullInos, fun _ => 0, fun b => decide (b < 570),
    Function.update (fun _ _ => 0) 57 (putAddrs (fun _ => 0) 0 (fun j => 58 + j) NINDIRECT),
    FSSIZE⟩ := by
  have hinode : Function.update fullBase 57 (putAddrs (fun _ => 0) 0 (fun j => 58 + j) NINDIRECT)
      (IBLOCK 2 mkfsSuperblock) = fun _ => 0 := by
    rw [IBLOCK_mkfs, Function.update_of_ne (by decide)]
    funext i
    rfl
  have hstore := @volume_store
    (Function.update fullBase 57 (putAddrs (fun _ => 0) 0 (fun j => 58 + j) NINDIRECT)) 2
    (by decide) fullInode fullIno_inRange
  rw [hinode] at hstore
  show volume fullBlk = _
  refine hstore.trans ?_
  rw [volume_data (by decide), fullBase_volume]
  rfl

def fullEntry : Place → ℕ
  | .direct k => if k < NDIRECT then nmeta + k else 0
  | .index => 57
  | .leaf j => if j < NINDIRECT then 58 + j else 0

theorem fullIno_entry (p : Place) : fullIno.entry fullFile.vol.data p = fullEntry p := by
  have hindex : fullIno.addrs NDIRECT = 57 := rfl
  cases p with
  | direct k =>
    show (if k < NDIRECT then if k < NDIRECT + 1 then nmeta + k else 0 else 0) =
      if k < NDIRECT then nmeta + k else 0
    split
    · rw [if_pos (by omega)]
    · rfl
  | index => rfl
  | leaf j =>
    show (if j < NINDIRECT ∧ fullIno.addrs NDIRECT ≠ 0 then
      get (fullFile.vol.data (fullIno.addrs NDIRECT)) (4 * j) 4 else 0) = _
    rw [hindex]
    have hsmall : NINDIRECT = 512 := rfl
    by_cases hj : j < NINDIRECT
    · rw [if_pos ⟨hj, by decide⟩, fullFile_vol]
      show get (Function.update (fun _ _ => 0) 57
        (putAddrs (fun _ => 0) 0 (fun j => 58 + j) NINDIRECT) 57 : Bytes) (4 * j) 4 =
          if j < NINDIRECT then 58 + j else 0
      have hget := @get_putAddrs (fun _ => 0) 0 (fun j => 58 + j) NINDIRECT j hj (by omega)
      rw [Function.update_self, if_pos hj, ← hget, Nat.zero_add]
    · rw [if_neg fun h => hj h.1]
      exact (if_neg hj).symm

theorem fullInos_entry {m : ℕ} {p : Place} (h : blocks fullInos fullFile.vol (m, p) ≠ 0) :
    m = 2 ∧ blocks fullInos fullFile.vol (m, p) = fullIno.entry fullFile.vol.data p := by
  by_cases hm : m = 2
  · subst hm
    exact ⟨rfl, rfl⟩
  · refine absurd ?_ h
    show (Function.update (fun _ => Ino.free) 2 fullIno m).entry _ _ = 0
    rw [Function.update_of_ne hm]
    unfold Ino.entry Ino.free
    cases p <;> simp

theorem fullEntry_rank {p : Place} (h : fullEntry p ≠ 0) :
    nmeta ≤ fullEntry p ∧ fullEntry p < 570 ∧ ∀ q, fullEntry q = fullEntry p → q = p := by
  have hmeta : nmeta = 47 := rfl
  have hdirect : NDIRECT = 10 := rfl
  have hindirect : NINDIRECT = 512 := rfl
  have hrange : nmeta ≤ fullEntry p ∧ fullEntry p < 570 := by
    cases p with
    | direct k =>
      by_cases hk : k < NDIRECT
      · have hvalue : fullEntry (.direct k) = nmeta + k := if_pos hk
        omega
      · exact absurd (if_neg hk) h
    | index => exact ⟨by decide, by decide⟩
    | leaf j =>
      by_cases hj : j < NINDIRECT
      · have hvalue : fullEntry (.leaf j) = 58 + j := if_pos hj
        omega
      · exact absurd (if_neg hj) h
  refine ⟨hrange.1, hrange.2, fun q hq => ?_⟩
  cases p <;> cases q <;> grind [fullEntry]

/-- The disk of the example is well formed, and all its inodes are there. -/
theorem fullFile_regular : RegularFile fullFile fullInos 0 2 := by
  have hvol := fullFile_vol
  have hslot : fullFile.icache 0 = fullInode := rfl
  have hother : ∀ j, j ≠ 0 → fullFile.icache j = unusedInode := fun j hj => if_neg hj
  have hused : ∀ j, 0 < (fullFile.icache j).ref → j = 0 := by
    intro j hr
    by_contra hj
    rw [hother j hj] at hr
    exact Nat.lt_irrefl 0 hr
  have hloaded : ∀ j m, Loaded fullFile j m → j = 0 ∧ m = 2 := by
    intro j m hl
    obtain rfl := hused j hl.ref
    exact ⟨rfl, hl.inum.symm⟩
  have hnear : nearBytes = 1069056 := rfl
  refine ⟨⟨rfl, by rw [hvol], rfl, List.nodup_nil, ?_, ?_, ?_, ?_, ?_, ?_, ?_, ?_, ?_, ?_⟩, ?_,
    ⟨by decide, by decide, rfl, rfl⟩, rfl, ?_⟩
  · intro n hn
    rw [maxInodes_eq] at hn
    exact Function.update_of_ne (by omega) _ _
  · intro n
    by_cases hn : n = 2
    · rw [hn]
      exact fullIno_inRange
    · rw [fullInos, Function.update_of_ne hn]
      exact Ino.free_inRange
  · intro n hn k
    by_cases hn2 : n = 2
    · rw [hn2] at hn
      cases hn
    · rw [fullInos, Function.update_of_ne hn2]
      rfl
  · intro b hb
    rw [nmeta_eq] at hb
    rw [hvol]
    exact decide_eq_true (by omega)
  · constructor
    · intro q hq
      obtain ⟨_, he⟩ := fullInos_entry hq
      rw [he, fullIno_entry] at hq ⊢
      obtain ⟨hlo, hhi, _⟩ := fullEntry_rank hq
      have hnb : nblocks = 25553 := rfl
      refine ⟨⟨hlo, by omega⟩, ?_⟩
      rw [hvol]
      exact decide_eq_true hhi
    · intro q r hq hqr
      obtain ⟨hq2, he⟩ := fullInos_entry hq
      obtain ⟨hr2, he'⟩ := fullInos_entry (hqr ▸ hq)
      rw [he, he', fullIno_entry, fullIno_entry] at hqr
      rw [he, fullIno_entry] at hq
      have hp := (fullEntry_rank hq).2.2 r.2 hqr.symm
      exact Prod.ext (hq2.trans hr2.symm) hp.symm
  · intro j _ hr
    obtain rfl := hused j hr
    exact ⟨rfl, by decide, by decide⟩
  · intro j _
    by_cases hj : j = 0
    · rw [hj]
      exact Or.inr rfl
    · rw [hother j hj]
      exact Or.inl rfl
  · intro j k _ _ hrj hrk _
    rw [hused j hrj, hused k hrk]
  · intro j m hl
    obtain ⟨rfl, rfl⟩ := hloaded j m hl
    rfl
  · intro m _ _
    rw [hvol]
  · intro m _
    rw [hvol]
  · intro o ho hlt hzero
    have hentry : blocks fullInos fullFile.vol (2, placeOf (o / BSIZE)) =
        fullEntry (placeOf (o / BSIZE)) := fullIno_entry _
    rw [hentry] at hzero
    have hbn : o / BSIZE < smallBlocks := lt_smallBlocks hlt
    have hsmall : smallBlocks = NDIRECT + NINDIRECT := rfl
    have hmeta : nmeta = 47 := rfl
    clear hentry
    generalize o / BSIZE = bn at *
    by_cases hd : bn < NDIRECT
    · have hvalue : fullEntry (.direct bn) = nmeta + bn := if_pos hd
      rw [placeOf, if_pos hd, hvalue] at hzero
      omega
    · have hvalue : fullEntry (.leaf (bn - NDIRECT)) = 58 + (bn - NDIRECT) := if_pos (by omega)
      rw [placeOf, if_neg hd, hvalue] at hzero
      omega

/-- Whether writei returns a number. -/
def returns (r : Except Halt (ℤ × State)) (m : ℤ) : Bool :=
  match r with
  | .ok (k, _) => decide (k = m)
  | .error _ => false

theorem exists_of_returns {r : Except Halt (ℤ × State)} {k : ℤ} (h : returns r k = true) :
    ∃ t, r = .ok (k, t) := by
  unfold returns at h
  split at h
  · exact ⟨_, by rw [of_decide_eq_true h]⟩
  · cases h

/-- The first byte of the full file is written and survives. -/
theorem survives_iff_first : ∃ t, writei 0 (fun _ => 7) 0 1 fullFile = .ok (((1 : ℕ) : ℤ), t) ∧
    Survives 2 0 1 (fun _ => 7) fullFile fullInos t := by
  have hret : returns (writei 0 (fun _ => 7) 0 1 fullFile) ((1 : ℕ) : ℤ) = true := by
    decide +kernel
  obtain ⟨t, ht⟩ := exists_of_returns hret
  refine ⟨t, ht, ?_⟩
  exact (survives_iff fullFile_regular (Nat.zero_le _) Nat.one_pos (by decide) ht).mpr (by decide)

/-- The first byte behind the single-indirect blocks is written, and it is gone when the
file is loaded again. -/
theorem not_always_survives :
    RegularFile fullFile fullInos 0 2 ∧ nearBytes ≤ (fullInos 2).size ∧
      nearBytes + 1 ≤ MAXFILE * BSIZE ∧
      ∃ t, writei 0 (fun _ => 7) nearBytes 1 fullFile = .ok (((1 : ℕ) : ℤ), t) ∧
        ¬ Survives 2 nearBytes 1 (fun _ => 7) fullFile fullInos t := by
  have hret : returns (writei 0 (fun _ => 7) nearBytes 1 fullFile) ((1 : ℕ) : ℤ) = true := by
    decide +kernel
  obtain ⟨t, ht⟩ := exists_of_returns hret
  refine ⟨fullFile_regular, Nat.le_refl _, by decide, t, ht, fun hsurvives => ?_⟩
  obtain ⟨j, u₁, u₂, hget, hlock, htype, hsize, ⟨d, w, hread, _⟩, _⟩ :=
    hsurvives (restart t) (restart_recycled 2 t)
  have hlen : nearBytes + 1 ≤ (u₂.icache j).size := by
    rw [hsize]
    exact Nat.le_max_right _ _
  exact (bare_restart hget hlock).readi_far htype Nat.one_pos hlen (by decide) (by decide) hread

end FullFile

end NorthOS.Fs
