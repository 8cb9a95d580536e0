import NorthOS.CacheBounds
import NorthOS.Contents

/-!
The inode operations of fs.c on a well-formed file system: iupdate, writei, iget,
ilock. Each says what becomes of the logical inodes and of the slots of the cache, and
whether inodes that agreed with the disk still do.
-/
namespace NorthOS.Fs

open LittleEndian Halting Comp Ownership

/-- The cache slots keep their inodes, their references and whether they are loaded; no
buffer is left locked. -/
structure Steady (s t : State) : Prop where
  sb : t.sb = s.sb
  past : t.past = s.past
  devsw : t.devsw = s.devsw
  strict : t.strict = s.strict
  outstanding : t.log.outstanding = s.log.outstanding
  held : t.held = s.held
  dev : ∀ j, (t.icache j).dev = (s.icache j).dev
  inum : ∀ j, (t.icache j).inum = (s.icache j).inum
  ref : ∀ j, (t.icache j).ref = (s.icache j).ref
  valid : ∀ j, (t.icache j).valid = (s.icache j).valid

variable {i n : ℕ} {s t u : State} {v v' : Inos}

theorem Steady.refl (s : State) : Steady s s :=
  ⟨rfl, rfl, rfl, rfl, rfl, rfl, fun _ => rfl, fun _ => rfl, fun _ => rfl, fun _ => rfl⟩

theorem Steady.trans (h : Steady s t) (h' : Steady t u) : Steady s u where
  sb := h'.sb.trans h.sb
  past := h'.past.trans h.past
  devsw := h'.devsw.trans h.devsw
  strict := h'.strict.trans h.strict
  outstanding := h'.outstanding.trans h.outstanding
  held := h'.held.trans h.held
  dev := fun j => (h'.dev j).trans (h.dev j)
  inum := fun j => (h'.inum j).trans (h.inum j)
  ref := fun j => (h'.ref j).trans (h.ref j)
  valid := fun j => (h'.valid j).trans (h.valid j)

theorem Frame.steady (h : Frame s t) (hheld : t.held = s.held) : Steady s t where
  sb := h.sb
  past := h.past
  devsw := h.devsw
  strict := h.strict
  outstanding := h.outstanding
  held := hheld
  dev := fun _ => by rw [h.icache]
  inum := fun _ => by rw [h.icache]
  ref := fun _ => by rw [h.icache]
  valid := fun _ => by rw [h.icache]

theorem Grows.steady (h : Grows i n s v t v') : Steady s t := by
  have hfields : ∀ j, (t.icache j).dev = (s.icache j).dev ∧ (t.icache j).inum = (s.icache j).inum ∧
      (t.icache j).ref = (s.icache j).ref ∧ (t.icache j).valid = (s.icache j).valid := by
    intro j
    by_cases hj : j = i
    · rw [hj, h.slot]
      exact ⟨rfl, rfl, rfl, rfl⟩
    · rw [h.slots j hj]
      exact ⟨rfl, rfl, rfl, rfl⟩
  exact ⟨h.sb, h.past, h.devsw, h.strict, h.outstanding, h.held, fun j => (hfields j).1,
    fun j => (hfields j).2.1, fun j => (hfields j).2.2.1, fun j => (hfields j).2.2.2⟩

theorem Steady.loaded (h : Steady s t) {j m : ℕ} : Loaded t j m ↔ Loaded s j m := by
  constructor
  · intro hl
    exact ⟨hl.slot, h.ref j ▸ hl.ref, h.valid j ▸ hl.valid, h.inum j ▸ hl.inum⟩
  · intro hl
    exact ⟨hl.slot, (h.ref j).symm ▸ hl.ref, (h.valid j).symm ▸ hl.valid,
      (h.inum j).symm ▸ hl.inum⟩

/-- Another well-formed state with the same slots and, but for contents, the same volume. -/
theorem Wf.of_steady (h : Wf s v) (hs : Steady s t) (hword : t.vol.word = s.vol.word)
    (hused : t.vol.used = s.vol.used) (hblocks : blocks v' t.vol = blocks v s.vol)
    (houtside : ∀ m, maxInodes ≤ m → v' m = .free) (hrange : ∀ m, (v' m).InRange)
    (hfree : ∀ m, (v' m).type = 0 → ∀ k, (v' m).addrs k = 0)
    (hcached : ∀ j m, Loaded s j m → (t.icache j).ino = v' m)
    (hdisk : ∀ m, m < maxInodes → (∀ j, ¬ Loaded s j m) → t.vol.ino m = v' m) : Wf t v' where
  sb := hs.sb.trans h.sb
  word := hword.trans h.word
  past := hs.past.trans h.past
  held := by rw [hs.held]; exact h.held
  outside := houtside
  inRange := hrange
  free := hfree
  reserved := by rw [hused]; exact h.reserved
  owned := by rw [hblocks, hused]; exact h.owned
  slots := by
    intro j hj href
    rw [hs.dev, hs.inum]
    exact h.slots j hj (hs.ref j ▸ href)
  devs := by
    intro j hj
    rw [hs.dev]
    exact h.devs j hj
  unique := by
    intro j k hj hk hrj hrk he
    rw [hs.inum, hs.inum] at he
    exact h.unique j k hj hk (hs.ref j ▸ hrj) (hs.ref k ▸ hrk) he
  cached := fun j m hl => hcached j m (hs.loaded.mp hl)
  disk := fun m hm hno => hdisk m hm fun j hl => hno j (hs.loaded.mpr hl)

theorem Wf.eq_slot (h : Wf s v) {j : ℕ} (hl : Loaded s i n) (hl' : Loaded s j n) : j = i :=
  h.unique j i hl'.slot hl.slot hl'.ref hl.ref (hl'.inum.trans hl.inum.symm)

section Iupdate

/-- iupdate writes the logical inode to the disk. -/
theorem iupdate_spec (h : Wf s v) (hl : Loaded s i n) (hrun : iupdate i s = .ok ((), t)) :
    Wf t v ∧ Frame s t ∧ t.held = s.held ∧
      t.vol = { s.vol with ino := Function.update s.vol.ino n (v n) } := by
  have hcached := h.cached i n hl
  obtain ⟨_, s₀, h₀, g₀⟩ := bind_ok.mp hrun
  obtain ⟨_, hs₀⟩ := ensure_ok.mp h₀
  rw [← hs₀] at g₀
  obtain ⟨ip, s₁, h₁, g₁⟩ := bind_ok.mp g₀
  obtain ⟨hip, hs₁⟩ := look_ok.mp h₁
  rw [← hs₁] at g₁
  obtain ⟨sb, s₂, h₂, g₂⟩ := bind_ok.mp g₁
  obtain ⟨hsb, hs₂⟩ := look_ok.mp h₂
  rw [← hs₂, ← hip, h.dev hl, hl.inum, ← hsb, h.sb] at g₂
  obtain ⟨hf, hheld, hblk⟩ := rewrite_spec g₂
  have hrange : (s.icache i).ino.InRange := hcached ▸ h.inRange n
  have hvol : t.vol = { s.vol with ino := Function.update s.vol.ino n (v n) } := by
    show volume (t.blk ROOTDEV) = _
    rw [hblk, Function.update_self, ← hcached]
    exact volume_store (h.inum_lt hl) hrange
  refine ⟨?_, hf, hheld, hvol⟩
  apply h.of_steady (hf.steady hheld)
  · rw [hvol]
  · rw [hvol]
  · rw [hvol]
    rfl
  · exact h.outside
  · exact h.inRange
  · exact h.free
  · intro j m hl'
    rw [hf.icache]
    exact h.cached j m hl'
  · intro m hm hno
    have hmn : m ≠ n := by
      rintro rfl
      exact hno i hl
    rw [hvol]
    exact (Function.update_of_ne hmn _ _).trans (h.disk m hm hno)

theorem Synced.but (h : Synced s v) (n : ℕ) : SyncedBut n s v := fun m hm _ => h m hm

/-- After iupdate the inode agrees with the disk as well. -/
theorem SyncedBut.iupdate (h : SyncedBut n s v)
    (hvol : t.vol = { s.vol with ino := Function.update s.vol.ino n (v n) }) : Synced t v := by
  intro m hm
  rw [hvol]
  by_cases hmn : m = n
  · rw [hmn]
    exact Function.update_self _ _ _
  · exact (Function.update_of_ne hmn _ _).trans (h m hm hmn)

end Iupdate

section Amend

/-- An assignment to fields of a loaded inode other than its map. -/
theorem Wf.setIno (h : Wf s v) (hl : Loaded s i n) {f : Inode → Inode} {x : Ino}
    (hf : (f (s.icache i)).ino = x) (hdev : (f (s.icache i)).dev = (s.icache i).dev)
    (hinum : (f (s.icache i)).inum = (s.icache i).inum)
    (href : (f (s.icache i)).ref = (s.icache i).ref)
    (hvalid : (f (s.icache i)).valid = (s.icache i).valid)
    (haddrs : x.addrs = (v n).addrs) (hrange : x.InRange)
    (hfree : x.type = 0 → ∀ k, x.addrs k = 0) :
    Wf (s.setSlot i f) (Function.update v n x) ∧ Steady s (s.setSlot i f) ∧
      blocks (Function.update v n x) s.vol = blocks v s.vol := by
  have hsteady : Steady s (s.setSlot i f) := by
    have hfields : ∀ j, ((s.setSlot i f).icache j).dev = (s.icache j).dev ∧
        ((s.setSlot i f).icache j).inum = (s.icache j).inum ∧
        ((s.setSlot i f).icache j).ref = (s.icache j).ref ∧
        ((s.setSlot i f).icache j).valid = (s.icache j).valid := by
      intro j
      by_cases hj : j = i
      · rw [hj, setSlot_self]
        exact ⟨hdev, hinum, href, hvalid⟩
      · rw [setSlot_other _ _ _ hj]
        exact ⟨rfl, rfl, rfl, rfl⟩
    exact ⟨rfl, rfl, rfl, rfl, rfl, rfl, fun j => (hfields j).1, fun j => (hfields j).2.1,
      fun j => (hfields j).2.2.1, fun j => (hfields j).2.2.2⟩
  have hblocks : blocks (Function.update v n x) s.vol = blocks v s.vol := by
    funext ⟨m, p⟩
    by_cases hmn : m = n
    · subst hmn
      show (Function.update v m x m).entry s.vol.data p = (v m).entry s.vol.data p
      rw [Function.update_self]
      unfold Ino.entry
      rw [haddrs]
    · show (Function.update v n x m).entry s.vol.data p = (v m).entry s.vol.data p
      rw [Function.update_of_ne hmn]
  refine ⟨?_, hsteady, hblocks⟩
  apply h.of_steady hsteady rfl rfl hblocks
  · intro m hm
    have hmn : m ≠ n := fun e => absurd (h.inum_lt hl) (by omega)
    rw [Function.update_of_ne hmn]
    exact h.outside m hm
  · intro m
    by_cases hmn : m = n
    · rw [hmn, Function.update_self]
      exact hrange
    · rw [Function.update_of_ne hmn]
      exact h.inRange m
  · intro m
    by_cases hmn : m = n
    · rw [hmn, Function.update_self]
      exact hfree
    · rw [Function.update_of_ne hmn]
      exact h.free m
  · intro j m hl'
    by_cases hj : j = i
    · have hmn : m = n := by rw [← hl'.inum, hj, hl.inum]
      rw [hj, hmn, setSlot_self, Function.update_self]
      exact hf
    · have hmn : m ≠ n := by
        rintro rfl
        exact hj (h.eq_slot hl hl')
      rw [setSlot_other _ _ _ hj, Function.update_of_ne hmn]
      exact h.cached j m hl'
  · intro m hm hno
    have hmn : m ≠ n := by
      rintro rfl
      exact hno i hl
    rw [Function.update_of_ne hmn]
    exact h.disk m hm hno

/-- Assignments to fields of a loaded inode followed by iupdate. -/
theorem amend_spec (h : Wf s v) (hl : Loaded s i n) {f : Inode → Inode} {x : Ino}
    (hf : (f (s.icache i)).ino = x) (hdev : (f (s.icache i)).dev = (s.icache i).dev)
    (hinum : (f (s.icache i)).inum = (s.icache i).inum)
    (href : (f (s.icache i)).ref = (s.icache i).ref)
    (hvalid : (f (s.icache i)).valid = (s.icache i).valid)
    (haddrs : x.addrs = (v n).addrs) (hrange : x.InRange)
    (hfree : x.type = 0 → ∀ k, x.addrs k = 0)
    (hrun : (do
      setSlot i f
      iupdate i : M Unit) s = .ok ((), t)) :
    Wf t (Function.update v n x) ∧ Steady s t ∧
      t.vol = { s.vol with ino := Function.update s.vol.ino n x } ∧
      blocks (Function.update v n x) t.vol = blocks v s.vol := by
  obtain ⟨_, s₁, h₁, h₂⟩ := bind_ok.mp hrun
  have hs₁ : s.setSlot i f = s₁ := update_ok.mp h₁
  rw [← hs₁] at h₂
  obtain ⟨hwf, hsteady, hblocks⟩ := h.setIno hl hf hdev hinum href hvalid haddrs hrange hfree
  obtain ⟨hwf', hframe, hheld, hvol⟩ := iupdate_spec hwf (hsteady.loaded.mpr hl) h₂
  rw [Function.update_self] at hvol
  refine ⟨hwf', hsteady.trans (hframe.steady hheld), hvol, ?_⟩
  rw [hvol]
  exact hblocks

end Amend

section Writei

/-- What writei did to the file system when it returned the number of bytes. -/
structure Written (i n off m : ℕ) (src : Bytes) (s : State) (v : Inos) (t : State) (v' : Inos) :
    Prop where
  wf : Wf t v'
  steady : Steady s t
  wrote : Wrote n off m src v s.vol v' t.vol
  others : ∀ k, k ≠ n → v' k = v k
  node : v' n = { v n with addrs := (v' n).addrs, size := max (v n).size (off + m) }
  far : t.vol.far = s.vol.far
  synced : Synced s v → Mapped v s.vol n → Synced t v'
  leaks : NoLeaks s v → NoLeaks t v'

theorem Grows.synced (h : Grows i n s v t v') (hs : Synced s v) (hsame : v' = v) : Synced t v' := by
  intro m hm
  rw [hsame, h.ino]
  exact hs m hm

theorem Grows.syncedBut (h : Grows i n s v t v') (hs : Synced s v) : SyncedBut n t v' := by
  intro m hm hmn
  rw [h.others m hmn, h.ino]
  exact hs m hm

theorem small_lt : smallBlocks * BSIZE < 2 ^ 32 ∧ smallBlocks * BSIZE ≤ MAXFILE * BSIZE := by
  decide

theorem writei_spec (h : Wf s v) (hl : Loaded s i n) (htype : (v n).type ≠ 0)
    (hdev : (v n).type ≠ T_DEV) {src : Bytes} {off m : ℕ} (hoff : off ≤ (v n).size)
    (hsmall : off + m ≤ smallBlocks * BSIZE) {r : ℤ}
    (hrun : writei i src off m s = .ok (r, t)) :
    r = m ∧ ∃ v', Written i n off m src s v t v' := by
  have hcached := h.cached i n hl
  have htype' : (s.icache i).type ≠ T_DEV := by
    rw [← hcached] at hdev
    exact hdev
  have hsize : (s.icache i).size = (v n).size := by
    rw [← hcached]
    rfl
  obtain ⟨hword, hmax⟩ := small_lt
  obtain ⟨ip, s₀, h₀, g₀⟩ := bind_ok.mp hrun
  obtain ⟨hip, hs₀⟩ := look_ok.mp h₀
  rw [← hip, ← hs₀, if_neg htype', hsize,
    if_neg (by rw [Nat.mod_eq_of_lt (by omega)]; omega), if_neg (by omega)] at g₀
  obtain ⟨_, s₁, h₁, g₁⟩ := bind_ok.mp g₀
  obtain ⟨v₁, hwf₁, hgrow, hwrote, hsame⟩ :=
    writeLoop_spec h hl htype (by omega) (by simpa using hsmall) h₁
  simp only [Nat.sub_zero, Nat.zero_add] at hwrote hsame
  have hl₁ : Loaded s₁ i n := hgrow.loaded.mpr hl
  have hcached₁ := hwf₁.cached i n hl₁
  have hsize₁ : (s₁.icache i).size = (v n).size := by
    rw [← hgrow.size, ← hcached₁]
    rfl
  obtain ⟨size, s₂, h₂, g₂⟩ := bind_ok.mp g₁
  obtain ⟨hsize₂, hs₂⟩ := look_ok.mp h₂
  rw [hsize₁] at hsize₂
  rw [← hs₂, ← hsize₂] at g₂
  obtain ⟨_, s₃, h₃, g₃⟩ := bind_ok.mp g₂
  obtain ⟨hr, rfl⟩ := pure_ok.mp g₃
  refine ⟨hr.symm, ?_⟩
  split at h₃
  · rename_i hgrew
    have hnode : ({ s₁.icache i with size := off + m } : Inode).ino =
        { v₁ n with size := off + m } := by
      rw [← hcached₁]
      rfl
    have hrange : Ino.InRange { v₁ n with size := off + m } :=
      { hwf₁.inRange n with size := by show off + m < 2 ^ 32; omega }
    have htype₁ : (v₁ n).type ≠ 0 := by
      rw [hgrow.type]
      exact htype
    obtain ⟨hwf, hsteady, hvol, hblocks⟩ := amend_spec (x := { v₁ n with size := off + m }) hwf₁ hl₁
      hnode rfl rfl rfl rfl rfl hrange (fun h0 => absurd h0 htype₁) h₃
    have hdata : s₃.vol.data = s₁.vol.data := by rw [hvol]
    refine ⟨Function.update v₁ n { v₁ n with size := off + m }, hwf,
      hgrow.steady.trans hsteady, ?_, ?_, ?_, ?_, ?_, ?_⟩
    · have hbytes : ∀ k o, bytes (Function.update v₁ n { v₁ n with size := off + m }) s₃.vol k o =
          bytes v₁ s₁.vol k o := by
        intro k o
        unfold bytes
        rw [hblocks, hdata]
      exact ⟨fun k o hk => (hbytes k o).trans (hwrote.away k o hk),
        fun o hlo hhi => (hbytes n o).trans (hwrote.inside o hlo hhi),
        fun o x hout hx => (hbytes n o).trans (hwrote.outside o x hout hx)⟩
    · intro k hk
      rw [Function.update_of_ne hk]
      exact hgrow.others k hk
    · rw [Function.update_self, hgrow.fields, show max (v n).size (off + m) = off + m by omega]
    · rw [hvol]
      exact hgrow.far
    · intro hs _ k hk
      rw [hvol]
      by_cases hkn : k = n
      · rw [hkn, Function.update_self]
        exact Function.update_self _ _ _
      · rw [Function.update_of_ne hkn]
        exact (Function.update_of_ne hkn _ _).trans (hgrow.syncedBut hs k hk hkn)
    · intro hleak
      have hleak₁ := hgrow.leaks hleak
      unfold NoLeaks at hleak₁ ⊢
      rw [hblocks, hvol]
      exact hleak₁
  · rename_i hkeep
    obtain ⟨_, rfl⟩ := pure_ok.mp h₃
    have hfit : off + m ≤ (v n).size := by omega
    refine ⟨v₁, hwf₁, hgrow.steady, hwrote, hgrow.others, ?_, hgrow.far, ?_, hgrow.leaks⟩
    · rw [hgrow.fields, show max (v n).size (off + m) = (v n).size by omega]
    · intro hs hmap
      apply hgrow.synced hs
      apply hsame
      intro o _ hhi
      exact hmap o (by omega)

end Writei

section Slots

/-- What the functions above fs.c depend on in a slot of the cache. -/
@[ext] structure Slot where
  ref : ℕ
  inum : ℕ
  valid : Bool
  deriving DecidableEq, Repr

def Inode.slot (ip : Inode) : Slot := ⟨ip.ref, ip.inum, ip.valid⟩

def State.slots (s : State) : ℕ → Slot := fun i => (s.icache i).slot

theorem slots_setSlot (s : State) (i : ℕ) (f : Inode → Inode) :
    (s.setSlot i f).slots = Function.update s.slots i (f (s.icache i)).slot := by
  funext j
  by_cases hj : j = i
  · rw [hj, Function.update_self]
    show ((s.setSlot i f).icache i).slot = _
    rw [setSlot_self]
  · rw [Function.update_of_ne hj]
    show ((s.setSlot i f).icache j).slot = _
    rw [setSlot_other _ _ _ hj]
    rfl

theorem Steady.slots (h : Steady s t) : t.slots = s.slots := by
  funext j
  ext
  · exact h.ref j
  · exact h.inum j
  · exact Bool.coe_iff_coe.mp (by rw [show (t.slots j).valid = (s.slots j).valid from h.valid j])

/-- Only the inode cache differs. -/
structure CacheOnly (s t : State) : Prop where
  sb : t.sb = s.sb
  blk : t.blk = s.blk
  held : t.held = s.held
  log : t.log = s.log
  past : t.past = s.past
  devsw : t.devsw = s.devsw
  strict : t.strict = s.strict

theorem CacheOnly.trans (h : CacheOnly s t) (h' : CacheOnly t u) : CacheOnly s u where
  sb := h'.sb.trans h.sb
  blk := h'.blk.trans h.blk
  held := h'.held.trans h.held
  log := h'.log.trans h.log
  past := h'.past.trans h.past
  devsw := h'.devsw.trans h.devsw
  strict := h'.strict.trans h.strict

theorem setSlot_cacheOnly (s : State) (i : ℕ) (f : Inode → Inode) : CacheOnly s (s.setSlot i f) :=
  ⟨rfl, rfl, rfl, rfl, rfl, rfl, rfl⟩

theorem CacheOnly.vol (h : CacheOnly s t) : t.vol = s.vol := vol_congr h.blk

/-- The inode cache of a well-formed file system, with the rest as it was. -/
theorem Wf.of_cacheOnly (h : Wf s v) (hc : CacheOnly s t)
    (hslots : ∀ j, j < NINODE → 0 < (t.icache j).ref →
      (t.icache j).dev = ROOTDEV ∧ 0 < (t.icache j).inum ∧ (t.icache j).inum < maxInodes)
    (hdevs : ∀ j, j < NINODE → (t.icache j).dev = 0 ∨ (t.icache j).dev = ROOTDEV)
    (hunique : ∀ j k, j < NINODE → k < NINODE → 0 < (t.icache j).ref → 0 < (t.icache k).ref →
      (t.icache j).inum = (t.icache k).inum → j = k)
    (hcached : ∀ j m, Loaded t j m → (t.icache j).ino = v m)
    (hdisk : ∀ m, m < maxInodes → (∀ j, ¬ Loaded t j m) → s.vol.ino m = v m) : Wf t v where
  sb := hc.sb.trans h.sb
  word := by rw [hc.vol]; exact h.word
  past := hc.past.trans h.past
  held := by rw [hc.held]; exact h.held
  outside := h.outside
  inRange := h.inRange
  free := h.free
  reserved := by rw [hc.vol]; exact h.reserved
  owned := by rw [hc.vol]; exact h.owned
  slots := hslots
  devs := hdevs
  unique := hunique
  cached := hcached
  disk := by rw [hc.vol]; exact hdisk

/-- Assignments that keep the inode of a slot; where the slot no longer holds it, the disk
does. -/
theorem Wf.setRef (h : Wf s v) {f : Inode → Inode} (hino : (f (s.icache i)).ino = (s.icache i).ino)
    (hdev : (f (s.icache i)).dev = (s.icache i).dev)
    (hinum : (f (s.icache i)).inum = (s.icache i).inum)
    (hvalid : (f (s.icache i)).valid = true → (s.icache i).valid = true)
    (href : 0 < (f (s.icache i)).ref → 0 < (s.icache i).ref)
    (hkeep : 0 < (s.icache i).ref → (s.icache i).valid = true →
      (0 < (f (s.icache i)).ref ∧ (f (s.icache i)).valid = true) ∨
        s.vol.ino (s.icache i).inum = v (s.icache i).inum) :
    Wf (s.setSlot i f) v := by
  have hold : ∀ j, ((s.setSlot i f).icache j).dev = (s.icache j).dev ∧
      ((s.setSlot i f).icache j).inum = (s.icache j).inum ∧
      (((s.setSlot i f).icache j).valid = true → (s.icache j).valid = true) ∧
      (0 < ((s.setSlot i f).icache j).ref → 0 < (s.icache j).ref) ∧
      ((s.setSlot i f).icache j).ino = (s.icache j).ino := by
    intro j
    by_cases hj : j = i
    · rw [hj, setSlot_self]
      exact ⟨hdev, hinum, hvalid, href, hino⟩
    · rw [setSlot_other _ _ _ hj]
      exact ⟨rfl, rfl, id, id, rfl⟩
  apply h.of_cacheOnly (setSlot_cacheOnly s i f)
  · intro j hj hr
    obtain ⟨hd, hn, _, hr', _⟩ := hold j
    rw [hd, hn]
    exact h.slots j hj (hr' hr)
  · intro j hj
    rw [(hold j).1]
    exact h.devs j hj
  · intro j k hj hk hrj hrk he
    rw [(hold j).2.1, (hold k).2.1] at he
    exact h.unique j k hj hk ((hold j).2.2.2.1 hrj) ((hold k).2.2.2.1 hrk) he
  · intro j m hl
    obtain ⟨_, hn, hv, hr, hi⟩ := hold j
    rw [hi]
    exact h.cached j m ⟨hl.slot, hr hl.ref, hv hl.valid, hn ▸ hl.inum⟩
  · intro m hm hno
    by_cases hl : ∃ j, Loaded s j m
    · obtain ⟨j, hl⟩ := hl
      by_cases hj : j = i
      · subst hj
        rcases hkeep hl.ref hl.valid with ⟨hr, hv⟩ | hdisk
        · refine absurd ?_ (hno j)
          refine ⟨hl.slot, ?_, ?_, ?_⟩
          · rw [setSlot_self]
            exact hr
          · rw [setSlot_self]
            exact hv
          · rw [(hold j).2.1]
            exact hl.inum
        · rw [hl.inum] at hdisk
          exact hdisk
      · refine absurd ?_ (hno j)
        refine ⟨hl.slot, ?_, ?_, ?_⟩ <;> rw [setSlot_other _ _ _ hj]
        · exact hl.ref
        · exact hl.valid
        · exact hl.inum
    · exact h.disk m hm fun j hl' => hl ⟨j, hl'⟩

end Slots

section Iget

variable {icache : ℕ → Inode} {dev : ℕ}

/-- The slots that hold the inode. -/
abbrev Holds (icache : ℕ → Inode) (dev n i : ℕ) : Prop :=
  0 < (icache i).ref ∧ (icache i).dev = dev ∧ (icache i).inum = n

theorem findSlot_found (h : findSlot icache dev n = .inr i) :
    i < NINODE ∧ Holds icache dev n i := by
  unfold findSlot at h
  split at h
  · rename_i j hj
    cases h
    have hmem := List.mem_of_find?_eq_some hj
    have htest := List.find?_some hj
    exact ⟨List.mem_range.mp hmem, of_decide_eq_true htest⟩
  · cases h

theorem findSlot_none {r : Option ℕ} (h : findSlot icache dev n = .inl r) :
    ∀ j, j < NINODE → ¬ Holds icache dev n j := by
  unfold findSlot at h
  split at h
  · cases h
  · rename_i hnone
    intro j hj hh
    have := List.find?_eq_none.mp hnone j (List.mem_range.mpr hj)
    exact this (decide_eq_true hh)

theorem findSlot_empty (h : findSlot icache dev n = .inl (some i)) :
    i < NINODE ∧ (icache i).ref = 0 := by
  unfold findSlot at h
  split at h
  · cases h
  · have hi := Sum.inl.inj h
    have hmem := List.mem_of_find?_eq_some hi
    have htest := List.find?_some hi
    exact ⟨List.mem_range.mp hmem, of_decide_eq_true htest⟩

/-- Where no slot holds the inode and one is unused, iget takes an unused one. -/
theorem findSlot_unused (hno : ∀ j, j < NINODE → ¬ Holds icache dev n j)
    (hfree : ∃ j, j < NINODE ∧ (icache j).ref = 0) :
    ∃ j, findSlot icache dev n = .inl (some j) := by
  have hnone : (List.range NINODE).find? (fun i =>
      decide (0 < (icache i).ref ∧ (icache i).dev = dev ∧ (icache i).inum = n)) = none := by
    apply List.find?_eq_none.mpr
    intro j hj hh
    exact hno j (List.mem_range.mp hj) (of_decide_eq_true hh)
  unfold findSlot
  rw [hnone]
  cases hfind : (List.range NINODE).find? fun i => decide ((icache i).ref = 0) with
  | some j => exact ⟨j, rfl⟩
  | none =>
    obtain ⟨j, hj, href⟩ := hfree
    have := List.find?_eq_none.mp hfind j (List.mem_range.mpr hj)
    exact absurd (decide_eq_true href) this

/-- The assignments of iget to an unused slot. -/
def Inode.taken (ip : Inode) (dev n : ℕ) : Inode :=
  { ip with dev := dev, inum := n, ref := 1, valid := false }

theorem iget_cases (hrun : iget dev n s = .ok (i, t)) :
    i < NINODE ∧ ((Holds s.icache dev n i ∧
        t = s.setSlot i fun ip => { ip with ref := ip.ref + 1 }) ∨
      ((∀ j, j < NINODE → ¬ Holds s.icache dev n j) ∧ (s.icache i).ref = 0 ∧
        t = s.setSlot i fun ip => ip.taken dev n)) := by
  obtain ⟨icache, s₀, h₀, g₀⟩ := bind_ok.mp hrun
  obtain ⟨hicache, hs₀⟩ := look_ok.mp h₀
  rw [← hs₀, ← hicache] at g₀
  cases hfind : findSlot s.icache dev n with
  | inr j =>
    rw [hfind] at g₀
    obtain ⟨_, s₁, h₁, g₁⟩ := bind_ok.mp g₀
    have hs₁ : _ = s₁ := update_ok.mp h₁
    obtain ⟨rfl, rfl⟩ := pure_ok.mp g₁
    obtain ⟨hj, hh⟩ := findSlot_found hfind
    exact ⟨hj, Or.inl ⟨hh, hs₁.symm⟩⟩
  | inl r =>
    cases r with
    | none =>
      rw [hfind] at g₀
      cases g₀
    | some j =>
      rw [hfind] at g₀
      obtain ⟨_, s₁, h₁, g₁⟩ := bind_ok.mp g₀
      have hs₁ : _ = s₁ := update_ok.mp h₁
      obtain ⟨rfl, rfl⟩ := pure_ok.mp g₁
      obtain ⟨hj, href⟩ := findSlot_empty hfind
      exact ⟨hj, Or.inr ⟨findSlot_none hfind, href, hs₁.symm⟩⟩

theorem iget_unused (hno : ∀ j, j < NINODE → ¬ Holds s.icache dev n j)
    (hfree : ∃ j, j < NINODE ∧ (s.icache j).ref = 0) :
    ∃ i, iget dev n s = .ok (i, s.setSlot i fun ip => ip.taken dev n) := by
  obtain ⟨i, hi⟩ := findSlot_unused hno hfree
  refine ⟨i, ?_⟩
  unfold iget
  rw [bind_of_ok (a := s.icache) (t := s) (look_ok.mpr ⟨rfl, rfl⟩), hi]
  rfl

/-- Taking an unused slot for an inode that no slot holds. -/
theorem Wf.take (h : Wf s v) (hi : i < NINODE) (hpos : 0 < n) (hlt : n < maxInodes)
    (hno : ∀ j, j < NINODE → ¬ Holds s.icache ROOTDEV n j) (href : (s.icache i).ref = 0) :
    Wf (s.setSlot i fun ip => ip.taken ROOTDEV n) v := by
  have hself : (s.setSlot i fun ip => ip.taken ROOTDEV n).icache i = (s.icache i).taken ROOTDEV n :=
    setSlot_self ..
  have hno' : ∀ j, j < NINODE → 0 < (s.icache j).ref → (s.icache j).inum ≠ n := by
    intro j hj hr he
    exact hno j hj ⟨hr, (h.slots j hj hr).1, he⟩
  apply h.of_cacheOnly (setSlot_cacheOnly s i _)
  · intro j hj hr
    by_cases hji : j = i
    · rw [hji, hself]
      exact ⟨rfl, hpos, hlt⟩
    · rw [setSlot_other _ _ _ hji] at hr ⊢
      exact h.slots j hj hr
  · intro j hj
    by_cases hji : j = i
    · rw [hji, hself]
      exact Or.inr rfl
    · rw [setSlot_other _ _ _ hji]
      exact h.devs j hj
  · intro j k hj hk hrj hrk he
    by_cases hji : j = i
    · by_cases hki : k = i
      · rw [hji, hki]
      · rw [setSlot_other _ _ _ hki] at hrk he
        rw [hji, hself] at he
        exact absurd he.symm (hno' k hk hrk)
    · rw [setSlot_other _ _ _ hji] at hrj he
      by_cases hki : k = i
      · rw [hki, hself] at he
        exact absurd he (hno' j hj hrj)
      · rw [setSlot_other _ _ _ hki] at hrk he
        exact h.unique j k hj hk hrj hrk he
  · intro j m hl
    have hji : j ≠ i := by
      rintro rfl
      have hv := hl.valid
      rw [hself] at hv
      cases hv
    have hl' : Loaded s j m := by
      obtain ⟨h₁, h₂, h₃, h₄⟩ := hl
      rw [setSlot_other _ _ _ hji] at h₂ h₃ h₄
      exact ⟨h₁, h₂, h₃, h₄⟩
    rw [setSlot_other _ _ _ hji]
    exact h.cached j m hl'
  · intro m hm hnone
    apply h.disk m hm
    intro j hl
    have hji : j ≠ i := by
      rintro rfl
      have hr := hl.ref
      omega
    apply hnone j
    refine ⟨hl.slot, ?_, ?_, ?_⟩ <;> rw [setSlot_other _ _ _ hji]
    · exact hl.ref
    · exact hl.valid
    · exact hl.inum

/-- iget finds the slot of the inode and counts a reference, or takes an unused slot. -/
theorem iget_spec (h : Wf s v) (hpos : 0 < n) (hlt : n < maxInodes)
    (hrun : iget ROOTDEV n s = .ok (i, t)) :
    Wf t v ∧ CacheOnly s t ∧ i < NINODE ∧
      ((0 < (s.slots i).ref ∧ (s.slots i).inum = n ∧
          t.slots = Function.update s.slots i { s.slots i with ref := (s.slots i).ref + 1 }) ∨
        ((∀ j, j < NINODE → 0 < (s.slots j).ref → (s.slots j).inum ≠ n) ∧ (s.slots i).ref = 0 ∧
          t.slots = Function.update s.slots i ⟨1, n, false⟩)) := by
  obtain ⟨hi, ⟨⟨href, _, hinum⟩, rfl⟩ | ⟨hno, href, rfl⟩⟩ := iget_cases hrun
  · refine ⟨?_, setSlot_cacheOnly .., hi, Or.inl ⟨href, hinum, slots_setSlot ..⟩⟩
    exact h.setRef rfl rfl rfl id (fun _ => href) fun _ hv => Or.inl ⟨Nat.succ_pos _, hv⟩
  · refine ⟨h.take hi hpos hlt hno href, setSlot_cacheOnly .., hi,
      Or.inr ⟨?_, href, slots_setSlot ..⟩⟩
    intro j hj hr he
    exact hno j hj ⟨hr, (h.slots j hj hr).1, he⟩

end Iget

section Ilock

theorem setSlot_setSlot (s : State) (i : ℕ) (f g : Inode → Inode) :
    (s.setSlot i f).setSlot i g = s.setSlot i fun ip => g (f ip) := by
  unfold State.setSlot
  simp only [Function.update_self, Function.update_idem]

/-- The slot after ilock has read the inode from its block. -/
def Inode.loaded (ip : Inode) (data : Bytes) : Inode :=
  { loadDinode data (dinodeOffset ip.inum) ip with locked := true, valid := true }

theorem ilock_valid (href : 0 < (s.icache i).ref) (hfree : (s.icache i).locked = false)
    (hvalid : (s.icache i).valid = true) :
    ilock i s = .ok ((), s.setSlot i fun ip => { ip with locked := true }) := by
  unfold ilock
  rw [bind_of_ok (a := ()) (t := s) (by simp [ensure, href]),
    bind_of_ok (a := ()) (t := s) (by simp [ensure, hfree])]
  rw [bind_of_ok (a := ()) (t := s.setSlot i fun ip => { ip with locked := true }) rfl,
    bind_of_ok (look_ok.mpr ⟨rfl, rfl⟩), setSlot_self, if_pos hvalid]
  rfl

theorem ilock_load (href : 0 < (s.icache i).ref) (hfree : (s.icache i).locked = false)
    (hvalid : (s.icache i).valid = false) (hheld : s.held = [])
    (hrange : IBLOCK (s.icache i).inum s.sb < FSSIZE) :
    ilock i s =
      if get (s.blk (s.icache i).dev (IBLOCK (s.icache i).inum s.sb))
          (dinodeOffset (s.icache i).inum) 2 = 0 then .error .noType
      else .ok ((), s.setSlot i fun ip =>
        ip.loaded (s.blk (s.icache i).dev (IBLOCK (s.icache i).inum s.sb))) := by
  set b := IBLOCK (s.icache i).inum s.sb with hb
  set dev := (s.icache i).dev with hdev
  set data := s.blk dev b with hdata
  set s₁ := s.setSlot i fun ip => { ip with locked := true } with hs₁
  have hread : bread dev b s₁ = .ok (data, { s₁ with held := [(dev, b)] }) := by
    rw [bread_ok]
    exact ⟨by rw [hs₁, setSlot_held, hheld]; simp, hrange, rfl, by rw [hs₁, setSlot_held, hheld]⟩
  set s₂ := State.setSlot { s₁ with held := [(dev, b)] } i
    (fun ip => loadDinode data (dinodeOffset ip.inum) ip) with hs₂
  set s₃ := s₁.setSlot i (fun ip => loadDinode data (dinodeOffset ip.inum) ip) with hs₃
  have hrelse : brelse dev b s₂ = .ok ((), s₃) := by
    rw [brelse_ok]
    refine ⟨by rw [hs₂, setSlot_held]; simp, ?_⟩
    have hempty : s₂.held.erase (dev, b) = s₃.held := by
      rw [hs₂, hs₃, setSlot_held, setSlot_held, hs₁, setSlot_held, hheld, List.erase_cons_head]
    rw [hempty]
    rfl
  have hlast : s₃.setSlot i (fun ip => { ip with valid := true }) =
      s.setSlot i fun ip => ip.loaded data := by
    rw [hs₃, hs₁, setSlot_setSlot, setSlot_setSlot]
    rfl
  unfold ilock
  rw [bind_of_ok (a := ()) (t := s) (by simp [ensure, href]),
    bind_of_ok (a := ()) (t := s) (by simp [ensure, hfree]),
    bind_of_ok (a := ()) (t := s₁) rfl, bind_of_ok (look_ok.mpr ⟨rfl, rfl⟩), hs₁, setSlot_self,
    if_neg (by simp [hvalid]), ← hs₁, bind_of_ok (a := s.sb) (t := s₁) rfl, bind_of_ok hread,
    bind_of_ok (a := ()) (t := s₂) rfl, bind_of_ok hrelse,
    bind_of_ok (a := ()) (t := s₃.setSlot i fun ip => { ip with valid := true }) rfl, hlast]
  unfold ensure
  simp only [setSlot_self]
  show (if decide (get data (dinodeOffset (s.icache i).inum) 2 ≠ 0) = true then _ else _) = _
  by_cases htype : get data (dinodeOffset (s.icache i).inum) 2 = 0
  · rw [if_pos htype, if_neg (by simp [htype])]
  · rw [if_neg htype, if_pos (by simp [htype])]

/-- Loading an inode that no slot has loaded yet. -/
theorem Wf.load (h : Wf s v) (hi : i < NINODE) (href : 0 < (s.icache i).ref)
    (hvalid : (s.icache i).valid = false) :
    Wf (s.setSlot i fun ip => ip.loaded (s.blk ROOTDEV (IBLOCK (s.icache i).inum mkfsSuperblock)))
      v := by
  obtain ⟨hdev, hpos, hlt⟩ := h.slots i hi href
  set n := (s.icache i).inum with hn
  set data := s.blk ROOTDEV (IBLOCK n mkfsSuperblock) with hdata
  have hself : (s.setSlot i fun ip => ip.loaded data).icache i = (s.icache i).loaded data :=
    setSlot_self ..
  have hnone : ∀ j, ¬ Loaded s j n := by
    intro j hl
    have hji := h.unique j i hl.slot hi hl.ref href hl.inum
    have hv := hl.valid
    rw [hji, hvalid] at hv
    cases hv
  have hread : readIno data (dinodeOffset n) = v n := by
    rw [← h.disk n hlt hnone]
    exact (if_pos hlt).symm
  apply h.of_cacheOnly (setSlot_cacheOnly s i _)
  · intro j hj hr
    by_cases hji : j = i
    · rw [hji, hself]
      exact ⟨hdev, hpos, hlt⟩
    · rw [setSlot_other _ _ _ hji] at hr ⊢
      exact h.slots j hj hr
  · intro j hj
    by_cases hji : j = i
    · rw [hji, hself]
      exact Or.inr hdev
    · rw [setSlot_other _ _ _ hji]
      exact h.devs j hj
  · intro j k hj hk hrj hrk he
    have hsame : ∀ j, ((s.setSlot i fun ip => ip.loaded data).icache j).ref = (s.icache j).ref ∧
        ((s.setSlot i fun ip => ip.loaded data).icache j).inum = (s.icache j).inum := by
      intro j
      by_cases hji : j = i
      · rw [hji, hself]
        exact ⟨rfl, rfl⟩
      · rw [setSlot_other _ _ _ hji]
        exact ⟨rfl, rfl⟩
    rw [(hsame j).2, (hsame k).2] at he
    exact h.unique j k hj hk ((hsame j).1 ▸ hrj) ((hsame k).1 ▸ hrk) he
  · intro j m hl
    by_cases hji : j = i
    · have hm : m = n := by
        rw [← hl.inum, hji, hself]
        rfl
      rw [hji, hself, hm, ← hread]
      rfl
    · obtain ⟨h₁, h₂, h₃, h₄⟩ := hl
      rw [setSlot_other _ _ _ hji] at h₂ h₃ h₄ ⊢
      exact h.cached j m ⟨h₁, h₂, h₃, h₄⟩
  · intro m hm hno
    apply h.disk m hm
    intro j hl
    have hji : j ≠ i := by
      rintro rfl
      have hv := hl.valid
      rw [hvalid] at hv
      cases hv
    apply hno j
    refine ⟨hl.slot, ?_, ?_, ?_⟩ <;> rw [setSlot_other _ _ _ hji]
    · exact hl.ref
    · exact hl.valid
    · exact hl.inum

/-- The type that ilock reads for an inode that no slot has loaded. -/
theorem Wf.load_type (h : Wf s v) (hi : i < NINODE) (href : 0 < (s.icache i).ref)
    (hvalid : (s.icache i).valid = false) :
    get (s.blk ROOTDEV (IBLOCK (s.icache i).inum mkfsSuperblock))
      (dinodeOffset (s.icache i).inum) 2 = (v (s.icache i).inum).type := by
  have hcached := (h.load hi href hvalid).cached i (s.icache i).inum (by
    refine ⟨hi, ?_, ?_, ?_⟩ <;> rw [setSlot_self]
    · exact href
    · rfl
    · rfl)
  rw [← hcached, setSlot_self]
  rfl

theorem Wf.iblock_lt (h : Wf s v) (hlt : n < maxInodes) : IBLOCK n s.sb < FSSIZE := by
  have hmax : maxInodes = 208 := rfl
  have hsize : FSSIZE = 25600 := rfl
  rw [h.sb, IBLOCK_mkfs]
  omega

/-- An inode that ilock returns with has a type. -/
theorem type_of_ilock (h : Wf s v) (hheld : s.held = []) (hi : i < NINODE)
    (hvalid : (s.icache i).valid = false) (hrun : ilock i s = .ok ((), t)) :
    (v (s.icache i).inum).type ≠ 0 := by
  obtain ⟨_, s₀, h₀, g₀⟩ := bind_ok.mp hrun
  obtain ⟨href, rfl⟩ := ensure_ok.mp h₀
  obtain ⟨_, s₁, h₁, _⟩ := bind_ok.mp g₀
  obtain ⟨hfree, rfl⟩ := ensure_ok.mp h₁
  have href := of_decide_eq_true href
  obtain ⟨hdev, _, hlt⟩ := h.slots i hi href
  rw [ilock_load href (by simpa using hfree) hvalid hheld (h.iblock_lt hlt), hdev, h.sb,
    h.load_type hi href hvalid] at hrun
  intro hzero
  rw [if_pos hzero] at hrun
  cases hrun

/-- ilock loads the inode unless it is loaded; with a type it does not panic for one. -/
theorem ilock_ends (h : Wf s v) (hheld : s.held = []) (hi : i < NINODE)
    (htype : 0 < (s.icache i).ref → (v (s.icache i).inum).type ≠ 0) :
    Ends (· = .noType) (ilock i s) fun _ t =>
      0 < (s.icache i).ref ∧ Wf t v ∧ CacheOnly s t ∧ Loaded t i (s.icache i).inum ∧
        t.slots = Function.update s.slots i { s.slots i with valid := true } := by
  by_cases href : 0 < (s.icache i).ref
  · by_cases hlocked : (s.icache i).locked = true
    · have hrun : ilock i s = .error .deadlock := by
        unfold ilock
        rw [bind_of_ok (a := ()) (t := s) (by simp [ensure, href]),
          bind_of_error (e := Halt.deadlock) (by simp [ensure, hlocked])]
      rw [hrun]
      show Halt.deadlock ≠ Halt.noType
      simp
    · rw [Bool.not_eq_true] at hlocked
      by_cases hvalid : (s.icache i).valid = true
      · rw [ilock_valid href hlocked hvalid]
        refine ⟨href, h.setRef rfl rfl rfl id id fun hr hv => Or.inl ⟨hr, hv⟩,
          setSlot_cacheOnly .., ?_, ?_⟩
        · refine ⟨hi, ?_, ?_, ?_⟩ <;> rw [setSlot_self]
          · exact href
          · exact hvalid
        · rw [slots_setSlot]
          congr 1
          ext
          · rfl
          · rfl
          · show (s.icache i).valid = true
            exact hvalid
      · rw [Bool.not_eq_true] at hvalid
        obtain ⟨hdev, _, hlt⟩ := h.slots i hi href
        have hload := h.load hi href hvalid
        rw [ilock_load href hlocked hvalid hheld (h.iblock_lt hlt), hdev, h.sb]
        rw [if_neg (by rw [h.load_type hi href hvalid]; exact htype href)]
        refine ⟨href, hload, setSlot_cacheOnly .., ?_, ?_⟩
        · refine ⟨hi, ?_, ?_, ?_⟩ <;> rw [setSlot_self]
          · exact href
          · rfl
          · rfl
        · rw [slots_setSlot]
          rfl
  · have hrun : ilock i s = .error .ilock := by
      unfold ilock
      rw [bind_of_error (e := Halt.ilock) (by simp [ensure, href])]
    rw [hrun]
    show Halt.ilock ≠ Halt.noType
    simp

end Ilock

end NorthOS.Fs
