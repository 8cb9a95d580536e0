import NorthOS.Trunc

/-!
What the layers above see of a file system between two calls of fs.c: for each inode
its fields and its bytes, and for each slot of the cache its inode and references. Each
operation of fs.c has one lemma that says how it changes this view. Only ilock can
panic for an inode without a type.
-/
namespace NorthOS.Fs

open LittleEndian Halting Comp Ownership

/-- A file as its users see it; bytes from `size` on are 0. -/
@[ext] structure Node where
  type : ℕ
  major : ℕ
  minor : ℕ
  nlink : ℕ
  size : ℕ
  byte : ℕ → UInt8

abbrev Files := ℕ → Node

abbrev Slots := ℕ → Slot

/-- Every byte of the file in front of the double-indirect blocks has a block. -/
def NearMapped (v : Inos) (vol : Volume) (n : ℕ) : Prop :=
  ∀ o, o < (v n).size → o < nearBytes → blocks v vol (n, placeOf (o / BSIZE)) ≠ 0

/-- A file system between two calls of fs.c, with the logical inodes `v`: no buffer is
locked, the inodes are on the disk, loaded ones have a type, and files have the blocks
that the inode cache can name. If `near` holds, no other blocks are in use. -/
structure Sound (near : Prop) (s : State) (v : Inos) : Prop extends Wf s v where
  quiet : s.held = []
  synced : Synced s v
  typed : ∀ i n, Loaded s i n → (v n).type ≠ 0
  mapped : ∀ n, NearMapped v s.vol n
  leaks : near → NoLeaks s v
  far : near → ∀ n, s.vol.far n = 0

def nodeOf (v : Inos) (vol : Volume) (n : ℕ) : Node where
  type := (v n).type
  major := (v n).major
  minor := (v n).minor
  nlink := (v n).nlink
  size := (v n).size
  byte := fun o => if o < (v n).size then byteAt v vol n o else 0

def Shows (near : Prop) (s : State) (A : Files) (σ : Slots) : Prop :=
  ∃ v, Sound near s v ∧ nodeOf v s.vol = A ∧ s.slots = σ

section Typed

/-- The computation does not panic for an inode without a type. -/
abbrev Typed {B : Type} (x : M B) : Prop := Within (· = Halt.noType) (fun _ _ => True) x

theorem any_composes : Composes fun _ _ : State => True := ⟨fun _ => trivial, fun _ _ => trivial⟩

theorem ends_of_typed {B : Type} {x : M B} {s : State} {Q : B → State → Prop} (hx : Typed x)
    (hok : ∀ a t, x s = .ok (a, t) → Q a t) : Ends (· = Halt.noType) (x s) Q :=
  ends_iff.mpr ⟨hok, fun _ he => (hx s).of_error he⟩

theorem typed_of_frame {B : Type} {x : M B} (h : Within Fault Frame x) : Typed x :=
  h.mono (fun _ _ _ => trivial) fun _ he => Or.inl he

theorem typed_of_frameBut {B : Type} {x : M B} {i : ℕ} (h : Within Fault (FrameBut i) x) :
    Typed x :=
  h.mono (fun _ _ _ => trivial) fun _ he => Or.inl he

variable {i k : ℕ}

theorem setSlot_typed {f : Inode → Inode} : Typed (setSlot i f) := typed_of_frameBut setSlot_within

theorem look_typed {B : Type} {f : State → B} : Typed (look f : M B) := within_look any_composes

theorem pure_typed {B : Type} {b : B} : Typed (pure b : M B) := within_pure any_composes

theorem getAddr_typed : Typed (getAddr i k) :=
  Within.bind any_composes (within_ensure any_composes (by simp)) fun _ => look_typed

theorem setAddr_typed {a : ℕ} : Typed (setAddr i k a) :=
  Within.bind any_composes (within_ensure any_composes (by simp)) fun _ =>
    within_update fun _ => trivial

theorem addrEntry_typed : Typed (addrEntry i k) := by
  unfold addrEntry
  refine getAddr_typed.bind any_composes fun addr => Within.ite ?_ pure_typed
  refine look_typed.bind any_composes fun dev => ?_
  refine (typed_of_frame balloc_within).bind any_composes fun addr => ?_
  exact setAddr_typed.bind any_composes fun _ => pure_typed

theorem bmap_typed {bn : ℕ} : Typed (bmap i bn) := by
  have hindex : ∀ a k, Typed (indexEntry i a k) := fun _ _ => typed_of_frameBut indexEntry_within
  unfold bmap
  refine addrEntry_typed.ite (Within.ite ?_ (Within.ite ?_ (within_halt (by simp))))
  · exact addrEntry_typed.bind any_composes fun _ => hindex _ _
  · refine addrEntry_typed.bind any_composes fun _ => ?_
    exact (hindex _ _).bind any_composes fun _ => hindex _ _

theorem freeEntries_typed {inner : ℕ → M Unit} (hinner : ∀ a, Typed (inner a)) {addr : ℕ} :
    Typed (freeEntries i inner addr) := by
  unfold freeEntries
  generalize NINDIRECT = n
  refine look_typed.bind any_composes fun dev => ?_
  refine (typed_of_frame bread_within).bind any_composes fun _ => ?_
  refine (within_forBelow any_composes fun j _ => ?_).bind any_composes fun _ =>
    typed_of_frame brelse_within
  refine look_typed.bind any_composes fun a => pure_typed.ite ?_
  refine (hinner _).bind any_composes fun _ => ?_
  exact look_typed.bind any_composes fun dev' => typed_of_frame bfree_within

theorem freeAddr_typed {inner : ℕ → M Unit} (hinner : ∀ a, Typed (inner a)) :
    Typed (freeAddr i k inner) := by
  unfold freeAddr
  refine getAddr_typed.bind any_composes fun addr => pure_typed.ite ?_
  refine (hinner _).bind any_composes fun _ => ?_
  refine look_typed.bind any_composes fun dev => ?_
  refine getAddr_typed.bind any_composes fun addr => ?_
  exact (typed_of_frame bfree_within).bind any_composes fun _ => setAddr_typed

theorem iupdate_typed : Typed (iupdate i) := typed_of_frameBut iupdate_within

theorem itrunc_typed : Typed (itrunc i) := by
  have hleaf : ∀ a, Typed (freeEntries i (fun _ => pure ()) a) :=
    fun _ => freeEntries_typed fun _ => pure_typed
  unfold itrunc
  refine (within_forBelow any_composes fun k _ => freeAddr_typed fun _ => pure_typed).bind
    any_composes fun _ => ?_
  refine (freeAddr_typed hleaf).bind any_composes fun _ => ?_
  refine (freeAddr_typed fun _ => freeEntries_typed hleaf).bind any_composes fun _ => ?_
  exact setSlot_typed.bind any_composes fun _ => iupdate_typed

theorem iunlock_typed : Typed (iunlock i) :=
  Within.bind any_composes (within_ensure any_composes (by simp)) fun _ => setSlot_typed

theorem iput_typed : Typed (iput i) := by
  unfold iput
  refine Within.bind any_composes (within_ensure any_composes (by simp)) fun _ => ?_
  refine setSlot_typed.bind any_composes fun _ => ?_
  refine look_typed.bind any_composes fun ip => ?_
  refine Within.bind any_composes (Within.ite ?_ pure_typed) fun _ => ?_
  · refine itrunc_typed.bind any_composes fun _ => ?_
    refine setSlot_typed.bind any_composes fun _ => ?_
    exact iupdate_typed.bind any_composes fun _ => setSlot_typed
  · exact setSlot_typed.bind any_composes fun _ => setSlot_typed

theorem iget_typed {dev n : ℕ} : Typed (iget dev n) := by
  unfold iget
  refine look_typed.bind any_composes fun icache => ?_
  split
  · exact setSlot_typed.bind any_composes fun _ => pure_typed
  · exact within_halt (by simp)
  · exact setSlot_typed.bind any_composes fun _ => pure_typed

theorem ialloc_typed {dev type : ℕ} : Typed (ialloc dev type) := by
  have hscan : ∀ fuel n, Typed (scanInodes dev type fuel n) := by
    intro fuel
    induction fuel with
    | zero => exact fun _ => within_halt (by simp)
    | succ fuel ih =>
      intro n
      unfold scanInodes
      refine look_typed.bind any_composes fun sb => ?_
      refine (typed_of_frame bread_within).bind any_composes fun data => Within.ite ?_ ?_
      · refine (typed_of_frame setData_within).bind any_composes fun _ => ?_
        refine (typed_of_frame logWrite_within).bind any_composes fun _ => ?_
        exact (typed_of_frame brelse_within).bind any_composes fun _ => iget_typed
      · exact (typed_of_frame brelse_within).bind any_composes fun _ => ih _
  exact look_typed.bind any_composes fun _ => hscan _ _

theorem writeLoop_typed {m : ℕ} {src : Bytes} {fuel off tot : ℕ} :
    Typed (writeLoop i m src fuel off tot) := by
  induction fuel generalizing off tot with
  | zero => exact pure_typed
  | succ fuel ih =>
    unfold writeLoop
    refine Within.ite ?_ pure_typed
    refine bmap_typed.bind any_composes fun addr => ?_
    refine look_typed.bind any_composes fun dev => ?_
    refine (typed_of_frame bread_within).bind any_composes fun _ => ?_
    refine (typed_of_frame setData_within).bind any_composes fun _ => ?_
    refine (typed_of_frame logWrite_within).bind any_composes fun _ => ?_
    exact (typed_of_frame brelse_within).bind any_composes fun _ => ih

theorem writei_typed {src : Bytes} {off m : ℕ} : Typed (writei i src off m) := by
  unfold writei
  refine look_typed.bind any_composes fun ip => Within.ite ?_ (pure_typed.ite (pure_typed.ite ?_))
  · refine look_typed.bind any_composes fun devsw => ?_
    split
    · exact pure_typed
    · exact pure_typed
  · refine writeLoop_typed.bind any_composes fun _ => ?_
    refine look_typed.bind any_composes fun size => ?_
    refine Within.bind any_composes (Within.ite ?_ pure_typed) fun _ => pure_typed
    exact setSlot_typed.bind any_composes fun _ => iupdate_typed

end Typed

variable {near : Prop} {i n : ℕ} {s t : State} {v v' : Inos} {A : Files} {σ : Slots}

section Frames

/-- A change of the cache alone. -/
theorem Sound.of_cacheOnly (h : Sound near s v) (hwf : Wf t v) (hc : CacheOnly s t)
    (htyped : ∀ i n, Loaded t i n → (v n).type ≠ 0) : Sound near t v where
  toWf := hwf
  quiet := hc.held.trans h.quiet
  synced := by
    intro m hm
    rw [hc.vol]
    exact h.synced m hm
  typed := htyped
  mapped := by
    rw [hc.vol]
    exact h.mapped
  leaks := by
    intro hnear
    have hleak := h.leaks hnear
    unfold NoLeaks at hleak ⊢
    rw [hc.vol]
    exact hleak
  far := by
    rw [hc.vol]
    exact h.far

theorem Shows.of_cacheOnly (h : Sound near s v) (hA : nodeOf v s.vol = A) (hwf : Wf t v)
    (hc : CacheOnly s t) (htyped : ∀ i n, Loaded t i n → (v n).type ≠ 0) (hσ : t.slots = σ) :
    Shows near t A σ :=
  ⟨v, h.of_cacheOnly hwf hc htyped, by rw [hc.vol]; exact hA, hσ⟩

theorem loaded_iff : Loaded s i n ↔
    i < NINODE ∧ 0 < (s.slots i).ref ∧ (s.slots i).valid = true ∧ (s.slots i).inum = n :=
  ⟨fun h => ⟨h.slot, h.ref, h.valid, h.inum⟩, fun h => ⟨h.1, h.2.1, h.2.2.1, h.2.2.2⟩⟩

theorem Shows.range (h : Shows near s A σ) (hi : i < NINODE) (href : 0 < (σ i).ref) :
    0 < (σ i).inum ∧ (σ i).inum < maxInodes := by
  obtain ⟨v, hv, _, rfl⟩ := h
  exact (hv.slots i hi href).2

theorem Shows.unique (h : Shows near s A σ) {j : ℕ} (hi : i < NINODE) (hj : j < NINODE)
    (hri : 0 < (σ i).ref) (hrj : 0 < (σ j).ref) (he : (σ i).inum = (σ j).inum) : i = j := by
  obtain ⟨v, hv, _, rfl⟩ := h
  exact hv.unique i j hi hj hri hrj he

/-- A loaded inode has a type. -/
theorem Shows.typed (h : Shows near s A σ) (hi : i < NINODE) (href : 0 < (σ i).ref)
    (hvalid : (σ i).valid = true) : (A (σ i).inum).type ≠ 0 := by
  obtain ⟨v, hv, rfl, rfl⟩ := h
  exact hv.typed i _ (loaded_iff.mpr ⟨hi, href, hvalid, rfl⟩)

theorem Shows.outside (h : Shows near s A σ) (hn : maxInodes ≤ n) : (A n).type = 0 := by
  obtain ⟨v, hv, rfl, _⟩ := h
  show (v n).type = 0
  rw [hv.outside n hn]
  rfl

end Frames

section Slots

theorem Shows.ilock (h : Shows near s A σ) (hi : i < NINODE)
    (htype : 0 < (σ i).ref → (A (σ i).inum).type ≠ 0) :
    Ends (· = .noType) (ilock i s) fun _ t => 0 < (σ i).ref ∧
      Shows near t A (Function.update σ i { σ i with valid := true }) := by
  obtain ⟨v, hv, rfl, rfl⟩ := h
  refine (ilock_ends hv.toWf hv.quiet hi htype).mono ?_
  rintro _ t ⟨href, hwf, hc, hl, hslots⟩
  refine ⟨href, Shows.of_cacheOnly hv rfl hwf hc ?_ hslots⟩
  intro j m hl'
  by_cases hj : j = i
  · have hm : m = (s.slots i).inum := by
      rw [← hl'.inum, hj, hl.inum]
      rfl
    rw [hm]
    exact htype href
  · rw [loaded_iff, hslots, Function.update_of_ne hj] at hl'
    exact hv.typed j m (loaded_iff.mpr hl')

/-- An inode that ilock returns with has a type. -/
theorem Shows.locked (h : Shows near s A σ) (hi : i < NINODE) :
    Gives (Fs.ilock i s) fun _ t => 0 < (σ i).ref ∧ (A (σ i).inum).type ≠ 0 ∧
      Shows near t A (Function.update σ i { σ i with valid := true }) := by
  refine gives_iff.mpr fun _ t hrun => ?_
  have htype : 0 < (σ i).ref → (A (σ i).inum).type ≠ 0 := by
    intro href
    by_cases hvalid : (σ i).valid = true
    · exact h.typed hi href hvalid
    · obtain ⟨v, hv, rfl, rfl⟩ := h
      rw [Bool.not_eq_true] at hvalid
      exact type_of_ilock hv.toWf hv.quiet hi hvalid hrun
  obtain ⟨href, hshows⟩ := (h.ilock hi htype).of_ok hrun
  exact ⟨href, htype href, hshows⟩

/-- Assignments to the lock of a slot. -/
theorem Shows.setLock (h : Shows near s A σ) (b : Bool) :
    Shows near (s.setSlot i fun ip => { ip with locked := b }) A σ := by
  obtain ⟨v, hv, rfl, rfl⟩ := h
  have hslots : (s.setSlot i fun ip => { ip with locked := b }).slots = s.slots := by
    rw [slots_setSlot]
    exact Function.update_eq_self i s.slots
  have hwf : Wf (s.setSlot i fun ip => { ip with locked := b }) v :=
    hv.toWf.setRef rfl rfl rfl id id fun hr hv => Or.inl ⟨hr, hv⟩
  refine Shows.of_cacheOnly hv rfl hwf (setSlot_cacheOnly ..) ?_ hslots
  intro j m hl
  rw [loaded_iff, hslots] at hl
  exact hv.typed j m (loaded_iff.mpr hl)

theorem Shows.iunlock (h : Shows near s A σ) :
    Ends (· = .noType) (iunlock i s) fun _ t => Shows near t A σ := by
  apply ends_of_typed iunlock_typed
  intro _ t hrun
  obtain ⟨_, s₁, h₁, h₂⟩ := bind_ok.mp hrun
  obtain ⟨_, rfl⟩ := ensure_ok.mp h₁
  rw [← update_ok.mp h₂]
  exact h.setLock false

/-- A further reference to a slot in use. -/
theorem Shows.idup (h : Shows near s A σ) (href : 0 < (σ i).ref) :
    Ends (· = .noType) (idup i s) fun _ t =>
      Shows near t A (Function.update σ i { σ i with ref := (σ i).ref + 1 }) := by
  apply ends_of_typed setSlot_typed
  intro _ t hrun
  rw [← update_ok.mp hrun]
  obtain ⟨v, hv, rfl, rfl⟩ := h
  have hwf : Wf (s.setSlot i fun ip => { ip with ref := ip.ref + 1 }) v :=
    hv.toWf.setRef rfl rfl rfl id (fun _ => href) fun _ hv => Or.inl ⟨Nat.succ_pos _, hv⟩
  have hslots := slots_setSlot s i fun ip => { ip with ref := ip.ref + 1 }
  refine Shows.of_cacheOnly hv rfl hwf (setSlot_cacheOnly ..) ?_ hslots
  intro j m hl
  rw [loaded_iff, hslots] at hl
  by_cases hj : j = i
  · rw [hj, Function.update_self] at hl
    exact hv.typed i m (loaded_iff.mpr ⟨hj ▸ hl.1, href, hl.2.2.1, hl.2.2.2⟩)
  · rw [Function.update_of_ne hj] at hl
    exact hv.typed j m (loaded_iff.mpr hl)

/-- The slots after iget: one more reference to the slot that has the inode, or a slot
taken for it. -/
def Got (n i : ℕ) (σ σ' : Slots) : Prop :=
  i < NINODE ∧
    ((0 < (σ i).ref ∧ (σ i).inum = n ∧
        σ' = Function.update σ i { σ i with ref := (σ i).ref + 1 }) ∨
      ((∀ j, j < NINODE → 0 < (σ j).ref → (σ j).inum ≠ n) ∧ (σ i).ref = 0 ∧
        σ' = Function.update σ i ⟨1, n, false⟩))

theorem Sound.iget (hv : Sound near s v) (hpos : 0 < n) (hlt : n < maxInodes)
    (hrun : iget ROOTDEV n s = .ok (i, t)) :
    Sound near t v ∧ t.vol = s.vol ∧ Got n i s.slots t.slots := by
  obtain ⟨hwf, hc, hi, hcases⟩ := iget_spec hv.toWf hpos hlt hrun
  refine ⟨hv.of_cacheOnly hwf hc ?_, hc.vol, hi, hcases⟩
  intro j m hl
  rw [loaded_iff] at hl
  rcases hcases with ⟨href, _, hslots⟩ | ⟨_, _, hslots⟩
  · rw [hslots] at hl
    by_cases hj : j = i
    · rw [hj, Function.update_self] at hl
      exact hv.typed i m (loaded_iff.mpr ⟨hj ▸ hl.1, href, hl.2.2.1, hl.2.2.2⟩)
    · rw [Function.update_of_ne hj] at hl
      exact hv.typed j m (loaded_iff.mpr hl)
  · rw [hslots] at hl
    by_cases hj : j = i
    · rw [hj, Function.update_self] at hl
      cases hl.2.2.1
    · rw [Function.update_of_ne hj] at hl
      exact hv.typed j m (loaded_iff.mpr hl)

theorem Shows.iget (h : Shows near s A σ) (hpos : 0 < n) (hlt : n < maxInodes) :
    Ends (· = .noType) (iget ROOTDEV n s) fun i t => ∃ σ', Shows near t A σ' ∧ Got n i σ σ' := by
  apply ends_of_typed iget_typed
  intro i t hrun
  obtain ⟨v, hv, rfl, rfl⟩ := h
  obtain ⟨hv', hvol, hgot⟩ := hv.iget hpos hlt hrun
  exact ⟨_, ⟨v, hv', by rw [hvol], rfl⟩, hgot⟩

end Slots

/-- Slot `i` is in use and has the loaded inode `n`. -/
structure At (σ : Slots) (i n : ℕ) : Prop where
  slot : i < NINODE
  ref : 0 < (σ i).ref
  valid : (σ i).valid = true
  inum : (σ i).inum = n

section Contents

theorem At.loaded (hat : At s.slots i n) : Loaded s i n := ⟨hat.slot, hat.ref, hat.valid, hat.inum⟩

/-- The fields of a loaded inode in the cache. -/
theorem Shows.fields (h : Shows near s A σ) (hat : At σ i n) :
    (s.icache i).dev = ROOTDEV ∧ (s.icache i).inum = n ∧ (s.icache i).type = (A n).type ∧
      (s.icache i).major = (A n).major ∧ (s.icache i).minor = (A n).minor ∧
      (s.icache i).nlink = (A n).nlink ∧ (s.icache i).size = (A n).size := by
  obtain ⟨v, hv, rfl, rfl⟩ := h
  have hl := hat.loaded
  have hcached := hv.cached i n hl
  refine ⟨hv.toWf.dev hl, hl.inum, ?_⟩
  show _ = (v n).type ∧ _ = (v n).major ∧ _ = (v n).minor ∧ _ = (v n).nlink ∧ _ = (v n).size
  rw [← hcached]
  exact ⟨rfl, rfl, rfl, rfl, rfl⟩

/-- readi returns the bytes of the file, up to its end. -/
theorem Shows.readi (h : Shows near s A σ) (hat : At σ i n) (htype : (A n).type ≠ T_DEV) {off m : ℕ}
    (hoff : off ≤ (A n).size) (hwrap : off + m < 2 ^ 32)
    (hend : (A n).size ≤ off ∨ min (off + m) (A n).size ≤ nearBytes) :
    ∃ d, readi i off m s = .ok ((((min m ((A n).size - off) : ℕ) : ℤ), d), s) ∧
      ∀ k, k < min m ((A n).size - off) → d k = (A n).byte (off + k) := by
  obtain ⟨v, hv, rfl, rfl⟩ := h
  obtain ⟨d, hd, hvalue⟩ := readi_mapped hv.toWf hat.loaded hv.quiet htype
    (fun o hlo ho hlt => hv.mapped n o ho (by
      have hend' : (v n).size ≤ off ∨ min (off + m) (v n).size ≤ nearBytes := hend
      omega))
    hoff hwrap
  refine ⟨d, hd, fun k hk => ?_⟩
  rw [hvalue k hk]
  have hlt : off + k < (v n).size := by
    have hk' : k < (v n).size - off := Nat.lt_of_lt_of_le hk (Nat.min_le_right _ _)
    omega
  exact (if_pos hlt).symm

/-- The file after a write that began no later than at its end. -/
def Node.written (x : Node) (off m : ℕ) (src : Bytes) : Node :=
  { x with
    size := max x.size (off + m)
    byte := fun o => if off ≤ o ∧ o < off + m then src (o - off) else x.byte o }

theorem Node.ext_iff' {x y : Node} (hsize : x.size = y.size) (htype : x.type = y.type)
    (hmajor : x.major = y.major) (hminor : x.minor = y.minor) (hnlink : x.nlink = y.nlink)
    (hbyte : ∀ o, x.byte o = y.byte o) : x = y :=
  Node.ext htype hmajor hminor hnlink hsize (funext hbyte)

/-- writei of the cached file system and of the file as its users see it. -/
theorem Shows.writei (h : Shows near s A σ) (hat : At σ i n) (hdev : (A n).type ≠ T_DEV)
    {src : Bytes}
    {off m : ℕ} (hoff : off ≤ (A n).size) (hsmall : off + m ≤ nearBytes)
    (hsize : (A n).size ≤ nearBytes) :
    Ends (· = .noType) (writei i src off m s) fun r t =>
      r = m ∧ Shows near t (Function.update A n ((A n).written off m src)) σ := by
  apply ends_of_typed writei_typed
  intro r t hrun
  obtain ⟨v, hv, rfl, rfl⟩ := h
  have hl := hat.loaded
  have hnear : off + m ≤ smallBlocks * BSIZE := by
    rw [← nearBytes_eq]
    exact hsmall
  obtain ⟨hr, v', hw⟩ := writei_spec hv.toWf hl (hv.typed i n hl) hdev hoff hnear hrun
  have hgrown : (v' n).size = max (v n).size (off + m) := by rw [hw.node]
  have hmap : ∀ o, o < (v n).size → blocks v s.vol (n, placeOf (o / BSIZE)) ≠ 0 :=
    fun o ho => hv.mapped n o ho (Nat.lt_of_lt_of_le ho hsize)
  have hbyte : ∀ o, o < (v' n).size → bytes v' t.vol n o =
      some (if off ≤ o ∧ o < off + m then src (o - off) else byteAt v s.vol n o) := by
    intro o ho
    by_cases hin : off ≤ o ∧ o < off + m
    · rw [if_pos hin]
      exact hw.wrote.inside o hin.1 hin.2
    · rw [if_neg hin]
      have holt : o < (v n).size := by
        have hoff' : off ≤ (v n).size := hoff
        omega
      cases hold : bytes v s.vol n o with
      | none => exact absurd (bytes_none.mp hold) (hmap o holt)
      | some x =>
        rw [hw.wrote.outside o x (by omega) hold, byteAt, hold]
        rfl
  have hmapped : ∀ k, NearMapped v' t.vol k := by
    intro k o ho hlt hzero
    have hnone := bytes_none.mpr hzero
    by_cases hk : k = n
    · subst hk
      rw [hbyte o ho] at hnone
      cases hnone
    · rw [hw.others k hk] at ho
      rw [hw.wrote.away k o hk] at hnone
      exact hv.mapped k o ho hlt (bytes_none.mp hnone)
  refine ⟨hr, v', ⟨hw.wf, hw.steady.held.trans hv.quiet, hw.synced hv.synced hmap, ?_, hmapped,
    fun hnear => hw.leaks (hv.leaks hnear), ?_⟩, ?_, hw.steady.slots⟩
  · intro j k hl'
    have hold := hv.typed j k (hw.steady.loaded.mp hl')
    by_cases hk : k = n
    · rw [hk, hw.node]
      exact hk ▸ hold
    · rw [hw.others k hk]
      exact hold
  · intro hnear k
    rw [hw.far]
    exact hv.far hnear k
  · funext k
    by_cases hk : k = n
    · rw [hk, Function.update_self]
      refine Node.ext_iff' hgrown ?_ ?_ ?_ ?_ fun o => ?_
      · show (v' n).type = (v n).type
        rw [hw.node]
      · show (v' n).major = (v n).major
        rw [hw.node]
      · show (v' n).minor = (v n).minor
        rw [hw.node]
      · show (v' n).nlink = (v n).nlink
        rw [hw.node]
      · show (if o < (v' n).size then byteAt v' t.vol n o else 0) =
          if off ≤ o ∧ o < off + m then src (o - off) else
            if o < (v n).size then byteAt v s.vol n o else 0
        split
        · rename_i ho
          rw [byteAt, hbyte o ho]
          by_cases hin : off ≤ o ∧ o < off + m
          · rw [if_pos hin, if_pos hin]
            rfl
          · have hoff' : off ≤ (v n).size := hoff
            rw [if_neg hin, if_neg hin, if_pos (by omega)]
            rfl
        · rw [if_neg (by omega), if_neg (by omega)]
    · rw [Function.update_of_ne hk]
      have hk' := hw.others k hk
      refine Node.ext_iff' ?_ ?_ ?_ ?_ ?_ fun o => ?_
      · show (v' k).size = (v k).size
        rw [hk']
      · show (v' k).type = (v k).type
        rw [hk']
      · show (v' k).major = (v k).major
        rw [hk']
      · show (v' k).minor = (v k).minor
        rw [hk']
      · show (v' k).nlink = (v k).nlink
        rw [hk']
      · show (if o < (v' k).size then byteAt v' t.vol k o else 0) =
          if o < (v k).size then byteAt v s.vol k o else 0
        rw [hk', byteAt, byteAt, hw.wrote.away k o hk]

/-- nodeOf depends on the inodes and on the bytes. -/
theorem nodeOf_update {x : Ino} {vol vol' : Volume} {y : Node}
    (hbytes : ∀ k o, bytes (Function.update v n x) vol' k o = bytes v vol k o)
    (hy : y = ⟨x.type, x.major, x.minor, x.nlink, x.size,
      fun o => if o < x.size then byteAt v vol n o else 0⟩) :
    nodeOf (Function.update v n x) vol' = Function.update (nodeOf v vol) n y := by
  funext k
  by_cases hk : k = n
  · rw [hk, Function.update_self, hy]
    unfold nodeOf byteAt
    simp only [hbytes, Function.update_self]
  · rw [Function.update_of_ne hk]
    unfold nodeOf byteAt
    simp only [hbytes, Function.update_of_ne hk]

/-- Assignments to the device numbers and the link count, followed by iupdate. -/
theorem Shows.amend (h : Shows near s A σ) (hat : At σ i n) {f : Inode → Inode}
    {major minor nlink : ℕ}
    (hf : f (s.icache i) = { s.icache i with major := major, minor := minor, nlink := nlink })
    (hmajor : major < 2 ^ 16) (hminor : minor < 2 ^ 16) (hnlink : nlink < 2 ^ 16) :
    Ends (· = .noType) ((do
      setSlot i f
      iupdate i : M Unit) s) fun _ t =>
        Shows near t (Function.update A n
          { A n with major := major, minor := minor, nlink := nlink }) σ := by
  apply ends_of_typed (setSlot_typed.bind any_composes fun _ => iupdate_typed)
  intro _ t hrun
  obtain ⟨v, hv, rfl, rfl⟩ := h
  have hl := hat.loaded
  have hcached := hv.cached i n hl
  have htype := hv.typed i n hl
  obtain ⟨hwf, hsteady, hvol, hblocks⟩ := amend_spec
    (x := { v n with major := major, minor := minor, nlink := nlink }) hv.toWf hl
    (by rw [hf, ← hcached]; rfl) (by rw [hf]) (by rw [hf]) (by rw [hf]) (by rw [hf]) rfl
    { hv.inRange n with major := hmajor, minor := hminor, nlink := hnlink }
    (fun h0 => absurd h0 htype) hrun
  set x : Ino := { v n with major := major, minor := minor, nlink := nlink } with hx
  have hbytes : ∀ k o, bytes (Function.update v n x) t.vol k o = bytes v s.vol k o := by
    intro k o
    unfold bytes
    rw [hblocks, hvol]
  have hfields : ∀ k, (Function.update v n x k).type = (v k).type ∧
      (Function.update v n x k).size = (v k).size := by
    intro k
    by_cases hk : k = n
    · rw [hk, Function.update_self]
      exact ⟨rfl, rfl⟩
    · rw [Function.update_of_ne hk]
      exact ⟨rfl, rfl⟩
  refine ⟨_, ⟨hwf, hsteady.held.trans hv.quiet, ?_, ?_, ?_, ?_, ?_⟩, ?_, hsteady.slots⟩
  · intro m hm
    rw [hvol]
    by_cases hmn : m = n
    · rw [hmn, Function.update_self]
      exact Function.update_self _ _ _
    · rw [Function.update_of_ne hmn]
      exact (Function.update_of_ne hmn _ _).trans (hv.synced m hm)
  · intro j m hl'
    rw [(hfields m).1]
    exact hv.typed j m (hsteady.loaded.mp hl')
  · intro m o ho
    rw [(hfields m).2] at ho
    rw [hblocks]
    exact hv.mapped m o ho
  · intro hnear
    have hleak := hv.leaks hnear
    unfold NoLeaks at hleak ⊢
    rw [hblocks, hvol]
    exact hleak
  · intro hnear m
    rw [hvol]
    exact hv.far hnear m
  · exact nodeOf_update hbytes rfl

end Contents

section Ialloc

/-- The file that ialloc makes. -/
def Node.fresh (type : ℕ) : Node := ⟨type, 0, 0, 0, 0, fun _ => 0⟩

/-- The block map of a free inode stays empty. -/
theorem blocks_fresh (h : Wf s v) {x : Ino} {vol : Volume} (hfree : (v n).type = 0)
    (hx : ∀ k, x.addrs k = 0) (hdata : vol.data = s.vol.data) :
    blocks (Function.update v n x) vol = blocks v s.vol := by
  funext ⟨m, p⟩
  show (Function.update v n x m).entry vol.data p = (v m).entry s.vol.data p
  by_cases hm : m = n
  · rw [hm, Function.update_self]
    have hold := h.free n hfree
    cases p <;> simp [Ino.entry, hx, hold]
  · rw [Function.update_of_ne hm, hdata]

/-- The disk inode is cleared and gets a type. -/
theorem Sound.fresh (hv : Sound near s v) (hlt : n < maxInodes) (hfree : (v n).type = 0) {type : ℕ}
    (htype : type < 2 ^ 16) (hf : Frame s t) (hheld : t.held = s.held)
    (hvol : t.vol = { s.vol with
      ino := Function.update s.vol.ino n { Ino.free with type := type }
      far := Function.update s.vol.far n 0 }) :
    Sound near t (Function.update v n { Ino.free with type := type }) ∧
      nodeOf (Function.update v n { Ino.free with type := type }) t.vol =
        Function.update (nodeOf v s.vol) n (Node.fresh type) := by
  set x : Ino := { Ino.free with type := type } with hx
  have hblocks : blocks (Function.update v n x) t.vol = blocks v s.vol :=
    blocks_fresh hv.toWf hfree (fun _ => rfl) (by rw [hvol])
  have hsteady := hf.steady hheld
  have hnone : ∀ j, ¬ Loaded s j n := fun j hl => hv.typed j n hl hfree
  have hbytes : ∀ k o, bytes (Function.update v n x) t.vol k o = bytes v s.vol k o := by
    intro k o
    unfold bytes
    rw [hblocks, hvol]
  refine ⟨⟨?_, hheld.trans hv.quiet, ?_, ?_, ?_, ?_, ?_⟩, ?_⟩
  · apply hv.toWf.of_steady hsteady
    · rw [hvol]
    · rw [hvol]
    · exact hblocks
    · intro m hm
      rw [Function.update_of_ne (by omega)]
      exact hv.outside m hm
    · intro m
      by_cases hm : m = n
      · rw [hm, Function.update_self]
        exact { Ino.free_inRange with type := htype }
      · rw [Function.update_of_ne hm]
        exact hv.inRange m
    · intro m
      by_cases hm : m = n
      · rw [hm, Function.update_self]
        exact fun _ _ => rfl
      · rw [Function.update_of_ne hm]
        exact hv.free m
    · intro j m hl
      have hm : m ≠ n := by
        rintro rfl
        exact hnone j hl
      rw [hf.icache, Function.update_of_ne hm]
      exact hv.cached j m hl
    · intro m hm hno
      rw [hvol]
      by_cases hmn : m = n
      · rw [hmn, Function.update_self]
        exact Function.update_self _ _ _
      · rw [Function.update_of_ne hmn]
        exact (Function.update_of_ne hmn _ _).trans (hv.disk m hm hno)
  · intro m hm
    rw [hvol]
    by_cases hmn : m = n
    · rw [hmn, Function.update_self]
      exact Function.update_self _ _ _
    · rw [Function.update_of_ne hmn]
      exact (Function.update_of_ne hmn _ _).trans (hv.synced m hm)
  · intro j m hl
    have hl' := hsteady.loaded.mp hl
    have hm : m ≠ n := by
      rintro rfl
      exact hnone j hl'
    rw [Function.update_of_ne hm]
    exact hv.typed j m hl'
  · intro m o ho hlt
    rw [hblocks]
    by_cases hm : m = n
    · rw [hm, Function.update_self] at ho
      exact absurd ho (Nat.not_lt_zero o)
    · rw [Function.update_of_ne hm] at ho
      exact hv.mapped m o ho hlt
  · intro hnear
    have hleak := hv.leaks hnear
    unfold NoLeaks at hleak ⊢
    rw [hblocks, hvol]
    exact hleak
  · intro hnear m
    rw [hvol]
    by_cases hm : m = n
    · rw [hm]
      exact Function.update_self _ _ _
    · exact (Function.update_of_ne hm _ _).trans (hv.far hnear m)
  · exact nodeOf_update hbytes rfl

theorem scanInodes_spec (hv : Sound near s v) {type fuel m : ℕ} (htype : type < 2 ^ 16) (hm : 0 < m)
    (hfuel : m + fuel ≤ maxInodes) (hrun : scanInodes ROOTDEV type fuel m s = .ok (i, t)) :
    ∃ n, 0 < n ∧ n < maxInodes ∧ (v n).type = 0 ∧
      ∃ v', Sound near t v' ∧ nodeOf v' t.vol =
      Function.update (nodeOf v s.vol) n (Node.fresh type) ∧
        Got n i s.slots t.slots := by
  induction fuel generalizing m with
  | zero => cases hrun
  | succ fuel ih =>
    obtain ⟨sb, s₀, h₀, g₀⟩ := bind_ok.mp hrun
    obtain ⟨hsb, hs₀⟩ := look_ok.mp h₀
    rw [← hs₀, ← hsb, hv.sb] at g₀
    obtain ⟨data, s₁, h₁, g₁⟩ := bind_ok.mp g₀
    obtain ⟨_, _, hdata, hs₁⟩ := bread_ok.mp h₁
    have hlt : m < maxInodes := by omega
    have hread : get data (dinodeOffset m) 2 = (v m).type := by
      rw [← hv.synced m hlt, hdata]
      show _ = (if m < maxInodes then readIno _ _ else Ino.free).type
      rw [if_pos hlt]
      rfl
    split at g₁
    · rename_i hzero
      rw [hread] at hzero
      obtain ⟨_, s₂, h₂, g₂⟩ := bind_ok.mp g₁
      obtain ⟨_, s₃, h₃, g₃⟩ := bind_ok.mp g₂
      obtain ⟨_, s₄, h₄, hget⟩ := bind_ok.mp g₃
      have hrewrite : (do
          let _ ← bread ROOTDEV (IBLOCK m mkfsSuperblock)
          setData ROOTDEV (IBLOCK m mkfsSuperblock) fun b =>
            put (splice b (dinodeOffset m) (fun _ => 0) 0 128) (dinodeOffset m) 2 type
          logWrite (IBLOCK m mkfsSuperblock)
          brelse ROOTDEV (IBLOCK m mkfsSuperblock) : M Unit) s = .ok ((), s₄) := by
        rw [bind_of_ok h₁, bind_of_ok h₂, bind_of_ok h₃]
        exact h₄
      obtain ⟨hf, hheld, hblk⟩ := rewrite_spec hrewrite
      have hvol : s₄.vol = { s.vol with
          ino := Function.update s.vol.ino m { Ino.free with type := type }
          far := Function.update s.vol.far m 0 } := by
        show volume (s₄.blk ROOTDEV) = _
        rw [hblk, Function.update_self]
        exact volume_ialloc hlt htype
      obtain ⟨hv₄, hnode⟩ := hv.fresh hlt hzero htype hf hheld hvol
      obtain ⟨hv', hvol', hgot⟩ := hv₄.iget hm hlt hget
      rw [(hf.steady hheld).slots] at hgot
      exact ⟨m, hm, hlt, hzero, _, hv', by rw [hvol', hnode], hgot⟩
    · obtain ⟨_, s₂, h₂, g₂⟩ := bind_ok.mp g₁
      obtain ⟨_, hs₂⟩ := brelse_ok.mp h₂
      have hback : s₂ = s := by
        rw [hs₂, hs₁]
        simp only [List.erase_cons_head]
      rw [hback] at g₂
      exact ih (by omega) (by omega) g₂

/-- ialloc makes a file of the type and gets a slot for it. -/
theorem Shows.ialloc (h : Shows near s A σ) {type : ℕ} (htype : type < 2 ^ 16) :
    Ends (· = .noType) (ialloc ROOTDEV type s) fun i t =>
      ∃ n σ', 0 < n ∧ n < maxInodes ∧ (A n).type = 0 ∧
        Shows near t (Function.update A n (Node.fresh type)) σ' ∧ Got n i σ σ' := by
  apply ends_of_typed ialloc_typed
  intro i t hrun
  obtain ⟨v, hv, rfl, rfl⟩ := h
  obtain ⟨sb, s₀, h₀, g₀⟩ := bind_ok.mp hrun
  obtain ⟨hsb, hs₀⟩ := look_ok.mp h₀
  rw [← hs₀, ← hsb, hv.sb] at g₀
  obtain ⟨n, hpos, hlt, hfree, v', hv', hnode, hgot⟩ :=
    scanInodes_spec hv htype Nat.one_pos (by decide) g₀
  exact ⟨n, t.slots, hpos, hlt, hfree, ⟨v', hv', hnode, rfl⟩, hgot⟩

end Ialloc

section Iput

/-- The file that iput leaves when it frees an inode. -/
def Node.freed (x : Node) : Node := { x with type := 0, size := 0, byte := fun _ => 0 }

/-- What iput does to the files: where the last reference to a loaded inode without
links goes, the inode is freed. -/
def putFiles (A : Files) (x : Slot) : Files :=
  if x.valid = true ∧ (A x.inum).nlink = 0 ∧ x.ref = 1 then
    Function.update A x.inum (A x.inum).freed
  else A

/-- What iput does to the slots. -/
def putSlots (A : Files) (σ : Slots) (i : ℕ) : Slots :=
  Function.update σ i { σ i with
    ref := (σ i).ref - 1
    valid := (σ i).valid &&
      !decide ((A (σ i).inum).nlink = 0 ∧ (σ i).ref = 1) }

theorem Ino.InRange.retype {x : Ino} (h : x.InRange) : Ino.InRange { x with type := 0 } :=
  { h with type := Nat.two_pow_pos 16 }

/-- The part of iput that frees the inode. -/
theorem Sound.freeInode (hv : Sound near s v) (hl : Loaded s i n)
    (hrun : (do
      itrunc i
      setSlot i fun ip => { ip with type := 0 }
      iupdate i
      setSlot i fun ip => { ip with valid := false } : M Unit) s = .ok ((), t)) :
    ∃ v', Sound near t v' ∧ nodeOf v' t.vol =
        Function.update (nodeOf v s.vol) n (nodeOf v s.vol n).freed ∧
      t.slots = Function.update s.slots i { s.slots i with valid := false } := by
  obtain ⟨_, s₁, h₁, hrun⟩ := bind_ok.mp hrun
  have htr := itrunc_spec hv.toWf hl h₁
  set v₁ := Function.update v n (v n).truncated with hv₁
  have hl₁ : Loaded s₁ i n := htr.steady.loaded.mpr hl
  have hself₁ : v₁ n = (v n).truncated := Function.update_self _ _ _
  obtain ⟨_, s₂, h₂, hrun⟩ := bind_ok.mp hrun
  obtain ⟨_, s₃, h₃, h₄⟩ := bind_ok.mp hrun
  have hcached₁ := htr.wf.cached i n hl₁
  set x : Ino := { (v n).truncated with type := 0 } with hx
  have hamend : (do
      setSlot i fun ip => { ip with type := 0 }
      iupdate i : M Unit) s₁ = .ok ((), s₃) := by
    rw [bind_of_ok h₂]
    exact h₃
  obtain ⟨hwf₃, hsteady₃, hvol₃, hblocks₃⟩ := amend_spec (x := x) htr.wf hl₁
    (by rw [hx, ← hself₁, ← hcached₁]; rfl) rfl rfl rfl rfl (by rw [hself₁])
    (hv.inRange n).truncated.retype (fun _ _ => rfl) hamend
  have hupd : Function.update v₁ n x = Function.update v n x := by
    rw [hv₁, Function.update_idem]
  rw [hupd] at hwf₃ hblocks₃
  have hsteady : Steady s s₃ := htr.steady.trans hsteady₃
  have hl₃ : Loaded s₃ i n := hsteady.loaded.mpr hl
  have hino₃ : s₃.vol.ino = Function.update s.vol.ino n x := by
    rw [hvol₃, htr.ino]
    exact Function.update_idem ..
  have hsynced₃ : Synced s₃ (Function.update v n x) := by
    intro m hm
    rw [hino₃]
    by_cases hmn : m = n
    · rw [hmn, Function.update_self, Function.update_self]
    · rw [Function.update_of_ne hmn, Function.update_of_ne hmn]
      exact hv.synced m hm
  have hblocks : ∀ q, blocks (Function.update v n x) s₃.vol q =
      if q.1 = n then 0 else blocks v s.vol q := by
    intro q
    rw [hblocks₃, htr.blocks]
  have hdata : s₃.vol.data = s.vol.data := by rw [hvol₃, ← htr.data]
  have hbytes : ∀ k o, k ≠ n → bytes (Function.update v n x) s₃.vol k o = bytes v s.vol k o := by
    intro k o hk
    unfold bytes
    rw [hblocks, if_neg hk, hdata]
  -- the slot is unloaded only now, when the disk has the inode
  have ht : s₃.setSlot i (fun ip => { ip with valid := false }) = t := update_ok.mp h₄
  have hc := setSlot_cacheOnly s₃ i fun ip => { ip with valid := false }
  have hwf : Wf (s₃.setSlot i fun ip => { ip with valid := false }) (Function.update v n x) := by
    refine hwf₃.setRef rfl rfl rfl nofun id fun _ _ => Or.inr ?_
    rw [hl₃.inum]
    exact hsynced₃ n (hwf₃.inum_lt hl₃)
  have hslots : (s₃.setSlot i fun ip => { ip with valid := false }).slots =
      Function.update s.slots i { s.slots i with valid := false } := by
    rw [slots_setSlot, hsteady.slots]
    congr 1
    have hi : s₃.slots i = s.slots i := by rw [hsteady.slots]
    rw [← hi]
    rfl
  rw [ht] at hc hwf hslots
  refine ⟨Function.update v n x, ⟨hwf, ?_, ?_, ?_, ?_, ?_, ?_⟩, ?_, hslots⟩
  · exact hc.held.trans (hsteady.held.trans hv.quiet)
  · intro m hm
    rw [hc.vol]
    exact hsynced₃ m hm
  · intro j m hl'
    rw [loaded_iff, hslots] at hl'
    have hj : j ≠ i := by
      rintro rfl
      rw [Function.update_self] at hl'
      cases hl'.2.2.1
    rw [Function.update_of_ne hj] at hl'
    have hl₀ : Loaded s j m := loaded_iff.mpr hl'
    have hm : m ≠ n := by
      rintro rfl
      exact hj (hv.toWf.eq_slot hl hl₀)
    rw [Function.update_of_ne hm]
    exact hv.typed j m hl₀
  · intro m o ho
    rw [hc.vol, hblocks]
    by_cases hm : m = n
    · rw [hm, Function.update_self] at ho
      exact absurd ho (Nat.not_lt_zero o)
    · rw [Function.update_of_ne hm] at ho
      rw [if_neg hm]
      exact hv.mapped m o ho
  · intro hnear
    have hleak := htr.leaks (hv.leaks hnear)
    have hsame : blocks (Function.update v n x) t.vol = blocks v₁ s₁.vol := by
      rw [hc.vol]
      exact hblocks₃
    unfold NoLeaks at hleak ⊢
    rw [hsame, hc.vol, hvol₃]
    exact hleak
  · intro hnear m
    rw [hc.vol, hvol₃]
    exact (congrFun htr.far m).trans (hv.far hnear m)
  · funext k
    rw [hc.vol]
    by_cases hk : k = n
    · rw [hk, Function.update_self]
      unfold nodeOf Node.freed
      simp only [Function.update_self]
      rw [hx]
      simp [Ino.truncated]
    · rw [Function.update_of_ne hk]
      unfold nodeOf byteAt
      simp only [hbytes k _ hk, Function.update_of_ne hk]

/-- Giving up a reference to a slot. -/
theorem Shows.drop (h : Shows near s A σ) (hi : i < NINODE) (href : 0 < (σ i).ref) :
    Shows near (s.setSlot i fun ip => { ip with ref := ip.ref - 1 }) A
      (Function.update σ i { σ i with ref := (σ i).ref - 1 }) := by
  obtain ⟨v, hv, rfl, rfl⟩ := h
  have hslots := slots_setSlot s i fun ip => { ip with ref := ip.ref - 1 }
  have hwf : Wf (s.setSlot i fun ip => { ip with ref := ip.ref - 1 }) v := by
    refine hv.toWf.setRef rfl rfl rfl id (fun _ => href) fun _ _ => Or.inr ?_
    exact hv.synced _ (hv.slots i hi href).2.2
  refine Shows.of_cacheOnly hv rfl hwf (setSlot_cacheOnly ..) ?_ hslots
  intro j m hl
  rw [loaded_iff, hslots] at hl
  by_cases hj : j = i
  · rw [hj, Function.update_self] at hl
    exact hv.typed i m (loaded_iff.mpr ⟨hj ▸ hl.1, href, hl.2.2.1, hl.2.2.2⟩)
  · rw [Function.update_of_ne hj] at hl
    exact hv.typed j m (loaded_iff.mpr hl)

theorem putSlots_kept (h : ¬ ((σ i).valid = true ∧ (A (σ i).inum).nlink = 0 ∧ (σ i).ref = 1)) :
    putSlots A σ i = Function.update σ i { σ i with ref := (σ i).ref - 1 } := by
  have hvalid : ((σ i).valid && !decide ((A (σ i).inum).nlink = 0 ∧ (σ i).ref = 1)) =
      (σ i).valid := by
    cases hv : (σ i).valid with
    | false => rfl
    | true =>
      rw [decide_eq_false fun hc => h ⟨hv, hc⟩]
      rfl
  unfold putSlots
  rw [hvalid]

/-- iput gives up a reference, and frees the inode with the last one if it has no links. -/
theorem Shows.iput (h : Shows near s A σ) (hi : i < NINODE) (href : 0 < (σ i).ref) :
    Ends (· = .noType) (iput i s) fun _ t => Shows near t (putFiles A (σ i)) (putSlots A σ i) := by
  apply ends_of_typed iput_typed
  intro _ t hrun
  obtain ⟨_, s₀, h₀, g₀⟩ := bind_ok.mp hrun
  obtain ⟨_, hs₀⟩ := ensure_ok.mp h₀
  rw [← hs₀] at g₀
  obtain ⟨_, s₁, h₁, g₁⟩ := bind_ok.mp g₀
  have hs₁ : s.setSlot i (fun ip => { ip with locked := true }) = s₁ := update_ok.mp h₁
  have hshows₁ : Shows near s₁ A σ := hs₁ ▸ h.setLock true
  obtain ⟨ip, s₁', h₂, g₂⟩ := bind_ok.mp g₁
  obtain ⟨hip, hs₁'⟩ := look_ok.mp h₂
  rw [← hip, ← hs₁'] at g₂
  obtain ⟨_, s₂, h₃, g₃⟩ := bind_ok.mp g₂
  obtain ⟨_, s₃, h₄, h₅⟩ := bind_ok.mp g₃
  have hs₃ : s₂.setSlot i (fun ip => { ip with locked := false }) = s₃ := update_ok.mp h₄
  have ht : s₃.setSlot i (fun ip => { ip with ref := ip.ref - 1 }) = t := update_ok.mp h₅
  rw [← ht]
  obtain ⟨v, hv, hA, hσ⟩ := hshows₁
  have hslot : s₁.slots i = σ i := by rw [hσ]
  split at h₃
  · rename_i hlast
    obtain ⟨hvalid, hnlink, hone⟩ := hlast
    have hl : Loaded s₁ i (σ i).inum := by
      rw [← hslot]
      exact ⟨hi, by rw [hone]; exact Nat.one_pos, hvalid, rfl⟩
    have hnode : (A (σ i).inum).nlink = (s₁.icache i).nlink := by
      rw [← hA]
      show (v (σ i).inum).nlink = _
      rw [← hv.cached i _ hl]
      rfl
    have hcond : (σ i).valid = true ∧ (A (σ i).inum).nlink = 0 ∧ (σ i).ref = 1 := by
      refine ⟨hslot ▸ hvalid, hnode.trans hnlink, ?_⟩
      rw [← hslot]
      exact hone
    obtain ⟨v', hv', hnode', hslots⟩ := hv.freeInode hl h₃
    rw [hA] at hnode'
    rw [hσ] at hslots
    have hshows₂ : Shows near s₂ (putFiles A (σ i))
        (Function.update σ i { σ i with valid := false }) := by
      rw [putFiles, if_pos hcond]
      exact ⟨v', hv', hnode', hslots⟩
    have hshows₃ := hs₃ ▸ hshows₂.setLock false
    have hself : Function.update σ i { σ i with valid := false } i = { σ i with valid := false } :=
      Function.update_self ..
    have hdrop := hshows₃.drop hi (by rw [hself]; exact href)
    rw [hself, Function.update_idem] at hdrop
    have hput : putSlots A σ i = Function.update σ i ⟨(σ i).ref - 1, (σ i).inum, false⟩ := by
      unfold putSlots
      rw [decide_eq_true ⟨hcond.2.1, hcond.2.2⟩]
      simp
    rw [hput]
    exact hdrop
  · rename_i hkeep
    obtain ⟨_, rfl⟩ := pure_ok.mp h₃
    have hcond : ¬ ((σ i).valid = true ∧ (A (σ i).inum).nlink = 0 ∧ (σ i).ref = 1) := by
      rintro ⟨hvalid, hnlink, hone⟩
      have hl : Loaded s₁ i (σ i).inum := by
        rw [← hslot] at hvalid hone ⊢
        exact loaded_iff.mpr ⟨hi, by rw [hone]; exact Nat.one_pos, hvalid, rfl⟩
      apply hkeep
      refine ⟨hl.valid, ?_, ?_⟩
      · rw [← hnlink, ← hA]
        show _ = (v (σ i).inum).nlink
        rw [← hv.cached i _ hl]
        rfl
      · rw [← hone, ← hslot]
        rfl
    have hshows₃ : Shows near s₃ A σ := hs₃ ▸ Shows.setLock ⟨v, hv, hA, hσ⟩ false
    rw [putFiles, if_neg hcond, putSlots_kept hcond]
    exact hshows₃.drop hi href

end Iput

end NorthOS.Fs
