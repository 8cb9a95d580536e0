import NorthOS.Blocks
import NorthOS.Ownership

/-!
The block map of an inode up to its single-indirect block, and what makes a file
system with such maps well formed: every block has one place, the inode cache agrees
with the disk where it does not hold newer contents. bmap is shown to look a block up
or to attach a fresh, zeroed one, and to leave all other contents alone.
-/
namespace NorthOS.Fs

open LittleEndian Halting Comp Ownership

inductive Place
  | direct (k : ℕ)
  | index
  | leaf (j : ℕ)
  deriving DecidableEq

/-- The block at a place of the map, given the contents of the index block. -/
def Ino.entry (x : Ino) (data : ℕ → Bytes) : Place → ℕ
  | .direct k => if k < NDIRECT then x.addrs k else 0
  | .index => x.addrs NDIRECT
  | .leaf j =>
    if j < NINDIRECT ∧ x.addrs NDIRECT ≠ 0 then get (data (x.addrs NDIRECT)) (4 * j) 4 else 0

/-- The place of a file block. -/
def placeOf (bn : ℕ) : Place := if bn < NDIRECT then .direct bn else .leaf (bn - NDIRECT)

/-- The file blocks that do not need the double-indirect block. -/
def smallBlocks : ℕ := NDIRECT + NINDIRECT

theorem placeOf_ne_index (bn : ℕ) : placeOf bn ≠ .index := by
  unfold placeOf
  split <;> simp

theorem placeOf_inj {a b : ℕ} (h : placeOf a = placeOf b) : a = b := by
  unfold placeOf at h
  split at h <;> split at h <;> simp only [Place.direct.injEq, Place.leaf.injEq, reduceCtorEq] at h
  · exact h
  · omega

/-- The logical inodes: what a process that locks an inode sees of it. -/
abbrev Inos := ℕ → Ino

def blocks (v : Inos) (vol : Volume) : ℕ × Place → ℕ := fun q => (v q.1).entry vol.data q.2

/-- The byte at an offset of a file, where a block is mapped there. -/
def bytes (v : Inos) (vol : Volume) (n off : ℕ) : Option UInt8 :=
  if blocks v vol (n, placeOf (off / BSIZE)) = 0 then none
  else some (vol.data (blocks v vol (n, placeOf (off / BSIZE))) (off % BSIZE))

/-- The blocks that files and their maps are made of. -/
def DataBlock (b : ℕ) : Prop := nmeta ≤ b ∧ b < nblocks

/-- Slot `i` is in use and holds the loaded inode `n`. -/
structure Loaded (s : State) (i n : ℕ) : Prop where
  slot : i < NINODE
  ref : 0 < (s.icache i).ref
  valid : (s.icache i).valid = true
  inum : (s.icache i).inum = n

/-- A well-formed file system on a volume of mkfs, with the logical inodes `v`. -/
structure Wf (s : State) (v : Inos) : Prop where
  sb : s.sb = mkfsSuperblock
  word : s.vol.word = FSSIZE
  past : s.past = 0
  held : s.held.Nodup
  outside : ∀ n, maxInodes ≤ n → v n = .free
  inRange : ∀ n, (v n).InRange
  free : ∀ n, (v n).type = 0 → ∀ k, (v n).addrs k = 0
  reserved : ∀ b, b < nmeta → s.vol.used b = true
  owned : Owned DataBlock (blocks v s.vol) s.vol.used
  slots : ∀ i, i < NINODE → 0 < (s.icache i).ref →
    (s.icache i).dev = ROOTDEV ∧ 0 < (s.icache i).inum ∧ (s.icache i).inum < maxInodes
  devs : ∀ i, i < NINODE → (s.icache i).dev = 0 ∨ (s.icache i).dev = ROOTDEV
  unique : ∀ i j, i < NINODE → j < NINODE → 0 < (s.icache i).ref → 0 < (s.icache j).ref →
    (s.icache i).inum = (s.icache j).inum → i = j
  cached : ∀ i n, Loaded s i n → (s.icache i).ino = v n
  disk : ∀ n, n < maxInodes → (∀ i, ¬ Loaded s i n) → s.vol.ino n = v n

/-- Every block of the region of data blocks that is marked used is in some map. -/
def NoLeaks (s : State) (v : Inos) : Prop :=
  NoLeak (fun b => nmeta ≤ b) (blocks v s.vol) s.vol.used

/-- The disk has the logical inodes, but for `n`. -/
def SyncedBut (n : ℕ) (s : State) (v : Inos) : Prop :=
  ∀ m, m < maxInodes → m ≠ n → s.vol.ino m = v m

def Synced (s : State) (v : Inos) : Prop := ∀ m, m < maxInodes → s.vol.ino m = v m

section Maps

variable {v : Inos} {vol : Volume} {n b : ℕ}

theorem Ino.entry_congr {x : Ino} {data data' : ℕ → Bytes}
    (h : x.addrs NDIRECT ≠ 0 → data' (x.addrs NDIRECT) = data (x.addrs NDIRECT)) (p : Place) :
    x.entry data' p = x.entry data p := by
  cases p with
  | direct k => rfl
  | index => rfl
  | leaf j =>
    unfold Ino.entry
    by_cases hx : x.addrs NDIRECT = 0
    · simp [hx]
    · rw [h hx]

theorem blocks_index (v : Inos) (vol : Volume) (n : ℕ) :
    blocks v vol (n, .index) = (v n).addrs NDIRECT := rfl

theorem blocks_direct (v : Inos) (vol : Volume) (n : ℕ) {k : ℕ} (hk : k < NDIRECT) :
    blocks v vol (n, .direct k) = (v n).addrs k := if_pos hk

/-- Writing a block that is no index block changes no map. -/
theorem blocks_data {y : Bytes} (hb : ∀ m, (v m).addrs NDIRECT ≠ b) :
    blocks v { vol with data := Function.update vol.data b y } = blocks v vol := by
  funext q
  apply Ino.entry_congr
  intro _
  exact Function.update_of_ne (hb q.1) _ _

theorem bytes_none {off : ℕ} : bytes v vol n off = none ↔
    blocks v vol (n, placeOf (off / BSIZE)) = 0 := by
  unfold bytes
  split <;> simp_all

/-- Bytes of a file depend on its blocks and on what these hold. -/
theorem bytes_congr {v' : Inos} {vol' : Volume} {off : ℕ}
    (hb : blocks v' vol' (n, placeOf (off / BSIZE)) = blocks v vol (n, placeOf (off / BSIZE)))
    (hd : blocks v vol (n, placeOf (off / BSIZE)) ≠ 0 →
      vol'.data (blocks v vol (n, placeOf (off / BSIZE))) =
        vol.data (blocks v vol (n, placeOf (off / BSIZE)))) :
    bytes v' vol' n off = bytes v vol n off := by
  unfold bytes
  rw [hb]
  split
  · rfl
  · rename_i h
    rw [hd h]

theorem Ino.entry_setDirect (x : Ino) (data : ℕ → Bytes) {k : ℕ} (hk : k < NDIRECT) (b : ℕ) :
    Ino.entry { x with addrs := Function.update x.addrs k b } data =
      Function.update (x.entry data) (.direct k) b := by
  have hlast : NDIRECT ≠ k := by omega
  funext p
  cases p with
  | direct k' =>
    by_cases hkk : k' = k
    · subst hkk
      simp [Ino.entry, hk]
    · rw [Function.update_of_ne (by simpa using hkk)]
      simp [Ino.entry, hkk]
  | index =>
    rw [Function.update_of_ne (by simp)]
    simp [Ino.entry, hlast]
  | leaf j =>
    rw [Function.update_of_ne (by simp)]
    simp [Ino.entry, hlast]

theorem Ino.entry_setIndex (x : Ino) {data data' : ℕ → Bytes} (hempty : x.addrs NDIRECT = 0)
    {b : ℕ} (hzero : data' b = fun _ => 0) :
    Ino.entry { x with addrs := Function.update x.addrs NDIRECT b } data' =
      Function.update (x.entry data) .index b := by
  funext p
  cases p with
  | direct k =>
    rw [Function.update_of_ne (by simp)]
    show (if k < NDIRECT then Function.update x.addrs NDIRECT b k else 0) =
      if k < NDIRECT then x.addrs k else 0
    split
    · rw [Function.update_of_ne (by omega)]
    · rfl
  | index => simp [Ino.entry]
  | leaf j =>
    rw [Function.update_of_ne (by simp)]
    have hget : get (data' b) (4 * j) 4 = 0 := by
      apply get_zero
      intro i _ _
      rw [hzero]
    simp [Ino.entry, hempty, hget]

theorem Ino.entry_setLeaf (x : Ino) (data : ℕ → Bytes) {j : ℕ} (hj : j < NINDIRECT)
    (hindex : x.addrs NDIRECT ≠ 0) {b : ℕ} (hb : b < 2 ^ 32) :
    x.entry (Function.update data (x.addrs NDIRECT)
        (put (data (x.addrs NDIRECT)) (4 * j) 4 b)) =
      Function.update (x.entry data) (.leaf j) b := by
  funext p
  cases p with
  | direct k =>
    rw [Function.update_of_ne (by simp)]
    rfl
  | index =>
    rw [Function.update_of_ne (by simp)]
    rfl
  | leaf j' =>
    by_cases hjj : j' = j
    · subst hjj
      simp only [Ino.entry, Function.update_self, hj, hindex, ne_eq, not_false_eq_true, and_self,
        if_true]
      exact get_put_of_lt hb
    · rw [Function.update_of_ne (by simpa using hjj)]
      simp only [Ino.entry, Function.update_self]
      rw [get_put_other (by omega)]

/-- Changing the map of one inode, beside data that no other index block holds. -/
theorem blocks_update {data' : ℕ → Bytes} {x : Ino} {p : Place}
    (hown : x.entry data' = Function.update ((v n).entry vol.data) p b)
    (hother : ∀ m, m ≠ n → (v m).addrs NDIRECT ≠ 0 →
      data' ((v m).addrs NDIRECT) = vol.data ((v m).addrs NDIRECT)) {vol' : Volume}
    (hvol : vol'.data = data') :
    blocks (Function.update v n x) vol' = Function.update (blocks v vol) (n, p) b := by
  funext ⟨m, q⟩
  show (Function.update v n x m).entry vol'.data q = _
  rw [hvol]
  by_cases hmn : m = n
  · subst hmn
    rw [Function.update_self, hown]
    by_cases hqp : q = p
    · rw [hqp, Function.update_self, Function.update_self]
    · rw [Function.update_of_ne hqp, Function.update_of_ne fun e => hqp (Prod.mk.inj e).2]
      rfl
  · rw [Function.update_of_ne hmn, Function.update_of_ne fun e => hmn (Prod.mk.inj e).1]
    exact Ino.entry_congr (hother m hmn) q

end Maps

section Growth

/-- Empty places of the map of inode `n`, which slot `i` holds, were filled, and nothing
else changed but the log, the hint and what data blocks hold. -/
structure Grows (i n : ℕ) (s : State) (v : Inos) (t : State) (v' : Inos) : Prop where
  sb : t.sb = s.sb
  past : t.past = s.past
  devsw : t.devsw = s.devsw
  strict : t.strict = s.strict
  outstanding : t.log.outstanding = s.log.outstanding
  held : t.held = s.held
  slots : ∀ j, j ≠ i → t.icache j = s.icache j
  slot : t.icache i = { s.icache i with addrs := (v' n).addrs }
  others : ∀ m, m ≠ n → v' m = v m
  fields : v' n = { v n with addrs := (v' n).addrs }
  ino : t.vol.ino = s.vol.ino
  far : t.vol.far = s.vol.far
  word : t.vol.word = s.vol.word
  kept : ∀ q, blocks v s.vol q ≠ 0 → blocks v' t.vol q = blocks v s.vol q
  away : ∀ m p, m ≠ n → blocks v' t.vol (m, p) = blocks v s.vol (m, p)
  leaks : NoLeaks s v → NoLeaks t v'

/-- The file blocks that were mapped keep their contents as well. -/
structure Extends (i n : ℕ) (s : State) (v : Inos) (t : State) (v' : Inos) : Prop
    extends Grows i n s v t v' where
  contents : ∀ m bn, blocks v s.vol (m, placeOf bn) ≠ 0 →
    t.vol.data (blocks v s.vol (m, placeOf bn)) = s.vol.data (blocks v s.vol (m, placeOf bn))

variable {i n : ℕ} {s t u : State} {v v' v'' : Inos}

theorem Grows.refl (h : (s.icache i).ino = v n) : Grows i n s v s v where
  sb := rfl
  past := rfl
  devsw := rfl
  strict := rfl
  outstanding := rfl
  held := rfl
  slots := fun _ _ => rfl
  slot := by
    rw [← h]
    rfl
  others := fun _ _ => rfl
  fields := rfl
  ino := rfl
  far := rfl
  word := rfl
  kept := fun _ _ => rfl
  away := fun _ _ _ => rfl
  leaks := id

theorem Extends.refl (h : (s.icache i).ino = v n) : Extends i n s v s v where
  toGrows := Grows.refl h
  contents := fun _ _ _ => rfl

theorem Grows.trans (h : Grows i n s v t v') (h' : Grows i n t v' u v'') :
    Grows i n s v u v'' where
  sb := h'.sb.trans h.sb
  past := h'.past.trans h.past
  devsw := h'.devsw.trans h.devsw
  strict := h'.strict.trans h.strict
  outstanding := h'.outstanding.trans h.outstanding
  held := h'.held.trans h.held
  slots := fun j hj => (h'.slots j hj).trans (h.slots j hj)
  slot := by rw [h'.slot, h.slot]
  others := fun m hm => (h'.others m hm).trans (h.others m hm)
  fields := by rw [h'.fields, h.fields]
  ino := h'.ino.trans h.ino
  far := h'.far.trans h.far
  word := h'.word.trans h.word
  kept := by
    intro q hq
    have hmid := h.kept q hq
    rw [h'.kept q (by rwa [hmid]), hmid]
  away := fun m p hm => (h'.away m p hm).trans (h.away m p hm)
  leaks := fun hl => h'.leaks (h.leaks hl)

theorem Extends.trans (h : Extends i n s v t v') (h' : Extends i n t v' u v'') :
    Extends i n s v u v'' where
  toGrows := h.toGrows.trans h'.toGrows
  contents := by
    intro m bn hq
    have hmid := h.kept _ hq
    have hlast := h'.contents m bn (by rwa [hmid])
    rw [hmid] at hlast
    rw [hlast, h.contents m bn hq]

theorem Grows.loaded (h : Grows i n s v t v') {j m : ℕ} : Loaded t j m ↔ Loaded s j m := by
  have hsame : (t.icache j).ref = (s.icache j).ref ∧ (t.icache j).valid = (s.icache j).valid ∧
      (t.icache j).inum = (s.icache j).inum := by
    by_cases hj : j = i
    · rw [hj, h.slot]
      exact ⟨rfl, rfl, rfl⟩
    · rw [h.slots j hj]
      exact ⟨rfl, rfl, rfl⟩
  obtain ⟨href, hvalid, hinum⟩ := hsame
  constructor
  · intro hl
    exact ⟨hl.slot, href ▸ hl.ref, hvalid ▸ hl.valid, hinum ▸ hl.inum⟩
  · intro hl
    exact ⟨hl.slot, href.symm ▸ hl.ref, hvalid.symm ▸ hl.valid, hinum.symm ▸ hl.inum⟩

theorem Wf.dev (h : Wf s v) (hl : Loaded s i n) : (s.icache i).dev = ROOTDEV :=
  (h.slots i hl.slot hl.ref).1

theorem Wf.inum_lt (h : Wf s v) (hl : Loaded s i n) : n < maxInodes :=
  hl.inum ▸ (h.slots i hl.slot hl.ref).2.2

/-- A block that is not marked used is behind the metadata. -/
theorem Wf.nmeta_le (h : Wf s v) {b : ℕ} (hb : s.vol.used b = false) : nmeta ≤ b := by
  by_contra hlow
  rw [h.reserved b (by omega)] at hb
  cases hb

/-- The index block of an inode is a data block in use. -/
theorem Wf.index_inside (h : Wf s v) (hn : (v n).addrs NDIRECT ≠ 0) :
    DataBlock ((v n).addrs NDIRECT) ∧ s.vol.used ((v n).addrs NDIRECT) = true :=
  h.owned.inside (n, .index) hn

theorem Wf.index_ne_clear (h : Wf s v) {b : ℕ} (hn : (v n).addrs NDIRECT ≠ 0)
    (hb : s.vol.used b = false) : (v n).addrs NDIRECT ≠ b :=
  h.owned.ne_of_clear hb (n, .index) hn

/-- No file block is an index block. -/
theorem Wf.file_ne_index (h : Wf s v) {m bn : ℕ} (hb : blocks v s.vol (m, placeOf bn) ≠ 0) (n : ℕ) :
    blocks v s.vol (m, placeOf bn) ≠ (v n).addrs NDIRECT := by
  intro he
  have hq := h.owned.once (m, placeOf bn) (n, .index) hb he
  exact placeOf_ne_index bn (Prod.mk.inj hq).2

/-- Attaching a fresh block to an empty place of the map. -/
theorem Wf.attach (h : Wf s v) (hl : Loaded s i n) (htype : (v n).type ≠ 0) {p : Place} {b : ℕ}
    {x : Ino} (hempty : blocks v s.vol (n, p) = 0) (hclear : s.vol.used b = false)
    (hbound : b < nblocks) (hf : t.sb = s.sb ∧ t.past = s.past ∧ t.devsw = s.devsw ∧
      t.strict = s.strict ∧ t.log.outstanding = s.log.outstanding ∧ t.held = s.held)
    (hslots : ∀ j, j ≠ i → t.icache j = s.icache j)
    (hslot : t.icache i = { s.icache i with addrs := x.addrs })
    (hx : x = { v n with addrs := x.addrs }) (hrange : x.InRange)
    (hino : t.vol.ino = s.vol.ino) (hfar : t.vol.far = s.vol.far) (hword : t.vol.word = s.vol.word)
    (hused : t.vol.used = Function.update s.vol.used b true)
    (hblocks : blocks (Function.update v n x) t.vol = Function.update (blocks v s.vol) (n, p) b)
    (hdata : ∀ c, c ≠ b → c ≠ (v n).addrs NDIRECT → t.vol.data c = s.vol.data c) :
    Wf t (Function.update v n x) ∧ Extends i n s v t (Function.update v n x) := by
  obtain ⟨hsb, hpast, hdevsw, hstrict, hout, hheld⟩ := hf
  have hmeta := h.nmeta_le hclear
  have hnew : ∀ q, blocks v s.vol q ≠ 0 → blocks v s.vol q ≠ b := h.owned.ne_of_clear hclear
  have hkept : ∀ q, q ≠ (n, p) →
      blocks (Function.update v n x) t.vol q = blocks v s.vol q := by
    intro q hq
    rw [hblocks, Function.update_of_ne hq]
  have hext : Extends i n s v t (Function.update v n x) := by
    refine ⟨⟨hsb, hpast, hdevsw, hstrict, hout, hheld, hslots, ?_, ?_, ?_, hino, hfar, hword,
      ?_, ?_, ?_⟩, ?_⟩
    · rw [hslot, Function.update_self]
    · exact fun m hm => Function.update_of_ne hm _ _
    · rw [Function.update_self]
      exact hx
    · intro q hq
      apply hkept
      rintro rfl
      exact hq hempty
    · intro m q hm
      exact hkept _ fun e => hm (Prod.mk.inj e).1
    · intro hleak
      unfold NoLeaks at hleak ⊢
      rw [hblocks, hused]
      exact hleak.attach hempty (by decide)
    · intro m bn hb
      exact hdata _ (hnew _ hb) (h.file_ne_index hb n)
  have hloaded : ∀ j m, Loaded t j m ↔ Loaded s j m := fun j m => hext.loaded
  have hfields : ∀ j, (t.icache j).ref = (s.icache j).ref ∧ (t.icache j).dev = (s.icache j).dev ∧
      (t.icache j).inum = (s.icache j).inum := by
    intro j
    by_cases hj : j = i
    · rw [hj, hslot]
      exact ⟨rfl, rfl, rfl⟩
    · rw [hslots j hj]
      exact ⟨rfl, rfl, rfl⟩
  refine ⟨?_, hext⟩
  constructor
  · exact hsb.trans h.sb
  · exact hword.trans h.word
  · exact hpast.trans h.past
  · rw [hheld]
    exact h.held
  · intro m hm
    have hmn : m ≠ n := fun e => absurd (h.inum_lt hl) (by omega)
    rw [Function.update_of_ne hmn]
    exact h.outside m hm
  · intro m
    by_cases hmn : m = n
    · rw [hmn, Function.update_self]
      exact hrange
    · rw [Function.update_of_ne hmn]
      exact h.inRange m
  · intro m hm
    by_cases hmn : m = n
    · rw [hmn, Function.update_self, hx] at hm
      exact absurd hm htype
    · rw [Function.update_of_ne hmn] at hm ⊢
      exact h.free m hm
  · intro c hc
    rw [hused, Function.update_of_ne (by omega)]
    exact h.reserved c hc
  · rw [hblocks, hused]
    exact h.owned.attach ⟨hmeta, hbound⟩ hclear
  · intro j hj href
    obtain ⟨hr, hd, hi⟩ := hfields j
    rw [hd, hi]
    exact h.slots j hj (hr ▸ href)
  · intro j hj
    rw [(hfields j).2.1]
    exact h.devs j hj
  · intro j k hj hk hrj hrk he
    rw [(hfields j).2.2, (hfields k).2.2] at he
    exact h.unique j k hj hk ((hfields j).1 ▸ hrj) ((hfields k).1 ▸ hrk) he
  · intro j m hm
    have hm' := (hloaded j m).mp hm
    by_cases hj : j = i
    · have hmn : m = n := by rw [← hm'.inum, hj, hl.inum]
      have hcached := h.cached i n hl
      rw [hj, hmn, hslot, Function.update_self, hx, ← hcached]
      rfl
    · have hmn : m ≠ n := by
        intro e
        apply hj
        exact h.unique j i hm'.slot hl.slot hm'.ref hl.ref (by rw [hm'.inum, hl.inum, e])
      rw [hslots j hj, Function.update_of_ne hmn]
      exact h.cached j m hm'
  · intro m hm hno
    have hmn : m ≠ n := fun e => hno i (e ▸ (hloaded i n).mpr hl)
    rw [hino, Function.update_of_ne hmn]
    exact h.disk m hm fun j hj => hno j ((hloaded j m).mpr hj)

/-- Block `a` is now at place `p` of the map, where it was before or was attached fresh. -/
structure Maps (i n : ℕ) (p : Place) (a : ℕ) (s : State) (v : Inos) (t : State) (v' : Inos) :
    Prop where
  wf : Wf t v'
  ext : Extends i n s v t v'
  found : blocks v' t.vol (n, p) = a
  nonzero : a ≠ 0
  rest : ∀ q, q ≠ p → blocks v' t.vol (n, q) = blocks v s.vol (n, q)
  old : blocks v s.vol (n, p) ≠ 0 → t = s ∧ v' = v
  fresh : blocks v s.vol (n, p) = 0 → t.vol.data a = fun _ => 0

theorem Maps.lookup (h : Wf s v) (hl : Loaded s i n) {p : Place} {a : ℕ}
    (ha : blocks v s.vol (n, p) = a) (hne : a ≠ 0) : Maps i n p a s v s v where
  wf := h
  ext := Extends.refl (h.cached i n hl)
  found := ha
  nonzero := hne
  rest := fun _ _ => rfl
  old := fun _ => ⟨rfl, rfl⟩
  fresh := fun h0 => absurd (ha.symm.trans h0) hne

theorem Wf.attach_maps (h : Wf s v) {p : Place} {b : ℕ} {x : Ino}
    (hempty : blocks v s.vol (n, p) = 0) (hclear : s.vol.used b = false)
    (hwf : Wf t (Function.update v n x) ∧ Extends i n s v t (Function.update v n x))
    (hblocks : blocks (Function.update v n x) t.vol = Function.update (blocks v s.vol) (n, p) b)
    (hzero : t.vol.data b = fun _ => 0) : Maps i n p b s v t (Function.update v n x) where
  wf := hwf.1
  ext := hwf.2
  found := by rw [hblocks, Function.update_self]
  nonzero := by
    rintro rfl
    exact absurd (h.nmeta_le hclear) (by decide)
  rest := by
    intro q hq
    rw [hblocks, Function.update_of_ne fun e => hq (Prod.mk.inj e).2]
  old := fun h0 => absurd hempty h0
  fresh := fun _ => hzero

/-- The place that an entry of addrs stands for. -/
def addrPlace (k : ℕ) : Place := if k < NDIRECT then .direct k else .index

theorem blocks_addrPlace (v : Inos) (vol : Volume) (n : ℕ) {k : ℕ} (hk : k < NDIRECT + 1) :
    blocks v vol (n, addrPlace k) = (v n).addrs k := by
  unfold addrPlace
  split
  · rename_i hlow
    exact blocks_direct v vol n hlow
  · rw [show k = NDIRECT by omega]
    rfl

theorem getAddr_ok {k a : ℕ} (hk : k < NDIRECT + 1) (h : getAddr i k s = .ok (a, t)) :
    a = (s.icache i).addrs k ∧ t = s := by
  obtain ⟨_, s₀, h₀, h₁⟩ := bind_ok.mp h
  obtain ⟨_, rfl⟩ := ensure_ok.mp h₀
  obtain ⟨ha, rfl⟩ := look_ok.mp h₁
  rw [if_pos hk] at ha
  exact ⟨ha.symm, rfl⟩

theorem setAddr_ok {k a : ℕ} (hk : k < NDIRECT + 1) (h : setAddr i k a s = .ok ((), t)) :
    t = s.setSlot i fun ip => { ip with addrs := Function.update ip.addrs k a } := by
  obtain ⟨_, s₀, h₀, h₁⟩ := bind_ok.mp h
  obtain ⟨_, rfl⟩ := ensure_ok.mp h₀
  have ht := update_ok.mp h₁
  rw [if_pos hk] at ht
  exact ht.symm

theorem Ino.InRange.setAddr {x : Ino} (h : x.InRange) {k b : ℕ} (hk : k < NDIRECT + 1)
    (hb : b < 2 ^ 32) : Ino.InRange { x with addrs := Function.update x.addrs k b } where
  type := h.type
  major := h.major
  minor := h.minor
  nlink := h.nlink
  size := h.size
  addrs := by
    intro j
    show Function.update x.addrs k b j < 2 ^ 32
    by_cases hj : j = k
    · rw [hj, Function.update_self]
      exact hb
    · rw [Function.update_of_ne hj]
      exact h.addrs j
  rest := by
    intro j hj
    show Function.update x.addrs k b j = 0
    rw [Function.update_of_ne (by omega)]
    exact h.rest j hj

/-- Filling an entry of addrs with a fresh block. -/
theorem blocks_setAddr (h : Wf s v) {k b : ℕ} (hk : k < NDIRECT + 1)
    (hempty : (v n).addrs k = 0) (hclear : s.vol.used b = false) (vol : Volume)
    (hdata : vol.data = Function.update s.vol.data b fun _ => 0) :
    blocks (Function.update v n { v n with addrs := Function.update (v n).addrs k b }) vol =
      Function.update (blocks v s.vol) (n, addrPlace k) b := by
  have hother : ∀ m, m ≠ n → (v m).addrs NDIRECT ≠ 0 →
      vol.data ((v m).addrs NDIRECT) = s.vol.data ((v m).addrs NDIRECT) := by
    intro m _ hm
    rw [hdata, Function.update_of_ne (h.index_ne_clear hm hclear)]
  refine blocks_update ?_ hother rfl
  unfold addrPlace
  split
  · rename_i hlow
    rw [Ino.entry_setDirect _ _ hlow]
    congr 1
    funext p
    refine Ino.entry_congr (fun hn => ?_) p
    rw [hdata, Function.update_of_ne (h.index_ne_clear hn hclear)]
  · have hlast : k = NDIRECT := by omega
    rw [hlast] at hempty ⊢
    exact Ino.entry_setIndex (v n) hempty (by rw [hdata, Function.update_self])

theorem block_lt {b : ℕ} (hb : b < nblocks) : b < 2 ^ 32 := by
  have hnb : nblocks = 25553 := rfl
  omega

theorem addrEntry_spec (h : Wf s v) (hl : Loaded s i n) (htype : (v n).type ≠ 0) {k a : ℕ}
    (hk : k < NDIRECT + 1) (hrun : addrEntry i k s = .ok (a, t)) :
    ∃ v', Maps i n (addrPlace k) a s v t v' := by
  obtain ⟨addr, s₀, h₀, g₀⟩ := bind_ok.mp hrun
  obtain ⟨haddr, rfl⟩ := getAddr_ok hk h₀
  have hcached := h.cached i n hl
  have hentry : addr = (v n).addrs k := by
    rw [haddr, ← hcached]
    rfl
  have hplace := blocks_addrPlace v s₀.vol n hk
  split at g₀
  · rename_i hzero
    obtain ⟨dev, s₁, h₁, g₁⟩ := bind_ok.mp g₀
    obtain ⟨hdev, rfl⟩ := look_ok.mp h₁
    rw [h.dev hl] at hdev
    subst hdev
    obtain ⟨b, s₂, h₂, g₂⟩ := bind_ok.mp g₁
    obtain ⟨hheld, halloc⟩ := balloc_spec h.sb h.held h₂
    obtain ⟨_, s₃, h₃, g₃⟩ := bind_ok.mp g₂
    have hs₃ := setAddr_ok hk h₃
    obtain ⟨rfl, rfl⟩ := pure_ok.mp g₃
    have hempty : (v n).addrs k = 0 := hentry.symm.trans hzero
    have hvol := halloc.vol (h.nmeta_le halloc.clear)
    have hvol₃ : s₃.vol = s₂.vol := by
      rw [hs₃, setSlot_vol]
    have hslot : s₃.icache i =
        { s₀.icache i with addrs := Function.update (v n).addrs k b } := by
      rw [hs₃, setSlot_self, halloc.icache, ← hcached]
      rfl
    have hslots : ∀ j, j ≠ i → s₃.icache j = s₀.icache j := by
      intro j hj
      rw [hs₃, setSlot_other _ _ _ hj, halloc.icache]
    have hframe : s₃.sb = s₀.sb ∧ s₃.past = s₀.past ∧ s₃.devsw = s₀.devsw ∧
        s₃.strict = s₀.strict ∧ s₃.log.outstanding = s₀.log.outstanding ∧
        s₃.held = s₀.held := by
      rw [hs₃]
      exact ⟨halloc.sb, halloc.past, halloc.devsw, halloc.strict, halloc.outstanding, hheld⟩
    have hblocks := blocks_setAddr h hk hempty halloc.clear s₃.vol (by rw [hvol₃, hvol])
    refine ⟨_, h.attach_maps (hplace.trans hempty) halloc.clear ?_ hblocks ?_⟩
    · refine h.attach hl htype (hplace.trans hempty) halloc.clear halloc.bound hframe hslots hslot
        rfl ((h.inRange n).setAddr hk (block_lt halloc.bound)) ?_ ?_ ?_ ?_ hblocks ?_
      · rw [hvol₃, hvol]
      · rw [hvol₃, hvol]
      · rw [hvol₃, hvol]
      · rw [hvol₃, hvol]
      · intro c hc _
        rw [hvol₃, hvol]
        exact Function.update_of_ne hc _ _
    · rw [hvol₃, hvol]
      exact Function.update_self _ _ _
  · rename_i hne
    obtain ⟨rfl, rfl⟩ := pure_ok.mp g₀
    exact ⟨v, Maps.lookup h hl (hplace.trans hentry.symm) hne⟩

/-- Writing a fresh block to an empty leaf of the map. -/
theorem blocks_setLeaf (h : Wf s v) {j b : ℕ} (hj : j < NINDIRECT)
    (hindex : (v n).addrs NDIRECT ≠ 0) (hclear : s.vol.used b = false) (hb : b < 2 ^ 32)
    (vol : Volume) (hdata : vol.data = Function.update (Function.update s.vol.data b fun _ => 0)
      ((v n).addrs NDIRECT) (put (s.vol.data ((v n).addrs NDIRECT)) (4 * j) 4 b)) :
    blocks (Function.update v n (v n)) vol = Function.update (blocks v s.vol) (n, .leaf j) b := by
  have hne := h.index_ne_clear hindex hclear
  have hfresh : Function.update s.vol.data b (fun _ => 0) ((v n).addrs NDIRECT) =
      s.vol.data ((v n).addrs NDIRECT) := Function.update_of_ne hne _ _
  refine blocks_update ?_ (fun m hmn hm => ?_) hdata
  · rw [← hfresh, Ino.entry_setLeaf _ _ hj hindex hb]
    congr 1
    funext p
    exact Ino.entry_congr (fun _ => hfresh) p
  · have hdiff : (v m).addrs NDIRECT ≠ (v n).addrs NDIRECT := by
      intro e
      exact hmn (Prod.mk.inj (h.owned.once (m, .index) (n, .index) hm e)).1
    rw [Function.update_of_ne hdiff, Function.update_of_ne (h.index_ne_clear hm hclear)]

theorem indexEntry_spec (h : Wf s v) (hl : Loaded s i n) (htype : (v n).type ≠ 0) {j a : ℕ}
    (hj : j < NINDIRECT) (hindex : (v n).addrs NDIRECT ≠ 0)
    (hrun : indexEntry i ((v n).addrs NDIRECT) j s = .ok (a, t)) :
    ∃ v', Maps i n (.leaf j) a s v t v' := by
  obtain ⟨hinside, hinuse⟩ := h.index_inside hindex
  obtain ⟨dev, s₀, h₀, g₀⟩ := bind_ok.mp hrun
  obtain ⟨hdev, rfl⟩ := look_ok.mp h₀
  rw [h.dev hl] at hdev
  subst hdev
  obtain ⟨data, s₁, h₁, g₁⟩ := bind_ok.mp g₀
  obtain ⟨hnot, _, hdata, hs₁⟩ := bread_ok.mp h₁
  obtain ⟨hf₁, hblk₁, hheld₁, _⟩ := bread_spec h₁
  have hdata' : data = s.vol.data ((v n).addrs NDIRECT) := by
    rw [hdata]
    exact (if_pos hinside.1).symm
  have hleaf : blocks v s.vol (n, .leaf j) = get data (4 * j) 4 := by
    rw [hdata']
    exact if_pos ⟨hj, hindex⟩
  split at g₁
  · rename_i hzero
    obtain ⟨dev', s₂, h₂, g₂⟩ := bind_ok.mp g₁
    obtain ⟨hdev', hs₂⟩ := look_ok.mp h₂
    rw [hf₁.icache, h.dev hl] at hdev'
    subst hdev'
    rw [← hs₂] at g₂
    obtain ⟨b, s₃, h₃, g₃⟩ := bind_ok.mp g₂
    have hnd₁ : s₁.held.Nodup := by
      rw [hheld₁]
      exact List.nodup_cons.mpr ⟨hnot, h.held⟩
    obtain ⟨hheld₃, halloc⟩ := balloc_spec (hf₁.sb.trans h.sb) hnd₁ h₃
    have hclear : s.vol.used b = false := by
      rw [← vol_congr hblk₁]
      exact halloc.clear
    have hvol₃ := halloc.vol (h.nmeta_le hclear)
    rw [vol_congr hblk₁] at hvol₃
    have hfinish : (do
        setData ROOTDEV ((v n).addrs NDIRECT) fun d => put d (4 * j) 4 b
        logWrite ((v n).addrs NDIRECT)
        brelse ROOTDEV ((v n).addrs NDIRECT) : M Unit) s₃ = .ok ((), t) ∧ b = a := by
      obtain ⟨_, s₄, h₄, g₄⟩ := bind_ok.mp g₃
      obtain ⟨_, s₅, h₅, g₅⟩ := bind_ok.mp g₄
      obtain ⟨_, s₆, h₆, g₆⟩ := bind_ok.mp g₅
      obtain ⟨hab, rfl⟩ := pure_ok.mp g₆
      refine ⟨?_, hab⟩
      rw [bind_of_ok h₄, bind_of_ok h₅]
      exact h₆
    obtain ⟨hfin, rfl⟩ := hfinish
    obtain ⟨hf₄, hheld₄, hblk₄⟩ := finish_spec hfin
    have hf : Frame s t := hf₁.trans (halloc.toFrame.trans hf₄)
    have hheld : t.held = s.held := by
      rw [hheld₄, hheld₃, hheld₁]
      exact List.erase_cons_head _ _
    have hne := h.index_ne_clear hindex hclear
    have hold : s₃.blk ROOTDEV ((v n).addrs NDIRECT) = s.vol.data ((v n).addrs NDIRECT) := by
      have hcomp : s₃.vol.data ((v n).addrs NDIRECT) = s.vol.data ((v n).addrs NDIRECT) := by
        rw [hvol₃]
        exact Function.update_of_ne hne _ _
      rw [← hcomp]
      exact (if_pos hinside.1).symm
    have hvol : t.vol = { s.vol with
        used := Function.update s.vol.used b true
        data := Function.update (Function.update s.vol.data b fun _ => 0)
          ((v n).addrs NDIRECT) (put (s.vol.data ((v n).addrs NDIRECT)) (4 * j) 4 b) } := by
      unfold State.vol at hvol₃ ⊢
      rw [hblk₄, Function.update_self, volume_data hinside.1, hvol₃, hold]
      rfl
    have hempty : blocks v s.vol (n, .leaf j) = 0 := hleaf.trans hzero
    have hblocks := blocks_setLeaf h hj hindex hclear (block_lt halloc.bound) t.vol (by rw [hvol])
    have hicache : t.icache = s.icache := hf.icache
    refine ⟨_, h.attach_maps hempty hclear ?_ hblocks ?_⟩
    · refine h.attach hl htype hempty hclear halloc.bound
        ⟨hf.sb, hf.past, hf.devsw, hf.strict, hf.outstanding, hheld⟩ (fun _ _ => by rw [hicache])
        ?_ rfl (h.inRange n) ?_ ?_ ?_ ?_ hblocks ?_
      · rw [hicache, ← h.cached i n hl]
        rfl
      · rw [hvol]
      · rw [hvol]
      · rw [hvol]
      · rw [hvol]
      · intro c hcb hci
        rw [hvol]
        show Function.update _ _ _ _ = _
        rw [Function.update_of_ne hci, Function.update_of_ne hcb]
    · rw [hvol]
      show Function.update _ _ _ _ = _
      rw [Function.update_of_ne hne.symm, Function.update_self]
  · rename_i hne
    obtain ⟨_, s₂, h₂, g₂⟩ := bind_ok.mp g₁
    obtain ⟨_, hs₂⟩ := brelse_ok.mp h₂
    obtain ⟨rfl, rfl⟩ := pure_ok.mp g₂
    have hback : s₂ = s := by
      rw [hs₂, hheld₁, List.erase_cons_head, hs₁]
    rw [hback]
    exact ⟨v, Maps.lookup h hl hleaf hne⟩

/-- Up to the single-indirect blocks, bmap finds the block of the file or attaches a
fresh, zeroed one. -/
theorem bmap_spec (h : Wf s v) (hl : Loaded s i n) (htype : (v n).type ≠ 0) {bn a : ℕ}
    (hbn : bn < smallBlocks) (hrun : bmap i bn s = .ok (a, t)) :
    ∃ v', Wf t v' ∧ Extends i n s v t v' ∧ blocks v' t.vol (n, placeOf bn) = a ∧ a ≠ 0 ∧
      (∀ bn', bn' ≠ bn →
        blocks v' t.vol (n, placeOf bn') = blocks v s.vol (n, placeOf bn')) ∧
      (blocks v s.vol (n, placeOf bn) ≠ 0 → t = s ∧ v' = v) ∧
      (blocks v s.vol (n, placeOf bn) = 0 → t.vol.data a = fun _ => 0) := by
  have hsmall : smallBlocks = NDIRECT + NINDIRECT := rfl
  have hplaces : ∀ bn', bn' ≠ bn → placeOf bn' ≠ placeOf bn := fun _ hne e => hne (placeOf_inj e)
  unfold bmap at hrun
  split at hrun
  · rename_i hdirect
    obtain ⟨v', hm⟩ := addrEntry_spec h hl htype (by omega) hrun
    have hplace : addrPlace bn = placeOf bn := by rw [addrPlace, placeOf, if_pos hdirect,
        if_pos hdirect]
    rw [hplace] at hm
    exact ⟨v', hm.wf, hm.ext, hm.found, hm.nonzero, fun _ hne => hm.rest _ (hplaces _ hne), hm.old,
      hm.fresh⟩
  · rename_i hdirect
    have hplace : placeOf bn = .leaf (bn - NDIRECT) := if_neg hdirect
    rw [if_pos (by omega)] at hrun
    obtain ⟨addr, s₁, h₁, h₂⟩ := bind_ok.mp hrun
    obtain ⟨v₁, hm₁⟩ := addrEntry_spec h hl htype (by omega) h₁
    have hindexPlace : addrPlace NDIRECT = .index := if_neg (by omega)
    rw [hindexPlace] at hm₁
    have hfound : (v₁ n).addrs NDIRECT = addr := hm₁.found
    have htype₁ : (v₁ n).type ≠ 0 := by
      rw [hm₁.ext.fields]
      exact htype
    rw [← hfound] at h₂
    obtain ⟨v', hm₂⟩ := indexEntry_spec hm₁.wf (hm₁.ext.loaded.mpr hl) htype₁ (by omega)
      (hfound.symm ▸ hm₁.nonzero) h₂
    rw [← hplace] at hm₂
    have hindex : ∀ bn', placeOf bn' ≠ .index := placeOf_ne_index
    refine ⟨v', hm₂.wf, hm₁.ext.trans hm₂.ext, hm₂.found, hm₂.nonzero, ?_, ?_, ?_⟩
    · intro bn' hne
      rw [hm₂.rest _ (hplaces _ hne), hm₁.rest _ (hindex bn')]
    · intro hold
      -- a mapped leaf has an index block
      have hindex₀ : blocks v s.vol (n, .index) ≠ 0 := by
        intro hzero
        apply hold
        rw [hplace]
        exact if_neg fun hc => hc.2 hzero
      obtain ⟨rfl, rfl⟩ := hm₁.old hindex₀
      exact hm₂.old hold
    · intro hempty
      apply hm₂.fresh
      rw [hm₁.rest _ (hindex bn)]
      exact hempty

end Growth

end NorthOS.Fs
