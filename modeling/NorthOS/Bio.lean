import Mathlib.Data.Finset.Image
import Mathlib.Data.Finset.Prod
import Mathlib.Data.List.Perm.Lattice
import NorthOS.Param

/-!
The buffer cache of bio.c as the list that starts at `bcache.head.next`. References
are counted against the blocks that processes hold, and the dirty flag against the
blocks the log has pinned; which buffer serves a block and where it stands in the
list matter to neither count.
-/
namespace NorthOS.Bio

def NBUF : ℕ := MAXOPBLOCKS * 3

/-- `valid` and `dirty` are the two bits of `flags`. -/
structure Buf where
  dev : ℕ
  blockno : ℕ
  refcnt : ℕ
  valid : Bool
  dirty : Bool
  deriving DecidableEq, Repr

def Buf.isOn (dev blockno : ℕ) (b : Buf) : Bool := b.dev == dev && b.blockno == blockno

def Buf.unused (b : Buf) : Bool := b.refcnt == 0 && !b.dirty

/-- The transfer, in either direction, is complete when iderw returns. -/
def Buf.iderw (b : Buf) : Buf := { b with valid := true, dirty := false }

/-- An assignment to the first buffer that the loop stops at. -/
def updateFirst (p : Buf → Bool) (f : Buf → Buf) : List Buf → List Buf
  | [] => []
  | b :: bs => if p b then f b :: bs else b :: updateFirst p f bs

def binit : List Buf := List.replicate NBUF ⟨0, 0, 0, false, false⟩

/-- `none` is the panic. The second loop runs from `bcache.head.prev` backwards. -/
def bget (dev blockno : ℕ) (bcache : List Buf) : Option (List Buf) :=
  if bcache.any (Buf.isOn dev blockno) then
    some (updateFirst (Buf.isOn dev blockno) (fun b => { b with refcnt := b.refcnt + 1 }) bcache)
  else if bcache.any Buf.unused then
    some (updateFirst Buf.unused (fun _ => ⟨dev, blockno, 1, false, false⟩) bcache.reverse).reverse
  else none

def bread (dev blockno : ℕ) (bcache : List Buf) : Option (List Buf) :=
  (bget dev blockno bcache).map
    (updateFirst (Buf.isOn dev blockno) fun b => if b.valid then b else b.iderw)

def bwrite (dev blockno : ℕ) (bcache : List Buf) : List Buf :=
  updateFirst (Buf.isOn dev blockno) (fun b => { b with dirty := true }.iderw) bcache

/-- The last reference moves the buffer to the head of the list. -/
def brelse (dev blockno : ℕ) (bcache : List Buf) : List Buf :=
  match bcache.find? (Buf.isOn dev blockno) with
  | none => bcache
  | some b =>
    if b.refcnt - 1 = 0 then
      { b with refcnt := b.refcnt - 1 } :: bcache.eraseP (Buf.isOn dev blockno)
    else
      updateFirst (Buf.isOn dev blockno) (fun b => { b with refcnt := b.refcnt - 1 }) bcache

/-- `b->flags |= B_DIRTY` in log_write. -/
def pin (dev blockno : ℕ) (bcache : List Buf) : List Buf :=
  updateFirst (Buf.isOn dev blockno) (fun b => { b with dirty := true }) bcache

/-- The number of processes that hold the block or wait for its lock. -/
def refs (held : Finset (ℕ × ℕ)) (blockno : ℕ) : ℕ := (held.filter fun h => h.2 = blockno).card

/-- The blocks whose buffers bget may not recycle. -/
def used (held : Finset (ℕ × ℕ)) (pinned : Finset ℕ) : Finset ℕ := held.image Prod.snd ∪ pinned

/-- Buffers of ROOTDEV that serve different blocks and count what `held` and `pinned`
say. Buffers of other devices have never been used. -/
structure Agrees (bcache : List Buf) (held : Finset (ℕ × ℕ)) (pinned : Finset ℕ) : Prop where
  length : bcache.length = NBUF
  distinct : bcache.Pairwise fun x y => x.dev = ROOTDEV → y.dev = ROOTDEV → x.blockno ≠ y.blockno
  others : ∀ x ∈ bcache, x.dev ≠ ROOTDEV → x.unused
  refcnt : ∀ x ∈ bcache, x.dev = ROOTDEV → x.refcnt = refs held x.blockno
  dirty : ∀ x ∈ bcache, x.dev = ROOTDEV → (x.dirty = true ↔ x.blockno ∈ pinned)
  valid : ∀ x ∈ bcache, x.dev = ROOTDEV → x.valid = true
  cached : ∀ b ∈ used held pinned, ∃ x ∈ bcache, x.isOn ROOTDEV b

/-- One buffer that passes the test is changed, and buffers may move. -/
def Changes (p : Buf → Bool) (f : Buf → Buf) (bcache bcache' : List Buf) : Prop :=
  ∃ x rest, p x ∧ bcache.Perm (x :: rest) ∧ bcache'.Perm (f x :: rest)

variable {bcache bcache' : List Buf} {held held' : Finset (ℕ × ℕ)} {pinned pinned' : Finset ℕ}
  {p : Buf → Bool} {f : Buf → Buf} {b q : ℕ}

theorem Buf.isOn_iff {dev blockno : ℕ} {x : Buf} :
    x.isOn dev blockno ↔ x.dev = dev ∧ x.blockno = blockno := by
  simp [Buf.isOn]

theorem Buf.unused_iff {x : Buf} : x.unused ↔ x.refcnt = 0 ∧ x.dirty = false := by
  simp [Buf.unused]

theorem updateFirst_changes (h : ∃ x ∈ bcache, p x) :
    Changes p f bcache (updateFirst p f bcache) := by
  induction bcache with
  | nil =>
    obtain ⟨x, hx, _⟩ := h
    exact absurd hx List.not_mem_nil
  | cons y bs ih =>
    by_cases hy : p y
    · exact ⟨y, bs, hy, List.Perm.refl _, by simp [updateFirst, hy]⟩
    · have hrest : ∃ x ∈ bs, p x := by
        obtain ⟨x, hx, hp⟩ := h
        rcases List.mem_cons.mp hx with rfl | hx
        · exact absurd hp hy
        · exact ⟨x, hx, hp⟩
      obtain ⟨x, rest, hp, hold, hnew⟩ := ih hrest
      refine ⟨x, y :: rest, hp, ?_, ?_⟩
      · exact (hold.cons y).trans (List.Perm.swap x y rest)
      · simp only [updateFirst, hy, Bool.false_eq_true, if_false]
        exact (hnew.cons y).trans (List.Perm.swap (f x) y rest)

/-- Where a single buffer passes the test, that one is changed. -/
theorem Changes.only {x : Buf} {rest : List Buf} (h : Changes p f bcache bcache')
    (hc : bcache.Perm (x :: rest)) (hx : p x) (hrest : ∀ z ∈ rest, ¬ p z) :
    bcache'.Perm (f x :: rest) := by
  obtain ⟨y, others, hy, hold, hnew⟩ := h
  have hperm := hold.symm.trans hc
  rcases List.mem_cons.mp (hperm.mem_iff.mp List.mem_cons_self) with rfl | hmem
  · exact hnew.trans (hperm.cons_inv.cons (f y))
  · exact absurd hy (hrest y hmem)

theorem brelse_changes {dev : ℕ} (h : ∃ x ∈ bcache, x.isOn dev b) :
    Changes (Buf.isOn dev b) (fun x => { x with refcnt := x.refcnt - 1 }) bcache
      (brelse dev b bcache) := by
  unfold brelse
  split
  · rename_i hnone
    obtain ⟨x, hx, hon⟩ := h
    exact absurd hon (List.find?_eq_none.mp hnone x hx)
  · rename_i x hsome
    split
    · obtain ⟨hon, l, r, rfl, hl⟩ := List.find?_eq_some_iff_append.mp hsome
      refine ⟨x, l ++ r, hon, List.perm_middle, ?_⟩
      have herase : (l ++ x :: r).eraseP (Buf.isOn dev b) = l ++ r := by
        rw [List.eraseP_append_right _ fun y hy => by simpa using hl y hy,
          List.eraseP_cons_of_pos hon]
      rw [herase]
    · exact updateFirst_changes h

theorem bget_hit {dev : ℕ} (h : ∃ x ∈ bcache, x.isOn dev b) : bget dev b bcache ≠ none := by
  rw [bget, if_pos (List.any_eq_true.mpr h)]
  simp

theorem bget_unused {dev : ℕ} (h : ∃ x ∈ bcache, x.unused) : bget dev b bcache ≠ none := by
  unfold bget
  split
  · simp
  · rw [if_pos (List.any_eq_true.mpr h)]
    simp

section Counts

theorem mem_used : b ∈ used held pinned ↔ 0 < refs held b ∨ b ∈ pinned := by
  rw [used, Finset.mem_union, Finset.mem_image, refs, Finset.card_pos]
  constructor
  · rintro (⟨⟨q, c⟩, hq, rfl⟩ | hb)
    · exact Or.inl ⟨(q, c), Finset.mem_filter.mpr ⟨hq, rfl⟩⟩
    · exact Or.inr hb
  · rintro (⟨h, hh⟩ | hb)
    · obtain ⟨hmem, heq⟩ := Finset.mem_filter.mp hh
      exact Or.inl ⟨h, hmem, heq⟩
    · exact Or.inr hb

theorem refs_insert (h : (q, b) ∉ held) (c : ℕ) :
    refs (insert (q, b) held) c = if c = b then refs held c + 1 else refs held c := by
  unfold refs
  rw [Finset.filter_insert]
  by_cases hc : c = b
  · rw [if_pos hc.symm, if_pos hc, Finset.card_insert_of_notMem]
    intro hmem
    exact h (Finset.mem_of_mem_filter _ hmem)
  · rw [if_neg (Ne.symm hc), if_neg hc]

theorem refs_erase (h : (q, b) ∈ held) (c : ℕ) :
    refs (held.erase (q, b)) c = if c = b then refs held c - 1 else refs held c := by
  unfold refs
  rw [Finset.filter_erase]
  by_cases hc : c = b
  · rw [if_pos hc, Finset.card_erase_of_mem (Finset.mem_filter.mpr ⟨h, hc.symm⟩)]
  · rw [if_neg hc, Finset.erase_eq_of_notMem]
    intro hmem
    exact hc (Finset.mem_filter.mp hmem).2.symm

theorem refs_pos (h : (q, b) ∈ held) : 0 < refs held b :=
  Finset.card_pos.mpr ⟨(q, b), Finset.mem_filter.mpr ⟨h, rfl⟩⟩

end Counts

namespace Agrees

theorem perm (h : Agrees bcache held pinned) (hp : bcache'.Perm bcache) :
    Agrees bcache' held pinned where
  length := hp.length_eq.trans h.length
  distinct := by
    refine (hp.pairwise_iff ?_).mpr h.distinct
    intro x y hxy hy hx heq
    exact hxy hx hy heq.symm
  others := fun x hx => h.others x (hp.mem_iff.mp hx)
  refcnt := fun x hx => h.refcnt x (hp.mem_iff.mp hx)
  dirty := fun x hx => h.dirty x (hp.mem_iff.mp hx)
  valid := fun x hx => h.valid x (hp.mem_iff.mp hx)
  cached := by
    intro b hb
    obtain ⟨x, hx, hon⟩ := h.cached b hb
    exact ⟨x, hp.mem_iff.mpr hx, hon⟩

/-- A buffer gives way to one for block `b`: it served `b` itself or was unused. -/
theorem replace {x y : Buf} {rest : List Buf} (h : Agrees (x :: rest) held pinned)
    (hold : x.isOn ROOTDEV b ∨ x.unused) (hnew : ∀ z ∈ rest, ¬ z.isOn ROOTDEV b)
    (hy : y.isOn ROOTDEV b) (hrefs : y.refcnt = refs held' b)
    (hdirty : y.dirty = true ↔ b ∈ pinned') (hvalid : y.valid = true)
    (hframe : ∀ c, c ≠ b → refs held' c = refs held c ∧ (c ∈ pinned' ↔ c ∈ pinned)) :
    Agrees (y :: rest) held' pinned' := by
  obtain ⟨hydev, hyb⟩ := Buf.isOn_iff.mp hy
  have hother : ∀ z ∈ rest, z.dev = ROOTDEV → z.blockno ≠ b := by
    intro z hz hdev heq
    exact hnew z hz (Buf.isOn_iff.mpr ⟨hdev, heq⟩)
  refine ⟨h.length, ?_, ?_, ?_, ?_, ?_, ?_⟩
  · refine List.pairwise_cons.mpr ⟨?_, (List.pairwise_cons.mp h.distinct).2⟩
    intro z hz _ hdev heq
    exact hother z hz hdev (heq.symm.trans hyb)
  · intro z hz hdev
    rcases List.mem_cons.mp hz with rfl | hz
    · exact absurd hydev hdev
    · exact h.others z (List.mem_cons_of_mem x hz) hdev
  · intro z hz hdev
    rcases List.mem_cons.mp hz with rfl | hz
    · rw [hyb]
      exact hrefs
    · rw [(hframe _ (hother z hz hdev)).1]
      exact h.refcnt z (List.mem_cons_of_mem x hz) hdev
  · intro z hz hdev
    rcases List.mem_cons.mp hz with rfl | hz
    · rw [hyb]
      exact hdirty
    · rw [(hframe _ (hother z hz hdev)).2]
      exact h.dirty z (List.mem_cons_of_mem x hz) hdev
  · intro z hz hdev
    rcases List.mem_cons.mp hz with rfl | hz
    · exact hvalid
    · exact h.valid z (List.mem_cons_of_mem x hz) hdev
  · intro c hc
    by_cases hcb : c = b
    · exact ⟨y, List.mem_cons_self, by rw [hcb]; exact hy⟩
    · obtain ⟨hr, hp⟩ := hframe c hcb
      have hused : c ∈ used held pinned := by
        rw [mem_used, hr, hp] at hc
        exact mem_used.mpr hc
      obtain ⟨z, hz, hon⟩ := h.cached c hused
      refine ⟨z, List.mem_cons_of_mem y ?_, hon⟩
      rcases List.mem_cons.mp hz with rfl | hz
      · -- the buffer that gives way does not serve a used block other than `b`
        obtain ⟨hzdev, hzc⟩ := Buf.isOn_iff.mp hon
        rcases hold with hold | hold
        · exact absurd (hzc.symm.trans (Buf.isOn_iff.mp hold).2) hcb
        · obtain ⟨hzero, hclean⟩ := Buf.unused_iff.mp hold
          rw [h.refcnt z List.mem_cons_self hzdev, hzc] at hzero
          rcases mem_used.mp hused with hpos | hpin
          · omega
          · have hd := (h.dirty z List.mem_cons_self hzdev).mpr (by rw [hzc]; exact hpin)
            rw [hclean] at hd
            cases hd
      · exact hz

/-- No second buffer serves the block. -/
theorem alone {x : Buf} {rest : List Buf} (h : Agrees (x :: rest) held pinned)
    (hx : x.isOn ROOTDEV b) : ∀ z ∈ rest, ¬ z.isOn ROOTDEV b := by
  intro z hz hon
  obtain ⟨hxdev, hxb⟩ := Buf.isOn_iff.mp hx
  obtain ⟨hzdev, hzb⟩ := Buf.isOn_iff.mp hon
  exact (List.pairwise_cons.mp h.distinct).1 z hz hxdev hzdev (hxb.trans hzb.symm)

theorem cached_of_held (h : Agrees bcache held pinned) (hq : (q, b) ∈ held) :
    ∃ x ∈ bcache, x.isOn ROOTDEV b :=
  h.cached b (mem_used.mpr (Or.inl (refs_pos hq)))

theorem at_block (h : Agrees bcache held pinned) {x : Buf} (hx : x ∈ bcache)
    (hon : x.isOn ROOTDEV b) :
    x.refcnt = refs held b ∧ (x.dirty = true ↔ b ∈ pinned) ∧ x.valid = true := by
  obtain ⟨hdev, hb⟩ := Buf.isOn_iff.mp hon
  have hrefs := h.refcnt x hx hdev
  have hdirty := h.dirty x hx hdev
  rw [hb] at hrefs hdirty
  exact ⟨hrefs, hdirty, h.valid x hx hdev⟩

/-- The buffer of block `b` is changed and goes on serving `b`. -/
theorem change (h : Agrees bcache held pinned)
    (hc : Changes (Buf.isOn ROOTDEV b) f bcache bcache')
    (hf : ∀ x ∈ bcache, x.isOn ROOTDEV b → (f x).isOn ROOTDEV b ∧ (f x).refcnt = refs held' b ∧
      ((f x).dirty = true ↔ b ∈ pinned') ∧ (f x).valid = true)
    (hframe : ∀ c, c ≠ b → refs held' c = refs held c ∧ (c ∈ pinned' ↔ c ∈ pinned)) :
    Agrees bcache' held' pinned' := by
  obtain ⟨x, rest, hx, hold, hnew⟩ := hc
  obtain ⟨hon, hrefs, hdirty, hvalid⟩ := hf x (hold.mem_iff.mpr List.mem_cons_self) hx
  have hat := h.perm hold.symm
  exact (hat.replace (Or.inl hx) (hat.alone hx) hon hrefs hdirty hvalid hframe).perm hnew

/-- A hit adds a reference, a miss takes over an unused buffer. -/
theorem bget_cases (h : Agrees bcache held pinned)
    (hb : bget ROOTDEV b bcache = some bcache') :
    ∃ x y rest, bcache.Perm (x :: rest) ∧ bcache'.Perm (y :: rest) ∧
      (∀ z ∈ rest, ¬ z.isOn ROOTDEV b) ∧ (x.isOn ROOTDEV b ∧ y = { x with refcnt := x.refcnt + 1 } ∨
        x.unused ∧ b ∉ used held pinned ∧ y = ⟨ROOTDEV, b, 1, false, false⟩) := by
  unfold bget at hb
  split at hb
  · rename_i hhit
    obtain rfl := Option.some.inj hb
    obtain ⟨x, rest, hx, hold, hnew⟩ := updateFirst_changes (p := Buf.isOn ROOTDEV b)
      (f := fun x => { x with refcnt := x.refcnt + 1 }) (List.any_eq_true.mp hhit)
    exact ⟨x, _, rest, hold, hnew, (h.perm hold.symm).alone hx, Or.inl ⟨hx, rfl⟩⟩
  · rename_i hmiss
    have habsent : ∀ x ∈ bcache, ¬ x.isOn ROOTDEV b := by
      intro x hx hon
      exact hmiss (List.any_eq_true.mpr ⟨x, hx, hon⟩)
    split at hb
    · rename_i hfree
      obtain rfl := Option.some.inj hb
      have hrev : ∃ x ∈ bcache.reverse, x.unused := by
        obtain ⟨x, hx, hu⟩ := List.any_eq_true.mp hfree
        exact ⟨x, List.mem_reverse.mpr hx, hu⟩
      obtain ⟨x, rest, hx, hold, hnew⟩ := updateFirst_changes (p := Buf.unused)
        (f := fun _ => ⟨ROOTDEV, b, 1, false, false⟩) hrev
      have hperm := (List.reverse_perm bcache).symm.trans hold
      refine ⟨x, _, rest, hperm, (List.reverse_perm _).trans hnew, ?_, Or.inr ⟨hx, ?_, rfl⟩⟩
      · intro z hz
        exact habsent z (hperm.mem_iff.mpr (List.mem_cons_of_mem x hz))
      · intro hused
        obtain ⟨y, hy, hon⟩ := h.cached b hused
        exact habsent y hy hon
    · cases hb

theorem bread (h : Agrees bcache held pinned) (hq : (q, b) ∉ held)
    (hb : Bio.bread ROOTDEV b bcache = some bcache') :
    Agrees bcache' (insert (q, b) held) pinned := by
  obtain ⟨c, hget, rfl⟩ := Option.map_eq_some_iff.mp hb
  obtain ⟨x, y, rest, hold, hnew, hrest, hxy⟩ := h.bget_cases hget
  have hat := h.perm hold.symm
  have hone : refs (insert (q, b) held) b = refs held b + 1 := by rw [refs_insert hq, if_pos rfl]
  have hframe : ∀ c, c ≠ b →
      refs (insert (q, b) held) c = refs held c ∧ (c ∈ pinned ↔ c ∈ pinned) :=
    fun c hc => ⟨by rw [refs_insert hq, if_neg hc], Iff.rfl⟩
  have hy : y.isOn ROOTDEV b := by
    rcases hxy with ⟨hx, rfl⟩ | ⟨_, _, rfl⟩
    · exact hx
    · exact Buf.isOn_iff.mpr ⟨rfl, rfl⟩
  have hload := (updateFirst_changes (f := fun b => if b.valid then b else b.iderw)
    ⟨y, hnew.mem_iff.mpr List.mem_cons_self, hy⟩).only hnew hy hrest
  refine Agrees.perm ?_ hload
  rcases hxy with ⟨hx, rfl⟩ | ⟨hx, hunused, rfl⟩
  · obtain ⟨hrefs, hdirty, hvalid⟩ := hat.at_block List.mem_cons_self hx
    have hrefs' : x.refcnt + 1 = refs (insert (q, b) held) b := by rw [hone, hrefs]
    rw [if_pos hvalid]
    exact hat.replace (Or.inl hx) hrest hy hrefs' hdirty hvalid hframe
  · rw [mem_used, not_or, Nat.not_lt, Nat.le_zero] at hunused
    have hrefs : 1 = refs (insert (q, b) held) b := by rw [hone, hunused.1]
    exact hat.replace (Or.inr hx) hrest hy hrefs (by simp [Buf.iderw, hunused.2]) rfl hframe

theorem bwrite (h : Agrees bcache held pinned) (hq : (q, b) ∈ held) :
    Agrees (Bio.bwrite ROOTDEV b bcache) held (pinned.erase b) := by
  refine h.change (updateFirst_changes (h.cached_of_held hq)) ?_ ?_
  · intro x hx hon
    exact ⟨hon, (h.at_block hx hon).1, by simp [Buf.iderw], rfl⟩
  · intro c hc
    exact ⟨rfl, by simp [hc]⟩

theorem brelse (h : Agrees bcache held pinned) (hq : (q, b) ∈ held) :
    Agrees (Bio.brelse ROOTDEV b bcache) (held.erase (q, b)) pinned := by
  refine h.change (brelse_changes (h.cached_of_held hq)) ?_ ?_
  · intro x hx hon
    obtain ⟨hrefs, hdirty, hvalid⟩ := h.at_block hx hon
    refine ⟨hon, ?_, hdirty, hvalid⟩
    rw [refs_erase hq, if_pos rfl, ← hrefs]
  · intro c hc
    exact ⟨by rw [refs_erase hq, if_neg hc], Iff.rfl⟩

theorem pin (h : Agrees bcache held pinned) (hq : (q, b) ∈ held) :
    Agrees (Bio.pin ROOTDEV b bcache) held (insert b pinned) := by
  refine h.change (updateFirst_changes (h.cached_of_held hq)) ?_ ?_
  · intro x hx hon
    obtain ⟨hrefs, _, hvalid⟩ := h.at_block hx hon
    exact ⟨hon, hrefs, by simp, hvalid⟩
  · intro c hc
    exact ⟨rfl, by simp [hc]⟩

/-- A used block has a buffer of its own that is not free, so a free buffer is one that
the used blocks leave over. -/
theorem exists_unused_iff (h : Agrees bcache held pinned) :
    (∃ x ∈ bcache, x.unused) ↔ (used held pinned).card < NBUF := by
  have hbusy : ∀ x ∈ bcache, x.dev = ROOTDEV → (x.blockno ∈ used held pinned ↔ ¬ x.unused) := by
    intro x hx hdev
    rw [mem_used, ← h.refcnt x hx hdev, ← h.dirty x hx hdev, Buf.unused_iff, not_and_or,
      Bool.not_eq_false, Nat.pos_iff_ne_zero]
  constructor
  · rintro ⟨x, hx, hfree⟩
    have hsub : used held pinned ⊆ ((bcache.erase x).map Buf.blockno).toFinset := by
      intro b hb
      obtain ⟨y, hy, hon⟩ := h.cached b hb
      obtain ⟨hdev, rfl⟩ := Buf.isOn_iff.mp hon
      have hne : y ≠ x := by
        rintro rfl
        exact (hbusy y hy hdev).mp hb hfree
      exact List.mem_toFinset.mpr (List.mem_map_of_mem ((List.mem_erase_of_ne hne).mpr hy))
    have hpos : 0 < bcache.length := List.length_pos_of_mem hx
    have hlength : ((bcache.erase x).map Buf.blockno).length = bcache.length - 1 := by
      rw [List.length_map, List.length_erase_of_mem hx]
    have hcard := (Finset.card_le_card hsub).trans (List.toFinset_card_le _)
    rw [hlength] at hcard
    rw [← h.length]
    omega
  · intro hcard
    by_contra hnone
    have hall : ∀ x ∈ bcache, ¬ x.unused := fun x hx hu => hnone ⟨x, hx, hu⟩
    have hdev : ∀ x ∈ bcache, x.dev = ROOTDEV := by
      intro x hx
      by_contra hdev
      exact hall x hx (h.others x hx hdev)
    have hnodup : (bcache.map Buf.blockno).Nodup := by
      refine List.pairwise_map.mpr (h.distinct.imp_of_mem ?_)
      intro x y hx hy hxy
      exact hxy (hdev x hx) (hdev y hy)
    have hsub : (bcache.map Buf.blockno).toFinset ⊆ used held pinned := by
      intro b hb
      obtain ⟨x, hx, rfl⟩ := List.mem_map.mp (List.mem_toFinset.mp hb)
      exact (hbusy x hx (hdev x hx)).mpr (hall x hx)
    have hle := Finset.card_le_card hsub
    rw [List.toFinset_card_of_nodup hnodup, List.length_map, h.length] at hle
    omega

theorem binit : Agrees Bio.binit ∅ ∅ := by
  have hblank : ∀ x ∈ Bio.binit, x = ⟨0, 0, 0, false, false⟩ :=
    fun x hx => List.eq_of_mem_replicate hx
  have hdev : ∀ x ∈ Bio.binit, x.dev ≠ ROOTDEV := by
    intro x hx
    rw [hblank x hx]
    decide
  refine ⟨List.length_replicate, ?_, ?_, ?_, ?_, ?_, ?_⟩
  · refine List.pairwise_iff_forall_sublist.mpr ?_
    intro x y hxy hx
    exact absurd hx (hdev x (hxy.subset List.mem_cons_self))
  · intro x hx _
    rw [hblank x hx]
    rfl
  · exact fun x hx h => absurd h (hdev x hx)
  · exact fun x hx h => absurd h (hdev x hx)
  · exact fun x hx h => absurd h (hdev x hx)
  · intro b hb
    simp [used] at hb

end Agrees

end NorthOS.Bio
