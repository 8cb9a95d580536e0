import Mathlib.Data.Fintype.Card
import NorthOS.Bio
import NorthOS.IndexList
import NorthOS.Runs

/-!
The buffers of bio.c with their links, reference counts and sleep locks, while any number
of processes call bread, bwrite, log_write and brelse. What happens under bcache.lock is
one step; the wait for the lock of a buffer comes after it, and brelse gives that lock
back before it counts the reference off. Buffers are numbered, and -1 is bcache.head.
-/
namespace NorthOS.BufferSharing

open Bio IndexList Runs

/-- Where a process stands in its calls: outside of bio.c, before acquiresleep in bget, in
iderw until the interrupt, or in brelse behind releasesleep. -/
inductive Pc
  | user
  | waiting (b : ℤ)
  | transfer (b : ℤ)
  | returning (b : ℤ)
  deriving DecidableEq, Repr

/-- `owner` is the process that has the sleep lock of a buffer, `asked` the arguments of
the last bget in which a process was given the buffer. -/
structure Sys (P : Type*) where
  buf : ℤ → Buf
  links : Links
  owner : ℤ → Option P
  pc : P → Pc
  asked : P → ℤ → ℕ × ℕ

/-- The addresses `bcache.buf` to `bcache.buf + NBUF - 1`. -/
def buffers : List ℤ := (List.range NBUF).map (↑)

/-- The loop of binit over the buffers. -/
def binit : Links := buffers.foldl Links.linkFirst Links.alone

variable {P : Type*}

namespace Sys

def init : Sys P where
  buf := fun _ => ⟨0, 0, 0, false, false⟩
  links := binit
  owner := fun _ => none
  pc := fun _ => .user
  asked := fun _ _ => (0, 0)

def setBuf (s : Sys P) (b : ℤ) (f : Buf → Buf) : Sys P :=
  { s with buf := Function.update s.buf b (f (s.buf b)) }

/-- The first loop of bget, over the links from `bcache.head.next` on. -/
def lookup (s : Sys P) (dev blockno : ℕ) : Option ℤ :=
  search s.links.next (fun b => (s.buf b).isOn dev blockno) (NBUF + 1) (s.links.next (-1))

/-- The second loop, from `bcache.head.prev` backwards. -/
def recycle (s : Sys P) : Option ℤ :=
  search s.links.prev (fun b => (s.buf b).unused) (NBUF + 1) (s.links.prev (-1))

/-- The section of brelse under bcache.lock. -/
def putRef (s : Sys P) (b : ℤ) : Sys P :=
  let t := s.setBuf b fun x => { x with refcnt := x.refcnt - 1 }
  if (t.buf b).refcnt = 0 then { t with links := (t.links.unlink b).linkFirst b } else t

variable [DecidableEq P]

def goto (s : Sys P) (p : P) (pc : Pc) : Sys P := { s with pc := Function.update s.pc p pc }

/-- What bget leaves behind when it has found or recycled the buffer. -/
def give (s : Sys P) (p : P) (dev blockno : ℕ) (b : ℤ) (f : Buf → Buf) : Sys P :=
  { (s.setBuf b f).goto p (.waiting b) with
    asked := Function.update s.asked p (Function.update (s.asked p) b (dev, blockno)) }

/-- The section of bget under bcache.lock; `none` is the panic. -/
def bget (s : Sys P) (p : P) (dev blockno : ℕ) : Option (Sys P) :=
  (s.lookup dev blockno).bind fun b =>
    if b ≠ -1 then some (s.give p dev blockno b fun x => { x with refcnt := x.refcnt + 1 })
    else s.recycle.bind fun c =>
      if c ≠ -1 then some (s.give p dev blockno c fun _ => ⟨dev, blockno, 1, false, false⟩)
      else none

end Sys

section Fields

variable {s : Sys P} {p q : P} {b c : ℤ} {dev blockno : ℕ} {f : Buf → Buf} {pc : Pc}

@[simp] theorem setBuf_self : (s.setBuf b f).buf b = f (s.buf b) := Function.update_self ..

@[simp] theorem setBuf_other (h : c ≠ b) : (s.setBuf b f).buf c = s.buf c :=
    Function.update_of_ne h ..

@[simp] theorem putRef_buf :
    (s.putRef b).buf = (s.setBuf b fun x => { x with refcnt := x.refcnt - 1 }).buf := by
  rw [Sys.putRef]
  split_ifs <;> rfl

@[simp] theorem putRef_owner : (s.putRef b).owner = s.owner := by
  rw [Sys.putRef]
  split_ifs <;> rfl

@[simp] theorem putRef_pc : (s.putRef b).pc = s.pc := by
  rw [Sys.putRef]
  split_ifs <;> rfl

@[simp] theorem putRef_asked : (s.putRef b).asked = s.asked := by
  rw [Sys.putRef]
  split_ifs <;> rfl

variable [DecidableEq P]

@[simp] theorem goto_buf : (s.goto p pc).buf = s.buf := rfl
@[simp] theorem goto_links : (s.goto p pc).links = s.links := rfl
@[simp] theorem goto_owner : (s.goto p pc).owner = s.owner := rfl
@[simp] theorem goto_asked : (s.goto p pc).asked = s.asked := rfl
@[simp] theorem goto_self : (s.goto p pc).pc p = pc := Function.update_self ..

@[simp] theorem goto_other (h : q ≠ p) : (s.goto p pc).pc q = s.pc q := Function.update_of_ne h ..

@[simp] theorem give_self : (s.give p dev blockno b f).buf b = f (s.buf b) :=
    Function.update_self ..

@[simp] theorem give_other (h : c ≠ b) : (s.give p dev blockno b f).buf c = s.buf c :=
  Function.update_of_ne h ..

end Fields

variable [DecidableEq P]

/-- `ideintr` ends the transfer of the buffer that its process waits for in iderw; a read
may have failed. -/
inductive Act (P : Type*)
  | bget (p : P) (dev blockno : ℕ)
  | acquiresleep (p : P)
  | fetch (p : P) (b : ℤ)
  | bwrite (p : P) (b : ℤ)
  | ideintr (p : P) (ok : Bool)
  | iderw (p : P)
  | logWrite (p : P) (b : ℤ)
  | releasesleep (p : P) (b : ℤ)
  | brelse (p : P)

/-- A process that waits or transfers is in that call; `none` is a panic or a step that the
process does not have. -/
def step (s : Sys P) : Act P → Option (Sys P)
  | .bget p dev blockno => if s.pc p = .user then s.bget p dev blockno else none
  | .acquiresleep p =>
    match s.pc p with
    | .waiting b =>
      if s.owner b = none then
        some { s.goto p .user with owner := Function.update s.owner b (some p) }
      else none
    | _ => none
  -- the rest of bread, behind bget
  | .fetch p b =>
    if s.pc p = .user ∧ s.owner b = some p then
      if (s.buf b).valid then some s else some (s.goto p (.transfer b))
    else none
  | .bwrite p b =>
    if s.pc p = .user ∧ s.owner b = some p then
      some ((s.setBuf b fun x => { x with dirty := true }).goto p (.transfer b))
    else none
  | .ideintr p ok =>
    match s.pc p with
    | .transfer b => some (s.setBuf b fun x => { x with valid := x.dirty || ok, dirty := false })
    | _ => none
  -- iderw returns once the flags say B_VALID and not B_DIRTY
  | .iderw p =>
    match s.pc p with
    | .transfer b =>
      if (s.buf b).valid ∧ (s.buf b).dirty = false then some (s.goto p .user) else none
    | _ => none
  | .logWrite p b =>
    if s.pc p = .user ∧ s.owner b = some p then
      some (s.setBuf b fun x => { x with dirty := true })
    else none
  | .releasesleep p b =>
    if s.pc p = .user ∧ s.owner b = some p then
      some { s.goto p (.returning b) with owner := Function.update s.owner b none }
    else none
  | .brelse p =>
    match s.pc p with
    | .returning b => some ((s.putRef b).goto p .user)
    | _ => none

/-- A process waits for a buffer from the section of bget to acquiresleep, and holds it
until brelse has counted the reference off. -/
def Sys.Waits (s : Sys P) (b : ℤ) (p : P) : Prop := s.pc p = .waiting b

def Sys.Holds (s : Sys P) (b : ℤ) (p : P) : Prop := s.owner b = some p ∨ s.pc p = .returning b

instance (s : Sys P) (b : ℤ) : DecidablePred (s.Waits b) := fun _ => inferInstanceAs (Decidable (_ = _))

instance (s : Sys P) (b : ℤ) : DecidablePred (s.Holds b) := fun _ =>
  inferInstanceAs (Decidable (_ ∨ _))

def ident (x : Buf) : ℕ × ℕ := (x.dev, x.blockno)

/-- The buffer may not be recycled. -/
def Live (x : Buf) : Prop := 0 < x.refcnt ∨ x.dirty = true

/-- How many processes hold the buffer or wait for it. -/
def Sys.refs [Fintype P] (s : Sys P) (b : ℤ) : ℕ :=
  (Finset.univ.filter (s.Holds b)).card + (Finset.univ.filter (s.Waits b)).card

/-- What the cache promises at any time. -/
structure Sound [Fintype P] (s : Sys P) : Prop where
  circular : ∃ l, Ring s.links l ∧ l.Perm buffers
  unique : ∀ b ∈ buffers, ∀ c ∈ buffers, Live (s.buf b) → Live (s.buf c) →
    ident (s.buf b) = ident (s.buf c) → b = c
  refcnt : ∀ b ∈ buffers, (s.buf b).refcnt = s.refs b
  shared : ∀ p q b c, s.Holds b p ∨ s.Waits b p → s.Holds c q ∨ s.Waits c q →
    s.asked p b = s.asked q c → b = c

/-- A buffer in use stays on its block. -/
def KeepsIdentity (s : Sys P) (a : Act P) : Prop :=
  ∀ t, step s a = some t → ∀ b ∈ buffers, Live (s.buf b) → ident (t.buf b) = ident (s.buf b)

/-- In the list, a buffer in use is the first on its block. -/
def FirstOf (buf : ℤ → Buf) (l : List ℤ) : Prop :=
  ∀ b ∈ l, Live (buf b) → l.find? (fun c => (buf c).isOn (buf b).dev (buf b).blockno) = some b

/-- The invariant. A process has the sleep lock in iderw, and in brelse it has given it
back. -/
structure Shared [Fintype P] (s : Sys P) : Prop where
  order : ∃ l, Ring s.links l ∧ l.Perm buffers ∧ FirstOf s.buf l
  refcnt : ∀ b ∈ buffers, (s.buf b).refcnt = s.refs b
  placed : ∀ p b, s.Holds b p ∨ s.Waits b p → b ∈ buffers
  asked : ∀ p b, s.Holds b p ∨ s.Waits b p → ident (s.buf b) = s.asked p b
  away : ∀ p b, s.pc p = .returning b → s.owner b ≠ some p
  busy : ∀ p b, s.pc p = .transfer b → s.owner b = some p

section Lists

variable {buf buf' : ℤ → Buf} {l l₁ l₂ : List ℤ} {b c : ℤ} {dev blockno : ℕ}

theorem isOn_congr {x y : Buf} (h : ident x = ident y) :
    x.isOn dev blockno = y.isOn dev blockno := by
  obtain ⟨hdev, hblock⟩ := Prod.mk.injEq .. ▸ h
  rw [Buf.isOn, Buf.isOn, hdev, hblock]

theorem ident_eq_of_isOn {x : Buf} (h : x.isOn dev blockno) : ident x = (dev, blockno) := by
  obtain ⟨hdev, hblock⟩ := Buf.isOn_iff.mp h
  rw [ident, hdev, hblock]

theorem not_live_of_unused {x : Buf} (h : x.unused) : ¬ Live x := by
  obtain ⟨hr, hd⟩ := Buf.unused_iff.mp h
  rintro (hpos | hdirty)
  · omega
  · rw [hd] at hdirty
    cases hdirty

/-- The first on a block does not change while no buffer changes its block. -/
theorem find_congr (hid : ∀ x ∈ l, ident (buf' x) = ident (buf x)) (hb : b ∈ l) :
    l.find? (fun c => (buf' c).isOn (buf' b).dev (buf' b).blockno) =
      l.find? (fun c => (buf c).isOn (buf b).dev (buf b).blockno) := by
  obtain ⟨hdev, hblock⟩ := Prod.mk.injEq .. ▸ hid b hb
  rw [hdev, hblock]
  have hf : ∀ x ∈ l, (buf' x).isOn (buf b).dev (buf b).blockno =
      (buf x).isOn (buf b).dev (buf b).blockno :=
    fun x hx => isOn_congr (hid x hx)
  clear hb hid
  induction l with
  | nil => rfl
  | cons x l ih =>
    rw [List.find?_cons, List.find?_cons, hf x List.mem_cons_self,
      ih fun y hy => hf y (List.mem_cons_of_mem x hy)]

theorem FirstOf.keep (h : FirstOf buf l) (hid : ∀ x ∈ l, ident (buf' x) = ident (buf x))
    (hlive : ∀ x ∈ l, Live (buf' x) → Live (buf x)) : FirstOf buf' l := by
  intro b hb hl
  rw [find_congr hid hb]
  exact h b hb (hlive b hb hl)

/-- Where one element alone passes the test, the search ends at it. -/
theorem find_only {f : ℤ → Bool} (hb : b ∈ l) (hf : f b) (honly : ∀ x ∈ l, f x → x = b) :
    l.find? f = some b := by
  cases hfind : l.find? f with
  | none => exact absurd hf (List.find?_eq_none.mp hfind b hb)
  | some x => rw [honly x (List.mem_of_find?_eq_some hfind) (List.find?_some hfind)]

/-- A buffer that the first loop of bget finds may come into use. -/
theorem FirstOf.hit (h : FirstOf buf l) (hid : ∀ x ∈ l, ident (buf' x) = ident (buf x))
    (hb : l.find? (fun c => (buf c).isOn dev blockno) = some b)
    (hlive : ∀ x ∈ l, x ≠ b → Live (buf' x) → Live (buf x)) : FirstOf buf' l := by
  intro c hc hl
  rw [find_congr hid hc]
  by_cases e : c = b
  · subst e
    have hon : (buf c).isOn dev blockno := by simpa using List.find?_some hb
    obtain ⟨hdev, hblock⟩ := Buf.isOn_iff.mp hon
    rw [hdev, hblock]
    exact hb
  · exact h c hc (hlive c hc e hl)

/-- The buffer that the second loop finds takes over a block that no other is on. -/
theorem FirstOf.miss (h : FirstOf buf l) (hnone : ∀ x ∈ l, ¬ (buf x).isOn dev blockno)
    (hb : b ∈ l) (hnew : (buf' b).isOn dev blockno)
    (hother : ∀ x, x ≠ b → buf' x = buf x) : FirstOf buf' l := by
  obtain ⟨hdev, hblock⟩ := Buf.isOn_iff.mp hnew
  intro c hc hl
  by_cases e : c = b
  · subst e
    rw [hdev, hblock]
    refine find_only hb hnew fun x hx hon => ?_
    by_contra hne
    rw [hother x hne] at hon
    exact hnone x hx hon
  · rw [hother c e] at hl ⊢
    obtain ⟨hon, as, bs, hl', has⟩ := List.find?_eq_some_iff_append.mp (h c hc hl)
    refine List.find?_eq_some_iff_append.mpr ⟨?_, as, bs, hl', fun x hx => ?_⟩
    · rw [hother c e]
      exact hon
    · by_cases ex : x = b
      · subst ex
        -- the recycled buffer is on a block that c is not on
        refine Bool.not_eq_true' _ ▸ Bool.eq_false_iff.mpr fun hx' => hnone c hc ?_
        obtain ⟨h1, h2⟩ := Buf.isOn_iff.mp hx'
        exact Buf.isOn_iff.mpr ⟨h1.symm.trans hdev, h2.symm.trans hblock⟩
      · rw [hother x ex]
        exact has x hx

/-- A buffer in use moves to the front of the list. -/
theorem FirstOf.moveFirst (h : FirstOf buf (l₁ ++ b :: l₂)) (hb : Live (buf b)) :
    FirstOf buf (b :: (l₁ ++ l₂)) := by
  have hself : ∀ x : Buf, x.isOn x.dev x.blockno := fun x => Buf.isOn_iff.mpr ⟨rfl, rfl⟩
  intro c hc hl
  by_cases e : c = b
  · subst e
    exact List.find?_cons_of_pos (hself _)
  · have hmem : c ∈ l₁ ++ b :: l₂ := by
      have := (List.mem_cons.mp hc).resolve_left e
      simp only [List.mem_append, List.mem_cons] at this ⊢
      tauto
    have hfind := h c hmem hl
    have hoff : (buf b).isOn (buf c).dev (buf c).blockno = false := by
      refine Bool.eq_false_iff.mpr fun hon => ?_
      obtain ⟨hdev, hblock⟩ := Buf.isOn_iff.mp hon
      have hfirst := h b (by simp) hb
      rw [hdev, hblock, hfind] at hfirst
      exact e (Option.some.inj hfirst)
    simp only [List.find?_append, List.find?_cons, hoff] at hfind ⊢
    exact hfind

end Lists

section Counts

variable [Fintype P] {s t : Sys P} {p : P} {b c : ℤ}

theorem card_insert_one {Q R : P → Prop} [DecidablePred Q] [DecidablePred R] (hp : ¬ Q p)
    (h : ∀ q, R q ↔ Q q ∨ q = p) :
    (Finset.univ.filter R).card = (Finset.univ.filter Q).card + 1 := by
  have hinsert : Finset.univ.filter R = insert p (Finset.univ.filter Q) := by
    ext q
    simp only [Finset.mem_insert, Finset.mem_filter, Finset.mem_univ, true_and]
    rw [h q, or_comm]
  rw [hinsert, Finset.card_insert_of_notMem (by simpa using hp)]

omit [DecidableEq P] in
theorem card_filter_iff {Q R : P → Prop} [DecidablePred Q] [DecidablePred R] (h : ∀ q, R q ↔ Q q) :
    (Finset.univ.filter R).card = (Finset.univ.filter Q).card :=
  congrArg Finset.card (Finset.filter_congr fun q _ => h q)

theorem refs_congr (hh : ∀ q, t.Holds b q ↔ s.Holds b q) (hw : ∀ q, t.Waits b q ↔ s.Waits b q) :
    t.refs b = s.refs b := by
  rw [Sys.refs, Sys.refs, card_filter_iff hh, card_filter_iff hw]

/-- One more process waits. -/
theorem refs_wait (hp : ¬ s.Waits b p) (hh : ∀ q, t.Holds b q ↔ s.Holds b q)
    (hw : ∀ q, t.Waits b q ↔ s.Waits b q ∨ q = p) : t.refs b = s.refs b + 1 := by
  rw [Sys.refs, Sys.refs, card_filter_iff hh, card_insert_one hp hw, Nat.add_assoc]

/-- A process that waited holds the buffer now. -/
theorem refs_acquire (hp : ¬ s.Holds b p) (hp' : ¬ t.Waits b p)
    (hh : ∀ q, t.Holds b q ↔ s.Holds b q ∨ q = p)
    (hw : ∀ q, s.Waits b q ↔ t.Waits b q ∨ q = p) : t.refs b = s.refs b := by
  rw [Sys.refs, Sys.refs, card_insert_one hp hh, card_insert_one hp' hw]
  omega

/-- A process that held the buffer does not any more. -/
theorem refs_leave (hp : ¬ t.Holds b p) (hh : ∀ q, s.Holds b q ↔ t.Holds b q ∨ q = p)
    (hw : ∀ q, t.Waits b q ↔ s.Waits b q) : s.refs b = t.refs b + 1 := by
  rw [Sys.refs, Sys.refs, card_filter_iff hw, card_insert_one hp hh]
  omega

theorem refs_pos (h : s.Holds b p ∨ s.Waits b p) : 0 < s.refs b := by
  rcases h with h | h
  · have hc : 0 < (Finset.univ.filter (s.Holds b)).card :=
      Finset.card_pos.mpr ⟨p, by simpa using h⟩
    exact Nat.add_pos_left hc _
  · have hc : 0 < (Finset.univ.filter (s.Waits b)).card :=
      Finset.card_pos.mpr ⟨p, by simpa using h⟩
    exact Nat.add_pos_right _ hc

end Counts

section Same

variable {s : Sys P} {p : P} {b : ℤ} {f : Buf → Buf}

omit [DecidableEq P] in
theorem setBuf_ident (hid : ident (f (s.buf b)) = ident (s.buf b)) (c : ℤ) :
    ident ((s.setBuf b f).buf c) = ident (s.buf c) := by
  by_cases e : c = b
  · subst e
    rwa [setBuf_self]
  · rw [setBuf_other e]

omit [DecidableEq P] in
theorem setBuf_same : s.setBuf b (fun x => x) = s := by
  rw [Sys.setBuf, Function.update_eq_self]

theorem goto_same {pc : Pc} (hp : s.pc p = pc) : s.goto p pc = s := by
  rw [← hp, Sys.goto, Function.update_eq_self]

end Same

variable [Fintype P] {s t : Sys P} {p : P} {b : ℤ}

namespace Shared

theorem live (h : Shared s) (hr : s.Holds b p ∨ s.Waits b p) : Live (s.buf b) := by
  refine Or.inl ?_
  rw [h.refcnt b (h.placed p b hr)]
  exact refs_pos hr

/-- A step that keeps the links and the blocks of the buffers, and nobody's reference is
new. -/
theorem still (h : Shared s) (hlinks : t.links = s.links) (hasked : t.asked = s.asked)
    (hid : ∀ b, ident (t.buf b) = ident (s.buf b))
    (hcnt : ∀ b, (t.buf b).refcnt = (s.buf b).refcnt)
    (hlive : ∀ b, Live (t.buf b) → Live (s.buf b))
    (hrefs : ∀ b, t.refs b = s.refs b)
    (hsub : ∀ p b, t.Holds b p ∨ t.Waits b p → s.Holds b p ∨ s.Waits b p)
    (haway : ∀ p b, t.pc p = .returning b → t.owner b ≠ some p)
    (hbusy : ∀ p b, t.pc p = .transfer b → t.owner b = some p) : Shared t where
  order := by
    obtain ⟨l, hring, hperm, hfirst⟩ := h.order
    refine ⟨l, hlinks ▸ hring, hperm, ?_⟩
    exact hfirst.keep (fun x _ => hid x) fun x _ => hlive x
  refcnt := by
    intro b hb
    rw [hcnt b, hrefs b]
    exact h.refcnt b hb
  placed := fun p b hr => h.placed p b (hsub p b hr)
  asked := by
    intro p b hr
    rw [hid b, hasked]
    exact h.asked p b (hsub p b hr)
  away := haway
  busy := hbusy

/-- bget gives out a buffer that is on the block already, or one without references. -/
theorem give (h : Shared s) {dev blockno : ℕ} {f : Buf → Buf} {l : List ℤ} (hp : s.pc p = .user)
    (hb : b ∈ buffers) (hring : Ring s.links l) (hperm : l.Perm buffers)
    (hfirst : FirstOf (s.give p dev blockno b f).buf l)
    (hcnt : (f (s.buf b)).refcnt = (s.buf b).refcnt + 1)
    (hnew : ident (f (s.buf b)) = (dev, blockno))
    (hold : ident (s.buf b) = (dev, blockno) ∨ (s.buf b).refcnt = 0) :
    Shared (s.give p dev blockno b f) := by
  have hpc : ∀ q, (s.give p dev blockno b f).pc q = if q = p then .waiting b else s.pc q :=
    fun q => Function.update_apply ..
  have hbuf : ∀ c, (s.give p dev blockno b f).buf c = if c = b then f (s.buf b) else s.buf c :=
    fun c => Function.update_apply ..
  have hholds : ∀ c q, (s.give p dev blockno b f).Holds c q ↔ s.Holds c q := by
    intro c q
    refine or_congr Iff.rfl ?_
    rw [hpc q]
    split_ifs with e
    · subst e
      simp [hp]
    · exact Iff.rfl
  have hwaits : ∀ c q, (s.give p dev blockno b f).Waits c q ↔ s.Waits c q ∨ q = p ∧ c = b := by
    intro c q
    rw [Sys.Waits, hpc q, Sys.Waits]
    split_ifs with e
    · subst e
      simp [hp, eq_comm]
    · simp [e]
  refine ⟨⟨l, hring, hperm, hfirst⟩, ?_, ?_, ?_, ?_, ?_⟩
  · intro c hc
    rw [hbuf c]
    split_ifs with e
    · subst e
      have hno : ¬ s.Waits c p := by simp [Sys.Waits, hp]
      rw [refs_wait hno (hholds c) fun q => by simpa using hwaits c q, hcnt, h.refcnt c hc]
    · rw [refs_congr (hholds c) fun q => by simpa [e] using hwaits c q]
      exact h.refcnt c hc
  · intro q c hr
    rw [hholds, hwaits, ← or_assoc] at hr
    rcases hr with hr | ⟨_, rfl⟩
    · exact h.placed q c hr
    · exact hb
  · intro q c hr
    rw [hholds, hwaits, ← or_assoc] at hr
    have hasked : (s.give p dev blockno b f).asked q c =
        if q = p ∧ c = b then (dev, blockno) else s.asked q c := by
      simp only [Sys.give, Function.update_apply]
      by_cases eq : q = p
      · subst eq
        simp [Function.update_apply]
      · simp [eq]
    rw [hasked, hbuf c]
    by_cases e : q = p ∧ c = b
    · rw [if_pos e, if_pos e.2]
      exact hnew
    · have hq := hr.resolve_right e
      rw [if_neg e]
      split_ifs with ec
      · subst ec
        rw [hnew, ← h.asked q c hq]
        refine (hold.resolve_right fun hzero => ?_).symm
        have hpos := refs_pos hq
        rw [← h.refcnt c hb, hzero] at hpos
        exact absurd hpos (Nat.lt_irrefl 0)
      · exact h.asked q c hq
  · intro q c hq
    rw [hpc q] at hq
    split_ifs at hq
    exact h.away q c hq
  · intro q c hq
    rw [hpc q] at hq
    split_ifs at hq
    exact h.busy q c hq

/-- bget takes the first buffer on the block, or the last one that is not in use where
there is none. -/
theorem bget_cases (h : Shared s) {dev blockno : ℕ} (ht : s.bget p dev blockno = some t) :
    ∃ l b, Ring s.links l ∧ l.Perm buffers ∧ FirstOf s.buf l ∧ b ∈ l ∧
      ((l.find? (fun c => (s.buf c).isOn dev blockno) = some b ∧
          t = s.give p dev blockno b fun x => { x with refcnt := x.refcnt + 1 }) ∨
        ((∀ x ∈ l, ¬ (s.buf x).isOn dev blockno) ∧
          l.reverse.find? (fun c => (s.buf c).unused) = some b ∧
          t = s.give p dev blockno b fun _ => ⟨dev, blockno, 1, false, false⟩)) := by
  obtain ⟨l, hring, hperm, hfirst⟩ := h.order
  have hfuel : l.length < NBUF + 1 := by
    rw [hperm.length_eq]
    simp [buffers]
  have hne : ∀ c ∈ l, c ≠ -1 := fun c hc => ne_of_mem_of_not_mem hc hring.proper
  rw [Sys.bget, Sys.lookup, hring.search_next _ hfuel, Option.bind_some] at ht
  cases hfind : l.find? fun c => (s.buf c).isOn dev blockno with
  | some b =>
    have hb : b ∈ l := List.mem_of_find?_eq_some hfind
    rw [hfind, Option.getD_some, if_pos (hne b hb)] at ht
    exact ⟨l, b, hring, hperm, hfirst, hb, Or.inl ⟨hfind, (Option.some.inj ht).symm⟩⟩
  | none =>
    rw [hfind, Option.getD_none, if_neg (by simp), Sys.recycle, hring.search_prev _ hfuel,
      Option.bind_some] at ht
    cases hfree : l.reverse.find? fun c => (s.buf c).unused with
    | none => simp [hfree] at ht
    | some b =>
      have hb : b ∈ l := List.mem_reverse.mp (List.mem_of_find?_eq_some hfree)
      rw [hfree, Option.getD_some, if_pos (hne b hb)] at ht
      refine ⟨l, b, hring, hperm, hfirst, hb, Or.inr ⟨?_, hfree, (Option.some.inj ht).symm⟩⟩
      exact List.find?_eq_none.mp hfind

theorem bget (h : Shared s) {dev blockno : ℕ} (hp : s.pc p = .user)
    (ht : s.bget p dev blockno = some t) : Shared t := by
  obtain ⟨l, b, hring, hperm, hfirst, hb, hcase⟩ := h.bget_cases ht
  have hmem : b ∈ buffers := hperm.mem_iff.mp hb
  rcases hcase with ⟨hfind, rfl⟩ | ⟨hnone, hfree, rfl⟩
  · have hon : ident (s.buf b) = (dev, blockno) :=
      ident_eq_of_isOn (by simpa using List.find?_some hfind)
    refine h.give hp hmem hring hperm ?_ rfl hon (Or.inl hon)
    refine hfirst.hit (fun x _ => ?_) hfind fun x _ hx hl => ?_
    · by_cases e : x = b
      · subst e
        simp [ident]
      · simp [e]
    · simpa [hx] using hl
  · have hunused : (s.buf b).unused := by simpa using List.find?_some hfree
    have hzero : (s.buf b).refcnt = 0 := (Buf.unused_iff.mp hunused).1
    refine h.give hp hmem hring hperm ?_ (by simp [hzero]) rfl (Or.inr hzero)
    refine hfirst.miss hnone hb ?_ fun x hx => ?_
    · simp [Buf.isOn]
    · simp [hx]

/-- The last reference moves the buffer to the front of the list. -/
theorem brelse (h : Shared s) (hp : s.pc p = .returning b) :
    Shared ((s.putRef b).goto p .user) := by
  have hrefers : s.Holds b p ∨ s.Waits b p := Or.inl (Or.inr hp)
  have hb : b ∈ buffers := h.placed p b hrefers
  have hlive : Live (s.buf b) := h.live hrefers
  have hother : ∀ c, c ≠ b → (s.putRef b).buf c = s.buf c := fun c hc => by simp [hc]
  have hid : ∀ c, ident ((s.putRef b).buf c) = ident (s.buf c) := by
    intro c
    by_cases e : c = b
    · subst e
      simp [ident]
    · rw [hother c e]
  have hfirst : ∀ l, FirstOf s.buf l → FirstOf (s.putRef b).buf l := by
    refine fun l hl => hl.keep (fun c _ => hid c) fun c _ hc => ?_
    by_cases e : c = b
    · exact e ▸ hlive
    · rwa [hother c e] at hc
  have hholds : ∀ c q, s.Holds c q ↔ ((s.putRef b).goto p .user).Holds c q ∨ q = p ∧ c = b := by
    intro c q
    by_cases e : q = p
    · subst e
      simp [Sys.Holds, hp, eq_comm]
    · simp [Sys.Holds, e]
  have hwaits : ∀ c q, ((s.putRef b).goto p .user).Waits c q ↔ s.Waits c q := by
    intro c q
    by_cases e : q = p
    · subst e
      simp [Sys.Waits, hp]
    · simp [Sys.Waits, e]
  refine ⟨?_, ?_, ?_, ?_, ?_, ?_⟩
  · obtain ⟨l, hring, hperm, hl⟩ := h.order
    by_cases hzero : (s.buf b).refcnt - 1 = 0
    · obtain ⟨l₁, l₂, rfl⟩ := List.append_of_mem (hperm.mem_iff.mpr hb)
      have hlinks : ((s.putRef b).goto p .user).links = (s.links.unlink b).linkFirst b := by
        simp [Sys.putRef, hzero, Sys.setBuf]
      have hb1 : b ≠ -1 := ne_of_mem_of_not_mem (hperm.mem_iff.mpr hb) hring.proper
      have hout : b ∉ l₁ ++ l₂ := (List.nodup_middle.mp hring.nodup |> List.nodup_cons.mp).1
      refine ⟨b :: (l₁ ++ l₂), hlinks ▸ hring.unlink.linkFirst hout hb1, ?_, ?_⟩
      · exact List.perm_middle.symm.trans hperm
      · exact hfirst _ (hl.moveFirst hlive)
    · have hlinks : ((s.putRef b).goto p .user).links = s.links := by
        simp [Sys.putRef, hzero, Sys.setBuf]
      exact ⟨l, hlinks ▸ hring, hperm, hfirst l hl⟩
  · intro c hc
    by_cases e : c = b
    · subst e
      have hleft : ¬ ((s.putRef c).goto p .user).Holds c p := by
        simp [Sys.Holds, h.away p c hp]
      have hrefs := refs_leave hleft (fun q => by simpa using hholds c q) (hwaits c)
      rw [goto_buf, putRef_buf, setBuf_self, h.refcnt c hc, hrefs]
      rfl
    · rw [goto_buf, hother c e, refs_congr (fun q => by simpa [e] using (hholds c q).symm)
        (hwaits c)]
      exact h.refcnt c hc
  · intro q c hr
    exact h.placed q c (hr.imp (fun hq => (hholds c q).mpr (Or.inl hq)) (hwaits c q).mp)
  · intro q c hr
    rw [goto_buf, hid c, goto_asked, putRef_asked]
    exact h.asked q c (hr.imp (fun hq => (hholds c q).mpr (Or.inl hq)) (hwaits c q).mp)
  · intro q c hq
    by_cases e : q = p
    · subst e
      simp at hq
    · rw [goto_owner, putRef_owner]
      exact h.away q c (by simpa [e] using hq)
  · intro q c hq
    by_cases e : q = p
    · subst e
      simp at hq
    · rw [goto_owner, putRef_owner]
      exact h.busy q c (by simpa [e] using hq)

/-- A step of a process that has the lock of a buffer, which changes at most the flags. -/
theorem flags (h : Shared s) {f : Buf → Buf} {pc : Pc} (hheld : s.owner b = some p)
    (hp : ∀ c, s.pc p ≠ .waiting c ∧ s.pc p ≠ .returning c) (hpc : pc = .user ∨ pc = .transfer b)
    (hid : ident (f (s.buf b)) = ident (s.buf b)) (hcnt : (f (s.buf b)).refcnt = (s.buf b).refcnt) :
    Shared ((s.setBuf b f).goto p pc) := by
  have hlive : Live (s.buf b) := h.live (Or.inl (Or.inl hheld))
  have hholds : ∀ c q, ((s.setBuf b f).goto p pc).Holds c q ↔ s.Holds c q := by
    intro c q
    refine or_congr Iff.rfl ?_
    by_cases e : q = p
    · subst e
      rcases hpc with rfl | rfl <;> simp [hp c]
    · simp [e, Sys.setBuf]
  have hwaits : ∀ c q, ((s.setBuf b f).goto p pc).Waits c q ↔ s.Waits c q := by
    intro c q
    by_cases e : q = p
    · subst e
      rcases hpc with rfl | rfl <;> simp [Sys.Waits, hp c]
    · simp [Sys.Waits, e, Sys.setBuf]
  refine h.still rfl rfl ?_ ?_ ?_ (fun c => refs_congr (hholds c) (hwaits c)) ?_ ?_ ?_
  · intro c
    by_cases e : c = b
    · subst e
      simpa using hid
    · simp [e]
  · intro c
    by_cases e : c = b
    · subst e
      simpa using hcnt
    · simp [e]
  · intro c hc
    by_cases e : c = b
    · exact e ▸ hlive
    · simpa [e] using hc
  · exact fun q c hr => hr.imp (hholds c q).mp (hwaits c q).mp
  · intro q c hq
    by_cases e : q = p
    · subst e
      rcases hpc with rfl | rfl <;> cases goto_self.symm.trans hq
    · exact h.away q c ((goto_other e).symm.trans hq)
  · intro q c hq
    by_cases e : q = p
    · subst e
      rcases hpc with rfl | rfl <;> cases goto_self.symm.trans hq
      exact hheld
    · exact h.busy q c ((goto_other e).symm.trans hq)

theorem acquiresleep (h : Shared s) (hp : s.pc p = .waiting b) (hfree : s.owner b = none) :
    Shared { s.goto p .user with owner := Function.update s.owner b (some p) } := by
  have hself : ∀ q, Function.update s.owner b (some p) b = some q ↔ p = q := by simp
  have hother : ∀ c, c ≠ b → Function.update s.owner b (some p) c = s.owner c := by
    intro c hc
    exact Function.update_of_ne hc ..
  set t : Sys P := { s.goto p .user with owner := Function.update s.owner b (some p) } with ht
  have hpc : ∀ q, q ≠ p → t.pc q = s.pc q := fun q e => goto_other e
  have hpcp : t.pc p = .user := goto_self
  have howner : ∀ c q, t.owner c = some q ↔ s.owner c = some q ∨ q = p ∧ c = b := by
    intro c q
    by_cases e : c = b
    · subst e
      simp [ht, hfree, eq_comm]
    · simp [ht, e]
  have hholds : ∀ c q, t.Holds c q ↔ s.Holds c q ∨ q = p ∧ c = b := by
    intro c q
    rw [Sys.Holds, Sys.Holds, howner]
    by_cases e : q = p
    · subst e
      simp [hpcp, hp]
    · simp [hpc q e, e]
  have hwaits : ∀ c q, s.Waits c q ↔ t.Waits c q ∨ q = p ∧ c = b := by
    intro c q
    rw [Sys.Waits, Sys.Waits]
    by_cases e : q = p
    · subst e
      simp [hpcp, hp, eq_comm]
    · simp [hpc q e, e]
  refine h.still rfl rfl (fun _ => rfl) (fun _ => rfl) (fun _ => id) ?_ ?_ ?_ ?_
  · intro c
    by_cases e : c = b
    · subst e
      refine refs_acquire (p := p) ?_ ?_ (fun q => by simpa using hholds c q)
        fun q => by simpa using hwaits c q
      · simp [Sys.Holds, hfree, hp]
      · simp [Sys.Waits, hpcp]
    · exact refs_congr (fun q => by simpa [e] using hholds c q)
        fun q => by simpa [e] using (hwaits c q).symm
  · intro q c hr
    rw [hholds] at hr
    rw [hwaits]
    tauto
  · intro q c hq
    have e : q ≠ p := by
      rintro rfl
      cases hpcp.symm.trans hq
    rw [ne_eq, howner]
    have := h.away q c ((hpc q e).symm.trans hq)
    tauto
  · intro q c hq
    have e : q ≠ p := by
      rintro rfl
      cases hpcp.symm.trans hq
    exact (howner c q).mpr (Or.inl (h.busy q c ((hpc q e).symm.trans hq)))

theorem releasesleep (h : Shared s) (hp : s.pc p = .user) (hheld : s.owner b = some p) :
    Shared { s.goto p (.returning b) with owner := Function.update s.owner b none } := by
  set t : Sys P := { s.goto p (.returning b) with owner := Function.update s.owner b none } with ht
  have hpc : ∀ q, q ≠ p → t.pc q = s.pc q := fun q e => goto_other e
  have hpcp : t.pc p = .returning b := goto_self
  have howner : ∀ c q, s.owner c = some q ↔ t.owner c = some q ∨ q = p ∧ c = b := by
    intro c q
    by_cases e : c = b
    · subst e
      simp [ht, hheld, eq_comm]
    · simp [ht, e]
  have hholds : ∀ c q, t.Holds c q ↔ s.Holds c q := by
    intro c q
    rw [Sys.Holds, Sys.Holds, howner]
    by_cases e : q = p
    · subst e
      simp [hpcp, hp, eq_comm]
    · simp [hpc q e, e]
  have hwaits : ∀ c q, t.Waits c q ↔ s.Waits c q := by
    intro c q
    rw [Sys.Waits, Sys.Waits]
    by_cases e : q = p
    · subst e
      simp [hpcp, hp]
    · rw [hpc q e]
  refine h.still rfl rfl (fun _ => rfl) (fun _ => rfl) (fun _ => id)
    (fun c => refs_congr (hholds c) (hwaits c))
    (fun q c hr => hr.imp (hholds c q).mp (hwaits c q).mp) ?_ ?_
  · intro q c hq
    by_cases e : q = p
    · subst e
      cases hpcp.symm.trans hq
      simp [ht]
    · have := h.away q c ((hpc q e).symm.trans hq)
      have := (howner c q).mpr.mt this
      tauto
  · intro q c hq
    by_cases e : q = p
    · subst e
      cases hpcp.symm.trans hq
    · have := (howner c q).mp (h.busy q c ((hpc q e).symm.trans hq))
      tauto

/-- What one step preserves; only bget changes the block of a buffer, and of none in use. -/
theorem step (h : Shared s) {a : Act P} (ht : step s a = some t) :
    Shared t ∧ ∀ b ∈ buffers, Live (s.buf b) → ident (t.buf b) = ident (s.buf b) := by
  cases a with
  | bget p dev blockno =>
    obtain ⟨hp, ht⟩ := Option.ite_none_right_eq_some.mp ht
    refine ⟨h.bget hp ht, fun c _ hc => ?_⟩
    obtain ⟨l, b, _, _, _, _, ⟨_, rfl⟩ | ⟨_, hfree, rfl⟩⟩ := h.bget_cases ht
    · by_cases e : c = b
      · subst e
        rw [give_self, ident, ident]
      · rw [give_other e]
    · have hunused : (s.buf b).unused := by simpa using List.find?_some hfree
      have hcb : c ≠ b := by
        rintro rfl
        exact not_live_of_unused hunused hc
      rw [give_other hcb]
  | acquiresleep p =>
    simp only [BufferSharing.step] at ht
    split at ht
    · case _ b hp =>
      obtain ⟨hfree, ht⟩ := Option.ite_none_right_eq_some.mp ht
      cases ht
      exact ⟨h.acquiresleep hp hfree, fun _ _ _ => rfl⟩
    · cases ht
  | fetch p b =>
    obtain ⟨⟨hp, hheld⟩, ht⟩ := Option.ite_none_right_eq_some.mp ht
    split_ifs at ht
    · cases ht
      exact ⟨h, fun _ _ _ => rfl⟩
    · cases ht
      have hnext := h.flags (f := fun x => x) hheld (by simp [hp]) (Or.inr rfl) rfl rfl
      rw [setBuf_same] at hnext
      exact ⟨hnext, fun _ _ _ => rfl⟩
  | bwrite p b =>
    obtain ⟨⟨hp, hheld⟩, ht⟩ := Option.ite_none_right_eq_some.mp ht
    cases ht
    refine ⟨h.flags hheld (by simp [hp]) (Or.inr rfl) rfl rfl, fun c _ _ => ?_⟩
    rw [goto_buf, setBuf_ident (by rw [ident, ident])]
  | ideintr p ok =>
    simp only [BufferSharing.step] at ht
    split at ht
    · case _ b hp =>
      cases ht
      have hnext := h.flags (f := fun x => { x with valid := x.dirty || ok, dirty := false })
        (h.busy p b hp) (by simp [hp]) (Or.inr rfl) rfl rfl
      refine ⟨goto_same hp ▸ hnext, fun c _ _ => ?_⟩
      rw [setBuf_ident (by rw [ident, ident])]
    · cases ht
  | iderw p =>
    simp only [BufferSharing.step] at ht
    split at ht
    · case _ b hp =>
      obtain ⟨_, ht⟩ := Option.ite_none_right_eq_some.mp ht
      cases ht
      have hnext := h.flags (f := fun x => x) (h.busy p b hp) (by simp [hp]) (Or.inl rfl) rfl rfl
      rw [setBuf_same] at hnext
      exact ⟨hnext, fun _ _ _ => rfl⟩
    · cases ht
  | logWrite p b =>
    obtain ⟨⟨hp, hheld⟩, ht⟩ := Option.ite_none_right_eq_some.mp ht
    cases ht
    have hnext := h.flags (f := fun x => { x with dirty := true }) hheld (by simp [hp])
        (Or.inl rfl) rfl rfl
    refine ⟨goto_same hp ▸ hnext, fun c _ _ => ?_⟩
    rw [setBuf_ident (by rw [ident, ident])]
  | releasesleep p b =>
    obtain ⟨⟨hp, hheld⟩, ht⟩ := Option.ite_none_right_eq_some.mp ht
    cases ht
    exact ⟨h.releasesleep hp hheld, fun _ _ _ => rfl⟩
  | brelse p =>
    simp only [BufferSharing.step] at ht
    split at ht
    · case _ b hp =>
      cases ht
      refine ⟨h.brelse hp, fun c _ _ => ?_⟩
      rw [goto_buf, putRef_buf, setBuf_ident (by rw [ident, ident])]
    · cases ht

theorem sound (h : Shared s) : Sound s := by
  obtain ⟨l, hring, hperm, hfirst⟩ := h.order
  have hunique : ∀ b ∈ buffers, ∀ c ∈ buffers, Live (s.buf b) → Live (s.buf c) →
      ident (s.buf b) = ident (s.buf c) → b = c := by
    intro b hb c hc hlb hlc hid
    obtain ⟨hdev, hblock⟩ := Prod.mk.injEq .. ▸ hid
    have hfb := hfirst b (hperm.mem_iff.mpr hb) hlb
    have hfc := hfirst c (hperm.mem_iff.mpr hc) hlc
    rw [hdev, hblock, hfc] at hfb
    exact (Option.some.inj hfb).symm
  refine ⟨⟨l, hring, hperm⟩, hunique, h.refcnt, ?_⟩
  intro p q b c hb hc hasked
  refine hunique b (h.placed p b hb) c (h.placed q c hc) (h.live hb) (h.live hc) ?_
  rw [h.asked p b hb, h.asked q c hc, hasked]

end Shared

/-! The list of bio.c. -/

/-- An assignment to the buffer at which the loop stops, seen along the links. -/
theorem updateFirst_map {buf buf' : ℤ → Buf} {l : List ℤ} {q : Buf → Bool} {f : Buf → Buf}
    (hnd : l.Nodup) (hb : l.find? (fun c => q (buf c)) = some b) (hself : buf' b = f (buf b))
    (hother : ∀ c, c ≠ b → buf' c = buf c) : updateFirst q f (l.map buf) = l.map buf' := by
  induction l with
  | nil => cases hb
  | cons x l ih =>
    obtain ⟨hx, hnd⟩ := List.nodup_cons.mp hnd
    rw [List.map_cons, List.map_cons, updateFirst]
    cases hq : q (buf x) with
    | true =>
      rw [List.find?_cons, hq] at hb
      obtain rfl := Option.some.inj hb
      rw [if_pos rfl, hself]
      congr 1
      exact List.map_congr_left fun c hc => (hother c (ne_of_mem_of_not_mem hc hx)).symm
    | false =>
      rw [List.find?_cons, hq] at hb
      have hxb : x ≠ b := ne_of_mem_of_not_mem (List.mem_of_find?_eq_some hb) hx |>.symm
      rw [if_neg (by simp), ih hnd hb, hother x hxb]

/-- Along the links, bget does what it does on the list. -/
theorem Shared.bget_list (h : Shared s) {dev blockno : ℕ} (ht : s.bget p dev blockno = some t) :
    ∃ l, Ring s.links l ∧ Ring t.links l ∧ Bio.bget dev blockno (l.map s.buf) =
      some (l.map t.buf) := by
  obtain ⟨l, b, hring, _, _, hb, ⟨hfind, rfl⟩ | ⟨hnone, hfree, rfl⟩⟩ := h.bget_cases ht
  · refine ⟨l, hring, hring, ?_⟩
    have hany : (l.map s.buf).any (Buf.isOn dev blockno) = true := by
      rw [List.any_map, List.any_eq_true]
      exact ⟨b, hb, by simpa using List.find?_some hfind⟩
    rw [Bio.bget, if_pos hany]
    exact congrArg some (updateFirst_map hring.nodup hfind give_self fun c hc => give_other hc)
  · refine ⟨l, hring, hring, ?_⟩
    have hany : ¬ (l.map s.buf).any (Buf.isOn dev blockno) = true := by
      rw [List.any_map, List.any_eq_true]
      rintro ⟨x, hx, hon⟩
      exact hnone x hx hon
    have hunused : (l.map s.buf).any Buf.unused = true := by
      rw [List.any_map, List.any_eq_true]
      exact ⟨b, hb, by simpa using List.find?_some hfree⟩
    rw [Bio.bget, if_neg hany, if_pos hunused, ← List.map_reverse,
      updateFirst_map (List.nodup_reverse.mpr hring.nodup) hfree give_self fun c hc =>
      give_other hc, ← List.map_reverse, List.reverse_reverse]

/-- Along the links, brelse does what it does on the list. -/
theorem Shared.brelse_list (h : Shared s) (hp : s.pc p = .returning b) :
    ∃ l l', Ring s.links l ∧ Ring (s.putRef b).links l' ∧
      Bio.brelse (s.buf b).dev (s.buf b).blockno (l.map s.buf) = l'.map (s.putRef b).buf := by
  have hrefers : s.Holds b p ∨ s.Waits b p := Or.inl (Or.inr hp)
  obtain ⟨l, hring, hperm, hfirst⟩ := h.order
  have hb : b ∈ l := hperm.mem_iff.mpr (h.placed p b hrefers)
  have hfind := hfirst b hb (h.live hrefers)
  have hself : (s.putRef b).buf b = { s.buf b with refcnt := (s.buf b).refcnt - 1 } := by simp
  have hother : ∀ c, c ≠ b → (s.putRef b).buf c = s.buf c := fun c hc => by simp [hc]
  have hmap : (l.map s.buf).find? (Buf.isOn (s.buf b).dev (s.buf b).blockno) = some (s.buf b) := by
    rw [List.find?_map]
    exact congrArg (Option.map s.buf) hfind
  by_cases hzero : (s.buf b).refcnt - 1 = 0
  · have hlinks : (s.putRef b).links = (s.links.unlink b).linkFirst b := by
      simp [Sys.putRef, hzero, Sys.setBuf]
    obtain ⟨hon, l₁, l₂, rfl, hoff⟩ := List.find?_eq_some_iff_append.mp hfind
    have hb1 : b ≠ -1 := ne_of_mem_of_not_mem hb hring.proper
    have hout : b ∉ l₁ ++ l₂ := (List.nodup_cons.mp (List.nodup_middle.mp hring.nodup)).1
    refine ⟨_, b :: (l₁ ++ l₂), hring, hlinks ▸ hring.unlink.linkFirst hout hb1, ?_⟩
    have herase : ((l₁ ++ b :: l₂).map s.buf).eraseP (Buf.isOn (s.buf b).dev (s.buf b).blockno) =
        (l₁ ++ l₂).map s.buf := by
      rw [List.map_append, List.map_cons, List.eraseP_append_right, List.eraseP_cons_of_pos hon,
        ← List.map_append]
      intro x hx
      obtain ⟨c, hc, rfl⟩ := List.mem_map.mp hx
      simpa using hoff c hc
    unfold Bio.brelse
    rw [hmap]
    dsimp only
    rw [if_pos hzero, herase, List.map_cons, hself]
    congr 1
    exact List.map_congr_left fun c hc => (hother c (ne_of_mem_of_not_mem hc hout)).symm
  · have hlinks : (s.putRef b).links = s.links := by
      simp [Sys.putRef, hzero, Sys.setBuf]
    refine ⟨l, l, hring, hlinks ▸ hring, ?_⟩
    unfold Bio.brelse
    rw [hmap]
    dsimp only
    rw [if_neg hzero]
    exact updateFirst_map hring.nodup hfind hself hother

/-- binit links every buffer in front of the ones before it. -/
theorem ring_foldl {k : Links} {l xs : List ℤ} (h : Ring k l) (hnd : xs.Nodup)
    (hxs : ∀ x ∈ xs, x ≠ -1 ∧ x ∉ l) : Ring (xs.foldl Links.linkFirst k) (xs.reverse ++ l) := by
  induction xs generalizing k l with
  | nil => exact h
  | cons x xs ih =>
    obtain ⟨hx, hnd⟩ := List.nodup_cons.mp hnd
    obtain ⟨hx1, hxl⟩ := hxs x List.mem_cons_self
    rw [List.foldl_cons, List.reverse_cons, List.append_assoc]
    refine ih (h.linkFirst hxl hx1) hnd fun y hy => ?_
    obtain ⟨hy1, hyl⟩ := hxs y (List.mem_cons_of_mem x hy)
    refine ⟨hy1, fun hm => ?_⟩
    rcases List.mem_cons.mp hm with rfl | hm
    · exact hx hy
    · exact hyl hm

theorem init_shared : Shared (Sys.init : Sys P) := by
  have hdead : ∀ b, ¬ Live ((Sys.init : Sys P).buf b) := by
    intro b
    simp [Live, Sys.init]
  have hnobody : ∀ (p : P) b, ¬ ((Sys.init : Sys P).Holds b p ∨ (Sys.init : Sys P).Waits b p) := by
    intro p b
    simp [Sys.Holds, Sys.Waits, Sys.init]
  refine ⟨⟨buffers.reverse ++ [], ?_, ?_, fun b _ hb => absurd hb (hdead b)⟩, ?_, ?_, ?_, ?_, ?_⟩
  · refine ring_foldl Ring.alone (List.nodup_range.map fun _ _ => Int.ofNat.inj) ?_
    intro x hx
    obtain ⟨n, _, rfl⟩ := List.mem_map.mp hx
    exact ⟨by omega, List.not_mem_nil⟩
  · rw [List.append_nil]
    exact List.reverse_perm buffers
  · intro b _
    have hh : Finset.univ.filter ((Sys.init : Sys P).Holds b) = ∅ :=
      Finset.filter_eq_empty_iff.mpr fun p _ hp => hnobody p b (Or.inl hp)
    have hw : Finset.univ.filter ((Sys.init : Sys P).Waits b) = ∅ :=
      Finset.filter_eq_empty_iff.mpr fun p _ hp => hnobody p b (Or.inr hp)
    rw [Sys.refs, hh, hw]
    rfl
  · exact fun p b hr => absurd hr (hnobody p b)
  · exact fun p b hr => absurd hr (hnobody p b)
  · intro p b hp
    cases hp
  · intro p b hp
    cases hp

/-- The promises hold after every step of every run, whatever the processes do and
however their steps interleave. -/
theorem always_sound (as : List (Act P)) :
    Always step Sound (Sys.init : Sys P) as ∧ Along step KeepsIdentity (Sys.init : Sys P) as := by
  constructor
  · refine (always_of_invariant (fun s a t h ht => ?_) init_shared as).mono fun s h => h.sound
    exact (h.step ht).1
  · refine along_of_invariant (fun s a h t ht => ?_) (fun s a t h ht => ?_) init_shared as
    · exact (h.step ht).2
    · exact (h.step ht).1

end NorthOS.BufferSharing
