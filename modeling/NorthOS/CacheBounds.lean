import NorthOS.BlockMap

/-!
Which accesses of bmap, itrunc, ilock and iupdate stay inside the addrs of the inode
and inside its cache slot. The cached inode has one entry less than the inode on disk:
the double-indirect entry of fs.c is the dev field of the next slot.
-/
namespace NorthOS.Fs

open LittleEndian Halting Comp

inductive Op
  | bmap (bn : ℕ)
  | itrunc
  | ilock
  | iupdate

def Op.run (i : ℕ) : Op → M Unit
  | .bmap bn => do
    let _ ← Fs.bmap i bn
    pure ()
  | .itrunc => Fs.itrunc i
  | .ilock => Fs.ilock i
  | .iupdate => Fs.iupdate i

/-- The same state on a machine that stops accesses outside of addrs. -/
def State.checked (s : State) : State := { s with strict := true }

/-- The call makes no access outside of addrs and leaves the other cache slots, and the
word behind the cache, as they are. -/
structure Confined (op : Op) (i : ℕ) (s : State) : Prop where
  bounds : op.run i s.checked ≠ .error .outOfBounds
  others : ∀ t, op.run i s = .ok ((), t) →
    t.past = s.past ∧ ∀ j, j ≠ i → t.icache j = s.icache j

/-- What itrunc does before it comes to the double-indirect entry. -/
def freeNear (i : ℕ) : M Unit := do
  forBelow (fun k => freeAddr i k fun _ => pure ()) NDIRECT
  freeAddr i NDIRECT fun addr => freeEntries i (fun _ => pure ()) addr

/-- What itrunc does from the double-indirect entry on. -/
def freeFar (i : ℕ) : M Unit := do
  freeAddr i (NDIRECT + 1) fun addr =>
    freeEntries i (fun a => freeEntries i (fun _ => pure ()) a) addr
  setSlot i fun ip => { ip with size := 0 }
  iupdate i

/-- The call does not come to the double-indirect entry: bmap is not asked for a block
behind the single-indirect ones, and itrunc panics before. -/
def Near (op : Op) (i : ℕ) (s : State) : Prop :=
  match op with
  | .bmap bn => bn < smallBlocks ∨ MAXFILE ≤ bn
  | .itrunc => ∀ t, freeNear i s ≠ .ok ((), t)
  | .ilock => True
  | .iupdate => True

theorem itrunc_eq (i : ℕ) (s : State) : itrunc i s = (freeNear i >>= fun _ => freeFar i) s := by
  unfold itrunc freeNear freeFar
  show Comp.bind _ _ s = Comp.bind (Comp.bind _ _) _ s
  unfold Comp.bind
  cases forBelow (fun k => freeAddr i k fun _ => pure ()) NDIRECT s with
  | error e => rfl
  | ok r => rfl

section Inside

/-- Of the cache only slot `i` may differ; blocks, buffers and the contents of the log are
not compared. -/
structure FrameBut (i : ℕ) (s t : State) : Prop where
  sb : t.sb = s.sb
  past : t.past = s.past
  devsw : t.devsw = s.devsw
  strict : t.strict = s.strict
  outstanding : t.log.outstanding = s.log.outstanding
  others : ∀ j, j ≠ i → t.icache j = s.icache j

variable {i : ℕ}

theorem frameBut_composes (i : ℕ) : Composes (FrameBut i) where
  refl := fun _ => ⟨rfl, rfl, rfl, rfl, rfl, fun _ _ => rfl⟩
  trans := fun h h' => ⟨h'.sb.trans h.sb, h'.past.trans h.past, h'.devsw.trans h.devsw,
    h'.strict.trans h.strict, h'.outstanding.trans h.outstanding,
    fun j hj => (h'.others j hj).trans (h.others j hj)⟩

theorem Frame.but {s t : State} (h : Frame s t) (i : ℕ) : FrameBut i s t :=
  ⟨h.sb, h.past, h.devsw, h.strict, h.outstanding, fun j _ => by rw [h.icache]⟩

/-- A block operation leaves the cache alone. -/
theorem inside {A : Type} {x : M A} (h : Within Fault Frame x) (i : ℕ) :
    Within Fault (FrameBut i) x :=
  h.mono (fun _ _ hf => hf.but i) fun _ he => he

theorem setSlot_within {f : Inode → Inode} : Within Fault (FrameBut i) (setSlot i f) :=
  within_update fun _ =>
    ⟨rfl, rfl, rfl, rfl, rfl, fun _ hj => Function.update_of_ne hj _ _⟩

theorem look_within {A : Type} {f : State → A} :
    Within Fault (FrameBut i) (look f : M A) := within_look (frameBut_composes i)

/-- Inside the array no access is stopped. -/
theorem getAddr_within {k : ℕ} (hk : k < NDIRECT + 1) :
    Within Fault (FrameBut i) (getAddr i k) := by
  intro s
  unfold getAddr
  refine Ends.bind (Q := fun _ t => t = s) (ends_ensure (fun _ => rfl) ?_) ?_
  · simp [hk]
  · rintro _ t _ rfl
    exact (frameBut_composes i).refl _

theorem setAddr_within {k addr : ℕ} (hk : k < NDIRECT + 1) :
    Within Fault (FrameBut i) (setAddr i k addr) := by
  intro s
  unfold setAddr
  refine Ends.bind (Q := fun _ t => t = s) (ends_ensure (fun _ => rfl) ?_) ?_
  · simp [hk]
  · rintro _ t _ rfl
    rw [ends_update, if_pos hk]
    exact ⟨rfl, rfl, rfl, rfl, rfl, fun _ hj => Function.update_of_ne hj _ _⟩

theorem indexEntry_within {addr k : ℕ} : Within Fault (FrameBut i) (indexEntry i addr k) := by
  have hR := frameBut_composes i
  unfold indexEntry
  refine look_within.bind hR fun dev => ?_
  refine (inside bread_within i).bind hR fun a => ?_
  refine Within.ite ?_ ?_
  · refine look_within.bind hR fun dev' => ?_
    refine (inside balloc_within i).bind hR fun addr => ?_
    refine (inside setData_within i).bind hR fun _ => ?_
    refine (inside logWrite_within i).bind hR fun _ => ?_
    refine (inside brelse_within i).bind hR fun _ => ?_
    exact within_pure hR
  · refine (inside brelse_within i).bind hR fun _ => ?_
    exact within_pure hR

theorem addrEntry_within {k : ℕ} (hk : k < NDIRECT + 1) :
    Within Fault (FrameBut i) (addrEntry i k) := by
  have hR := frameBut_composes i
  unfold addrEntry
  refine (getAddr_within hk).bind hR fun addr => ?_
  refine Within.ite ?_ (within_pure hR)
  refine look_within.bind hR fun dev => ?_
  refine (inside balloc_within i).bind hR fun addr => ?_
  refine (setAddr_within hk).bind hR fun _ => ?_
  exact within_pure hR

/-- Up to the single-indirect blocks, and for numbers that are refused. -/
theorem bmap_within {bn : ℕ} (hbn : bn < smallBlocks ∨ MAXFILE ≤ bn) :
    Within Fault (FrameBut i) (bmap i bn) := by
  have hR := frameBut_composes i
  have hsmall : smallBlocks = NDIRECT + NINDIRECT := rfl
  have hmax : MAXFILE = NDIRECT + NINDIRECT + NDINDIRECT := rfl
  unfold bmap
  split
  · rename_i hdirect
    exact addrEntry_within (by omega)
  · split
    · refine (addrEntry_within (by omega)).bind hR fun addr => ?_
      exact indexEntry_within
    · rw [if_neg (by omega)]
      exact within_halt (not_fault (by simp) (by simp))

theorem iupdate_within : Within Fault (FrameBut i) (iupdate i) := by
  have hR := frameBut_composes i
  unfold iupdate
  refine (within_ensure hR (not_fault (by simp) (by simp))).bind hR fun _ => ?_
  refine look_within.bind hR fun ip => ?_
  refine look_within.bind hR fun sb => ?_
  refine (inside bread_within i).bind hR fun _ => ?_
  refine (inside setData_within i).bind hR fun _ => ?_
  refine (inside logWrite_within i).bind hR fun _ => ?_
  exact inside brelse_within i

/-- The one operation that can panic for an inode without a type. -/
theorem ilock_within : Within (· = .outOfBounds) (FrameBut i) (ilock i) := by
  have hR := frameBut_composes i
  have hsub : ∀ e : Halt, e = .outOfBounds → Fault e := fun e => Or.inr
  have hsame : ∀ s t, FrameBut i s t → FrameBut i s t := fun _ _ h => h
  unfold ilock
  refine (within_ensure hR (by simp)).bind hR fun _ => ?_
  refine (within_ensure hR (by simp)).bind hR fun _ => ?_
  refine (setSlot_within.mono hsame hsub).bind hR fun _ => ?_
  refine (look_within.mono hsame hsub).bind hR fun ip => ?_
  refine Within.ite (within_pure hR) ?_
  refine (look_within.mono hsame hsub).bind hR fun sb => ?_
  refine ((inside bread_within i).mono hsame hsub).bind hR fun data => ?_
  refine (setSlot_within.mono hsame hsub).bind hR fun _ => ?_
  refine ((inside brelse_within i).mono hsame hsub).bind hR fun _ => ?_
  refine (setSlot_within.mono hsame hsub).bind hR fun _ => ?_
  exact within_ensure hR (by simp)

theorem freeEntries_within {inner : ℕ → M Unit} (hinner : ∀ a, Within Fault (FrameBut i) (inner a))
    {addr : ℕ} : Within Fault (FrameBut i) (freeEntries i inner addr) := by
  have hR := frameBut_composes i
  unfold freeEntries
  generalize NINDIRECT = n
  refine look_within.bind hR fun dev => ?_
  refine (inside bread_within i).bind hR fun _ => ?_
  refine (within_forBelow hR fun j _ => ?_).bind hR fun _ => inside brelse_within i
  refine look_within.bind hR fun a => ?_
  refine Within.ite (within_pure hR) ?_
  refine (hinner _).bind hR fun _ => ?_
  refine look_within.bind hR fun dev' => ?_
  exact inside bfree_within i

theorem freeAddr_within {k : ℕ} (hk : k < NDIRECT + 1) {inner : ℕ → M Unit}
    (hinner : ∀ a, Within Fault (FrameBut i) (inner a)) :
    Within Fault (FrameBut i) (freeAddr i k inner) := by
  have hR := frameBut_composes i
  unfold freeAddr
  refine (getAddr_within hk).bind hR fun addr => ?_
  refine Within.ite (within_pure hR) ?_
  refine (hinner _).bind hR fun _ => ?_
  refine look_within.bind hR fun dev => ?_
  refine (getAddr_within hk).bind hR fun addr => ?_
  refine (inside bfree_within i).bind hR fun _ => ?_
  exact setAddr_within hk

theorem freeNear_within : Within Fault (FrameBut i) (freeNear i) := by
  have hR := frameBut_composes i
  unfold freeNear
  refine (within_forBelow hR fun k hk => ?_).bind hR fun _ => ?_
  · exact freeAddr_within (by omega) fun _ => within_pure hR
  · refine freeAddr_within (by omega) fun addr => ?_
    exact freeEntries_within fun _ => within_pure hR

end Inside

section Checked

/-- Stopping accesses outside of addrs makes no difference to the computation. -/
def Blind {A : Type} (x : M A) : Prop := ∀ s, x s.checked =
  match x s with
  | .ok (a, t) => .ok (a, t.checked)
  | .error e => .error e

variable {A B : Type} {i : ℕ}

theorem blind_pure (a : A) : Blind (pure a) := fun _ => rfl

theorem blind_look {f : State → A} (hf : ∀ s, f s.checked = f s) : Blind (look f) := by
  intro s
  show Except.ok (f s.checked, s.checked) = _
  rw [hf]
  rfl

theorem blind_update {f : State → State} (hf : ∀ s, f s.checked = (f s).checked) :
    Blind (update f) := by
  intro s
  show Except.ok ((), f s.checked) = _
  rw [hf]
  rfl

theorem blind_ensure {p : State → Bool} {e : Halt} (hp : ∀ s, p s.checked = p s) :
    Blind (ensure p e) := by
  intro s
  unfold ensure
  rw [hp]
  split <;> rfl

theorem Blind.bind {x : M A} {f : A → M B} (hx : Blind x) (hf : ∀ a, Blind (f a)) :
    Blind (x >>= f) := by
  intro s
  cases h : x s with
  | error e =>
    rw [bind_of_error h, bind_of_error (by rw [hx, h])]
  | ok p =>
    obtain ⟨a, t⟩ := p
    rw [bind_of_ok h, bind_of_ok (t := t.checked) (a := a) (by rw [hx, h])]
    exact hf a t

theorem Blind.ite {x y : M A} (hx : Blind x) (hy : Blind y) {p : Prop} [Decidable p] :
    Blind (if p then x else y) := by
  split
  · exact hx
  · exact hy

theorem blind_forBelow {body : ℕ → M Unit} {n : ℕ} (h : ∀ k, k < n → Blind (body k)) :
    Blind (forBelow body n) := by
  induction n with
  | zero => exact blind_pure ()
  | succ n ih => exact (ih fun k hk => h k (by omega)).bind fun _ => h n (by omega)

theorem bread_blind (dev b : ℕ) : Blind (bread dev b) := by
  unfold bread
  refine (blind_ensure fun _ => rfl).bind fun _ => ?_
  refine (blind_ensure fun _ => rfl).bind fun _ => ?_
  refine Blind.bind (blind_update ?_) fun _ => blind_look ?_
  · exact fun _ => rfl
  · exact fun _ => rfl

theorem brelse_blind (dev b : ℕ) : Blind (brelse dev b) := by
  unfold brelse
  refine (blind_ensure fun _ => rfl).bind fun _ => blind_update ?_
  exact fun _ => rfl

theorem setData_blind (dev b : ℕ) (f : Bytes → Bytes) : Blind (setData dev b f) :=
  blind_update fun _ => rfl

theorem logWrite_blind (b : ℕ) : Blind (logWrite b) := by
  intro s
  have hlog : s.checked.log = s.log := rfl
  unfold logWrite
  rw [hlog]
  cases s.log.logWrite b <;> rfl

theorem bfree_blind (dev b : ℕ) : Blind (bfree dev b) := by
  unfold bfree
  refine (blind_look fun _ => rfl).bind fun sb => ?_
  refine (blind_ensure fun _ => rfl).bind fun _ => ?_
  refine (bread_blind _ _).bind fun data => ?_
  refine (blind_ensure fun _ => rfl).bind fun _ => ?_
  refine (setData_blind _ _ _).bind fun _ => ?_
  exact (logWrite_blind _).bind fun _ => brelse_blind _ _

theorem getAddr_blind {k : ℕ} (hk : k < NDIRECT + 1) : Blind (getAddr i k) := by
  unfold getAddr
  refine (blind_ensure fun s => ?_).bind fun _ => blind_look fun _ => rfl
  simp [hk]

theorem setAddr_blind {k addr : ℕ} (hk : k < NDIRECT + 1) : Blind (setAddr i k addr) := by
  unfold setAddr
  refine (blind_ensure fun s => ?_).bind fun _ => blind_update fun s => ?_
  · simp [hk]
  · rw [if_pos hk, if_pos hk]
    rfl

theorem freeAddr_blind {k : ℕ} (hk : k < NDIRECT + 1) {inner : ℕ → M Unit}
    (hinner : ∀ a, Blind (inner a)) : Blind (freeAddr i k inner) := by
  unfold freeAddr
  refine (getAddr_blind hk).bind fun addr => ?_
  refine (blind_pure ()).ite ?_
  refine (hinner _).bind fun _ => ?_
  refine (blind_look fun _ => rfl).bind fun dev => ?_
  refine (getAddr_blind hk).bind fun addr => ?_
  exact (bfree_blind _ _).bind fun _ => setAddr_blind hk

theorem freeNear_blind : Blind (freeNear i) := by
  unfold freeNear
  refine (blind_forBelow fun k hk => ?_).bind fun _ => ?_
  · exact freeAddr_blind (by omega) fun _ => blind_pure ()
  · refine freeAddr_blind (by omega) fun addr => ?_
    refine (blind_look fun _ => rfl).bind fun dev => ?_
    refine (bread_blind _ _).bind fun _ => ?_
    refine (blind_forBelow fun j _ => ?_).bind fun _ => brelse_blind _ _
    refine (blind_look fun _ => rfl).bind fun a => ?_
    refine (blind_pure ()).ite ?_
    exact (blind_pure ()).bind fun _ => (blind_look fun _ => rfl).bind fun _ => bfree_blind _ _

end Checked

section Exact

variable {i : ℕ} {s : State}

theorem confined_of_within {op : Op} (h : Within (· = .outOfBounds) (FrameBut i) (op.run i)) :
    Confined op i s where
  bounds := fun he => (h s.checked).of_error he rfl
  others := fun _ ht => ⟨((h s).of_ok ht).past, ((h s).of_ok ht).others⟩

/-- On a checked machine the double-indirect entry cannot be read. -/
theorem getAddr_far : getAddr i (NDIRECT + 1) s.checked = .error .outOfBounds := rfl

theorem bmap_far {bn : ℕ} (hlow : smallBlocks ≤ bn) (hhigh : bn < MAXFILE) :
    bmap i bn s.checked = .error .outOfBounds := by
  have hsmall : smallBlocks = NDIRECT + NINDIRECT := rfl
  have hmax : MAXFILE = NDIRECT + NINDIRECT + NDINDIRECT := rfl
  unfold bmap
  rw [if_neg (by omega), if_neg (by omega), if_pos (by omega)]
  apply bind_of_error
  exact bind_of_error getAddr_far

/-- bmap, itrunc, ilock and iupdate stay inside the block map of their inode, and spare
all others, exactly when they do not come to the double-indirect entry. -/
theorem confined_iff (op : Op) (i : ℕ) (s : State) : Confined op i s ↔ Near op i s := by
  have hsub : ∀ e : Halt, e = .outOfBounds → Fault e := fun e => Or.inr
  have hR := frameBut_composes i
  cases op with
  | bmap bn =>
    constructor
    · intro h
      by_contra hfar
      obtain ⟨hlow, hhigh⟩ := not_or.mp hfar
      exact h.bounds (bind_of_error (bmap_far (Nat.not_lt.mp hlow) (Nat.not_le.mp hhigh)))
    · intro h
      apply confined_of_within
      exact ((bmap_within h).bind hR fun _ => within_pure hR).mono (fun _ _ hf => hf) hsub
  | itrunc =>
    constructor
    · rintro h t hnear
      apply h.bounds
      have hchecked : freeNear i s.checked = .ok ((), t.checked) := by
        rw [freeNear_blind, hnear]
      show itrunc i s.checked = _
      rw [itrunc_eq, bind_of_ok hchecked]
      apply bind_of_error
      exact bind_of_error getAddr_far
    · intro h
      cases hnear : freeNear i s with
      | ok r => exact absurd hnear (h r.2)
      | error e =>
        have hchecked : freeNear i s.checked = .error e := by
          rw [freeNear_blind, hnear]
        have he : ¬ Fault e := (freeNear_within s).of_error hnear
        constructor
        · show itrunc i s.checked ≠ _
          rw [itrunc_eq, bind_of_error hchecked]
          rintro ⟨⟩
          exact he (Or.inr rfl)
        · intro t ht
          rw [show Op.itrunc.run i s = itrunc i s from rfl, itrunc_eq, bind_of_error hnear] at ht
          cases ht
  | ilock => exact ⟨fun _ => trivial, fun _ => confined_of_within ilock_within⟩
  | iupdate =>
    exact ⟨fun _ => trivial, fun _ => confined_of_within
      (iupdate_within.mono (fun _ _ hf => hf) hsub)⟩

/-- A slot that was never used. -/
def unusedInode : Inode := ⟨0, 0, 0, false, false, 0, 0, 0, 0, 0, fun _ => 0⟩

/-- An empty file in the first slot and nothing in the others, inside a transaction. -/
def oneFile : State where
  sb := mkfsSuperblock
  blk := fun _ b i => if b = 45 then if i < 5 then 255 else if i = 5 then 127 else 0 else 0
  held := []
  log := ⟨2, nlog, 1, false, []⟩
  last_alloc_hint := 0
  icache := fun i =>
    if i = 0 then ⟨ROOTDEV, 2, 1, true, true, T_FILE, 0, 0, 1, 0, fun _ => 0⟩ else unusedInode
  past := 0
  devsw := fun _ => none
  strict := false

def haltOf (r : Except Halt (Unit × State)) : Option Halt :=
  match r with
  | .ok _ => none
  | .error e => some e

def devOf (j : ℕ) (r : Except Halt (Unit × State)) : Option ℕ :=
  match r with
  | .ok (_, t) => some (t.icache j).dev
  | .error _ => none

/-- bmap of the first double-indirect block and itrunc leave the block map, and bmap
writes the number of the new block to the dev of the next slot. -/
theorem not_always_confined :
    (¬ ∀ (s : State) (i : ℕ) (op : Op), i < NINODE → (∀ bn, op = .bmap bn → bn < MAXFILE) →
      Confined op i s) ∧
    ¬ Confined (.bmap smallBlocks) 0 oneFile ∧ ¬ Confined .itrunc 0 oneFile ∧
    devOf 1 ((Op.bmap smallBlocks).run 0 oneFile) = some 47 := by
  have hbmap : ¬ Confined (.bmap smallBlocks) 0 oneFile := by
    intro h
    have hhalt : haltOf ((Op.bmap smallBlocks).run 0 oneFile.checked) = some .outOfBounds := by
      decide +kernel
    apply h.bounds
    unfold haltOf at hhalt
    split at hhalt <;> simp_all
  have hitrunc : ¬ Confined .itrunc 0 oneFile := by
    intro h
    have hhalt : haltOf (Op.itrunc.run 0 oneFile.checked) = some .outOfBounds := by
      decide +kernel
    apply h.bounds
    unfold haltOf at hhalt
    split at hhalt <;> simp_all
  refine ⟨fun h => hbmap (h oneFile 0 (.bmap smallBlocks) (by decide) ?_), hbmap, hitrunc, ?_⟩
  · rintro bn ⟨⟩
    decide
  · decide +kernel

end Exact

end NorthOS.Fs
