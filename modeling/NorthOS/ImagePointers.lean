import NorthOS.Mkfs
import NorthOS.Ownership
import NorthOS.Volume

/-!
The block pointers of an image: those in the dinodes, and those in the index blocks that
they lead to. A block taken for an empty pointer changes this pointer only, and a write
into the data block of a file changes none.
-/
namespace NorthOS.Mkfs

open LittleEndian Fs Ownership

/-- The places of the pointers of one inode: entry `k` of its dinode, entries of the
single-indirect block, and those of the two levels of double-indirect blocks. -/
inductive Ptr
  | addr (k : ℕ)
  | leaf (j : ℕ)
  | outer (j : ℕ)
  | inner (j k : ℕ)
  deriving DecidableEq

/-- The place that leads to the index block of a place, and the entry there. -/
def Ptr.parent : Ptr → Option (Ptr × ℕ)
  | .addr _ => none
  | .leaf j => some (.addr NDIRECT, j)
  | .outer j => some (.addr (NDIRECT + 1), j)
  | .inner j k => some (.outer j, k)

/-- Entry `j` of the index block `c`, if there is one. -/
def word (img : ℕ → Bytes) (c j : ℕ) : ℕ :=
  if c ≠ 0 ∧ j < NINDIRECT then get (img c) (4 * j) 4 else 0

/-- The dinodes of a table, with their bytes. -/
abbrev Table := ℕ → Bytes

/-- Entry `k` of the dinode. -/
def dinEntry (din : Bytes) (k : ℕ) : ℕ := if k < NDIRECT + 2 then dinAddr din k else 0

def entry (din : Bytes) (img : ℕ → Bytes) : Ptr → ℕ
  | .addr k => dinEntry din k
  | .leaf j => word img (dinEntry din NDIRECT) j
  | .outer j => word img (dinEntry din (NDIRECT + 1)) j
  | .inner j k => word img (word img (dinEntry din (NDIRECT + 1)) j) k

/-- The place of the pointer to a file block. -/
def fbnPlace (fbn : ℕ) : Ptr :=
  if fbn < NDIRECT then .addr fbn
  else if fbn < NDIRECT + NINDIRECT then .leaf (fbn - NDIRECT)
  else .inner ((fbn - NDIRECT - NINDIRECT) / NINDIRECT) ((fbn - NDIRECT - NINDIRECT) % NINDIRECT)

/-- What the place of a pointer holds. -/
def pointer (v : Table) (img : ℕ → Bytes) (q : ℕ × Ptr) : ℕ := entry (v q.1) img q.2

/-- The dinodes of an image. -/
def table (img : ℕ → Bytes) : Table := fun n =>
  if n < maxInodes then fun i => img (IBLOCK n mkfsSuperblock) (dinodeOffset n + i) else fun _ => 0

/-- A byte of a file; there are zeros where no block is. -/
def fileByte (v : Table) (img : ℕ → Bytes) (n o : ℕ) : UInt8 :=
  if pointer v img (n, fbnPlace (o / BSIZE)) = 0 then 0
  else img (pointer v img (n, fbnPlace (o / BSIZE))) (o % BSIZE)

variable {v w : Table} {img img' : ℕ → Bytes} {m n b c j k : ℕ} {e q r : ℕ × Ptr} {p : Ptr}

section Places

/-- A place is in the dinode, or in the index block that another place leads to. -/
theorem pointer_of_parent {p₀ : Ptr} (h : p.parent = some (p₀, j)) :
    pointer v img (n, p) = word img (pointer v img (n, p₀)) j := by
  cases p with
  | addr k => cases h
  | leaf j =>
    cases h
    rfl
  | outer j =>
    cases h
    rfl
  | inner j k =>
    cases h
    rfl

theorem parent_inj {p₀ p₁ : Ptr} (h : p.parent = some (p₀, j)) (h' : p₁.parent = some (p₀, j)) :
    p = p₁ := by
  cases p <;> cases p₁ <;> grind [Ptr.parent]

theorem fbnPlace_parent {p₀ : Ptr} {fbn : ℕ} (h : p.parent = some (p₀, j)) : fbnPlace fbn ≠ p₀ := by
  unfold fbnPlace
  cases p with
  | addr k => cases h
  | leaf j =>
    cases h
    split_ifs <;> simp
    omega
  | outer j =>
    cases h
    split_ifs <;> simp
    omega
  | inner j k =>
    cases h
    split_ifs <;> simp

theorem fbnPlace_inj {a b : ℕ} (h : fbnPlace a = fbnPlace b) : a = b := by
  have hsmall : NINDIRECT = 512 := rfl
  unfold fbnPlace at h
  split_ifs at h <;> simp at h
  · exact h
  · omega
  · obtain ⟨hdiv, hmod⟩ := h
    rw [hsmall] at *
    omega

/-- Two views of the pointers agree when they do at the dinodes and from one level to the
next. -/
theorem pointer_induction {P : ℕ × Ptr → Prop} (haddr : ∀ n k, P (n, .addr k))
    (hchild : ∀ n p p₀ j, p.parent = some (p₀, j) → P (n, p₀) → P (n, p)) : ∀ q, P q := by
  intro q
  obtain ⟨n, p⟩ := q
  cases p with
  | addr k => exact haddr n k
  | leaf j => exact hchild n _ _ j rfl (haddr n _)
  | outer j => exact hchild n _ _ j rfl (haddr n _)
  | inner j k => exact hchild n _ _ k rfl (hchild n _ _ j rfl (haddr n _))

end Places

/-- Every pointer is the number of a block that has been taken, and no other pointer is the
same one. -/
abbrev Exclusive (v : Table) (img : ℕ → Bytes) (freeblock : ℕ) : Prop :=
  Owned (fun b => nmeta ≤ b ∧ b < freeblock) (pointer v img) fun b => decide (b < freeblock)

section Exclusive

theorem parent_ne {p₀ : Ptr} (h : p.parent = some (p₀, j)) : p ≠ p₀ := by
  cases p <;> cases h <;> simp

theorem word_blank (h : img b = fun _ => 0) : word img b j = 0 := by
  unfold word
  split
  · rw [h]
    exact get_zero fun _ _ _ => rfl
  · rfl

/-- A new pointer `b` at place `q`, which held none. `q` is entry `k` of the index block `c`,
or `c` is 0 and `q` is in a dinode. -/
theorem pointer_taken (hq : pointer v img q = 0) (hblank : img' b = fun _ => 0)
    (haddr : ∀ n k, pointer w img' (n, .addr k) = Function.update (pointer v img) q b (n, .addr k))
    (hword : ∀ d j, word img' d j = if d = c ∧ j = k ∧ c ≠ 0 then b else word img d j)
    (hplace : ∀ r j p₀, r.2.parent = some (p₀, j) →
      (r = q ↔ pointer v img (r.1, p₀) = c ∧ j = k ∧ c ≠ 0)) :
    pointer w img' = Function.update (pointer v img) q b := by
  refine funext (pointer_induction haddr fun n p p₀ j hp ih => ?_)
  rw [pointer_of_parent hp, ih]
  by_cases hpq : (n, p₀) = q
  · -- the new block is empty, and nothing was behind the empty pointer
    have hne : (n, p) ≠ q := by
      rw [← hpq]
      intro he
      exact parent_ne hp (Prod.ext_iff.mp he).2
    rw [hpq, Function.update_self, Function.update_of_ne hne, pointer_of_parent hp, hpq, hq,
      word_blank hblank]
    exact (if_neg fun h => h.1 rfl).symm
  · have hsame := hplace (n, p) j p₀ hp
    rw [Function.update_of_ne hpq, hword]
    by_cases hr : (n, p) = q
    · rw [if_pos (hsame.mp hr), hr, Function.update_self]
    · rw [if_neg fun h => hr (hsame.mpr h), Function.update_of_ne hr, pointer_of_parent hp]

theorem dinAddr_put_self {din : Bytes} (hb : b < 2 ^ 32) :
    dinAddr (put din (12 + 4 * k) 4 b) k = b :=
  get_put_of_lt hb

theorem dinAddr_put_other {din : Bytes} (hj : j ≠ k) :
    dinAddr (put din (12 + 4 * k) 4 b) j = dinAddr din j := get_put_other (by omega)

/-- A block for an empty pointer of a dinode. -/
theorem pointer_takeAddr {din : Bytes} (hk : k < NDIRECT + 2) (hempty : dinAddr din k = 0)
    (hblank : img b = fun _ => 0) (hb : b < 2 ^ 32) :
    pointer (Function.update v n (put din (12 + 4 * k) 4 b)) img =
      Function.update (pointer (Function.update v n din) img) (n, .addr k) b := by
  refine pointer_taken (c := 0) (k := 0) ?_ hblank ?_ (fun d j => ?_) fun r j p₀ hr => ?_
  · show dinEntry (Function.update v n din n) k = 0
    rw [Function.update_self, dinEntry, if_pos hk, hempty]
  · intro m j
    show dinEntry (Function.update v n _ m) j = _
    by_cases hm : m = n
    · subst hm
      rw [Function.update_self]
      by_cases hj : j = k
      · subst hj
        rw [Function.update_self, dinEntry, if_pos hk, dinAddr_put_self hb]
      · rw [Function.update_of_ne (by simp [hj]), dinEntry, dinAddr_put_other hj]
        show _ = dinEntry (Function.update v m din m) j
        rw [Function.update_self]
        rfl
    · rw [Function.update_of_ne hm, Function.update_of_ne (by simp [hm])]
      show _ = dinEntry (Function.update v n din m) j
      rw [Function.update_of_ne hm]
  · rw [if_neg fun h => h.2.2 rfl]
  · constructor
    · rintro rfl
      cases hr
    · exact fun h => absurd rfl h.2.2

/-- A block for an empty entry of an index block. -/
theorem pointer_takeEntry (h : Exclusive v img b) {p₀ : Ptr} (hparent : p.parent = some (p₀, k))
    (hk : k < NINDIRECT) (hc : pointer v img (n, p₀) = c) (hc0 : c ≠ 0)
    (hempty : pointer v img (n, p) = 0) (hblank : img b = fun _ => 0) (hb : b < 2 ^ 32) :
    pointer v (Function.update img c (put (img c) (4 * k) 4 b)) =
      Function.update (pointer v img) (n, p) b := by
  have hcb : b ≠ c := by
    have hin := (h.inside (n, p₀) (by rw [hc]; exact hc0)).1.2
    omega
  refine pointer_taken (c := c) (k := k) hempty ?_ ?_ (fun d j => ?_) fun r j p₁ hr => ?_
  · rw [Function.update_of_ne hcb, hblank]
  · intro m j
    have hne : (m, Ptr.addr j) ≠ (n, p) := by
      intro he
      obtain rfl : Ptr.addr j = p := (Prod.ext_iff.mp he).2
      cases hparent
    rw [Function.update_of_ne hne]
    rfl
  · unfold word
    by_cases hd : d = c
    · subst hd
      rw [Function.update_self]
      by_cases hj : j = k
      · subst hj
        rw [if_pos ⟨hc0, hk⟩, if_pos ⟨rfl, rfl, hc0⟩, get_put_of_lt hb]
      · have hno : ¬ (d = d ∧ j = k ∧ d ≠ 0) := fun h' => hj h'.2.1
        rw [if_neg hno, get_put_other (by omega)]
    · have hno : ¬ (d = c ∧ j = k ∧ c ≠ 0) := fun h' => hd h'.1
      rw [Function.update_of_ne hd, if_neg hno]
  · constructor
    · rintro rfl
      rw [hparent] at hr
      cases hr
      exact ⟨hc, rfl, hc0⟩
    · rintro ⟨hsame, rfl, _⟩
      have hplace := h.once (n, p₀) (r.1, p₁) (by rw [hc]; exact hc0) (hc.trans hsame.symm)
      obtain ⟨hn, rfl⟩ := Prod.ext_iff.mp hplace
      exact Prod.ext hn.symm (parent_inj hr hparent)

/-- A write into blocks that no place leads on from changes no pointer. -/
theorem pointer_written (himg : ∀ m p₀ (p : Ptr) j, p.parent = some (p₀, j) →
      pointer v img (m, p₀) ≠ 0 →
    img' (pointer v img (m, p₀)) = img (pointer v img (m, p₀))) : pointer v img' =
    pointer v img := by
  refine funext (pointer_induction (fun _ _ => rfl) fun m p p₀ j hp ih => ?_)
  rw [pointer_of_parent hp, pointer_of_parent hp, ih]
  unfold word
  by_cases hc : pointer v img (m, p₀) = 0
  · rw [if_neg fun h => h.1 hc, if_neg fun h => h.1 hc]
  · rw [himg m p₀ p j hp hc]

/-- Data blocks of files are not index blocks. -/
theorem pointer_data (h : Exclusive v img c) {fbn : ℕ} {y : Bytes}
    (hb : pointer v img (n, fbnPlace fbn) = b) (hb0 : b ≠ 0) :
    pointer v (Function.update img b y) = pointer v img := by
  refine pointer_written fun m p₀ p j hp hne => Function.update_of_ne ?_ _ _
  intro he
  have hplace := h.once (n, fbnPlace fbn) (m, p₀) (by rw [hb]; exact hb0) (hb.trans he.symm)
  exact fbnPlace_parent hp (Prod.ext_iff.mp hplace).2

end Exclusive

section Congruence

/-- The pointers depend on those in the dinodes and on the blocks that they lead to. -/
theorem pointer_congr (haddr : ∀ m k, k < NDIRECT + 2 → dinAddr (w m) k = dinAddr (v m) k)
    (himg : ∀ q, pointer v img q ≠ 0 → img' (pointer v img q) = img (pointer v img q)) :
    pointer w img' = pointer v img := by
  refine funext (pointer_induction (fun m k => ?_) fun m p p₀ j hp ih => ?_)
  · show dinEntry (w m) k = dinEntry (v m) k
    unfold dinEntry
    by_cases hk : k < NDIRECT + 2
    · rw [if_pos hk, if_pos hk, haddr m k hk]
    · rw [if_neg hk, if_neg hk]
  · rw [pointer_of_parent hp, pointer_of_parent hp, ih]
    unfold word
    by_cases hc : pointer v img (m, p₀) = 0
    · rw [if_neg fun h => h.1 hc, if_neg fun h => h.1 hc]
    · rw [himg _ hc]

theorem fileByte_congr {o : ℕ} (hp : pointer w img' = pointer v img)
    (himg : ∀ q, pointer v img q ≠ 0 → img' (pointer v img q) = img (pointer v img q)) :
    fileByte w img' m o = fileByte v img m o := by
  unfold fileByte
  rw [hp]
  split
  · rfl
  · rename_i hne
    rw [himg _ hne]

end Congruence

section Contents

variable {o : ℕ}

/-- A block that was taken for a pointer is empty: no byte of a file changes. -/
theorem fileByte_taken (hq : pointer v img q = 0)
    (hp : pointer w img' = Function.update (pointer v img) q b)
    (hblank : img' b = fun _ => 0)
    (himg : ∀ m fbn, pointer v img (m, fbnPlace fbn) ≠ 0 →
      img' (pointer v img (m, fbnPlace fbn)) = img (pointer v img (m, fbnPlace fbn))) :
    fileByte w img' m o = fileByte v img m o := by
  unfold fileByte
  rw [hp]
  by_cases hplace : (m, fbnPlace (o / BSIZE)) = q
  · rw [hplace, Function.update_self, hq, if_pos rfl, hblank]
    split <;> rfl
  · rw [Function.update_of_ne hplace]
    by_cases hzero : pointer v img (m, fbnPlace (o / BSIZE)) = 0
    · rw [if_pos hzero, if_pos hzero]
    · rw [if_neg hzero, if_neg hzero, himg m _ hzero]

/-- A write into the data block of one file block. -/
theorem fileByte_data (h : Exclusive v img c) {fbn lo len : ℕ} {p : Bytes}
    (hb : pointer v img (n, fbnPlace fbn) = b) (hb0 : b ≠ 0) (hlen : lo + len ≤ BSIZE) :
    fileByte v (Function.update img b (splice (img b) lo p 0 len)) m o =
      if m = n ∧ fbn * BSIZE + lo ≤ o ∧ o < fbn * BSIZE + lo + len then p (o - (fbn * BSIZE + lo))
      else fileByte v img m o := by
  have hmod := Nat.mod_lt o (show 0 < BSIZE by decide)
  have hdiv := Nat.div_add_mod o BSIZE
  unfold fileByte
  rw [pointer_data h hb hb0]
  by_cases hplace : (m, fbnPlace (o / BSIZE)) = (n, fbnPlace fbn)
  · obtain ⟨rfl, hfbn⟩ := Prod.ext_iff.mp hplace
    obtain rfl := fbnPlace_inj hfbn
    rw [hb, if_neg hb0, Function.update_self, if_neg hb0]
    rw [Nat.mul_comm] at hdiv
    unfold splice
    by_cases hin : lo ≤ o % BSIZE ∧ o % BSIZE < lo + len
    · rw [if_pos hin, if_pos ⟨rfl, by omega, by omega⟩]
      congr 1
      omega
    · have hout : ¬ (m = m ∧ o / BSIZE * BSIZE + lo ≤ o ∧ o < o / BSIZE * BSIZE + lo + len) := by
        intro h'
        exact hin ⟨by omega, by omega⟩
      rw [if_neg hin, if_neg hout]
  · have hout : ¬ (m = n ∧ fbn * BSIZE + lo ≤ o ∧ o < fbn * BSIZE + lo + len) := by
      rintro ⟨rfl, hlo, hhi⟩
      have hfbn : o / BSIZE = fbn := by
        refine (Nat.div_eq_iff (by decide)).mpr ⟨by omega, by omega⟩
      exact hplace (by rw [hfbn])
    rw [if_neg hout]
    by_cases hzero : pointer v img (m, fbnPlace (o / BSIZE)) = 0
    · rw [if_pos hzero, if_pos hzero]
    · have hne : pointer v img (m, fbnPlace (o / BSIZE)) ≠ b := by
        intro he
        exact hplace (h.once _ _ hzero (he.trans hb.symm))
      rw [if_neg hzero, if_neg hzero, Function.update_of_ne hne]

end Contents

end NorthOS.Mkfs
