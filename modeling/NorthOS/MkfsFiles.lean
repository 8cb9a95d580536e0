import NorthOS.Contents
import NorthOS.FreshImage

/-!
The files of an image that mkfs made. Every block that was taken is pointed to, every byte of
a file has a block, and the inodes have the types and the contents of the files of the host.
As the files are small, nothing is behind a double-indirect block.
-/
namespace NorthOS.Mkfs

open LittleEndian Halting Comp Fs Ownership

variable {v w x : Table} {s t u : State} {m n b c j k len off : ℕ} {q : ℕ × Ptr} {p : Ptr}
    {din y : Bytes}

/-- Pointers were only added, each block that was taken has one, and the dinodes changed only
behind their first fields and in front of the double-indirect entry. -/
structure Grown (v w : Table) (s t : State) : Prop where
  more : s.freeblock ≤ t.freeblock
  keeps : ∀ q, pointer v s.img q ≠ 0 → pointer w t.img q = pointer v s.img q
  taken : ∀ b, s.freeblock ≤ b → b < t.freeblock → b ≠ 0 → ∃ q, pointer w t.img q = b
  far : ∀ m, dinAddr (w m) (NDIRECT + 1) = dinAddr (v m) (NDIRECT + 1)
  fields : ∀ m i, i < 8 → w m i = v m i

section Growing

theorem Grown.refl (v : Table) (s : State) : Grown v v s s where
  more := Nat.le_refl _
  keeps := fun _ _ => rfl
  taken := fun _ hlo hhi => absurd hhi (Nat.not_lt.mpr hlo)
  far := fun _ => rfl
  fields := fun _ _ _ => rfl

theorem Grown.trans (h : Grown v w s t) (h' : Grown w x t u) : Grown v x s u where
  more := Nat.le_trans h.more h'.more
  keeps := fun q hq => by
    have hmid := h.keeps q hq
    rw [h'.keeps q (by rwa [hmid]), hmid]
  taken := fun b hlo hhi hb => by
    by_cases hmid : b < t.freeblock
    · obtain ⟨q, hq⟩ := h.taken b hlo hmid hb
      exact ⟨q, by rw [h'.keeps q (by rwa [hq]), hq]⟩
    · exact h'.taken b (Nat.not_lt.mp hmid) hhi hb
  far := fun m => (h'.far m).trans (h.far m)
  fields := fun m i hi => (h'.fields m i hi).trans (h.fields m i hi)

/-- What was mapped stays mapped. -/
theorem Grown.ne_zero (h : Grown v w s t) (hq : pointer v s.img q ≠ 0) : pointer w t.img q ≠ 0 := by
  rwa [h.keeps q hq]

/-- An empty pointer gets the next block. -/
theorem Grown.attach (hempty : pointer v s.img q = 0)
    (hptr : pointer w t.img = Function.update (pointer v s.img) q s.freeblock)
    (hfree : t.freeblock = s.freeblock + 1)
    (hfar : ∀ m, dinAddr (w m) (NDIRECT + 1) = dinAddr (v m) (NDIRECT + 1))
    (hfields : ∀ m i, i < 8 → w m i = v m i) : Grown v w s t := by
  refine ⟨by omega, fun r hr => ?_, fun b hlo hhi _ => ⟨q, ?_⟩, hfar, hfields⟩
  · have hne : r ≠ q := by
      rintro rfl
      exact hr hempty
    rw [hptr, Function.update_of_ne hne]
  · rw [hptr, Function.update_self]
    omega

theorem takeAddr_grown (h : Sound (Function.update v n din) s) (hk : k < NDIRECT + 1) :
    Gives (takeAddr din k s) fun d t =>
      Grown (Function.update v n din) (Function.update v n d) s t := by
  unfold takeAddr
  by_cases hempty : dinAddr din k = 0
  · rw [if_pos hempty]
    refine Ends.bind takeBlock_spec fun b t _ htake => ?_
    obtain ⟨rfl, hlt, rfl⟩ := htake
    have hsize : FSSIZE = 25600 := rfl
    have hvalue : pointer (Function.update v n din) s.img (n, .addr k) = 0 := by
      show dinEntry (Function.update v n din n) k = 0
      rw [Function.update_self, dinEntry, if_pos (Nat.lt_succ_of_lt hk), hempty]
    refine Grown.attach hvalue (pointer_takeAddr (Nat.lt_succ_of_lt hk) hempty
      (h.blank _ (Nat.le_refl _)) (by omega)) rfl (fun m => ?_) fun m i hi => ?_
    · by_cases hm : m = n
      · subst hm
        rw [Function.update_self, Function.update_self, dinAddr_put_other (by omega)]
      · rw [Function.update_of_ne hm, Function.update_of_ne hm]
    · by_cases hm : m = n
      · subst hm
        rw [Function.update_self, Function.update_self, put_other (by omega)]
      · rw [Function.update_of_ne hm, Function.update_of_ne hm]
  · rw [if_neg hempty]
    exact Grown.refl _ s

theorem takeEntry_grown (h : Sound v s) {p₀ : Ptr} (hparent : p.parent = some (p₀, k))
    (hk : k < NINDIRECT) (hc : pointer v s.img (n, p₀) = c) (hc0 : c ≠ 0) :
    Gives (takeEntry c k s) fun _ t => Grown v v s t := by
  obtain ⟨_, hlt⟩ := h.pointer_lt (q := (n, p₀)) (by rw [hc]; exact hc0)
  rw [hc] at hlt
  have hhi := h.hi
  have hcsize : c < FSSIZE := by omega
  unfold takeEntry
  refine Ends.bind rsect_spec fun d u _ hread => ?_
  obtain ⟨rfl, rfl⟩ := hread
  rw [sector_of_lt hcsize]
  by_cases hempty : get (s.img c) (4 * k) 4 = 0
  · rw [if_pos hempty]
    refine Ends.bind takeBlock_spec fun b t _ htake => ?_
    obtain ⟨rfl, _, rfl⟩ := htake
    have hsize : FSSIZE = 25600 := rfl
    have hq : pointer v s.img (n, p) = 0 := by
      rw [pointer_of_parent hparent, hc, word, if_pos ⟨hc0, hk⟩, hempty]
    have hlen : ({ s with freeblock := s.freeblock + 1 } : State).len = FSSIZE := h.len
    refine Ends.bind (wsect_spec hlen hcsize) fun _ u _ hwrite => ?_
    subst hwrite
    exact Grown.attach hq (pointer_takeEntry h.exclusive hparent hk hc hc0 hq
      (h.blank _ (Nat.le_refl _)) (by omega)) rfl (fun _ => rfl) fun _ _ _ => rfl
  · rw [if_neg hempty]
    exact Grown.refl v s

/-- In front of the double-indirect blocks. -/
theorem fileBlock_grown (h : Sound (Function.update v n din) s) {fbn : ℕ}
    (hfbn : fbn < NDIRECT + NINDIRECT) : Gives (fileBlock din fbn s) fun r t =>
      Grown (Function.update v n din) (Function.update v n r.1) s t := by
  unfold fileBlock
  by_cases hd : fbn < NDIRECT
  · rw [if_pos hd]
    refine Ends.bind (takeAddr_grown h (by omega)) fun d t _ htake => ?_
    exact htake
  · rw [if_neg hd, if_pos hfbn]
    have hboth := (takeAddr_spec h (k := NDIRECT) (by omega)).and
      (takeAddr_grown h (k := NDIRECT) (by omega))
    refine Ends.bind hboth fun d t _ htake => ?_
    obtain ⟨⟨htake, hptr, hne⟩, hgrown⟩ := htake
    refine Ends.bind (takeEntry_grown htake.sound (p := .leaf (fbn - NDIRECT)) rfl
      (by omega) hptr hne) fun x u _ hentry => ?_
    exact hgrown.trans hentry

theorem appendLoop_grown {fuel : ℕ} (h : Sound (Function.update v n din) s) (hfuel : len ≤ fuel)
    (hend : off + len ≤ nearBytes) :
    Gives (appendLoop fuel din off y len s) fun r t =>
      Grown (Function.update v n din) (Function.update v n r.1) s t ∧
      ∀ o, off ≤ o → o < off + len →
        pointer (Function.update v n r.1) t.img (n, fbnPlace (o / BSIZE)) ≠ 0 := by
  have hblock : BSIZE = 2048 := rfl
  have hnear : nearBytes = 1069056 := rfl
  have hsmall : NDIRECT + NINDIRECT = 522 := rfl
  induction fuel generalizing din s off y len with
  | zero =>
    obtain rfl : len = 0 := Nat.le_zero.mp hfuel
    exact ⟨Grown.refl _ s, fun o hlo hhi => absurd hhi (Nat.not_lt.mpr hlo)⟩
  | succ fuel ih =>
    unfold appendLoop
    by_cases hlen : 0 < len
    · rw [if_pos hlen]
      refine Ends.bind (Q := fun _ u => s = u ∧ off / BSIZE < MAXFILE)
        (gives_ensure fun hmax => ⟨rfl, of_decide_eq_true hmax⟩) ?_
      rintro _ _ _ ⟨rfl, hmax⟩
      have hfbn : off / BSIZE < NDIRECT + NINDIRECT := by
        rw [hblock]
        omega
      refine Ends.bind ((fileBlock_spec h hmax).and (fileBlock_grown h hfbn)) fun r t _ hfile => ?_
      obtain ⟨⟨htaken, hptr, hx0⟩, hgrown⟩ := hfile
      set n1 := min len ((off / BSIZE + 1) * BSIZE - off) with hn1
      have hdiv := Nat.div_add_mod off BSIZE
      have hmod := Nat.mod_lt off (show 0 < BSIZE by decide)
      rw [Nat.mul_comm] at hdiv
      have hmul : (off / BSIZE + 1) * BSIZE = off / BSIZE * BSIZE + BSIZE := Nat.succ_mul _ _
      refine Ends.bind rsect_spec fun d u _ hread => ?_
      obtain ⟨rfl, rfl⟩ := hread
      obtain ⟨_, hlt⟩ := htaken.sound.pointer_lt (q := (n, fbnPlace (off / BSIZE)))
        (by rw [hptr]; exact hx0)
      rw [hptr] at hlt
      have hhi := htaken.sound.hi
      rw [sector_of_lt (by omega)]
      have hwrites := (htaken.sound.write (y := y) hptr hx0
        (show off - off / BSIZE * BSIZE + n1 ≤ BSIZE by omega)).and
        (wsect_spec htaken.sound.len (b := r.2) (by omega))
      refine Ends.bind hwrites fun _ u _ hwrite => ?_
      obtain ⟨hwrite, hu⟩ := hwrite
      have hsame : pointer (Function.update v n r.1) u.img =
          pointer (Function.update v n r.1) t.img := by
        rw [hu]
        exact pointer_data htaken.sound.exclusive hptr hx0
      have hfree : u.freeblock = t.freeblock := by rw [hu]
      have hput : Grown (Function.update v n r.1) (Function.update v n r.1) t u :=
        ⟨Nat.le_of_eq hfree.symm, fun q _ => by rw [hsame],
          fun b hlo hhi => absurd hhi (by omega), fun _ => rfl, fun _ _ _ => rfl⟩
      refine (ih hwrite.sound (by omega) (by omega)).mono fun r' x hrest => ?_
      obtain ⟨hrest, hmapped⟩ := hrest
      refine ⟨(hgrown.trans hput).trans hrest, fun o hlo hhi => ?_⟩
      by_cases ho : off + n1 ≤ o
      · exact hmapped o ho (by omega)
      · -- the block that was just written
        have hsameBlock : o / BSIZE = off / BSIZE := by
          rw [hblock] at *
          omega
        rw [hsameBlock]
        refine hrest.ne_zero ?_
        rw [hsame, hptr]
        exact hx0
    · rw [if_neg hlen]
      exact ⟨Grown.refl _ s, fun o hlo hhi => absurd hhi (by omega)⟩

end Growing

section Inodes

/-- A dinode that keeps its pointers. -/
theorem pointer_withDinode {d : Bytes} (h : Sound (Function.update (table t.img) n din) t)
    (hn : n < maxInodes) (hd : ∀ k, k < NDIRECT + 2 → dinAddr d k = dinAddr din k) :
    pointer (table (withDinode t.img n d)) (withDinode t.img n d) =
      pointer (Function.update (table t.img) n din) t.img := by
  have hmeta : nmeta = 47 := rfl
  have hdirect : NDIRECT = 10 := rfl
  obtain ⟨_, hlt⟩ := IBLOCK_lt hn
  refine pointer_congr (fun m k hk => ?_) fun q hq => ?_
  · refine (get_table_withDinode hn (by omega)).trans ?_
    by_cases hm : m = n
    · subst hm
      rw [Function.update_self, Function.update_self]
      exact hd k hk
    · rw [Function.update_of_ne hm, Function.update_of_ne hm]
      rfl
  · have hlo := (h.pointer_lt hq).1
    exact Function.update_of_ne (by omega) _ _

theorem iappend_grown (h : Sound (table s.img) s) (hn : n < maxInodes)
    (hend : dinSize (table s.img n) + len ≤ nearBytes) :
    Gives (iappend n y len s) fun _ t => Grown (table s.img) (table t.img) s t ∧
      ∀ o, dinSize (table s.img n) ≤ o → o < dinSize (table s.img n) + len →
        pointer (table t.img) t.img (n, fbnPlace (o / BSIZE)) ≠ 0 := by
  have hdirect : NDIRECT = 10 := rfl
  unfold iappend
  refine Ends.bind (rinode_spec hn) fun d u _ hread => ?_
  obtain ⟨rfl, rfl⟩ := hread
  have hstart : Sound (Function.update (table s.img) n (table s.img n)) s := by
    rw [Function.update_eq_self]
    exact h
  have hspec : Gives (appendLoop len (table s.img n) (dinSize (table s.img n)) y len s) _ :=
    appendLoop_spec hstart (Nat.le_refl len)
  have hboth := hspec.and (appendLoop_grown hstart (Nat.le_refl len) hend)
  refine Ends.bind hboth fun r t _ hloop => ?_
  obtain ⟨⟨_, hstored⟩, hgrown, hmapped⟩ := hloop
  have htable := table_of_low hstored.kept.low
  rw [← htable] at hstored hgrown hmapped
  refine (winode_spec hstored.sound.len hn).mono fun _ u hwrite => ?_
  have himg : u.img = withDinode t.img n (put r.1 8 4 r.2) := by rw [hwrite]
  have hfree : u.freeblock = t.freeblock := by rw [hwrite]
  have haddr : ∀ k, k < NDIRECT + 2 → dinAddr (put r.1 8 4 r.2) k = dinAddr r.1 k :=
    fun k _ => get_put_other (by omega)
  have hptr : pointer (table u.img) u.img =
      pointer (Function.update (table t.img) n r.1) t.img := by
    rw [himg]
    exact pointer_withDinode hstored.sound hn haddr
  rw [htable, Function.update_eq_self] at hgrown
  refine ⟨⟨by rw [hfree]; exact hgrown.more, fun q hq => ?_, fun b hlo hhi hb => ?_, fun m => ?_,
    fun m i hi => ?_⟩, fun o hlo hhi => ?_⟩
  · rw [hptr, htable]
    exact hgrown.keeps q hq
  · rw [hptr, htable]
    exact hgrown.taken b hlo (by omega) hb
  · rw [← hgrown.far m, himg]
    refine (get_table_withDinode hn (by omega)).trans ?_
    rw [htable]
    by_cases hm : m = n
    · subst hm
      rw [Function.update_self, Function.update_self]
      exact haddr _ (by omega)
    · rw [Function.update_of_ne hm, Function.update_of_ne hm]
      rfl
  · rw [← hgrown.fields m i hi, himg]
    refine (table_withDinode hn (by omega)).trans ?_
    rw [htable]
    by_cases hm : m = n
    · subst hm
      rw [Function.update_self, Function.update_self]
      exact put_other (by omega)
    · rw [Function.update_of_ne hm, Function.update_of_ne hm]
  · rw [hptr]
    exact hmapped o (by rwa [htable]) (by rwa [htable])

end Inodes

section Ordered

/-- The type of the inodes that mkfs makes. -/
def madeType (n : ℕ) : ℕ := if n = ROOTINO then T_DIR else T_FILE

/-- An image in the making with what belongs to it: its blocks have pointers, its bytes have
blocks, and no other blocks in front of the inodes were written than the superblock. -/
structure Ordered (s : State) : Prop where
  sound : Sound (table s.img) s
  inodes : s.freeinode ≤ maxInodes
  blank : ∀ n, n = 0 ∨ s.freeinode ≤ n → ∀ i, i < 128 → table s.img n i = 0
  fields : ∀ n, 0 < n → n < s.freeinode → ∀ i, i < 8 → table s.img n i = newDinode (madeType n) i
  far : ∀ n, dinAddr (table s.img n) (NDIRECT + 1) = 0
  taken : ∀ b, nmeta ≤ b → b < s.freeblock → ∃ q, pointer (table s.img) s.img q = b
  mapped : ∀ n o, o < dinSize (table s.img n) → pointer (table s.img) s.img (n, fbnPlace (o / BSIZE)) ≠ 0
  word : s.img 1 = superblockBytes
  log : ∀ b, 2 ≤ b → b < mkfsSuperblock.inodestart → s.img b = fun _ => 0

/-- Bytes behind the end of a file. -/
theorem Ordered.append (h : Ordered s) (hn : 0 < n) (hlt : n < s.freeinode)
    (hend : dinSize (table s.img n) + len ≤ nearBytes) :
    Gives (iappend n y len s) fun _ t => Ordered t ∧ Appended n len y s t := by
  have hnmax : n < maxInodes := Nat.lt_of_lt_of_le hlt h.inodes
  have hmeta : nmeta = 47 := rfl
  have hnear : nearBytes = 1069056 := rfl
  obtain ⟨hilo, _⟩ := IBLOCK_lt hnmax
  refine ((iappend_spec h.sound hnmax).and (iappend_grown h.sound hnmax hend)).mono
    fun _ t hboth => ?_
  obtain ⟨happ, hgrown, hmapped⟩ := hboth
  refine ⟨⟨happ.sound, by rw [happ.freeinode]; exact h.inodes, fun m hm i hi => ?_,
    fun m hpos hm i hi => ?_,
    fun m => (hgrown.far m).trans (h.far m), fun b hlo hhi => ?_, fun m o ho => ?_, ?_,
    fun b hlo hhi => ?_⟩, happ⟩
  · rw [happ.freeinode] at hm
    rw [happ.others m (by omega) i hi]
    exact h.blank m hm i hi
  · rw [happ.freeinode] at hm
    rw [hgrown.fields m i hi]
    exact h.fields m hpos hm i hi
  · by_cases hold : b < s.freeblock
    · obtain ⟨q, hq⟩ := h.taken b hlo hold
      refine ⟨q, ?_⟩
      rw [hgrown.keeps q (by omega), hq]
    · exact hgrown.taken b (by omega) hhi (by omega)
  · by_cases hm : m = n
    · subst hm
      rw [happ.size, Nat.mod_eq_of_lt (by omega)] at ho
      by_cases hold : o < dinSize (table s.img m)
      · exact hgrown.ne_zero (h.mapped m o hold)
      · exact hmapped o (by omega) ho
    · have hsize : dinSize (table t.img m) = dinSize (table s.img m) :=
        get_congr fun i _ hi => happ.others m hm i (by omega)
      rw [hsize] at ho
      exact hgrown.ne_zero (h.mapped m o ho)
  · rw [happ.low 1 (by omega) (by omega)]
    exact h.word
  · have hstart : mkfsSuperblock.inodestart = 32 := rfl
    rw [happ.low b (by omega) (by omega)]
    exact h.log b hlo hhi

theorem newDinode_rest {type i : ℕ} (hi : 8 ≤ i) : newDinode type i = 0 := by
  unfold newDinode
  rw [put_other (by omega), put_other (by omega)]

/-- A new inode has no bytes. -/
theorem Ordered.ialloc (h : Ordered s) (hlt : s.freeinode < maxInodes) (hpos : 0 < s.freeinode) :
    Gives (ialloc (madeType s.freeinode) s) fun r t => r = s.freeinode ∧ Ordered t ∧
      t.freeinode = s.freeinode + 1 ∧ dinSize (table t.img s.freeinode) = 0 ∧
      (∀ m, m ≠ s.freeinode → ∀ i, i < 128 → table t.img m i = table s.img m i) ∧
      ∀ m o, fileByte (table t.img) t.img m o = fileByte (table s.img) s.img m o := by
  have hmeta : nmeta = 47 := rfl
  have hdirect : NDIRECT = 10 := rfl
  have hstart : mkfsSuperblock.inodestart = 32 := rfl
  obtain ⟨hilo, hihi⟩ := IBLOCK_lt hlt
  unfold Mkfs.ialloc
  refine Ends.bind (Q := fun r u => s.freeinode = r ∧ s = u) ⟨rfl, rfl⟩ ?_
  rintro _ _ _ ⟨rfl, rfl⟩
  set s₁ : State := { s with freeinode := s.freeinode + 1, handed := s.freeinode :: s.handed } with hs₁
  have hlen₁ : s₁.len = FSSIZE := h.sound.len
  refine Ends.bind (Q := fun _ u => s₁ = u) (ends_update.mpr rfl) ?_
  rintro _ _ _ rfl
  refine Ends.bind (winode_spec hlen₁ hlt) fun _ t _ hwrite => ?_
  have himg : t.img = withDinode s.img s.freeinode
      (newDinode (madeType s.freeinode)) := by rw [hwrite]
  have hfree : t.freeinode = s.freeinode + 1 := by rw [hwrite]
  have hblocks : t.freeblock = s.freeblock := by rw [hwrite]
  have hblock : ∀ b, b ≠ IBLOCK s.freeinode mkfsSuperblock → t.img b = s.img b := by
    intro b hb
    rw [himg]
    exact Function.update_of_ne hb _ _
  have hself : ∀ i, i < 128 → table t.img s.freeinode i = newDinode (madeType s.freeinode) i := by
    intro i hi
    rw [himg, table_withDinode hlt hi, Function.update_self]
  have hothers : ∀ m, m ≠ s.freeinode → ∀ i, i < 128 → table t.img m i = table s.img m i := by
    intro m hm i hi
    rw [himg, table_withDinode hlt hi, Function.update_of_ne hm]
  have hrest : ∀ o len', 8 ≤ o → o + len' ≤ 128 → get (table t.img s.freeinode) o len' = 0 := by
    intro o len' ho hend
    refine get_zero fun i hlo hhi => ?_
    rw [hself i (by omega)]
    exact newDinode_rest (by omega)
  have haddr : ∀ m k, k < NDIRECT + 2 → dinAddr (table t.img m) k = dinAddr (table s.img m) k := by
    intro m k hk
    by_cases hm : m = s.freeinode
    · have hold : dinAddr (table s.img m) k = 0 :=
        get_zero fun i _ hi => h.blank m (Or.inr (Nat.le_of_eq hm.symm)) i (by omega)
      rw [hold, hm]
      exact hrest _ _ (by omega) (by omega)
    · exact get_congr fun i _ hi => hothers m hm i (by omega)
  have hhigh : ∀ q, pointer (table s.img) s.img q ≠ 0 →
      t.img (pointer (table s.img) s.img q) = s.img (pointer (table s.img) s.img q) := by
    intro q hq
    have hlo := (h.sound.pointer_lt hq).1
    exact hblock _ (by omega)
  have hptr : pointer (table t.img) t.img = pointer (table s.img) s.img := pointer_congr haddr hhigh
  obtain ⟨hsound, hbytes⟩ := h.sound.table_congr (t := t) haddr (by rw [hwrite]) hblocks
    fun b hb => hblock b (by omega)
  refine ⟨rfl, ⟨hsound, by rw [hfree]; exact hlt, fun m hm i hi => ?_, fun m hm hlt' i hi => ?_,
    fun m => ?_,
    fun b hlo hhi => ?_, fun m o ho => ?_, ?_, fun b hlo hhi => ?_⟩, hfree, hrest _ _ (by omega)
    (by omega), hothers, hbytes⟩
  · rw [hfree] at hm
    rw [hothers m (by omega) i hi]
    exact h.blank m (by omega) i hi
  · by_cases hnew : m = s.freeinode
    · rw [hnew]
      exact hself i (by omega)
    · rw [hothers m hnew i (by omega)]
      exact h.fields m hm (by omega) i hi
  · rw [haddr m _ (by omega)]
    exact h.far m
  · rw [hptr]
    exact h.taken b hlo (by omega)
  · rw [hptr]
    by_cases hnew : m = s.freeinode
    · have hsize : dinSize (table t.img m) = 0 := by
        rw [hnew]
        exact hrest _ _ (by omega) (by omega)
      omega
    · have hsize : dinSize (table t.img m) = dinSize (table s.img m) :=
        get_congr fun i _ hi => hothers m hnew i (by omega)
      exact h.mapped m o (by omega)
  · rw [hblock 1 (by omega)]
    exact h.word
  · rw [hblock b (by omega)]
    exact h.log b hlo hhi

end Ordered

section Contents

variable {c d buf : List UInt8} {cs : List (List UInt8)} {es : List (ℕ × Name)}
    {files : List HostFile}

/-- What read returns for a file, up to its end. -/
def copied : List (List UInt8) → List UInt8
  | [] => []
  | buf :: rest => if buf = [] then [] else buf ++ copied rest

/-- The contents of the files that are not too large. -/
def contents (files : List HostFile) : List (List UInt8) := (files.filter accepted).map fun f => copied f.reads

/-- File `n` consists of these bytes. -/
structure Holds (s : State) (n : ℕ) (text : List UInt8) : Prop where
  size : dinSize (table s.img n) = text.length
  bytes : ∀ o (ho : o < text.length), fileByte (table s.img) s.img n o = text[o]

/-- The files from inode 2 on. -/
structure Filled (cs : List (List UInt8)) (s : State) : Prop where
  count : s.freeinode = cs.length + 2
  holds : ∀ k c, cs[k]? = some c → Holds s (k + 2) c

theorem Holds.congr (h : Holds s n c) (hsize : dinSize (table t.img n) = dinSize (table s.img n))
    (hbytes : ∀ o, fileByte (table t.img) t.img n o = fileByte (table s.img) s.img n o) :
    Holds t n c :=
  ⟨hsize.trans h.size, fun o ho => (hbytes o).trans (h.bytes o ho)⟩

theorem Holds.append (h : Holds s n c) (hlen : c.length + buf.length ≤ nearBytes)
    (happ : Appended n buf.length (fun i => buf.getD i 0) s t) : Holds t n (c ++ buf) := by
  have hnear : nearBytes = 1069056 := rfl
  refine ⟨?_, fun o ho => ?_⟩
  · rw [happ.size, h.size, List.length_append]
    exact Nat.mod_eq_of_lt (by omega)
  · rw [List.length_append] at ho
    rw [happ.bytes, h.size]
    by_cases hold : o < c.length
    · rw [if_neg (by omega), List.getElem_append_left hold]
      exact h.bytes o hold
    · rw [if_pos ⟨rfl, by omega, ho⟩, List.getElem_append_right (Nat.not_lt.mp hold)]
      exact List.getD_eq_getElem _ _ (by omega)

/-- Other files keep their bytes. -/
theorem Holds.away (h : Holds s m d) (hm : m ≠ n) (happ : Appended n len y s t) : Holds t m d := by
  refine h.congr (get_congr fun i _ hi => happ.others m hm i (by omega)) fun o => ?_
  rw [happ.bytes, if_neg fun hc => hm hc.1]

theorem Ordered.copyFile {reads : List (List UInt8)} (h : Ordered s) (hn : 0 < n)
    (hlt : n < s.freeinode)
    (hc : Holds s n c) (hend : c.length + (copied reads).length ≤ nearBytes) :
    Gives (copyFile n reads s) fun _ t => Ordered t ∧ Holds t n (c ++ copied reads) ∧
      t.freeinode = s.freeinode ∧ ∀ m d, m ≠ n → Holds s m d → Holds t m d := by
  induction reads generalizing s c with
  | nil =>
    refine ⟨h, ?_, rfl, fun _ _ _ hd => hd⟩
    rwa [copied, List.append_nil]
  | cons buf rest ih =>
    unfold Mkfs.copyFile
    by_cases hbuf : buf = []
    · rw [if_pos hbuf, copied, if_pos hbuf, List.append_nil]
      exact ⟨h, hc, rfl, fun _ _ _ hd => hd⟩
    · rw [copied, if_neg hbuf] at hend ⊢
      rw [if_neg hbuf]
      rw [List.length_append] at hend
      refine Ends.bind (h.append hn hlt (by rw [hc.size]; omega)) fun _ t _ hcopy => ?_
      obtain ⟨hordered, happ⟩ := hcopy
      have hcopied := hc.append (by omega) happ
      have hfree := happ.freeinode
      refine (ih hordered (by omega) hcopied (by rw [List.length_append]; omega)).mono
        fun _ u hrest => ?_
      obtain ⟨hu, hholds, hufree, hothers⟩ := hrest
      rw [List.append_assoc] at hholds
      exact ⟨hu, hholds, hufree.trans hfree, fun m d hm hd => hothers m d hm (hd.away hm happ)⟩

theorem contents_cons {f : HostFile} : contents (f :: files) = contents [f] ++ contents files := by
  unfold contents
  rw [← List.map_append, ← List.filter_append]
  rfl

theorem Filled.addFile {f : HostFile} (h : Filled cs s) (ho : Ordered s) (hb : Built es s)
    (hlen : direntSize * (es.length + 1) ≤ nearBytes) (hlt : accepted f → s.freeinode < maxInodes)
    (hsmall : accepted f → (copied f.reads).length ≤ nearBytes) :
    Gives (addFile ROOTINO f s) fun _ t => Ordered t ∧ Filled (cs ++ contents [f]) t := by
  have hroot : ROOTINO = 1 := rfl
  have hcount := h.count
  unfold Mkfs.addFile
  refine Ends.bind (Q := fun _ u => s = u) (gives_ensure fun _ => rfl) ?_
  rintro _ _ _ rfl
  by_cases hf : accepted f
  · have hcontents : contents [f] = [copied f.reads] := by
      rw [contents, List.filter_cons_of_pos hf]
      rfl
    have hmax := hlt hf
    have hlength := hsmall hf
    rw [hcontents]
    unfold accepted at hf
    cases hstat : f.stat with
    | none =>
      rw [hstat] at hf
      cases hf
    | some size =>
      rw [hstat] at hf
      have hle := of_decide_eq_true hf
      dsimp only
      rw [if_neg (by omega)]
      have hnew := ho.ialloc hmax (by omega)
      have htype : madeType s.freeinode = T_FILE := if_neg (by omega)
      rw [htype] at hnew
      refine Ends.bind (hnew.and (hb.ialloc hmax (Or.inl (by omega)))) fun r t _ hboth => ?_
      obtain ⟨⟨rfl, hot, htfree, hempty, hothers, hbytes⟩, _, hbt, _⟩ := hboth
      -- the files that were there keep their bytes, and the new one has none
      have hold : ∀ m d, m ≠ s.freeinode → Holds s m d → Holds t m d := fun m d hm hd =>
        hd.congr (get_congr fun i _ hi => hothers m hm i (by omega)) (hbytes m)
      have hnil : Holds t s.freeinode [] := ⟨hempty, fun o hlt => absurd hlt (Nat.not_lt_zero o)⟩
      have hrootsize : dinSize (table t.img ROOTINO) + direntSize ≤ nearBytes := by
        rw [hbt.size, ← Nat.mul_succ]
        exact hlen
      refine Ends.bind (hot.append (by omega) (by omega) hrootsize) fun _ u _ hentry => ?_
      obtain ⟨hou, happ⟩ := hentry
      have hufree := happ.freeinode
      have hnil' := hnil.away (show s.freeinode ≠ ROOTINO by omega) happ
      refine (hou.copyFile (by omega) (by omega) hnil' (by rw [List.length_nil]; omega)).mono
        fun _ w hcopy => ?_
      obtain ⟨how, hholds, hwfree, haway⟩ := hcopy
      rw [List.nil_append] at hholds
      refine ⟨how, ⟨?_, fun k d hk => ?_⟩⟩
      · rw [List.length_append, List.length_singleton]
        omega
      · by_cases hlast : k < cs.length
        · rw [List.getElem?_append_left hlast] at hk
          have hkept := hold (k + 2) d (by omega) (h.holds k d hk)
          exact haway _ _ (by omega) (hkept.away (by omega) happ)
        · rw [List.getElem?_append_right (Nat.not_lt.mp hlast), List.getElem?_singleton] at hk
          split at hk
          · have hkeq : k + 2 = s.freeinode := by omega
            rw [hkeq, ← Option.some.inj hk]
            exact hholds
          · cases hk
  · have hcontents : contents [f] = [] := by
      rw [contents, List.filter_cons_of_neg hf]
      rfl
    rw [hcontents, List.append_nil]
    unfold accepted at hf
    cases hstat : f.stat with
    | none => exact id
    | some size =>
      rw [hstat] at hf
      have hlarge : ¬ size ≤ MAXFILE * BSIZE := fun hle => hf (decide_eq_true hle)
      dsimp only
      rw [if_pos (by omega)]
      exact ⟨ho, h⟩

theorem Filled.addFiles (h : Filled cs s) (ho : Ordered s) (hb : Built es s)
    (hes : es.length = s.freeinode) (hlt : s.freeinode + files.countP accepted ≤ maxInodes)
    (hsmall : ∀ f ∈ files, accepted f → (copied f.reads).length ≤ nearBytes) :
    Gives (addFiles ROOTINO files s) fun _ t => Ordered t ∧ Filled (cs ++ contents files) t := by
  have hmax : maxInodes = 208 := rfl
  have hsixteen : direntSize = 16 := rfl
  have hnear : nearBytes = 1069056 := rfl
  have hroot : ROOTINO = 1 := rfl
  induction files generalizing s es cs with
  | nil =>
    refine ⟨ho, ?_⟩
    rw [contents, List.filter_nil, List.map_nil, List.append_nil]
    exact h
  | cons f fs ih =>
    unfold Mkfs.addFiles
    have hfree := h.count
    have hcount : (f :: fs).countP accepted = fs.countP accepted + if accepted f then 1 else 0 :=
      List.countP_cons
    have hinode : accepted f → s.freeinode < maxInodes := fun hf => by
      rw [if_pos hf] at hcount
      omega
    have hbound : direntSize * (es.length + 1) ≤ nearBytes := by
      rw [hsixteen]
      omega
    have hfirst := h.addFile ho hb hbound hinode (hsmall f List.mem_cons_self)
    have hbuilt := hb.addFile (by omega) (by rw [hsixteen]; omega) hinode
    refine Ends.bind (hfirst.and hbuilt) fun _ t _ hadd => ?_
    obtain ⟨⟨hot, hft⟩, hbt, htfree⟩ := hadd
    rw [contents_cons, ← List.append_assoc]
    refine ih hft hot hbt ?_ (by omega) fun g hg => hsmall g (List.mem_cons_of_mem f hg)
    rw [List.length_append, fileEntries_length, htfree, hes]
    congr 1
    exact List.countP_cons.trans (Nat.zero_add _)

end Contents

section Whole

variable {cs : List (List UInt8)} {es : List (ℕ × Name)} {files : List HostFile}
    {image : Option Bool}

/-- The image in front of the first inode. -/
theorem ordered_nil (hb : Built [] s) (himg : ∀ b, b ≠ 1 → s.img b = fun _ => 0)
    (hone : s.img 1 = superblockBytes) (hblock : s.freeblock = nmeta) (hfree : s.freeinode = 1) :
    Ordered s := by
  have hzero : ∀ n i, i < 128 → table s.img n i = 0 := by
    intro n i hi
    by_cases hn : n = 0
    · obtain ⟨hlo, _⟩ := IBLOCK_lt (show 0 < maxInodes by decide)
      rw [hn, table, if_pos (by decide), himg _ (by omega)]
    · exact hb.blank n (by omega) i hi
  have hdirect : NDIRECT = 10 := rfl
  have hget : ∀ n o len', o + len' ≤ 128 → get (table s.img n) o len' = 0 := fun n o len' hend =>
    get_zero fun i _ hi => hzero n i (by omega)
  refine ⟨hb.sound, hb.inodes, fun n _ => hzero n, fun n hpos hlt => absurd hlt (by omega),
    fun n => hget n _ _ (by omega), fun b hlo hhi => absurd hhi (by omega), fun n o ho => ?_, hone,
    fun b hlo _ => himg b (by omega)⟩
  have hsize : dinSize (table s.img n) = 0 := hget n _ _ (by omega)
  omega

theorem format_ordered (himg : s.img = fun _ _ => 0) (hlen : s.len = 0) (hfree : s.freeinode = 1)
    (hwritten : s.written = []) : Gives (format s) fun _ t => Ordered t ∧ Filled [] t := by
  have hmax : maxInodes = 208 := rfl
  have hroot : ROOTINO = 1 := rfl
  rw [format_eq himg hlen]
  unfold makeRoot
  have hulen : (cleared s).len = FSSIZE := rfl
  refine Ends.bind (wsect_spec hulen (by decide)) fun _ w _ hw => ?_
  have hwimg : ∀ b, b ≠ 1 → w.img b = fun _ => 0 := by
    intro b hb
    rw [hw]
    show Function.update s.img 1 _ b = _
    rw [Function.update_of_ne hb, himg]
  have hone : w.freeinode = 1 := by
    rw [hw]
    exact hfree
  have hwone : w.img 1 = superblockBytes := by
    rw [hw]
    exact Function.update_self (β := fun _ => Bytes) 1 _ s.img
  have hbuilt : Built [] w := built_nil hwimg (by rw [hw]; rfl) (by rw [hw]; rfl) hone
      (by rw [hw]; exact hwritten)
  have hordered : Ordered w := ordered_nil hbuilt hwimg hwone
    (by rw [hw]; rfl) hone
  have hnew := hordered.ialloc (by omega) (by omega)
  have htype : madeType w.freeinode = T_DIR := if_pos (by omega)
  rw [htype] at hnew
  refine Ends.bind hnew fun r x _ hx => ?_
  obtain ⟨rfl, hx, hxfree, hxsize, _, _⟩ := hx
  have hxfree' : x.freeinode = 2 := by omega
  rw [hone] at hxsize
  rw [hone]
  refine Ends.bind (Q := fun _ y => x = y) (gives_ensure fun _ => rfl) ?_
  rintro _ _ _ rfl
  have hfirst : dinSize (table x.img ROOTINO) + direntSize ≤ nearBytes := by
    rw [hroot, hxsize]
    decide
  refine Ends.bind (hx.append (by omega) (by omega) hfirst) fun _ y _ hy => ?_
  obtain ⟨hy, hdot⟩ := hy
  have hyfree := hdot.freeinode
  have hysize := hdot.size
  rw [hxsize] at hysize
  have hsecond : dinSize (table y.img ROOTINO) + direntSize ≤ nearBytes := by
    rw [hroot, hysize]
    decide
  refine Ends.bind (hy.append (by omega) (by omega) hsecond) fun _ z _ hz => ?_
  obtain ⟨hz, hdotdot⟩ := hz
  have hzfree := hdotdot.freeinode
  exact ⟨hz, ⟨by rw [List.length_nil]; omega, fun k c hk => by cases hk⟩⟩

/-- The end of main writes the size of the root directory and the first block of the bitmap. -/
theorem finish_frame (hlen : s.len = FSSIZE) : Gives (finish ROOTINO s) fun _ t =>
    t.freeblock = s.freeblock ∧ t.freeinode = s.freeinode ∧ t.freeblock < BPB ∧
      (∀ b, b ≠ IBLOCK ROOTINO mkfsSuperblock → b ≠ mkfsSuperblock.bmapstart → t.img b = s.img b) ∧
      ∀ m i, i < 128 → m ≠ ROOTINO ∨ i < 8 ∨ 12 ≤ i → table t.img m i = table s.img m i := by
  have hroot : ROOTINO < maxInodes := by decide
  unfold Mkfs.finish
  refine Ends.bind (rinode_spec hroot) fun d u _ hread => ?_
  obtain ⟨rfl, rfl⟩ := hread
  generalize (dinSize (table s.img ROOTINO) / BSIZE + 1) * BSIZE = off
  refine Ends.bind (winode_spec hlen hroot) fun _ t _ hwrite => ?_
  refine Ends.bind (Q := fun used u => t.freeblock = used ∧ t = u) ⟨rfl, rfl⟩ ?_
  rintro _ _ _ ⟨rfl, rfl⟩
  unfold balloc
  refine Ends.bind (Q := fun _ u => t = u ∧ t.freeblock < BSIZE * 8)
    (gives_ensure fun hused => ⟨rfl, of_decide_eq_true hused⟩) ?_
  rintro _ _ _ ⟨rfl, hused⟩
  have htlen : t.len = FSSIZE := by
    rw [hwrite]
    exact hlen
  refine (wsect_spec htlen (by decide)).mono fun _ u hmark => ?_
  subst hmark hwrite
  refine ⟨rfl, rfl, hused, fun b hi hb => ?_, fun m i hi hm => ?_⟩
  · exact (Function.update_of_ne hb _ _).trans (Function.update_of_ne hi _ _)
  · have htable : table (Function.update
        (withDinode s.img ROOTINO (put (table s.img ROOTINO) 8 4 off))
        mkfsSuperblock.bmapstart (marked s.freeblock)) m i =
        table (withDinode s.img ROOTINO (put (table s.img ROOTINO) 8 4 off)) m i := by
      unfold table
      by_cases hmax : m < maxInodes
      · obtain ⟨_, hlt⟩ := IBLOCK_lt hmax
        rw [if_pos hmax, if_pos hmax, Function.update_of_ne (by rw [bmapstart_eq]; omega)]
      · rw [if_neg hmax, if_neg hmax]
    refine htable.trans ((table_withDinode hroot hi).trans ?_)
    by_cases hmr : m = ROOTINO
    · rw [hmr, Function.update_self]
      exact put_other (by omega)
    · rw [Function.update_of_ne hmr]

/-- What main leaves: the root directory with the entries `es`, and the files `cs`. -/
structure Image (es : List (ℕ × Name)) (cs : List (List UInt8)) (t : State) : Prop where
  finished : Finished es t
  inodes : t.freeinode ≤ maxInodes
  blocks : t.freeblock < BPB
  blank : ∀ n, n = 0 ∨ t.freeinode ≤ n → ∀ i, i < 128 → table t.img n i = 0
  fields : ∀ n, 0 < n → n < t.freeinode → ∀ i, i < 8 → table t.img n i = newDinode (madeType n) i
  far : ∀ n, dinAddr (table t.img n) (NDIRECT + 1) = 0
  taken : ∀ b, nmeta ≤ b → b < t.freeblock → ∃ q, pointer (table t.img) t.img q = b
  mapped : ∀ n o, o < (if n = ROOTINO then direntSize * es.length else dinSize (table t.img n)) →
    pointer (table t.img) t.img (n, fbnPlace (o / BSIZE)) ≠ 0
  word : t.img 1 = superblockBytes
  log : ∀ b, 2 ≤ b → b < mkfsSuperblock.inodestart → t.img b = fun _ => 0
  filled : Filled cs t

theorem Ordered.finish (h : Ordered s) (hb : Built es s) (hf : Filled cs s)
    (hlen : es.length < 2 ^ 16) : Gives (finish ROOTINO s) fun _ t => Image es cs t := by
  have hdirect : NDIRECT = 10 := rfl
  have hmeta : nmeta = 47 := rfl
  have hstart : mkfsSuperblock.inodestart = 32 := rfl
  obtain ⟨hilo, hihi⟩ := IBLOCK_lt (show ROOTINO < maxInodes by decide)
  refine ((hb.finish hlen).and (finish_frame h.sound.len)).mono fun _ t hboth => ?_
  obtain ⟨hfinished, hblock, hfree, hblocks, himg, htable⟩ := hboth
  rw [bmapstart_eq] at himg
  have haddr : ∀ m k, k < NDIRECT + 2 → dinAddr (table t.img m) k = dinAddr (table s.img m) k :=
    fun m k hk => get_congr fun i hlo hhi => htable m i (by omega) (by omega)
  have hhigh : ∀ b, nmeta ≤ b → t.img b = s.img b := fun b hb => himg b (by omega) (by omega)
  have hptr : pointer (table t.img) t.img = pointer (table s.img) s.img :=
    pointer_congr haddr fun q hq => hhigh _ (h.sound.pointer_lt hq).1
  have hbytes : ∀ m o, fileByte (table t.img) t.img m o = fileByte (table s.img) s.img m o :=
    fun m o => fileByte_congr hptr fun q hq => hhigh _ (h.sound.pointer_lt hq).1
  have hsize : ∀ m, m ≠ ROOTINO → dinSize (table t.img m) = dinSize (table s.img m) :=
    fun m hm => get_congr fun i _ hhi => htable m i (by omega) (Or.inl hm)
  have hroot : ROOTINO = 1 := rfl
  have hcount := hf.count
  refine ⟨hfinished, by rw [hfree]; exact h.inodes, hblocks, fun n hn i hi => ?_,
    fun n hpos hlt i hi => ?_,
    fun n => (haddr n _ (by omega)).trans (h.far n), fun b hlo hhi => ?_, fun n o ho => ?_, ?_,
    fun b hlo hhi => ?_, ⟨by rw [hfree]; exact hcount, fun k c hk => ?_⟩⟩
  · rw [hfree] at hn
    rw [htable n i hi (Or.inl (by omega))]
    exact h.blank n hn i hi
  · rw [htable n i (by omega) (by omega)]
    exact h.fields n hpos (by omega) i hi
  · rw [hptr]
    exact h.taken b hlo (by omega)
  · rw [hptr]
    apply h.mapped
    by_cases hn : n = ROOTINO
    · rw [if_pos hn] at ho
      rw [hn, hb.size]
      exact ho
    · rw [if_neg hn, hsize n hn] at ho
      exact ho
  · rw [himg 1 (by omega) (by omega)]
    exact h.word
  · rw [himg b (by omega) (by omega)]
    exact h.log b hlo hhi
  · exact (hf.holds k c hk).congr (hsize _ (by omega)) (hbytes _)

/-- The entries of the root directory. -/
def rootEntries (files : List HostFile) : List (ℕ × Name) :=
  [(ROOTINO, dot), (ROOTINO, dotdot)] ++ fileEntries 2 files

theorem main_image (hcount : files.countP accepted + 2 ≤ maxInodes)
    (hsmall : ∀ f ∈ files, accepted f → (copied f.reads).length ≤ nearBytes) :
    Gives (main image files start) fun _ t => Image (rootEntries files) (contents files) t := by
  have hmax : maxInodes = 208 := rfl
  have hroot : ROOTINO = 1 := rfl
  have hensure : ∀ b : Bool, Gives ((ensure (fun _ => b) .exit : M Unit) start) fun _ u =>
      start = u :=
    fun b => gives_ensure fun _ => rfl
  unfold main
  refine Ends.bind (hensure _) ?_
  rintro _ _ _ rfl
  refine Ends.bind (hensure _) ?_
  rintro _ _ _ rfl
  refine Ends.bind ((format_built rfl rfl rfl rfl).and (format_ordered rfl rfl rfl rfl))
    fun r t _ hformat => ?_
  obtain ⟨⟨rfl, hbuilt, hfree⟩, hordered, hfilled⟩ := hformat
  have hentries : [(ROOTINO, dot), (ROOTINO, dotdot)] ++ fileEntries t.freeinode files =
      rootEntries files := by
    rw [hfree]
    rfl
  have hadd := (hbuilt.addFiles (by omega) (by rw [hfree]; rfl)
    (show t.freeinode + files.countP accepted ≤ maxInodes by omega)).and
    (hfilled.addFiles hordered hbuilt (by rw [hfree]; rfl) (by omega) hsmall)
  refine Ends.bind hadd fun _ u _ hall => ?_
  obtain ⟨hub, huo, huf⟩ := hall
  rw [hentries] at hub
  rw [List.nil_append] at huf
  refine huo.finish hub huf ?_
  rw [rootEntries, List.length_append, fileEntries_length]
  show 2 + files.countP accepted < 2 ^ 16
  omega

end Whole

end NorthOS.Mkfs
