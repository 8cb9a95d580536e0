import NorthOS.ImagePointers

/-!
What mkfs makes of its arguments. iappend puts bytes behind the end of one file and leaves
every other file; the pointers of the image stay exclusive as long as the dinodes lie in
front of the bitmap.
-/
namespace NorthOS.Mkfs

open LittleEndian Halting Comp Fs Ownership

variable {v w : Table} {s t u : State} {m n b c j k : ℕ} {q : ℕ × Ptr} {p : Ptr} {din : Bytes}

/-- The pointers are exclusive, and the blocks that were not taken are empty. -/
structure Sound (v : Table) (s : State) : Prop where
  len : s.len = FSSIZE
  lo : nmeta ≤ s.freeblock
  hi : s.freeblock ≤ FSSIZE
  exclusive : Exclusive v s.img s.freeblock
  blank : ∀ b, s.freeblock ≤ b → s.img b = fun _ => 0

/-- No inode was handed out or written. -/
structure Kept (s t : State) : Prop where
  freeinode : t.freeinode = s.freeinode
  handed : t.handed = s.handed
  written : t.written = s.written
  low : ∀ b, b < nmeta → t.img b = s.img b

theorem Kept.refl (s : State) : Kept s s := ⟨rfl, rfl, rfl, fun _ _ => rfl⟩

theorem Kept.trans (h : Kept s t) (h' : Kept t u) : Kept s u where
  freeinode := h'.freeinode.trans h.freeinode
  handed := h'.handed.trans h.handed
  written := h'.written.trans h.written
  low := fun b hb => (h'.low b hb).trans (h.low b hb)

/-- Pointers may have been given blocks; no byte of a file changed. -/
structure Taken (v w : Table) (s t : State) : Prop where
  sound : Sound w t
  kept : Kept s t
  bytes : ∀ m o, fileByte w t.img m o = fileByte v s.img m o

theorem Taken.trans {x : Table} (h : Taken v w s t) (h' : Taken w x t u) : Taken v x s u where
  sound := h'.sound
  kept := h.kept.trans h'.kept
  bytes := fun m o => (h'.bytes m o).trans (h.bytes m o)

section Taking

theorem size_eq : nmeta + nblocks = FSSIZE := by decide

theorem sector_of_lt (h : b < FSSIZE) : sector b = b := by
  have hsize : FSSIZE = 25600 := rfl
  exact Nat.mod_eq_of_lt (by omega)

theorem Sound.pointer_lt (h : Sound v s) (hq : pointer v s.img q ≠ 0) :
    nmeta ≤ pointer v s.img q ∧ pointer v s.img q < s.freeblock := (h.exclusive.inside q hq).1

/-- A sector that the image has is read. -/
theorem rsect_spec : Gives (rsect b s) fun d t => d = s.img (sector b) ∧ s = t := by
  refine gives_iff.mpr fun d t hrun => ?_
  obtain ⟨_, s₁, h₁, hrun⟩ := bind_ok.mp hrun
  obtain ⟨_, rfl⟩ := ensure_ok.mp h₁
  obtain ⟨hd, rfl⟩ := look_ok.mp hrun
  exact ⟨hd.symm, rfl⟩

theorem wsect_spec (hlen : s.len = FSSIZE) (hb : b < FSSIZE) {y : Bytes} :
    Gives (wsect b y s) fun _ t => t = { s with img := Function.update s.img b y } := by
  have hmax : max s.len (b + 1) = s.len := by
    rw [hlen]
    exact Nat.max_eq_left hb
  show State.mk _ _ _ _ _ _ = _
  rw [sector_of_lt hb, hmax]

theorem takeBlock_spec : Gives (takeBlock s) fun b t =>
    b = s.freeblock ∧ b < FSSIZE ∧ t = { s with freeblock := b + 1 } := by
  refine gives_iff.mpr fun b t hrun => ?_
  obtain ⟨b', s₁, h₁, hrun⟩ := bind_ok.mp hrun
  obtain ⟨rfl, rfl⟩ := look_ok.mp h₁
  obtain ⟨_, s₂, h₂, hrun⟩ := bind_ok.mp hrun
  obtain ⟨hlt, rfl⟩ := ensure_ok.mp h₂
  obtain ⟨_, s₃, h₃, hrun⟩ := bind_ok.mp hrun
  have hs₃ := update_ok.mp h₃
  obtain ⟨rfl, rfl⟩ := pure_ok.mp hrun
  have hlt' := of_decide_eq_true hlt
  rw [size_eq] at hlt'
  exact ⟨rfl, hlt', hs₃.symm⟩

/-- The next block becomes that of an empty pointer. -/
theorem Exclusive.attach {img img' : ℕ → Bytes} (h : Exclusive v img b) (hlo : nmeta ≤ b)
    (hp : pointer w img' = Function.update (pointer v img) q b) : Exclusive w img' (b + 1) := by
  have hwide : Owned (fun x => nmeta ≤ x ∧ x < b + 1) (pointer v img) fun x => decide (x < b) :=
    ⟨fun r hr => ⟨⟨(h.inside r hr).1.1, Nat.lt_succ_of_lt (h.inside r hr).1.2⟩, (h.inside r hr).2⟩,
      h.once⟩
  have hnew := hwide.attach (p := q) ⟨hlo, Nat.lt_succ_self b⟩ (decide_eq_false (Nat.lt_irrefl b))
  have hused : Function.update (fun x => decide (x < b)) b true = fun x => decide (x < b + 1) := by
    funext x
    by_cases hx : x = b
    · subst hx
      simp
    · rw [Function.update_of_ne hx, decide_eq_decide]
      omega
  rw [hused, ← hp] at hnew
  exact hnew

/-- A pointer of a dinode that had no block gets one. -/
theorem takeAddr_spec (h : Sound (Function.update v n din) s) (hk : k < NDIRECT + 2) :
    Gives (takeAddr din k s) fun d t =>
      Taken (Function.update v n din) (Function.update v n d) s t ∧
      pointer (Function.update v n d) t.img (n, .addr k) = dinAddr d k ∧ dinAddr d k ≠ 0 := by
  have hvalue : ∀ d img, pointer (Function.update v n d) img (n, .addr k) = dinAddr d k := by
    intro d img
    show dinEntry (Function.update v n d n) k = _
    rw [Function.update_self, dinEntry, if_pos hk]
  unfold takeAddr
  by_cases hempty : dinAddr din k = 0
  · rw [if_pos hempty]
    refine Ends.bind takeBlock_spec fun b t _ htake => ?_
    obtain ⟨rfl, hlt, rfl⟩ := htake
    have hlo := h.lo
    have hsize : FSSIZE = 25600 := rfl
    have hmeta : nmeta = 47 := rfl
    have hblank := h.blank _ (Nat.le_refl _)
    have hptr := pointer_takeAddr (v := v) (n := n) hk hempty hblank (by omega)
    have hset : dinAddr (put din (12 + 4 * k) 4 s.freeblock) k = s.freeblock :=
      dinAddr_put_self (by omega)
    refine ⟨⟨⟨h.len, ?_, hlt, h.exclusive.attach hlo hptr, ?_⟩, ⟨rfl, rfl, rfl, fun _ _ => rfl⟩,
      ?_⟩, hvalue _ _, ?_⟩
    · exact Nat.le_succ_of_le hlo
    · exact fun x hx => h.blank x (Nat.le_of_succ_le hx)
    · intro m o
      exact fileByte_taken (by rw [hvalue, hempty]) hptr hblank fun _ _ _ => rfl
    · rw [hset]
      omega
  · rw [if_neg hempty]
    exact ⟨⟨h, Kept.refl s, fun _ _ => rfl⟩, hvalue _ _, hempty⟩

/-- An entry of an index block that had no block gets one. -/
theorem takeEntry_spec (h : Sound v s) {p₀ : Ptr} (hparent : p.parent = some (p₀, k))
    (hk : k < NINDIRECT) (hc : pointer v s.img (n, p₀) = c) (hc0 : c ≠ 0) :
    Gives (takeEntry c k s) fun x t => Taken v v s t ∧ pointer v t.img (n, p) = x ∧ x ≠ 0 := by
  obtain ⟨hmeta, hlt⟩ := h.pointer_lt (q := (n, p₀)) (by rw [hc]; exact hc0)
  rw [hc] at hmeta hlt
  have hhi := h.hi
  have hcsize : c < FSSIZE := by omega
  have hvalue : ∀ img, pointer v img (n, p₀) = c →
      pointer v img (n, p) = get (img c) (4 * k) 4 := by
    intro img himg
    rw [pointer_of_parent hparent, himg, word, if_pos ⟨hc0, hk⟩]
  unfold takeEntry
  refine Ends.bind rsect_spec fun d u _ hread => ?_
  obtain ⟨rfl, rfl⟩ := hread
  rw [sector_of_lt hcsize]
  by_cases hempty : get (s.img c) (4 * k) 4 = 0
  · rw [if_pos hempty]
    refine Ends.bind takeBlock_spec fun b t _ htake => ?_
    obtain ⟨rfl, hblt, rfl⟩ := htake
    have hlo := h.lo
    have hsize : FSSIZE = 25600 := rfl
    have hfirst : nmeta = 47 := rfl
    have hblank := h.blank _ (Nat.le_refl _)
    have hq : pointer v s.img (n, p) = 0 := by rw [hvalue _ hc, hempty]
    have hptr := pointer_takeEntry h.exclusive hparent hk hc hc0 hq hblank (by omega)
    have hne : s.freeblock ≠ c := by omega
    have hlen : ({ s with freeblock := s.freeblock + 1 } : State).len = FSSIZE := h.len
    refine Ends.bind (wsect_spec hlen hcsize) fun _ u _ hwrite => ?_
    subst hwrite
    refine ⟨⟨⟨h.len, ?_, hblt, h.exclusive.attach hlo hptr, ?_⟩, ⟨rfl, rfl, rfl, ?_⟩, ?_⟩, ?_, ?_⟩
    · exact Nat.le_succ_of_le hlo
    · intro x hx
      have hxc : x ≠ c := by
        have hx' : s.freeblock + 1 ≤ x := hx
        omega
      show Function.update s.img c _ x = _
      rw [Function.update_of_ne hxc]
      exact h.blank x (Nat.le_of_succ_le hx)
    · intro x hx
      exact Function.update_of_ne (by omega) _ _
    · intro m o
      refine fileByte_taken hq hptr ?_ fun m fbn hne' => ?_
      · show Function.update s.img c _ s.freeblock = _
        rw [Function.update_of_ne hne, hblank]
      · refine Function.update_of_ne ?_ _ _
        intro he
        have hplace := h.exclusive.once _ (n, p₀) hne' (he.trans hc.symm)
        exact fbnPlace_parent hparent (Prod.ext_iff.mp hplace).2
    · show pointer v (Function.update s.img c _) (n, p) = _
      rw [hptr, Function.update_self]
    · omega
  · rw [if_neg hempty]
    exact ⟨⟨h, Kept.refl s, fun _ _ => rfl⟩, hvalue _ hc, hempty⟩

/-- The block of a file block, which may have been taken on the way to it. -/
theorem fileBlock_spec (h : Sound (Function.update v n din) s) {fbn : ℕ} (hfbn : fbn < MAXFILE) :
    Gives (fileBlock din fbn s) fun r t =>
      Taken (Function.update v n din) (Function.update v n r.1) s t ∧
        pointer (Function.update v n r.1) t.img (n, fbnPlace fbn) = r.2 ∧ r.2 ≠ 0 := by
  have hmax : MAXFILE = 262666 := rfl
  have hsmall : NINDIRECT = 512 := rfl
  have hdirect : NDIRECT = 10 := rfl
  unfold fileBlock fbnPlace
  by_cases hd : fbn < NDIRECT
  · rw [if_pos hd, if_pos hd]
    refine Ends.bind (takeAddr_spec h (by omega)) fun d t _ htake => ?_
    exact htake
  · rw [if_neg hd, if_neg hd]
    by_cases hi : fbn < NDIRECT + NINDIRECT
    · rw [if_pos hi, if_pos hi]
      refine Ends.bind (takeAddr_spec h (k := NDIRECT) (by omega)) fun d t _ htake => ?_
      obtain ⟨htake, hptr, hne⟩ := htake
      refine Ends.bind (takeEntry_spec htake.sound (p := .leaf (fbn - NDIRECT)) rfl
        (by omega) hptr hne) fun x u _ hentry => ?_
      obtain ⟨hentry, hx, hx0⟩ := hentry
      exact ⟨htake.trans hentry, hx, hx0⟩
    · rw [if_neg hi, if_neg hi]
      have hrow : (fbn - NDIRECT - NINDIRECT) / NINDIRECT < NINDIRECT := by
        rw [hmax] at hfbn
        rw [hdirect, hsmall]
        omega
      generalize fbn - NDIRECT - NINDIRECT = bn at *
      refine Ends.bind (Q := fun _ u => s = u) (gives_ensure fun _ => rfl) ?_
      rintro _ _ _ rfl
      refine Ends.bind (takeAddr_spec h (k := NDIRECT + 1) (by omega)) fun d t _ htake => ?_
      obtain ⟨htake, hptr, hne⟩ := htake
      refine Ends.bind (takeEntry_spec htake.sound (p := .outer (bn / NINDIRECT)) rfl hrow hptr hne)
        fun outer u _ houter => ?_
      obtain ⟨houter, hout, hout0⟩ := houter
      refine Ends.bind (takeEntry_spec houter.sound
        (p := .inner (bn / NINDIRECT) (bn % NINDIRECT)) rfl
        (Nat.mod_lt _ (by decide)) hout hout0) fun x w _ hentry => ?_
      obtain ⟨hentry, hx, hx0⟩ := hentry
      exact ⟨(htake.trans houter).trans hentry, hx, hx0⟩

end Taking

section Appending

/-- What iappend does: `len` bytes of `p` are put into file `n` from `off` on. -/
structure Stored (v w : Table) (n off len : ℕ) (p : Bytes) (s t : State) : Prop where
  sound : Sound w t
  kept : Kept s t
  bytes : ∀ m o, fileByte w t.img m o =
    if m = n ∧ off ≤ o ∧ o < off + len then p (o - off) else fileByte v s.img m o

variable {off len lo : ℕ} {y : Bytes}

/-- One write into the block of a file block. -/
theorem Sound.write (h : Sound v s) {fbn : ℕ} (hb : pointer v s.img (n, fbnPlace fbn) = b)
    (hb0 : b ≠ 0) (hlen : lo + len ≤ BSIZE) :
    Gives (wsect b (splice (s.img b) lo y 0 len) s) fun _ t =>
      Stored v v n (fbn * BSIZE + lo) len y s t := by
  obtain ⟨hmeta, hlt⟩ := h.pointer_lt (q := (n, fbnPlace fbn)) (by rw [hb]; exact hb0)
  rw [hb] at hmeta hlt
  have hhi := h.hi
  refine (wsect_spec h.len (by omega)).mono fun _ t hwrite => ?_
  subst hwrite
  have hptr : pointer v (Function.update s.img b (splice (s.img b) lo y 0 len)) = pointer v s.img :=
    pointer_data h.exclusive hb hb0
  refine ⟨⟨h.len, h.lo, h.hi, ?_, fun x hx => ?_⟩, ⟨rfl, rfl, rfl, fun x hx => ?_⟩, fun m o => ?_⟩
  · show Exclusive v (Function.update s.img b _) s.freeblock
    unfold Exclusive
    rw [hptr]
    exact h.exclusive
  · have hx' : s.freeblock ≤ x := hx
    show Function.update s.img b _ x = _
    rw [Function.update_of_ne (by omega)]
    exact h.blank x hx'
  · exact Function.update_of_ne (by omega) _ _
  · exact fileByte_data h.exclusive hb hb0 hlen

theorem appendLoop_spec {fuel : ℕ} (h : Sound (Function.update v n din) s) (hfuel : len ≤ fuel) :
    Gives (appendLoop fuel din off y len s) fun r t => r.2 = off + len ∧
      Stored (Function.update v n din) (Function.update v n r.1) n off len y s t := by
  induction fuel generalizing din s off y len with
  | zero =>
    obtain rfl : len = 0 := Nat.le_zero.mp hfuel
    refine ⟨rfl, h, Kept.refl s, fun m o => ?_⟩
    rw [if_neg (by omega)]
  | succ fuel ih =>
    unfold appendLoop
    by_cases hlen : 0 < len
    · rw [if_pos hlen]
      refine Ends.bind (Q := fun _ u => s = u ∧ off / BSIZE < MAXFILE)
        (gives_ensure fun hmax => ⟨rfl, of_decide_eq_true hmax⟩) ?_
      rintro _ _ _ ⟨rfl, hmax⟩
      refine Ends.bind (fileBlock_spec h hmax) fun r t _ hblock => ?_
      obtain ⟨htaken, hptr, hx0⟩ := hblock
      set n1 := min len ((off / BSIZE + 1) * BSIZE - off) with hn1
      have hdiv := Nat.div_add_mod off BSIZE
      have hmod := Nat.mod_lt off (show 0 < BSIZE by decide)
      rw [Nat.mul_comm] at hdiv
      have hmul : (off / BSIZE + 1) * BSIZE = off / BSIZE * BSIZE + BSIZE := Nat.succ_mul _ _
      have hoff : off / BSIZE * BSIZE + (off - off / BSIZE * BSIZE) = off := by omega
      refine Ends.bind rsect_spec fun d u _ hread => ?_
      obtain ⟨rfl, rfl⟩ := hread
      obtain ⟨_, hlt⟩ := htaken.sound.pointer_lt (q := (n, fbnPlace (off / BSIZE)))
        (by rw [hptr]; exact hx0)
      rw [hptr] at hlt
      have hhi := htaken.sound.hi
      rw [sector_of_lt (by omega)]
      refine Ends.bind (htaken.sound.write hptr hx0 (by omega)) fun _ u _ hwrite => ?_
      rw [hoff] at hwrite
      refine (ih hwrite.sound (by omega)).mono fun r' x hrest => ?_
      obtain ⟨hend, hrest⟩ := hrest
      refine ⟨by omega, hrest.sound, (htaken.kept.trans hwrite.kept).trans hrest.kept,
        fun m o => ?_⟩
      rw [hrest.bytes, hwrite.bytes, htaken.bytes]
      by_cases hlast : m = n ∧ off + n1 ≤ o ∧ o < off + n1 + (len - n1)
      · rw [if_pos hlast, if_pos ⟨hlast.1, by omega, by omega⟩]
        congr 1
        omega
      · rw [if_neg hlast]
        by_cases hfirst : m = n ∧ off ≤ o ∧ o < off + n1
        · rw [if_pos hfirst, if_pos ⟨hfirst.1, by omega, by omega⟩]
        · rw [if_neg hfirst, if_neg]
          rintro ⟨rfl, hlo, hhi'⟩
          by_cases hin : o < off + n1
          · exact hfirst ⟨rfl, hlo, hin⟩
          · exact hlast ⟨rfl, by omega, by omega⟩
    · rw [if_neg hlen]
      refine ⟨by omega, h, Kept.refl s, fun m o => ?_⟩
      rw [if_neg (by omega)]

end Appending

section Inodes

variable {img : ℕ → Bytes} {d : Bytes} {off len : ℕ} {y : Bytes}

/-- The block of dinode `n` with another dinode. -/
def withDinode (img : ℕ → Bytes) (n : ℕ) (d : Bytes) : ℕ → Bytes :=
  Function.update img (IBLOCK n mkfsSuperblock)
    (splice (img (IBLOCK n mkfsSuperblock)) (dinodeOffset n) d 0 128)

theorem IBLOCK_lt (hn : n < maxInodes) :
    32 ≤ IBLOCK n mkfsSuperblock ∧ IBLOCK n mkfsSuperblock < 45 := by
  rw [maxInodes_eq] at hn
  rw [IBLOCK_mkfs]
  omega

/-- The table of an image with another dinode, byte by byte. -/
theorem table_withDinode (hn : n < maxInodes) {i : ℕ} (hi : i < 128) :
    table (withDinode img n d) m i = Function.update (table img) n d m i := by
  unfold withDinode table
  by_cases hm : m < maxInodes
  · by_cases hmn : m = n
    · subst hmn
      rw [Function.update_self, if_pos hm, Function.update_self]
      unfold splice
      rw [if_pos (by omega)]
      congr 1
      omega
    · rw [Function.update_of_ne hmn, if_pos hm, if_pos hm]
      by_cases hb : IBLOCK m mkfsSuperblock = IBLOCK n mkfsSuperblock
      · rw [hb, Function.update_self]
        rw [IBLOCK_mkfs, IBLOCK_mkfs] at hb
        have hperblock : IPB = 16 := rfl
        unfold splice dinodeOffset
        rw [hperblock, if_neg (by omega)]
      · rw [Function.update_of_ne hb]
  · have hmn : m ≠ n := by
      rintro rfl
      exact hm hn
    rw [Function.update_of_ne hmn, if_neg hm, if_neg hm]

theorem get_table_withDinode (hn : n < maxInodes) {o len : ℕ} (ho : o + len ≤ 128) :
    get (table (withDinode img n d) m) o len = get (Function.update (table img) n d m) o len :=
  get_congr fun i _ hi => table_withDinode hn (by omega)

theorem winode_spec (hlen : s.len = FSSIZE) (hn : n < maxInodes) :
    Gives (winode n d s) fun _ t => t = { s with
      written := IBLOCK n mkfsSuperblock :: s.written
      img := withDinode s.img n d } := by
  have hsize : FSSIZE = 25600 := rfl
  obtain ⟨_, hlt⟩ := IBLOCK_lt hn
  unfold winode
  refine Ends.bind rsect_spec fun b u _ hread => ?_
  obtain ⟨rfl, rfl⟩ := hread
  rw [sector_of_lt (by omega)]
  set s₁ : State := { s with written := IBLOCK n mkfsSuperblock :: s.written } with hs₁
  have hlen₁ : s₁.len = FSSIZE := hlen
  refine Ends.bind (Q := fun _ u => s₁ = u) ?_ ?_
  · exact ends_update.mpr rfl
  · rintro _ _ _ rfl
    exact wsect_spec hlen₁ (by omega)

theorem rinode_spec (hn : n < maxInodes) : Gives (rinode n s) fun d t => d = table s.img n ∧
      s = t := by
  have hsize : FSSIZE = 25600 := rfl
  obtain ⟨_, hlt⟩ := IBLOCK_lt hn
  unfold rinode
  refine Ends.bind rsect_spec fun b u _ hread => ?_
  obtain ⟨rfl, rfl⟩ := hread
  refine ⟨?_, rfl⟩
  rw [sector_of_lt (by omega), table, if_pos hn]

/-- The dinodes of the table changed within their pointers and other fields that do not
count here. -/
theorem Sound.table_congr (h : Sound v s)
    (haddr : ∀ m k, k < NDIRECT + 2 → dinAddr (w m) k = dinAddr (v m) k) (hlen : t.len = s.len)
    (hfree : t.freeblock = s.freeblock) (himg : ∀ b, nmeta ≤ b → t.img b = s.img b) :
    Sound w t ∧ ∀ m o, fileByte w t.img m o = fileByte v s.img m o := by
  have hhigh : ∀ q, pointer v s.img q ≠ 0 → t.img (pointer v s.img q) = s.img (pointer v s.img q) :=
    fun q hq => himg _ (h.pointer_lt hq).1
  have hptr := pointer_congr haddr hhigh
  refine ⟨⟨hlen.trans h.len, by rw [hfree]; exact h.lo, by rw [hfree]; exact h.hi, ?_, ?_⟩,
    fun m o => fileByte_congr hptr hhigh⟩
  · unfold Exclusive
    rw [hptr, hfree]
    exact h.exclusive
  · intro b hb
    rw [hfree] at hb
    rw [himg b (Nat.le_trans h.lo hb)]
    exact h.blank b hb

/-- What iappend does to an image at rest. -/
structure Appended (n len : ℕ) (y : Bytes) (s t : State) : Prop where
  sound : Sound (table t.img) t
  freeinode : t.freeinode = s.freeinode
  handed : t.handed = s.handed
  written : t.written = IBLOCK n mkfsSuperblock :: s.written
  low : ∀ b, b < nmeta → b ≠ IBLOCK n mkfsSuperblock → t.img b = s.img b
  size : dinSize (table t.img n) = (dinSize (table s.img n) + len) % 2 ^ 32
  others : ∀ m, m ≠ n → ∀ i, i < 128 → table t.img m i = table s.img m i
  bytes : ∀ m o, fileByte (table t.img) t.img m o =
    if m = n ∧ dinSize (table s.img n) ≤ o ∧ o < dinSize (table s.img n) + len then
      y (o - dinSize (table s.img n))
    else fileByte (table s.img) s.img m o

theorem table_of_low (h : ∀ b, b < nmeta → t.img b = s.img b) : table t.img = table s.img := by
  have hmeta : nmeta = 47 := rfl
  funext m
  unfold table
  by_cases hm : m < maxInodes
  · obtain ⟨_, hlt⟩ := IBLOCK_lt hm
    rw [if_pos hm, if_pos hm, h _ (by omega)]
  · rw [if_neg hm, if_neg hm]

theorem iappend_spec (h : Sound (table s.img) s) (hn : n < maxInodes) :
    Gives (iappend n y len s) fun _ t => Appended n len y s t := by
  have hmeta : nmeta = 47 := rfl
  obtain ⟨_, hlt⟩ := IBLOCK_lt hn
  unfold iappend
  refine Ends.bind (rinode_spec hn) fun d u _ hread => ?_
  obtain ⟨rfl, rfl⟩ := hread
  have hstart : Sound (Function.update (table s.img) n (table s.img n)) s := by
    rw [Function.update_eq_self]
    exact h
  refine Ends.bind (appendLoop_spec hstart (Nat.le_refl len)) fun r t _ hloop => ?_
  obtain ⟨hend, hstored⟩ := hloop
  rw [Function.update_eq_self] at hstored
  have htable := table_of_low hstored.kept.low
  refine (winode_spec hstored.sound.len hn).mono fun _ u hwrite => ?_
  subst hwrite
  have haddr : ∀ m k, k < NDIRECT + 2 → dinAddr (table (withDinode t.img n (put r.1 8 4 r.2)) m) k =
      dinAddr (Function.update (table s.img) n r.1 m) k := by
    intro m k hk
    have hdirect : NDIRECT = 10 := rfl
    refine (get_table_withDinode hn (by omega)).trans ?_
    rw [htable]
    by_cases hm : m = n
    · subst hm
      rw [Function.update_self, Function.update_self]
      exact get_put_other (by omega)
    · rw [Function.update_of_ne hm, Function.update_of_ne hm]
      rfl
  obtain ⟨hsound, hbytes⟩ := hstored.sound.table_congr
    (t := { t with
      written := IBLOCK n mkfsSuperblock :: t.written
      img := withDinode t.img n (put r.1 8 4 r.2) }) haddr rfl rfl
    fun b hb => Function.update_of_ne (by omega) _ _
  refine ⟨hsound, hstored.kept.freeinode, hstored.kept.handed, ?_, ?_, ?_, ?_, ?_⟩
  · show _ :: t.written = _
    rw [hstored.kept.written]
  · intro b hb hne
    exact (Function.update_of_ne hne _ _).trans (hstored.kept.low b hb)
  · refine (get_table_withDinode hn (by omega)).trans ?_
    rw [Function.update_self, get_put, hend, show (256 : ℕ) ^ 4 = 2 ^ 32 from rfl]
  · intro m hm i hi
    refine (table_withDinode hn hi).trans ?_
    rw [Function.update_of_ne hm, htable]
  · intro m o
    rw [hbytes, hstored.bytes]

end Inodes

section Handed

/-- No inode was handed out. -/
structure SameInodes (s t : State) : Prop where
  freeinode : t.freeinode = s.freeinode
  handed : t.handed = s.handed

/-- The inodes from 1 on were handed out, up to `freeinode`. -/
def Traced (s : State) : Prop := ∀ n, n ∈ s.handed ↔ 1 ≤ n ∧ n < s.freeinode

/-- A computation that hands out no inode. -/
abbrev Silent {B : Type} (x : M B) : Prop := Within (fun _ => False) SameInodes x

theorem sameInodes_composes : Composes SameInodes where
  refl := fun _ => ⟨rfl, rfl⟩
  trans := fun h h' => ⟨h'.freeinode.trans h.freeinode, h'.handed.trans h.handed⟩

theorem SameInodes.traced (h : SameInodes s t) (hs : Traced s) : Traced t := by
  intro n
  rw [h.handed, h.freeinode]
  exact hs n

theorem ensure_silent {f : State → Bool} {e : Halt} : Silent (ensure f e : M Unit) :=
  within_ensure sameInodes_composes id

theorem look_silent {B : Type} {f : State → B} : Silent (look f : M B) :=
  within_look sameInodes_composes

theorem pure_silent {B : Type} {x : B} : Silent (pure x : M B) := within_pure sameInodes_composes

theorem rsect_silent : Silent (rsect b) := ensure_silent.bind sameInodes_composes fun _ =>
      look_silent

theorem wsect_silent {y : Bytes} : Silent (wsect b y) := within_update fun _ => ⟨rfl, rfl⟩

theorem rinode_silent : Silent (rinode n) :=
  rsect_silent.bind sameInodes_composes fun _ => pure_silent

theorem winode_silent : Silent (winode n din) := by
  unfold winode
  refine rsect_silent.bind sameInodes_composes fun buf => ?_
  refine Within.bind sameInodes_composes (within_update fun _ => ⟨rfl, rfl⟩) fun _ => ?_
  exact wsect_silent

theorem takeBlock_silent : Silent takeBlock := by
  unfold takeBlock
  refine look_silent.bind sameInodes_composes fun b => ?_
  refine ensure_silent.bind sameInodes_composes fun _ => ?_
  exact Within.bind sameInodes_composes (within_update fun _ => ⟨rfl, rfl⟩) fun _ => pure_silent

theorem takeAddr_silent : Silent (takeAddr din k) := by
  unfold takeAddr
  exact Within.ite (takeBlock_silent.bind sameInodes_composes fun _ => pure_silent) pure_silent

theorem takeEntry_silent : Silent (takeEntry c k) := by
  unfold takeEntry
  refine rsect_silent.bind sameInodes_composes fun indirect => Within.ite ?_ pure_silent
  refine takeBlock_silent.bind sameInodes_composes fun b => ?_
  exact wsect_silent.bind sameInodes_composes fun _ => pure_silent

theorem fileBlock_silent {fbn : ℕ} : Silent (fileBlock din fbn) := by
  unfold fileBlock
  refine Within.ite ?_ (Within.ite ?_ ?_)
  · exact takeAddr_silent.bind sameInodes_composes fun _ => pure_silent
  · refine takeAddr_silent.bind sameInodes_composes fun _ => ?_
    exact takeEntry_silent.bind sameInodes_composes fun _ => pure_silent
  · refine ensure_silent.bind sameInodes_composes fun _ => ?_
    refine takeAddr_silent.bind sameInodes_composes fun _ => ?_
    refine takeEntry_silent.bind sameInodes_composes fun _ => ?_
    exact takeEntry_silent.bind sameInodes_composes fun _ => pure_silent

theorem appendLoop_silent {fuel off len : ℕ} {y : Bytes} :
    Silent (appendLoop fuel din off y len) := by
  induction fuel generalizing din off y len with
  | zero => exact pure_silent
  | succ fuel ih =>
    unfold appendLoop
    refine Within.ite ?_ pure_silent
    refine ensure_silent.bind sameInodes_composes fun _ => ?_
    refine fileBlock_silent.bind sameInodes_composes fun r => ?_
    refine rsect_silent.bind sameInodes_composes fun buf => ?_
    exact wsect_silent.bind sameInodes_composes fun _ => ih

theorem iappend_silent {len : ℕ} {y : Bytes} : Silent (iappend n y len) := by
  unfold iappend
  refine rinode_silent.bind sameInodes_composes fun _ => ?_
  exact appendLoop_silent.bind sameInodes_composes fun _ => winode_silent

theorem copyFile_silent {reads : List (List UInt8)} : Silent (copyFile n reads) := by
  induction reads with
  | nil => exact pure_silent
  | cons buf rest ih =>
    unfold copyFile
    exact Within.ite pure_silent (iappend_silent.bind sameInodes_composes fun _ => ih)

theorem finish_silent : Silent (finish n) := by
  unfold finish balloc
  refine rinode_silent.bind sameInodes_composes fun _ => ?_
  refine winode_silent.bind sameInodes_composes fun _ => ?_
  refine look_silent.bind sameInodes_composes fun _ => ?_
  exact ensure_silent.bind sameInodes_composes fun _ => wsect_silent

/-- `count` more inodes were handed out. -/
structure Hands (count : ℕ) (s t : State) : Prop where
  freeinode : t.freeinode = s.freeinode + count
  traced : Traced t

theorem Hands.silent {count : ℕ} (h : Hands count s t) (h' : SameInodes t u) : Hands count s u :=
  ⟨h'.freeinode.trans h.freeinode, h'.traced h.traced⟩

theorem ialloc_hands (h : Traced s) (hpos : 1 ≤ s.freeinode) {type : ℕ} :
    Gives (ialloc type s) fun r t => r = s.freeinode ∧ Hands 1 s t := by
  unfold ialloc
  refine Ends.bind (Q := fun r u => s.freeinode = r ∧ s = u) ⟨rfl, rfl⟩ ?_
  rintro _ _ _ ⟨rfl, rfl⟩
  set s₁ : State := { s with freeinode := s.freeinode + 1, handed := s.freeinode :: s.handed } with hs₁
  refine Ends.bind (Q := fun _ u => s₁ = u) (ends_update.mpr rfl) ?_
  rintro _ _ _ rfl
  have hhands : Hands 1 s s₁ := by
    refine ⟨rfl, fun n => ?_⟩
    show n ∈ s.freeinode :: s.handed ↔ 1 ≤ n ∧ n < s.freeinode + 1
    rw [List.mem_cons, h n]
    omega
  refine Ends.bind (winode_silent s₁) fun _ t _ hwrite => ?_
  exact ⟨rfl, hhands.silent hwrite⟩

theorem addFile_hands (h : Traced s) (hpos : 1 ≤ s.freeinode) {f : HostFile} :
    Gives (addFile n f s) fun _ t => Hands (if accepted f then 1 else 0) s t := by
  unfold addFile accepted
  refine Ends.bind (Q := fun _ u => s = u) (gives_ensure fun _ => rfl) ?_
  rintro _ _ _ rfl
  cases f.stat with
  | none => exact id
  | some size =>
    dsimp only
    by_cases hlarge : MAXFILE * BSIZE < size
    · rw [if_pos hlarge]
      have hno : ¬ decide (size ≤ MAXFILE * BSIZE) = true := by simpa using hlarge
      rw [if_neg hno]
      exact ⟨rfl, h⟩
    · rw [if_neg hlarge]
      have hyes : decide (size ≤ MAXFILE * BSIZE) = true := by simpa using hlarge
      rw [if_pos hyes]
      refine Ends.bind (ialloc_hands h hpos) fun r t _ hnew => ?_
      refine Ends.bind (iappend_silent t) fun _ u _ hentry => ?_
      exact (copyFile_silent u).mono fun _ x hcopy => (hnew.2.silent hentry).silent hcopy

theorem addFiles_hands {files : List HostFile} (h : Traced s) (hpos : 1 ≤ s.freeinode) :
    Gives (addFiles n files s) fun _ t => Hands (files.countP accepted) s t := by
  induction files generalizing s with
  | nil => exact ⟨rfl, h⟩
  | cons f fs ih =>
    unfold addFiles
    refine Ends.bind (addFile_hands h hpos) fun _ t _ hfirst => ?_
    have hpos' : 1 ≤ t.freeinode := by
      rw [hfirst.freeinode]
      omega
    refine (ih hfirst.traced hpos').mono fun _ u hrest => ⟨?_, hrest.traced⟩
    rw [hrest.freeinode, hfirst.freeinode, List.countP_cons]
    omega

theorem clearSectors_silent : Silent (clearSectors n) := by
  unfold clearSectors
  exact within_forBelow sameInodes_composes fun _ _ => wsect_silent

theorem format_hands (h : Traced s) (hone : s.freeinode = 1) :
    Gives (format s) fun r t => r = ROOTINO ∧ Hands 1 s t := by
  unfold format makeRoot
  have hfirst : Gives ((update fun s => { s with freeblock := nmeta } : M Unit) s)
      fun _ u => SameInodes s u := ends_update.mpr ⟨rfl, rfl⟩
  refine Ends.bind hfirst fun _ t _ h₁ => ?_
  refine Ends.bind (clearSectors_silent t) fun _ u _ h₂ => ?_
  refine Ends.bind (wsect_silent u) fun _ w _ h₃ => ?_
  have hsame := sameInodes_composes.trans (sameInodes_composes.trans h₁ h₂) h₃
  have hpos : w.freeinode = 1 := hsame.freeinode.trans hone
  refine Ends.bind (ialloc_hands (hsame.traced h) (by omega)) fun r x _ hroot => ?_
  obtain ⟨rfl, hroot⟩ := hroot
  have hhands : Hands 1 s x := ⟨by rw [hroot.freeinode, hsame.freeinode], hroot.traced⟩
  refine Ends.bind (Q := fun _ y => x = y) (gives_ensure fun _ => rfl) ?_
  rintro _ _ _ rfl
  refine Ends.bind (iappend_silent x) fun _ y _ hdot => ?_
  refine Ends.bind (iappend_silent y) fun _ z _ hdotdot => ?_
  exact ⟨hpos, (hhands.silent hdot).silent hdotdot⟩

/-- The inodes that mkfs hands out: the root, and one for each file that is not too large. -/
theorem main_hands {image : Option Bool} {files : List HostFile} (h : Traced s)
    (hone : s.freeinode = 1) :
    Gives (main image files s) fun _ t => Hands (files.countP accepted + 1) s t := by
  have hensure : ∀ b : Bool, Gives ((ensure (fun _ => b) .exit : M Unit) s) fun _ u => s = u :=
    fun b => gives_ensure fun _ => rfl
  unfold main
  refine Ends.bind (hensure _) ?_
  rintro _ _ _ rfl
  refine Ends.bind (hensure _) ?_
  rintro _ _ _ rfl
  refine Ends.bind (format_hands h hone) fun r t _ hformat => ?_
  obtain ⟨_, hformat⟩ := hformat
  have hpos : 1 ≤ t.freeinode := by
    rw [hformat.freeinode]
    omega
  refine Ends.bind (addFiles_hands hformat.traced hpos) fun _ u _ hadd => ?_
  refine (finish_silent u).mono fun _ w hend => ?_
  have hall : Hands (files.countP accepted + 1) s u := by
    refine ⟨?_, hadd.traced⟩
    rw [hadd.freeinode, hformat.freeinode]
    omega
  exact hall.silent hend

theorem start_traced : Traced start := by
  intro n
  simp [start]
  omega

end Handed

section Built

/-- The bytes of a directory with these entries. -/
def dirBytes (es : List (ℕ × Name)) : Bytes := fun o =>
  match es[o / direntSize]? with
  | some e => dirent e.1 e.2 (o % direntSize)
  | none => 0

/-- An image in the making: the root directory has the entries `es`, and the dinodes from
`freeinode` on are empty. -/
structure Built (es : List (ℕ × Name)) (s : State) : Prop where
  sound : Sound (table s.img) s
  pos : 1 ≤ s.freeinode
  inodes : s.freeinode ≤ maxInodes
  blank : ∀ n, s.freeinode ≤ n → ∀ i, i < 128 → table s.img n i = 0
  written : ∀ b ∈ s.written, mkfsSuperblock.inodestart ≤ b ∧ b < mkfsSuperblock.bmapstart
  bitmap : ∀ b, mkfsSuperblock.bmapstart ≤ b → b < nmeta → s.img b = fun _ => 0
  size : dinSize (table s.img ROOTINO) = direntSize * es.length
  bytes : ∀ o, fileByte (table s.img) s.img ROOTINO o = dirBytes es o

variable {es : List (ℕ × Name)} {name : Name} {len : ℕ} {y : Bytes}

theorem bmapstart_eq : mkfsSuperblock.bmapstart = 45 := rfl

theorem Built.written_cons (h : Built es s) (hn : n < maxInodes) :
    ∀ b ∈ IBLOCK n mkfsSuperblock :: s.written,
      mkfsSuperblock.inodestart ≤ b ∧ b < mkfsSuperblock.bmapstart := by
  intro b hb
  rcases List.mem_cons.mp hb with rfl | hb
  · exact IBLOCK_lt hn
  · exact h.written b hb

theorem IBLOCK_ne_bitmap (hn : n < maxInodes) (hb : mkfsSuperblock.bmapstart ≤ b) :
    b ≠ IBLOCK n mkfsSuperblock := by
  obtain ⟨_, hlt⟩ := IBLOCK_lt hn
  rw [bmapstart_eq] at hb
  omega

/-- A directory with one more entry, byte by byte. -/
theorem dirBytes_append (o : ℕ) : dirBytes (es ++ [(n, name)]) o =
    if direntSize * es.length ≤ o ∧ o < direntSize * es.length + direntSize then
      dirent n name (o - direntSize * es.length)
    else dirBytes es o := by
  have hsixteen : direntSize = 16 := rfl
  have hdiv := Nat.div_add_mod o direntSize
  have hmod := Nat.mod_lt o (show 0 < direntSize by decide)
  unfold dirBytes
  rcases Nat.lt_trichotomy (o / direntSize) es.length with hlt | heq | hgt
  · have hmul : direntSize * (o / direntSize + 1) ≤ direntSize * es.length :=
      Nat.mul_le_mul_left _ hlt
    rw [Nat.mul_succ] at hmul
    rw [List.getElem?_append_left hlt, if_neg (by omega)]
  · rw [heq] at hdiv ⊢
    rw [List.getElem?_append_right (Nat.le_refl _), Nat.sub_self, if_pos (by omega)]
    show dirent n name _ = dirent n name _
    congr 1
    omega
  · have hmul : direntSize * (es.length + 1) ≤ direntSize * (o / direntSize) :=
      Nat.mul_le_mul_left _ hgt
    rw [Nat.mul_succ] at hmul
    have hnone : (es ++ [(n, name)])[o / direntSize]? = none := by
      rw [List.getElem?_eq_none]
      rw [List.length_append, List.length_singleton]
      omega
    rw [hnone, List.getElem?_eq_none (Nat.le_of_lt hgt), if_neg (by omega)]

/-- Another entry of the root directory. -/
theorem Built.append (h : Built es s) (hlen : direntSize * (es.length + 1) < 2 ^ 32)
    (hroot : ROOTINO < s.freeinode) :
    Gives (iappend ROOTINO (dirent n name) direntSize s) fun _ t =>
      Built (es ++ [(n, name)]) t ∧ t.freeinode = s.freeinode := by
  have hn : ROOTINO < maxInodes := by decide
  have hmeta : nmeta = 47 := rfl
  refine (iappend_spec h.sound hn).mono fun _ t happ => ⟨?_, happ.freeinode⟩
  refine ⟨happ.sound, by rw [happ.freeinode]; exact h.pos, by rw [happ.freeinode]; exact h.inodes,
    fun m hm i hi => ?_, ?_, fun b hlo hhi => ?_, ?_, fun o => ?_⟩
  · rw [happ.freeinode] at hm
    rw [happ.others m (by omega) i hi]
    exact h.blank m hm i hi
  · rw [happ.written]
    exact h.written_cons hn
  · rw [happ.low b hhi (IBLOCK_ne_bitmap hn hlo)]
    exact h.bitmap b hlo hhi
  · rw [happ.size, h.size, List.length_append, List.length_singleton, ← Nat.mul_succ,
      Nat.mod_eq_of_lt hlen]
  · rw [happ.bytes, h.size, h.bytes, dirBytes_append]
    simp only [true_and]

/-- Bytes of another file. -/
theorem Built.copy (h : Built es s) (hroot : n ≠ ROOTINO) (hn : n < s.freeinode) :
    Gives (iappend n y len s) fun _ t => Built es t ∧ t.freeinode = s.freeinode := by
  have hmax : n < maxInodes := Nat.lt_of_lt_of_le hn h.inodes
  refine (iappend_spec h.sound hmax).mono fun _ t happ => ⟨?_, happ.freeinode⟩
  refine ⟨happ.sound, by rw [happ.freeinode]; exact h.pos, by rw [happ.freeinode]; exact h.inodes,
    fun m hm i hi => ?_, ?_, fun b hlo hhi => ?_, ?_, fun o => ?_⟩
  · rw [happ.freeinode] at hm
    rw [happ.others m (by omega) i hi]
    exact h.blank m hm i hi
  · rw [happ.written]
    exact h.written_cons hmax
  · rw [happ.low b hhi (IBLOCK_ne_bitmap hmax hlo)]
    exact h.bitmap b hlo hhi
  · rw [← h.size]
    exact get_congr fun i _ hi => happ.others _ (fun e => hroot e.symm) i (by omega)
  · rw [happ.bytes, if_neg fun hc => hroot hc.1.symm, h.bytes]

/-- A new inode. -/
theorem Built.ialloc (h : Built es s) (hlt : s.freeinode < maxInodes)
    (hroot : ROOTINO < s.freeinode ∨ es = []) {type : ℕ} :
    Gives (ialloc type s) fun r t => r = s.freeinode ∧ Built es t ∧
      t.freeinode = s.freeinode + 1 := by
  have hmeta : nmeta = 47 := rfl
  have hdirect : NDIRECT = 10 := rfl
  have hfields : ∀ o len, 8 ≤ o → get (newDinode type) o len = 0 := by
    intro o len ho
    rw [newDinode, get_put_other (by omega), get_put_other (by omega)]
    exact get_zero fun _ _ _ => rfl
  unfold Mkfs.ialloc
  refine Ends.bind (Q := fun r u => s.freeinode = r ∧ s = u) ⟨rfl, rfl⟩ ?_
  rintro _ _ _ ⟨rfl, rfl⟩
  set s₁ : State := { s with freeinode := s.freeinode + 1, handed := s.freeinode :: s.handed } with hs₁
  have hlen₁ : s₁.len = FSSIZE := h.sound.len
  refine Ends.bind (Q := fun _ u => s₁ = u) (ends_update.mpr rfl) ?_
  rintro _ _ _ rfl
  refine Ends.bind (winode_spec hlen₁ hlt) fun _ t _ hwrite => ?_
  have himg : t.img = withDinode s.img s.freeinode (newDinode type) := by rw [hwrite]
  have hwritten : t.written = IBLOCK s.freeinode mkfsSuperblock :: s.written := by rw [hwrite]
  have hfree : t.freeinode = s.freeinode + 1 := by rw [hwrite]
  have hblock : ∀ b, b ≠ IBLOCK s.freeinode mkfsSuperblock → t.img b = s.img b := by
    intro b hb
    rw [himg]
    exact Function.update_of_ne hb _ _
  have htable : ∀ m i, i < 128 → table t.img m i = Function.update (table s.img) s.freeinode
      (newDinode type) m i := by
    intro m i hi
    rw [himg]
    exact table_withDinode hlt hi
  obtain ⟨_, hiblock⟩ := IBLOCK_lt hlt
  have haddr : ∀ m k, k < NDIRECT + 2 → dinAddr (table t.img m) k = dinAddr (table s.img m) k := by
    intro m k hk
    have hget : dinAddr (table t.img m) k =
        dinAddr (Function.update (table s.img) s.freeinode (newDinode type) m) k :=
      get_congr fun i _ hi => htable m i (by omega)
    rw [hget]
    by_cases hm : m = s.freeinode
    · subst hm
      have hold : dinAddr (table s.img s.freeinode) k = 0 :=
        get_zero fun i _ hi => h.blank _ (Nat.le_refl _) i (by omega)
      rw [Function.update_self, hold]
      exact hfields _ _ (by omega)
    · rw [Function.update_of_ne hm]
  obtain ⟨hsound, hbytes⟩ := h.sound.table_congr (t := t) haddr (by rw [hwrite]) (by rw [hwrite])
    fun b hb => hblock b (by omega)
  refine ⟨rfl, ⟨hsound, ?_, ?_, fun m hm i hi => ?_, ?_, fun b hlo hhi => ?_, ?_, fun o => ?_⟩,
    hfree⟩
  · rw [hfree]
    exact Nat.le_add_left _ _
  · rw [hfree]
    exact hlt
  · rw [hfree] at hm
    rw [htable m i hi, Function.update_of_ne (by omega)]
    exact h.blank m (by omega) i hi
  · rw [hwritten]
    exact h.written_cons hlt
  · rw [hblock b (IBLOCK_ne_bitmap hlt hlo)]
    exact h.bitmap b hlo hhi
  · have hget : dinSize (table t.img ROOTINO) =
        dinSize (Function.update (table s.img) s.freeinode (newDinode type) ROOTINO) :=
      get_congr fun i _ hi => htable _ i (by omega)
    rw [hget]
    by_cases hm : ROOTINO = s.freeinode
    · rcases hroot with hroot | rfl
      · omega
      · rw [hm, Function.update_self]
        exact hfields _ _ (by omega)
    · rw [Function.update_of_ne hm]
      exact h.size
  · rw [hbytes, h.bytes]

theorem Built.copyFile (h : Built es s) (hroot : n ≠ ROOTINO) (hn : n < s.freeinode)
    {reads : List (List UInt8)} :
    Gives (copyFile n reads s) fun _ t => Built es t ∧ t.freeinode = s.freeinode := by
  induction reads generalizing s with
  | nil => exact ⟨h, rfl⟩
  | cons buf rest ih =>
    unfold Mkfs.copyFile
    by_cases hbuf : buf = []
    · rw [if_pos hbuf]
      exact ⟨h, rfl⟩
    · rw [if_neg hbuf]
      refine Ends.bind (h.copy hroot hn) fun _ t _ hcopy => ?_
      obtain ⟨hcopy, hfree⟩ := hcopy
      refine (ih hcopy (by omega)).mono fun _ u hrest => ?_
      exact ⟨hrest.1, hrest.2.trans hfree⟩

/-- The entries that the root directory gets for the files, with inodes from `n` on. -/
def fileEntries : ℕ → List HostFile → List (ℕ × Name)
  | _, [] => []
  | n, f :: fs => if accepted f then (n, filename f.path) :: fileEntries (n + 1) fs else fileEntries n fs

theorem fileEntries_cons {f : HostFile} {fs : List HostFile} : fileEntries n (f :: fs) =
    fileEntries n [f] ++ fileEntries (n + if accepted f then 1 else 0) fs := by
  rw [fileEntries, fileEntries]
  by_cases hf : accepted f
  · rw [if_pos hf, if_pos hf, if_pos hf]
    rfl
  · rw [if_neg hf, if_neg hf, if_neg hf]
    rfl

theorem fileEntries_length {files : List HostFile} :
    (fileEntries n files).length = files.countP accepted := by
  induction files generalizing n with
  | nil => rfl
  | cons f fs ih =>
    unfold fileEntries
    by_cases hf : accepted f
    · rw [if_pos hf, List.length_cons, ih, List.countP_cons_of_pos hf]
    · rw [if_neg hf, ih, List.countP_cons_of_neg hf]

theorem Built.addFile (h : Built es s) (hroot : ROOTINO < s.freeinode)
    (hlen : direntSize * (es.length + 1) < 2 ^ 32) {f : HostFile}
    (hlt : accepted f → s.freeinode < maxInodes) :
    Gives (addFile ROOTINO f s) fun _ t => Built (es ++ fileEntries s.freeinode [f]) t ∧
      t.freeinode = s.freeinode + if accepted f then 1 else 0 := by
  unfold Mkfs.addFile fileEntries fileEntries
  refine Ends.bind (Q := fun _ u => s = u) (gives_ensure fun _ => rfl) ?_
  rintro _ _ _ rfl
  by_cases hf : accepted f
  · have hlt := hlt hf
    rw [if_pos hf, if_pos hf]
    unfold accepted at hf
    cases hstat : f.stat with
    | none =>
      rw [hstat] at hf
      cases hf
    | some size =>
      rw [hstat] at hf
      have hsmall := of_decide_eq_true hf
      dsimp only
      rw [if_neg (by omega)]
      refine Ends.bind (h.ialloc hlt (Or.inl hroot)) fun r t _ hnew => ?_
      obtain ⟨rfl, hnew, hfree⟩ := hnew
      refine Ends.bind (hnew.append hlen (by omega)) fun _ u _ hentry => ?_
      obtain ⟨hentry, hfree'⟩ := hentry
      refine (hentry.copyFile (by omega) (by omega)).mono fun _ w hcopy => ?_
      exact ⟨hcopy.1, by omega⟩
  · rw [if_neg hf, if_neg hf, List.append_nil]
    unfold accepted at hf
    cases hstat : f.stat with
    | none => exact id
    | some size =>
      rw [hstat] at hf
      have hlarge : ¬ size ≤ MAXFILE * BSIZE := fun hle => hf (decide_eq_true hle)
      dsimp only
      rw [if_pos (by omega)]
      exact ⟨h, rfl⟩

/-- All files are added while there are inodes. -/
theorem Built.addFiles {files : List HostFile} (h : Built es s) (hroot : ROOTINO < s.freeinode)
    (hes : es.length = s.freeinode) (hlt : s.freeinode + files.countP accepted ≤ maxInodes) :
    Gives (addFiles ROOTINO files s) fun _ t => Built (es ++ fileEntries s.freeinode files) t := by
  have hmax : maxInodes = 208 := rfl
  have hsixteen : direntSize = 16 := rfl
  induction files generalizing s es with
  | nil =>
    unfold fileEntries
    rw [List.append_nil]
    exact h
  | cons f fs ih =>
    unfold Mkfs.addFiles
    have hcount : (f :: fs).countP accepted = fs.countP accepted + if accepted f then 1 else 0 :=
      List.countP_cons
    have hbound : direntSize * (es.length + 1) < 2 ^ 32 := by
      rw [hsixteen]
      omega
    have hfirst := h.addFile hroot hbound (f := f) fun hf => by
      rw [if_pos hf] at hcount
      omega
    refine Ends.bind hfirst fun _ t _ hadd => ?_
    obtain ⟨hadd, hfree⟩ := hadd
    rw [fileEntries_cons, ← hfree, ← List.append_assoc]
    refine ih hadd (by omega) ?_ (by omega)
    rw [List.length_append, fileEntries_length, hfree, hes]
    congr 1
    exact List.countP_cons.trans (Nat.zero_add _)

/-- The first sectors of an empty image are cleared. -/
theorem clearSectors_eq (himg : s.img = fun _ _ => 0) (hm : m ≤ FSSIZE) :
    clearSectors m s = .ok ((), { s with len := max s.len m }) := by
  unfold clearSectors
  induction m with
  | zero => rw [Nat.max_eq_left (Nat.zero_le _)]; rfl
  | succ m ih =>
    refine (bind_of_ok (ih (by omega))).trans ?_
    have hlen : max (max s.len m) (m + 1) = max s.len (m + 1) := by omega
    have hsame : Function.update s.img m (fun _ => 0) = s.img := by
      rw [himg]
      exact Function.update_eq_self m _
    show Except.ok ((), State.mk _ _ _ _ _ _) = _
    rw [sector_of_lt hm, hsame, hlen]

/-- The image in front of the first inode. -/
theorem built_nil (himg : ∀ b, b ≠ 1 → s.img b = fun _ => 0) (hlen : s.len = FSSIZE)
    (hblock : s.freeblock = nmeta) (hfree : s.freeinode = 1) (hwritten : s.written = []) :
    Built [] s := by
  have hmeta : nmeta = 47 := rfl
  have hmax : maxInodes = 208 := rfl
  have hsize : FSSIZE = 25600 := rfl
  have htable : table s.img = fun _ _ => 0 := by
    funext m
    unfold table
    by_cases hm : m < maxInodes
    · obtain ⟨hlo, _⟩ := IBLOCK_lt hm
      rw [if_pos hm, himg _ (by omega)]
    · rw [if_neg hm]
  have hzero : ∀ o len, get (fun _ => 0) o len = 0 := fun o len => get_zero fun _ _ _ => rfl
  have hptr : ∀ q, pointer (fun _ _ => 0) s.img q = 0 := by
    refine pointer_induction (fun m k => ?_) fun m p p₀ j hp ih => ?_
    · show dinEntry (fun _ => 0) k = 0
      unfold dinEntry dinAddr
      rw [hzero, ite_self]
    · rw [pointer_of_parent hp, ih]
      exact if_neg fun h => h.1 rfl
  refine ⟨⟨hlen, by omega, by omega, ?_, fun b hb => himg b (by omega)⟩, by omega, by omega,
    fun n _ i _ => by rw [htable], ?_, fun b hlo _ => himg b ?_, ?_, fun o => ?_⟩
  · rw [htable]
    exact ⟨fun q hq => absurd (hptr q) hq, fun q r hq => absurd (hptr q) hq⟩
  · rw [hwritten]
    exact fun b hb => absurd hb (List.not_mem_nil)
  · rw [bmapstart_eq] at hlo
    omega
  · rw [htable]
    exact hzero _ _
  · rw [htable]
    exact if_pos (hptr _)

/-- The state in front of the superblock. -/
def cleared (s : State) : State := { s with freeblock := nmeta, len := FSSIZE }

theorem format_eq (himg : s.img = fun _ _ => 0) (hlen : s.len = 0) :
    format s = makeRoot (cleared s) := by
  have hclear : ∀ m ≤ FSSIZE, clearSectors m { s with freeblock := nmeta } =
      .ok ((), { s with freeblock := nmeta, len := m }) := by
    intro m hm
    refine (clearSectors_eq (s := { s with freeblock := nmeta }) himg hm).trans ?_
    show Except.ok ((), State.mk _ (max s.len m) _ _ _ _) = _
    rw [hlen, Nat.max_eq_right (Nat.zero_le _)]
  have hbind : ∀ m ≤ FSSIZE, (do
      update fun s => { s with freeblock := nmeta }
      clearSectors m
      makeRoot : M ℕ) s = makeRoot { s with freeblock := nmeta, len := m } := by
    intro m hm
    exact bind_of_ok (hclear m hm)
  exact hbind FSSIZE (Nat.le_refl _)

theorem format_built (himg : s.img = fun _ _ => 0) (hlen : s.len = 0) (hfree : s.freeinode = 1)
    (hwritten : s.written = []) :
    Gives (format s) fun r t => r = ROOTINO ∧ Built [(ROOTINO, dot), (ROOTINO, dotdot)] t ∧
      t.freeinode = 2 := by
  have hmax : maxInodes = 208 := rfl
  have hroot : ROOTINO = 1 := rfl
  rw [format_eq himg hlen]
  unfold makeRoot
  have hulen : (cleared s).len = FSSIZE := rfl
  refine Ends.bind (wsect_spec hulen (by decide)) fun _ w _ h₃ => ?_
  have hbuilt : Built [] w := by
    rw [h₃]
    refine built_nil (fun b hb => ?_) rfl rfl hfree hwritten
    show Function.update s.img 1 _ b = _
    rw [Function.update_of_ne hb, himg]
  have hone : w.freeinode = 1 := by
    rw [h₃]
    exact hfree
  refine Ends.bind (hbuilt.ialloc (by omega) (Or.inr rfl)) fun r x _ hnew => ?_
  obtain ⟨rfl, hnew, hxfree⟩ := hnew
  rw [hone]
  refine Ends.bind (Q := fun _ y => x = y) (gives_ensure fun _ => rfl) ?_
  rintro _ _ _ rfl
  refine Ends.bind (hnew.append (by decide) (by omega)) fun _ y _ hdot => ?_
  refine Ends.bind (hdot.1.append (by decide) (by omega)) fun _ z _ hdotdot => ?_
  exact ⟨rfl, hdotdot.1, by omega⟩

end Built

end NorthOS.Mkfs
