import NorthOS.BlockMap

/-!
What readi returns and what writei stores, in terms of the bytes of a file. Where the
file is mapped, bmap and readi change nothing at all; writei maps what it has to and
changes the bytes it was asked to.
-/
namespace NorthOS.Fs

open LittleEndian Halting Comp Ownership

/-- The bytes in front of the double-indirect blocks. -/
def nearBytes : ℕ := smallBlocks * BSIZE

theorem nearBytes_eq : nearBytes = smallBlocks * BSIZE := rfl

section Offsets

variable {off o : ℕ}

theorem lt_smallBlocks (h : o < smallBlocks * BSIZE) : o / BSIZE < smallBlocks :=
  Nat.div_lt_of_lt_mul (Nat.mul_comm _ _ ▸ h)

theorem mod_BSIZE_lt (o : ℕ) : o % BSIZE < BSIZE := Nat.mod_lt _ (by decide)

/-- Offsets into one block of the file are offsets into its buffer. -/
theorem same_block (h : o / BSIZE = off / BSIZE) : o + off % BSIZE = off + o % BSIZE := by
  unfold BSIZE at *
  omega

/-- The bytes up to the end of the block are in the block. -/
theorem same_block_of_lt {m : ℕ} (hlo : off ≤ o) (hhi : o < off + m)
    (hm : m ≤ BSIZE - off % BSIZE) : o / BSIZE = off / BSIZE := by
  unfold BSIZE at *
  omega

end Offsets

variable {i n : ℕ} {s t : State} {v v' : Inos}

section Reading

/-- What bmap finds in the map it returns, without a change. -/
theorem bmap_mapped (h : Wf s v) (hl : Loaded s i n) (hheld : s.held = []) {bn : ℕ}
    (hbn : blocks v s.vol (n, placeOf bn) ≠ 0) :
    bmap i bn s = .ok (blocks v s.vol (n, placeOf bn), s) := by
  have hcached := h.cached i n hl
  have hentry : ∀ k, k < NDIRECT + 1 → (v n).addrs k ≠ 0 →
      addrEntry i k s = .ok ((v n).addrs k, s) := by
    intro k hk hne
    have hget : getAddr i k s = .ok ((v n).addrs k, s) := by
      unfold getAddr
      rw [bind_of_ok (a := ()) (t := s) (by simp [ensure, hk])]
      show Except.ok ((if k < NDIRECT + 1 then (s.icache i).addrs k else _), s) = _
      rw [if_pos hk, ← hcached]
      rfl
    unfold addrEntry
    rw [bind_of_ok hget, if_neg hne]
    rfl
  unfold bmap
  split
  · rename_i hdirect
    have hplace : blocks v s.vol (n, placeOf bn) = (v n).addrs bn := by
      rw [placeOf, if_pos hdirect]
      exact if_pos hdirect
    rw [hplace] at hbn ⊢
    exact hentry bn (by omega) hbn
  · rename_i hdirect
    have hleaf : placeOf bn = .leaf (bn - NDIRECT) := if_neg hdirect
    rw [hleaf] at hbn ⊢
    by_cases hin : bn - NDIRECT < NINDIRECT ∧ (v n).addrs NDIRECT ≠ 0
    · have hvalue : blocks v s.vol (n, .leaf (bn - NDIRECT)) =
          get (s.vol.data ((v n).addrs NDIRECT)) (4 * (bn - NDIRECT)) 4 := if_pos hin
      obtain ⟨hinside, _⟩ := h.index_inside hin.2
      have hdata : s.vol.data ((v n).addrs NDIRECT) = s.blk ROOTDEV ((v n).addrs NDIRECT) :=
        if_pos hinside.1
      rw [hdata] at hvalue
      rw [hvalue] at hbn ⊢
      have hsize : (v n).addrs NDIRECT < FSSIZE :=
        Nat.lt_trans hinside.2 (by decide)
      have hread : bread ROOTDEV ((v n).addrs NDIRECT) s =
          .ok (s.blk ROOTDEV ((v n).addrs NDIRECT),
            { s with held := [(ROOTDEV, (v n).addrs NDIRECT)] }) := by
        rw [bread_ok]
        exact ⟨by simp [hheld], hsize, rfl, by rw [hheld]⟩
      have hrelse : brelse ROOTDEV ((v n).addrs NDIRECT)
          { s with held := [(ROOTDEV, (v n).addrs NDIRECT)] } = .ok ((), s) := by
        rw [brelse_ok]
        refine ⟨by simp, ?_⟩
        simp only [List.erase_cons_head]
        rw [← hheld]
      rw [if_pos hin.1, bind_of_ok (hentry NDIRECT (by omega) hin.2)]
      unfold indexEntry
      rw [bind_of_ok (a := ROOTDEV) (t := s) (look_ok.mpr ⟨h.dev hl, rfl⟩), bind_of_ok hread,
        if_neg hbn, bind_of_ok hrelse]
      rfl
    · exact absurd (if_neg hin) hbn

/-- The bytes of an inode, with 0 where no block is mapped. -/
def byteAt (v : Inos) (vol : Volume) (n off : ℕ) : UInt8 := (bytes v vol n off).getD 0

theorem byteAt_mapped {vol : Volume} {o : ℕ} (h : blocks v vol (n, placeOf (o / BSIZE)) ≠ 0) :
    byteAt v vol n o = vol.data (blocks v vol (n, placeOf (o / BSIZE))) (o % BSIZE) := by
  rw [byteAt, bytes, if_neg h]
  rfl

/-- The buffer of a file block holds its bytes. -/
theorem Wf.buffer (h : Wf s v) {bn : ℕ} (hbn : blocks v s.vol (n, placeOf bn) ≠ 0) :
    s.blk ROOTDEV (blocks v s.vol (n, placeOf bn)) =
      s.vol.data (blocks v s.vol (n, placeOf bn)) :=
  (if_pos (h.owned.inside _ hbn).1.1).symm

theorem Wf.block_lt (h : Wf s v) {q : ℕ × Place} (hq : blocks v s.vol q ≠ 0) :
    blocks v s.vol q < FSSIZE :=
  Nat.lt_trans (h.owned.inside _ hq).1.2 (by decide)

theorem readLoop_mapped (h : Wf s v) (hl : Loaded s i n) (hheld : s.held = [])
    {m fuel : ℕ} (off tot : ℕ) (dst : Bytes) (hfuel : m ≤ tot + fuel)
    (hmap : ∀ o, off ≤ o → o < off + (m - tot) → blocks v s.vol (n, placeOf (o / BSIZE)) ≠ 0) :
    ∃ d, readLoop i m fuel off tot dst s = .ok (d, s) ∧
      ∀ k, d k = if tot ≤ k ∧ k < m then byteAt v s.vol n (off + (k - tot)) else dst k := by
  induction fuel generalizing off tot dst with
  | zero =>
    refine ⟨dst, rfl, fun k => ?_⟩
    rw [if_neg (by omega)]
  | succ fuel ih =>
    unfold readLoop
    by_cases htot : tot < m
    · have hmod := mod_BSIZE_lt off
      have hb := hmap off (Nat.le_refl _) (by omega)
      set c := min (m - tot) (BSIZE - off % BSIZE) with hc
      have hcpos : 0 < c := by omega
      set b := blocks v s.vol (n, placeOf (off / BSIZE)) with hbdef
      have hread : bread ROOTDEV b s = .ok (s.blk ROOTDEV b,
          { s with held := [(ROOTDEV, b)] }) := by
        rw [bread_ok]
        exact ⟨by simp [hheld], h.block_lt hb, rfl, by rw [hheld]⟩
      have hrelse : brelse ROOTDEV b { s with held := [(ROOTDEV, b)] } = .ok ((), s) := by
        rw [brelse_ok]
        refine ⟨by simp, ?_⟩
        simp only [List.erase_cons_head]
        rw [← hheld]
      obtain ⟨d, hd, hvalue⟩ := ih (off + c) (tot + c)
        (splice dst tot (s.blk ROOTDEV b) (off % BSIZE) c) (by omega)
        (fun o hlo hhi => hmap o (by omega) (by omega))
      refine ⟨d, ?_, fun k => ?_⟩
      · rw [if_pos htot, bind_of_ok (bmap_mapped h hl hheld hb),
          bind_of_ok (a := ROOTDEV) (t := s) (look_ok.mpr ⟨h.dev hl, rfl⟩), bind_of_ok hread]
        show (brelse ROOTDEV b >>= _) _ = _
        rw [bind_of_ok hrelse]
        exact hd
      · rw [hvalue]
        by_cases hlow : k < tot + c
        · rw [if_neg (by omega)]
          unfold splice
          by_cases hin : tot ≤ k
          · have hblock : (off + (k - tot)) / BSIZE = off / BSIZE :=
              same_block_of_lt (m := c) (by omega) (by omega) (by omega)
            have hoff := same_block hblock
            rw [if_pos ⟨hin, hlow⟩, if_pos ⟨hin, by omega⟩,
              byteAt_mapped (by rw [hblock]; exact hb), hblock, ← hbdef,
              ← (h.buffer hb : s.blk ROOTDEV b = s.vol.data b)]
            congr 1
            omega
          · rw [if_neg (by omega), if_neg (by omega)]
        · have hout : splice dst tot (s.blk ROOTDEV b) (off % BSIZE) c k = dst k :=
            if_neg (by omega)
          rw [hout]
          by_cases hin : k < m
          · rw [if_pos ⟨by omega, hin⟩, if_pos ⟨by omega, hin⟩]
            congr 1
            omega
          · rw [if_neg (by omega), if_neg (by omega)]
    · refine ⟨dst, by rw [if_neg htot]; rfl, fun k => ?_⟩
      rw [if_neg (by omega)]

/-- Every byte of the file has a block. -/
def Mapped (v : Inos) (vol : Volume) (n : ℕ) : Prop :=
  ∀ o, o < (v n).size → blocks v vol (n, placeOf (o / BSIZE)) ≠ 0

/-- readi returns the bytes of a file that is mapped there and leaves everything as it is. -/
theorem readi_mapped (h : Wf s v) (hl : Loaded s i n) (hheld : s.held = [])
    (htype : (v n).type ≠ T_DEV) {off m : ℕ} (hmap : ∀ o, off ≤ o → o < (v n).size → o < off + m →
      blocks v s.vol (n, placeOf (o / BSIZE)) ≠ 0)
    (hoff : off ≤ (v n).size) (hwrap : off + m < 2 ^ 32) :
    ∃ d, readi i off m s = .ok ((((min m ((v n).size - off) : ℕ) : ℤ), d), s) ∧
      ∀ k, k < min m ((v n).size - off) → d k = byteAt v s.vol n (off + k) := by
  have hcached := h.cached i n hl
  have htype' : (s.icache i).type ≠ T_DEV := by
    rw [← hcached] at htype
    exact htype
  have hsize : (s.icache i).size = (v n).size := by
    rw [← hcached]
    rfl
  obtain ⟨d, hd, hvalue⟩ := readLoop_mapped h hl hheld (m := min m ((v n).size - off)) off 0
    (fun _ => 0) (Nat.le_add_left _ 0) (fun o hlo hhi => hmap o hlo (by omega) (by omega))
  refine ⟨d, ?_, fun k hk => ?_⟩
  · unfold readi
    rw [bind_of_ok (a := s.icache i) (t := s) (look_ok.mpr ⟨rfl, rfl⟩), if_neg htype', hsize,
      if_neg (by rw [Nat.mod_eq_of_lt hwrap]; omega)]
    have hlen : (if off + m > (v n).size then (v n).size - off else m) =
        min m ((v n).size - off) := by
      split <;> omega
    show (let m' := if off + m > (v n).size then (v n).size - off else m
      readLoop i m' m' off 0 (fun _ => 0) >>= fun dst => pure (((m' : ℕ) : ℤ), dst)) s = _
    rw [hlen, bind_of_ok hd]
    rfl
  · rw [hvalue, if_pos ⟨by omega, hk⟩, Nat.sub_zero]

end Reading

section Writing

/-- Bytes `off` to `off + m` of inode `n` became those of `src`, and no other byte that
was there changed. -/
structure Wrote (n off m : ℕ) (src : Bytes) (v : Inos) (vol : Volume) (v' : Inos)
    (vol' : Volume) : Prop where
  away : ∀ k o, k ≠ n → bytes v' vol' k o = bytes v vol k o
  inside : ∀ o, off ≤ o → o < off + m → bytes v' vol' n o = some (src (o - off))
  outside : ∀ o x, o < off ∨ off + m ≤ o → bytes v vol n o = some x → bytes v' vol' n o = some x

theorem Wrote.nothing (n off : ℕ) (src : Bytes) (v : Inos) (vol : Volume) :
    Wrote n off 0 src v vol v vol where
  away := fun _ _ _ => rfl
  inside := fun o hlo hhi => by omega
  outside := fun _ _ _ h => h

theorem Wrote.congr {off m : ℕ} {src src' : Bytes} {vol vol' : Volume}
    (h : Wrote n off m src v vol v' vol') (hsrc : ∀ k, k < m → src' k = src k) :
    Wrote n off m src' v vol v' vol' where
  away := h.away
  inside := by
    intro o hlo hhi
    rw [h.inside o hlo hhi, hsrc (o - off) (by omega)]
  outside := h.outside

/-- Two writes one behind the other. -/
theorem Wrote.append {off a b : ℕ} {src : Bytes} {vol vol₁ vol' : Volume} {v₁ : Inos}
    (h : Wrote n off a src v vol v₁ vol₁)
    (h' : Wrote n (off + a) b (fun k => src (a + k)) v₁ vol₁ v' vol') :
    Wrote n off (a + b) src v vol v' vol' where
  away := fun k o hk => (h'.away k o hk).trans (h.away k o hk)
  inside := by
    intro o hlo hhi
    by_cases hfirst : o < off + a
    · exact h'.outside o _ (Or.inl hfirst) (h.inside o hlo hfirst)
    · rw [h'.inside o (by omega) (by omega)]
      congr 2
      omega
  outside := by
    intro o x hout hx
    exact h'.outside o x (by omega) (h.outside o x (by omega) hx)

/-- Other contents in a block that is no index block. -/
theorem Wf.of_data (h : Wf s v) (hf : Frame s t) (hheld : t.held = s.held) {d : ℕ → Bytes}
    (hvol : t.vol = { s.vol with data := d }) (hblocks : blocks v t.vol = blocks v s.vol) :
    Wf t v where
  sb := hf.sb.trans h.sb
  word := by rw [hvol]; exact h.word
  past := hf.past.trans h.past
  held := by rw [hheld]; exact h.held
  outside := h.outside
  inRange := h.inRange
  free := h.free
  reserved := by rw [hvol]; exact h.reserved
  owned := by rw [hblocks, hvol]; exact h.owned
  slots := by rw [hf.icache]; exact h.slots
  devs := by rw [hf.icache]; exact h.devs
  unique := by rw [hf.icache]; exact h.unique
  cached := by
    intro j m hl
    rw [hf.icache]
    exact h.cached j m ⟨hl.slot, hf.icache ▸ hl.ref, hf.icache ▸ hl.valid, hf.icache ▸ hl.inum⟩
  disk := by
    intro m hm hno
    rw [hvol]
    refine h.disk m hm fun j hl => hno j ?_
    exact ⟨hl.slot, hf.icache.symm ▸ hl.ref, hf.icache.symm ▸ hl.valid, hf.icache.symm ▸ hl.inum⟩

/-- Changing the buffer of a file block. -/
theorem writeBlock_spec (h : Wf s v) (hl : Loaded s i n) {bn : ℕ}
    (hbn : blocks v s.vol (n, placeOf bn) ≠ 0) {f : Bytes → Bytes}
    (hrun : (do
      let _ ← bread ROOTDEV (blocks v s.vol (n, placeOf bn))
      setData ROOTDEV (blocks v s.vol (n, placeOf bn)) f
      logWrite (blocks v s.vol (n, placeOf bn))
      brelse ROOTDEV (blocks v s.vol (n, placeOf bn)) : M Unit) s = .ok ((), t)) :
    Wf t v ∧ Grows i n s v t v ∧ blocks v t.vol = blocks v s.vol ∧
      t.vol.data = Function.update s.vol.data (blocks v s.vol (n, placeOf bn))
        (f (s.vol.data (blocks v s.vol (n, placeOf bn)))) := by
  obtain ⟨hf, hheld, hblk⟩ := rewrite_spec hrun
  have hmeta : nmeta ≤ blocks v s.vol (n, placeOf bn) := (h.owned.inside _ hbn).1.1
  rw [h.buffer hbn] at hblk
  have hvol : t.vol = { s.vol with
      data := Function.update s.vol.data (blocks v s.vol (n, placeOf bn))
        (f (s.vol.data (blocks v s.vol (n, placeOf bn)))) } := by
    show volume (t.blk ROOTDEV) = _
    rw [hblk, Function.update_self]
    exact volume_data hmeta
  have hblocks : blocks v t.vol = blocks v s.vol := by
    rw [hvol]
    exact blocks_data fun m => (h.file_ne_index hbn m).symm
  refine ⟨h.of_data hf hheld hvol hblocks, ?_, hblocks, by rw [hvol]⟩
  refine ⟨hf.sb, hf.past, hf.devsw, hf.strict, hf.outstanding, hheld, fun _ _ => by rw [hf.icache],
    ?_, fun _ _ => rfl, rfl, ?_, ?_, ?_, ?_, ?_, ?_⟩
  · rw [hf.icache, ← h.cached i n hl]
    rfl
  · rw [hvol]
  · rw [hvol]
  · rw [hvol]
  · intro q _
    rw [hblocks]
  · intro m p _
    rw [hblocks]
  · intro hleak
    unfold NoLeaks at hleak ⊢
    rw [hblocks, hvol]
    exact hleak

/-- One turn of the loop of writei: bmap, then the change of the buffer. -/
theorem Wrote.block {s₁ : State} {v₁ : Inos} {off c : ℕ} {src : Bytes}
    (h₁ : Wf s₁ v₁) (hext : Extends i n s v s₁ v₁)
    (hc : c ≤ BSIZE - off % BSIZE)
    (hb : blocks v₁ s₁.vol (n, placeOf (off / BSIZE)) ≠ 0)
    (hrest : ∀ bn', bn' ≠ off / BSIZE →
      blocks v₁ s₁.vol (n, placeOf bn') = blocks v s.vol (n, placeOf bn'))
    (hold : blocks v s.vol (n, placeOf (off / BSIZE)) ≠ 0 → s₁ = s ∧ v₁ = v)
    (hblocks : blocks v₁ t.vol = blocks v₁ s₁.vol)
    (hdata : t.vol.data = Function.update s₁.vol.data
      (blocks v₁ s₁.vol (n, placeOf (off / BSIZE)))
      (splice (s₁.vol.data (blocks v₁ s₁.vol (n, placeOf (off / BSIZE)))) (off % BSIZE) src 0 c)) :
    Wrote n off c src v s.vol v₁ t.vol := by
  -- a block of another place keeps its contents
  have hsame : ∀ q bn', q ≠ n ∨ bn' ≠ off / BSIZE →
      blocks v₁ t.vol (q, placeOf bn') = blocks v s.vol (q, placeOf bn') →
      blocks v s.vol (q, placeOf bn') ≠ 0 →
      t.vol.data (blocks v s.vol (q, placeOf bn')) =
        s.vol.data (blocks v s.vol (q, placeOf bn')) := by
    intro q bn' hq heq hne
    rw [hdata, Function.update_of_ne]
    · exact hext.contents q bn' hne
    · intro e
      rw [hblocks] at heq
      rw [← heq] at e hne
      obtain ⟨hqn, hplace⟩ := Prod.mk.inj (h₁.owned.once _ _ hne e)
      exact hq.elim (fun hqn' => hqn' hqn) fun hbn => hbn (placeOf_inj hplace)
  have hblock : ∀ o, o / BSIZE = off / BSIZE → bytes v₁ t.vol n o =
      some (splice (s₁.vol.data (blocks v₁ s₁.vol (n, placeOf (off / BSIZE)))) (off % BSIZE) src 0 c
        (o % BSIZE)) := by
    intro o ho
    rw [bytes, ho, hblocks, if_neg hb, hdata, Function.update_self]
  constructor
  · intro q o hq
    have haway : blocks v₁ t.vol (q, placeOf (o / BSIZE)) =
        blocks v s.vol (q, placeOf (o / BSIZE)) := by
      rw [hblocks]
      exact hext.away q _ hq
    exact bytes_congr haway (hsame q _ (Or.inl hq) haway)
  · intro o hlo hhi
    have ho := same_block_of_lt hlo hhi hc
    have hoff := same_block ho
    rw [hblock o ho, splice, if_pos (by omega)]
    congr 2
    omega
  · intro o x hout hx
    by_cases ho : o / BSIZE = off / BSIZE
    · have hne : blocks v s.vol (n, placeOf (off / BSIZE)) ≠ 0 := by
        intro hz
        rw [bytes_none.mpr (by rw [ho]; exact hz)] at hx
        cases hx
      obtain ⟨rfl, rfl⟩ := hold hne
      have hoff := same_block ho
      rw [bytes, ho, if_neg hne] at hx
      rw [hblock o ho, splice, if_neg (by omega)]
      exact hx
    · have hrest' : blocks v₁ t.vol (n, placeOf (o / BSIZE)) =
          blocks v s.vol (n, placeOf (o / BSIZE)) := by
        rw [hblocks]
        exact hrest _ ho
      rw [bytes_congr hrest' (hsame n _ (Or.inr ho) hrest')]
      exact hx

theorem Grows.type (h : Grows i n s v t v') : (v' n).type = (v n).type := by
  rw [h.fields]

theorem Grows.size (h : Grows i n s v t v') : (v' n).size = (v n).size := by
  rw [h.fields]

theorem writeLoop_spec (h : Wf s v) (hl : Loaded s i n) (htype : (v n).type ≠ 0) {m : ℕ}
    {src : Bytes} {fuel off tot : ℕ} (hfuel : m ≤ tot + fuel)
    (hsmall : off + (m - tot) ≤ smallBlocks * BSIZE)
    (hrun : writeLoop i m src fuel off tot s = .ok ((), t)) :
    ∃ v', Wf t v' ∧ Grows i n s v t v' ∧
      Wrote n off (m - tot) (fun k => src (tot + k)) v s.vol v' t.vol ∧
      ((∀ o, off ≤ o → o < off + (m - tot) → blocks v s.vol (n, placeOf (o / BSIZE)) ≠ 0) →
        v' = v) := by
  induction fuel generalizing s v off tot with
  | zero =>
    obtain ⟨_, rfl⟩ := pure_ok.mp hrun
    rw [show m - tot = 0 by omega]
    exact ⟨v, h, Grows.refl (h.cached i n hl), Wrote.nothing _ _ _ _ _, fun _ => rfl⟩
  | succ fuel ih =>
    unfold writeLoop at hrun
    split at hrun
    · rename_i htot
      have hmod := mod_BSIZE_lt off
      obtain ⟨addr, s₁, g₁, hrun⟩ := bind_ok.mp hrun
      obtain ⟨v₁, h₁, hext, hfound, hne, hrest, hold, _⟩ :=
        bmap_spec h hl htype (lt_smallBlocks (by omega)) g₁
      have hl₁ : Loaded s₁ i n := hext.loaded.mpr hl
      obtain ⟨dev, s₂, g₂, hrun⟩ := bind_ok.mp hrun
      obtain ⟨hdev, rfl⟩ := look_ok.mp g₂
      rw [h₁.dev hl₁] at hdev
      subst hdev
      obtain ⟨data, s₃, g₃, hrun⟩ := bind_ok.mp hrun
      set c := min (m - tot) (BSIZE - off % BSIZE) with hc
      obtain ⟨_, s₄, g₄, hrun⟩ := bind_ok.mp hrun
      obtain ⟨_, s₅, g₅, hrun⟩ := bind_ok.mp hrun
      obtain ⟨_, s₆, g₆, hrun⟩ := bind_ok.mp hrun
      have hblock : (do
          let _ ← bread ROOTDEV addr
          setData ROOTDEV addr fun b => splice b (off % BSIZE) src tot c
          logWrite addr
          brelse ROOTDEV addr : M Unit) s₁ = .ok ((), s₆) := by
        rw [bind_of_ok g₃, bind_of_ok g₄, bind_of_ok g₅]
        exact g₆
      rw [← hfound] at hblock hne
      obtain ⟨h₆, hgrow₆, hblocks₆, hdata₆⟩ := writeBlock_spec h₁ hl₁ hne hblock
      have hfirst : Wrote n off c (fun k => src (tot + k)) v s.vol v₁ s₆.vol := by
        refine Wrote.block h₁ hext (by omega) hne hrest hold hblocks₆ ?_
        rw [hdata₆]
        congr 1
        funext o
        unfold splice
        simp only [Nat.zero_add]
      have hgrow : Grows i n s v s₆ v₁ := hext.toGrows.trans hgrow₆
      obtain ⟨v', h', hgrow', hwrote', hsame'⟩ := ih h₆ (hgrow₆.loaded.mpr hl₁)
        (by rw [hgrow.type]; exact htype) (by omega) (by omega) hrun
      refine ⟨v', h', hgrow.trans hgrow', ?_, fun hmap => ?_⟩
      · rw [show m - (tot + c) = m - tot - c by omega] at hwrote'
        have happ := hfirst.append (b := m - tot - c)
          (by simpa only [Nat.add_assoc] using hwrote')
        rwa [show c + (m - tot - c) = m - tot by omega] at happ
      · have hmapped := hmap off (Nat.le_refl _) (by omega)
        obtain ⟨rfl, rfl⟩ := hold hmapped
        apply hsame'
        intro o hlo hhi
        rw [hblocks₆]
        exact hmap o (by omega) (by omega)
    · obtain ⟨_, rfl⟩ := pure_ok.mp hrun
      rw [show m - tot = 0 by omega]
      exact ⟨v, h, Grows.refl (h.cached i n hl), Wrote.nothing _ _ _ _ _, fun _ => rfl⟩

end Writing

end NorthOS.Fs
