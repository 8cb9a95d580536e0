import NorthOS.InodeOps

/-!
itrunc frees every block of an inode, up to its single-indirect ones, and no other. It
reads the double-indirect entry from the next cache slot: where that slot has ever
been used, the entry is the device number, the superblock is taken for an index block,
and its first word, the size of the file system, is no block that can be read.
-/
namespace NorthOS.Fs

open LittleEndian Halting Comp Ownership

/-- The blocks of `B` were marked free; of the cache only the map of slot `i` may differ. -/
structure Freed (i : ℕ) (B : ℕ → Prop) (s t : State) : Prop where
  sb : t.sb = s.sb
  past : t.past = s.past
  devsw : t.devsw = s.devsw
  strict : t.strict = s.strict
  outstanding : t.log.outstanding = s.log.outstanding
  held : t.held = s.held
  slots : ∀ j, j ≠ i → t.icache j = s.icache j
  slot : t.icache i = { s.icache i with addrs := (t.icache i).addrs }
  ino : t.vol.ino = s.vol.ino
  far : t.vol.far = s.vol.far
  data : t.vol.data = s.vol.data
  word : t.vol.word = s.vol.word
  used : ∀ b, t.vol.used b = true ↔ s.vol.used b = true ∧ ¬ B b

variable {i n k : ℕ} {B C : ℕ → Prop} {s t u : State} {v : Inos}

theorem Freed.nothing (i : ℕ) (s : State) (hB : ∀ b, ¬ B b) : Freed i B s s :=
  ⟨rfl, rfl, rfl, rfl, rfl, rfl, fun _ _ => rfl, rfl, rfl, rfl, rfl, rfl,
    fun b => by simp [hB b]⟩

theorem Freed.trans (h : Freed i B s t) (h' : Freed i C t u) :
    Freed i (fun b => B b ∨ C b) s u where
  sb := h'.sb.trans h.sb
  past := h'.past.trans h.past
  devsw := h'.devsw.trans h.devsw
  strict := h'.strict.trans h.strict
  outstanding := h'.outstanding.trans h.outstanding
  held := h'.held.trans h.held
  slots := fun j hj => (h'.slots j hj).trans (h.slots j hj)
  slot := by rw [h'.slot, h.slot]
  ino := h'.ino.trans h.ino
  far := h'.far.trans h.far
  data := h'.data.trans h.data
  word := h'.word.trans h.word
  used := by
    intro b
    rw [h'.used, h.used, not_or, and_assoc]

theorem Freed.congr (h : Freed i B s t) (hBC : ∀ b, B b ↔ C b) : Freed i C s t :=
  { h with used := fun b => by rw [h.used, hBC] }

/-- bfree of a block of the root device. -/
theorem bfree_freed {b : ℕ} (hsb : s.sb = mkfsSuperblock) (hrun : bfree ROOTDEV b s = .ok ((), t)) :
    Freed i (· = b) s t ∧ t.icache = s.icache := by
  obtain ⟨hf, hheld, _, hb, hvol⟩ := bfree_spec hsb hrun
  refine ⟨⟨hf.sb, hf.past, hf.devsw, hf.strict, hf.outstanding, hheld, fun _ _ => by rw [hf.icache],
    by rw [hf.icache], by rw [hvol], by rw [hvol], by rw [hvol], by rw [hvol], fun c => ?_⟩,
    hf.icache⟩
  rw [hvol]
  show Function.update s.vol.used b false c = true ↔ _
  by_cases hc : c = b
  · simp [hc]
  · simp [hc]

/-- A loop that frees one set of blocks a turn. -/
theorem forBelow_freed {I : ℕ → State → Prop} {D : ℕ → ℕ → Prop} {body : ℕ → M Unit} {n : ℕ}
    (hstart : I 0 s)
    (hbody : ∀ k s t, k < n → I k s → body k s = .ok ((), t) → Freed i (D k) s t ∧ I (k + 1) t)
    (hrun : forBelow body n s = .ok ((), t)) :
    Freed i (fun b => ∃ k, k < n ∧ D k b) s t ∧ I n t := by
  induction n generalizing t with
  | zero =>
    obtain ⟨_, rfl⟩ := pure_ok.mp hrun
    exact ⟨Freed.nothing i s (by simp), hstart⟩
  | succ n ih =>
    obtain ⟨_, s₁, h₁, h₂⟩ :=
      bind_ok.mp (show (forBelow body n >>= fun _ => body n) s = _ from hrun)
    obtain ⟨hfreed, hI⟩ := ih (fun k s t hk => hbody k s t (by omega)) h₁
    obtain ⟨hfreed', hI'⟩ := hbody n s₁ t (Nat.lt_succ_self n) hI h₂
    refine ⟨(hfreed.trans hfreed').congr fun b => ?_, hI'⟩
    constructor
    · rintro (⟨k, hk, hb⟩ | hb)
      · exact ⟨k, by omega, hb⟩
      · exact ⟨n, by omega, hb⟩
    · rintro ⟨k, hk, hb⟩
      by_cases hkn : k = n
      · exact Or.inr (hkn ▸ hb)
      · exact Or.inl ⟨k, by omega, hb⟩

/-- A loop that returns has done its first turn. -/
theorem forBelow_first {body : ℕ → M Unit} {n : ℕ} (hrun : forBelow body (n + 1) s = .ok ((), t)) :
    ∃ u, body 0 s = .ok ((), u) := by
  induction n generalizing t with
  | zero => exact ⟨t, hrun⟩
  | succ n ih =>
    obtain ⟨_, s₁, h₁, _⟩ :=
      bind_ok.mp (show (forBelow body (n + 1) >>= fun _ => body (n + 1)) s = _ from hrun)
    exact ih h₁

section Entries

/-- The entries of the map that itrunc has cleared in its slot. -/
def clearedBelow (a : ℕ → ℕ) (k : ℕ) : ℕ → ℕ := fun j => if j < k then 0 else a j

theorem clearedBelow_succ {a : ℕ → ℕ} :
    Function.update (clearedBelow a k) k 0 = clearedBelow a (k + 1) := by
  funext j
  unfold clearedBelow
  by_cases hj : j = k
  · rw [hj, Function.update_self, if_pos (Nat.lt_succ_self k)]
  · rw [Function.update_of_ne hj]
    have hiff : j < k ↔ j < k + 1 := by omega
    simp only [hiff]

/-- One entry of addrs: what hangs below it is freed, then its block, and it is cleared. -/
theorem freeAddr_freed {inner : ℕ → M Unit} (hsb : s.sb = mkfsSuperblock)
    (hdev : (s.icache i).dev = ROOTDEV) (hk : k < NDIRECT + 1)
    (hinner : ∀ u, (s.icache i).addrs k ≠ 0 → inner ((s.icache i).addrs k) s = .ok ((), u) →
      Freed i B s u ∧ (u.icache i).addrs = (s.icache i).addrs)
    (hrun : freeAddr i k inner s = .ok ((), t)) :
    Freed i (fun b => (s.icache i).addrs k ≠ 0 ∧ (B b ∨ b = (s.icache i).addrs k)) s t ∧
      (t.icache i).addrs = Function.update (s.icache i).addrs k 0 := by
  obtain ⟨addr, s₀, h₀, g₀⟩ := bind_ok.mp hrun
  obtain ⟨haddr, hs₀⟩ := getAddr_ok hk h₀
  rw [hs₀] at g₀
  split at g₀
  · rename_i hzero
    rw [haddr] at hzero
    obtain ⟨_, rfl⟩ := pure_ok.mp g₀
    refine ⟨Freed.nothing i s (by simp [hzero]), ?_⟩
    rw [← hzero, Function.update_eq_self]
  · rename_i hne
    rw [haddr] at hne g₀
    obtain ⟨_, s₁, h₁, g₁⟩ := bind_ok.mp g₀
    obtain ⟨hfreed₁, haddrs₁⟩ := hinner s₁ hne h₁
    obtain ⟨dev, s₂, h₂, g₂⟩ := bind_ok.mp g₁
    obtain ⟨hdev₂, rfl⟩ := look_ok.mp h₂
    have hdev₁ : (s₁.icache i).dev = ROOTDEV := by
      rw [hfreed₁.slot]
      exact hdev
    rw [hdev₁] at hdev₂
    obtain ⟨addr', s₃, h₃, g₃⟩ := bind_ok.mp g₂
    obtain ⟨haddr', hs₃⟩ := getAddr_ok hk h₃
    rw [hs₃, ← hdev₂] at g₃
    obtain ⟨_, s₄, h₄, g₄⟩ := bind_ok.mp g₃
    obtain ⟨hfreed₄, hicache₄⟩ := bfree_freed (i := i) (hfreed₁.sb.trans hsb) h₄
    rw [haddrs₁] at haddr'
    have ht := setAddr_ok hk g₄
    have hself : t.icache i = { s₄.icache i with
        addrs := Function.update (s₄.icache i).addrs k 0 } := by
      rw [ht, setSlot_self]
    have hset : Freed i (fun _ => False) s₄ t := by
      refine ⟨?_, ?_, ?_, ?_, ?_, ?_, ?_, ?_, ?_, ?_, ?_, ?_, ?_⟩
      · rw [ht]; rfl
      · rw [ht]; rfl
      · rw [ht]; rfl
      · rw [ht]; rfl
      · rw [ht]; rfl
      · rw [ht]; rfl
      · intro j hj
        rw [ht, setSlot_other _ _ _ hj]
      · rw [hself]
      · rw [ht, setSlot_vol]
      · rw [ht, setSlot_vol]
      · rw [ht, setSlot_vol]
      · rw [ht, setSlot_vol]
      · intro b
        rw [ht, setSlot_vol]
        simp
    refine ⟨((hfreed₁.trans hfreed₄).trans hset).congr fun b => ?_, ?_⟩
    · rw [haddr', or_false]
      exact ⟨fun h => ⟨hne, h⟩, fun h => h.2⟩
    · rw [hself, hicache₄, haddrs₁]

/-- Freeing while a buffer is locked that is released afterwards. -/
theorem Freed.locked {x : ℕ × ℕ} (h : Freed i B { s with held := x :: s.held } t) :
    Freed i B s { t with held := t.held.erase x } where
  sb := h.sb
  past := h.past
  devsw := h.devsw
  strict := h.strict
  outstanding := h.outstanding
  held := by
    show t.held.erase x = s.held
    rw [h.held]
    exact List.erase_cons_head _ _
  slots := h.slots
  slot := h.slot
  ino := h.ino
  far := h.far
  data := h.data
  word := h.word
  used := h.used

/-- The loop over an index block frees the blocks that it names. -/
theorem freeEntries_freed {addr : ℕ} (hsb : s.sb = mkfsSuperblock)
    (hdev : (s.icache i).dev = ROOTDEV) (haddr : nmeta ≤ addr)
    (hrun : freeEntries i (fun _ => pure ()) addr s = .ok ((), t)) :
    Freed i (fun b => ∃ j, j < NINDIRECT ∧ get (s.vol.data addr) (4 * j) 4 ≠ 0 ∧
      b = get (s.vol.data addr) (4 * j) 4) s t ∧ t.icache = s.icache := by
  obtain ⟨dev, s₀, h₀, g₀⟩ := bind_ok.mp hrun
  obtain ⟨hdev₀, hs₀⟩ := look_ok.mp h₀
  rw [← hs₀, ← hdev₀, hdev] at g₀
  obtain ⟨_, s₁, h₁, g₁⟩ := bind_ok.mp g₀
  obtain ⟨_, _, _, hs₁⟩ := bread_ok.mp h₁
  obtain ⟨_, s₂, h₂, g₂⟩ := bind_ok.mp g₁
  obtain ⟨_, ht⟩ := brelse_ok.mp g₂
  -- the entries are those of the start, as nothing but the bitmap is written
  have hloop := forBelow_freed (i := i)
    (I := fun _ u => u.icache = s.icache ∧ u.sb = s.sb ∧ u.vol.data = s.vol.data)
    (D := fun j b => get (s.vol.data addr) (4 * j) 4 ≠ 0 ∧ b = get (s.vol.data addr) (4 * j) 4)
    (s := s₁) (t := s₂) (n := NINDIRECT) (by rw [hs₁]; exact ⟨rfl, rfl, rfl⟩) ?_ h₂
  · rw [hs₁] at hloop
    refine ⟨?_, ?_⟩
    · rw [ht]
      exact hloop.1.locked
    · rw [ht]
      exact hloop.2.1
  · intro j u w hj hI hbody
    obtain ⟨hicache, hsb', hdata⟩ := hI
    obtain ⟨a, u₁, f₁, f₂⟩ := bind_ok.mp hbody
    obtain ⟨ha, hu₁⟩ := look_ok.mp f₁
    have hbuf : a = s.vol.data addr := by
      rw [← ha, ← hdata]
      exact (if_pos haddr).symm
    rw [← hu₁, hbuf] at f₂
    split at f₂
    · rename_i hzero
      obtain ⟨_, rfl⟩ := pure_ok.mp f₂
      exact ⟨Freed.nothing i u (by simp [hzero]), hicache, hsb', hdata⟩
    · rename_i hne
      obtain ⟨_, u₂, f₃, f₄⟩ := bind_ok.mp f₂
      obtain ⟨_, rfl⟩ := pure_ok.mp f₃
      obtain ⟨dev', u₃, f₅, f₆⟩ := bind_ok.mp f₄
      obtain ⟨hdev', rfl⟩ := look_ok.mp f₅
      rw [← hdev', hicache, hdev] at f₆
      obtain ⟨hfreed, hkeep⟩ := bfree_freed (i := i) (hsb'.trans hsb) f₆
      refine ⟨hfreed.congr fun b => ?_, hkeep.trans hicache, hfreed.sb.trans hsb',
        hfreed.data.trans hdata⟩
      exact ⟨fun hb => ⟨hne, hb⟩, fun hb => hb.2⟩

/-- Where the next slot was used, itrunc takes block 1 for the double-indirect block. -/
theorem freeAddr_far (h : s.vol.word = FSSIZE) (hpast : s.past = 0)
    (hdev : (s.icache i).dev = ROOTDEV)
    (hnext : i + 1 < NINODE → (s.icache (i + 1)).dev = 0 ∨ (s.icache (i + 1)).dev = ROOTDEV)
    (hrun : freeAddr i (NDIRECT + 1) (fun addr =>
      freeEntries i (fun a => freeEntries i (fun _ => pure ()) a) addr) s = .ok ((), t)) :
        t = s := by
  obtain ⟨addr, s₀, h₀, g₀⟩ := bind_ok.mp hrun
  obtain ⟨_, s₁, h₁, h₂⟩ := bind_ok.mp h₀
  obtain ⟨_, hs₁⟩ := ensure_ok.mp h₁
  obtain ⟨haddr, hs₀⟩ := look_ok.mp h₂
  rw [← hs₁] at haddr hs₀
  rw [← hs₀] at g₀
  rw [if_neg (by omega)] at haddr
  have hcases : addr = 0 ∨ addr = ROOTDEV := by
    rw [← haddr]
    split
    · rename_i hlt
      exact hnext hlt
    · exact Or.inl hpast
  rcases hcases with hzero | hone
  · rw [if_pos hzero] at g₀
    obtain ⟨_, ht⟩ := pure_ok.mp g₀
    exact ht.symm
  · have hne : addr ≠ 0 := by
      rw [hone]
      decide
    rw [if_neg hne, hone] at g₀
    exfalso
    obtain ⟨_, s₂, h₃, _⟩ := bind_ok.mp g₀
    obtain ⟨dev, s₃, h₄, g₄⟩ := bind_ok.mp h₃
    obtain ⟨hdev₃, hs₃⟩ := look_ok.mp h₄
    rw [← hs₃, ← hdev₃, hdev] at g₄
    obtain ⟨_, s₄, h₅, g₅⟩ := bind_ok.mp g₄
    obtain ⟨_, _, _, hs₄⟩ := bread_ok.mp h₅
    obtain ⟨_, s₅, h₆, _⟩ := bind_ok.mp g₅
    obtain ⟨u, hfirst⟩ := forBelow_first h₆
    obtain ⟨a, s₆, h₇, h₈⟩ := bind_ok.mp hfirst
    obtain ⟨ha, hs₆⟩ := look_ok.mp h₇
    have hword : get a (4 * 0) 4 = FSSIZE := by
      rw [← ha, hs₄]
      exact h
    rw [hword, if_neg (by decide)] at h₈
    obtain ⟨_, s₇, h₉, _⟩ := bind_ok.mp h₈
    obtain ⟨dev', s₈, h₁₀, g₁₀⟩ := bind_ok.mp h₉
    obtain ⟨_, s₉, h₁₁, _⟩ := bind_ok.mp g₁₀
    exact absurd (bread_ok.mp h₁₁).2.1 (Nat.lt_irrefl _)

end Entries

section Itrunc

/-- The inode that itrunc leaves. -/
def Ino.truncated (x : Ino) : Ino := { x with size := 0, addrs := fun _ => 0 }

/-- What itrunc did to the file system. -/
structure Truncated (n : ℕ) (s : State) (v : Inos) (t : State) (v' : Inos) : Prop where
  wf : Wf t v'
  steady : Steady s t
  inos : v' = Function.update v n (v n).truncated
  blocks : ∀ q, blocks v' t.vol q = if q.1 = n then 0 else blocks v s.vol q
  data : t.vol.data = s.vol.data
  far : t.vol.far = s.vol.far
  ino : t.vol.ino = Function.update s.vol.ino n (v n).truncated
  leaks : NoLeaks s v → NoLeaks t v'

theorem Ino.entry_direct (x : Ino) (data : ℕ → Bytes) {k : ℕ} (hk : k < NDIRECT) :
    x.entry data (.direct k) = x.addrs k := if_pos hk

/-- The blocks that the first two parts of itrunc free are those of the map. -/
theorem freeNear_frees (hsb : s.sb = mkfsSuperblock) (hdev : (s.icache i).dev = ROOTDEV)
    (hmeta : (s.icache i).addrs NDIRECT ≠ 0 → nmeta ≤ (s.icache i).addrs NDIRECT)
    (hrest : ∀ k, NDIRECT < k → (s.icache i).addrs k = 0) (hrun : freeNear i s = .ok ((), t)) :
    Freed i (fun b => b ≠ 0 ∧ ∃ p, (s.icache i).ino.entry s.vol.data p = b) s t ∧
      (t.icache i).addrs = fun _ => 0 := by
  generalize hx : (s.icache i).ino = x
  have haddrs : (s.icache i).addrs = x.addrs := by rw [← hx]; rfl
  rw [haddrs] at hmeta hrest
  obtain ⟨_, s₁, h₁, h₂⟩ := bind_ok.mp hrun
  obtain ⟨hdirect, hsb₁, hdev₁, haddrs₁⟩ := forBelow_freed (i := i)
    (I := fun k u => u.sb = mkfsSuperblock ∧ (u.icache i).dev = ROOTDEV ∧
      (u.icache i).addrs = clearedBelow x.addrs k)
    (D := fun k b => x.addrs k ≠ 0 ∧ b = x.addrs k)
    ⟨hsb, hdev, by rw [haddrs]; rfl⟩ (by
      intro k u w hk hI hbody
      obtain ⟨hsb, hdev, haddrs⟩ := hI
      have hentry : (u.icache i).addrs k = x.addrs k := by
        rw [haddrs]
        exact if_neg (Nat.lt_irrefl k)
      obtain ⟨hfreed, hafter⟩ := freeAddr_freed (B := fun _ => False) hsb hdev (by omega)
        (by
          intro w' _ hpure
          obtain ⟨_, rfl⟩ := pure_ok.mp hpure
          exact ⟨Freed.nothing i u fun _ => id, rfl⟩) hbody
      rw [hentry] at hfreed
      refine ⟨hfreed.congr fun b => by rw [false_or], hfreed.sb.trans hsb, ?_, ?_⟩
      · rw [hfreed.slot]
        exact hdev
      · rw [hafter, haddrs]
        exact clearedBelow_succ) h₁
  have hlast : (s₁.icache i).addrs NDIRECT = x.addrs NDIRECT := by
    rw [haddrs₁]
    exact if_neg (Nat.lt_irrefl _)
  obtain ⟨hindex, hafter⟩ := freeAddr_freed
    (B := fun b => ∃ j, j < NINDIRECT ∧ get (s.vol.data (x.addrs NDIRECT)) (4 * j) 4 ≠ 0 ∧
      b = get (s.vol.data (x.addrs NDIRECT)) (4 * j) 4) hsb₁ hdev₁ (Nat.lt_succ_self _) (by
      intro u hne hloop
      rw [hlast] at hne hloop
      have hfreed := freeEntries_freed hsb₁ hdev₁ (hmeta hne) hloop
      rw [hdirect.data] at hfreed
      exact ⟨hfreed.1, by rw [hfreed.2]⟩) h₂
  rw [hlast] at hindex
  refine ⟨(hdirect.trans hindex).congr fun b => ?_, funext fun k => ?_⟩
  · constructor
    · rintro (⟨k, hk, hne, rfl⟩ | ⟨hne, ⟨j, hj, hne', rfl⟩ | rfl⟩)
      · exact ⟨hne, .direct k, x.entry_direct s.vol.data hk⟩
      · exact ⟨hne', .leaf j, if_pos ⟨hj, hne⟩⟩
      · exact ⟨hne, .index, rfl⟩
    · rintro ⟨hne, p, rfl⟩
      cases p with
      | direct k =>
        have hk : k < NDIRECT := by
          by_contra hk
          exact hne (if_neg hk)
        rw [x.entry_direct s.vol.data hk] at hne ⊢
        exact Or.inl ⟨k, hk, hne, rfl⟩
      | index => exact Or.inr ⟨hne, Or.inr rfl⟩
      | leaf j =>
        have hj : j < NINDIRECT ∧ x.addrs NDIRECT ≠ 0 := by
          by_contra hj
          exact hne (if_neg hj)
        have hvalue : x.entry s.vol.data (.leaf j) =
            get (s.vol.data (x.addrs NDIRECT)) (4 * j) 4 := if_pos hj
        rw [hvalue] at hne ⊢
        exact Or.inr ⟨hj.2, Or.inl ⟨j, hj.1, hne, rfl⟩⟩
  · rw [hafter, haddrs₁]
    by_cases hkn : k = NDIRECT
    · rw [hkn, Function.update_self]
    · rw [Function.update_of_ne hkn]
      unfold clearedBelow
      split
      · rfl
      · rename_i hlow
        exact hrest k (by omega)

theorem freeNear_freed (h : Wf s v) (hl : Loaded s i n) (hrun : freeNear i s = .ok ((), t)) :
    Freed i (fun b => b ≠ 0 ∧ ∃ p, blocks v s.vol (n, p) = b) s t ∧
      (t.icache i).addrs = fun _ => 0 := by
  have hino := h.cached i n hl
  have hcached : (s.icache i).addrs = (v n).addrs := by
    rw [← hino]
    rfl
  have hfreed := freeNear_frees h.sb (h.dev hl)
    (by rw [hcached]; exact fun hne => (h.index_inside hne).1.1)
    (by rw [hcached]; exact (h.inRange n).rest) hrun
  rw [hino] at hfreed
  exact hfreed

theorem Ino.InRange.truncated {x : Ino} (h : x.InRange) : x.truncated.InRange :=
  { h with
    size := Nat.two_pow_pos 32
    addrs := fun _ => Nat.two_pow_pos 32
    rest := fun _ _ => rfl }

/-- The maps after the blocks of inode `n` are gone. -/
theorem blocks_truncated {vol vol' : Volume} (hdata : vol'.data = vol.data) (q : ℕ × Place) :
    blocks (Function.update v n (v n).truncated) vol' q =
      if q.1 = n then 0 else blocks v vol q := by
  obtain ⟨m, p⟩ := q
  show (Function.update v n (v n).truncated m).entry vol'.data p =
    if m = n then 0 else (v m).entry vol.data p
  split
  · rename_i hm
    rw [hm, Function.update_self]
    cases p <;> simp [Ino.entry, Ino.truncated]
  · rename_i hm
    rw [Function.update_of_ne hm, hdata]

/-- After the blocks are freed and the slot is cleared, the file system is well formed. -/
theorem Wf.truncate (h : Wf s v) (hl : Loaded s i n)
    (hfreed : Freed i (fun b => b ≠ 0 ∧ ∃ p, blocks v s.vol (n, p) = b) s u)
    (hvol : t.vol = u.vol) (hsteady : Steady s t) (hslots : ∀ j, j ≠ i → t.icache j = s.icache j)
    (hino : (t.icache i).ino = (v n).truncated) :
    Wf t (Function.update v n (v n).truncated) ∧
      (NoLeaks s v → NoLeaks t (Function.update v n (v n).truncated)) := by
  have hdata : t.vol.data = s.vol.data := by rw [hvol, hfreed.data]
  have hmark : ∀ b, t.vol.used b = true ↔
      s.vol.used b = true ∧ ¬ (b ≠ 0 ∧ ∃ p, blocks v s.vol (n, p) = b) := by
    rw [hvol]
    exact hfreed.used
  have hblocks := blocks_truncated (v := v) (n := n) hdata
  have hgone : ∀ q : ℕ × Place, q.1 = n →
      blocks (Function.update v n (v n).truncated) t.vol q = 0 := by
    intro q hq
    rw [hblocks, if_pos hq]
  have hkept : ∀ q : ℕ × Place, ¬ q.1 = n →
      blocks (Function.update v n (v n).truncated) t.vol q = blocks v s.vol q := by
    intro q hq
    rw [hblocks, if_neg hq]
  have hused : ∀ b, b ≠ 0 → (t.vol.used b = true ↔
      s.vol.used b = true ∧ ∀ q : ℕ × Place, q.1 = n → blocks v s.vol q ≠ b) := by
    intro b hb
    rw [hmark]
    refine and_congr_right fun _ => ⟨?_, ?_⟩
    · rintro hno ⟨m, p⟩ rfl he
      exact hno ⟨hb, p, he⟩
    · rintro hno ⟨_, p, he⟩
      exact hno (n, p) rfl he
  refine ⟨?_, fun hleak => hleak.detach hkept hused (by decide)⟩
  constructor
  · exact hsteady.sb.trans h.sb
  · rw [hvol]
    exact hfreed.word.trans h.word
  · exact hsteady.past.trans h.past
  · rw [hsteady.held]
    exact h.held
  · intro m hm
    have hmn : m ≠ n := fun e => absurd (h.inum_lt hl) (by omega)
    rw [Function.update_of_ne hmn]
    exact h.outside m hm
  · intro m
    by_cases hmn : m = n
    · rw [hmn, Function.update_self]
      exact (h.inRange n).truncated
    · rw [Function.update_of_ne hmn]
      exact h.inRange m
  · intro m
    by_cases hmn : m = n
    · rw [hmn, Function.update_self]
      exact fun _ _ => rfl
    · rw [Function.update_of_ne hmn]
      exact h.free m
  · intro b hb
    rw [hmark]
    refine ⟨h.reserved b hb, ?_⟩
    rintro ⟨hne, p, he⟩
    have hinside := (h.owned.inside (n, p) (by rw [he]; exact hne)).1.1
    omega
  · exact h.owned.detach hgone hkept hused
  · intro j hj href
    rw [hsteady.dev, hsteady.inum]
    exact h.slots j hj (hsteady.ref j ▸ href)
  · intro j hj
    rw [hsteady.dev]
    exact h.devs j hj
  · intro j k hj hk hrj hrk he
    rw [hsteady.inum, hsteady.inum] at he
    exact h.unique j k hj hk (hsteady.ref j ▸ hrj) (hsteady.ref k ▸ hrk) he
  · intro j m hl'
    have hl₀ := hsteady.loaded.mp hl'
    by_cases hj : j = i
    · have hmn : m = n := by rw [← hl₀.inum, hj, hl.inum]
      rw [hj, hmn, Function.update_self]
      exact hino
    · have hmn : m ≠ n := by
        rintro rfl
        exact hj (h.eq_slot hl hl₀)
      rw [hslots j hj, Function.update_of_ne hmn]
      exact h.cached j m hl₀
  · intro m hm hno
    have hmn : m ≠ n := by
      rintro rfl
      exact hno i (hsteady.loaded.mpr hl)
    rw [Function.update_of_ne hmn, hvol, hfreed.ino]
    exact h.disk m hm fun j hl' => hno j (hsteady.loaded.mpr hl')

/-- itrunc leaves an empty inode and frees all its blocks, or it halts. -/
theorem itrunc_spec (h : Wf s v) (hl : Loaded s i n) (hrun : itrunc i s = .ok ((), t)) :
    Truncated n s v t (Function.update v n (v n).truncated) := by
  have hcached := h.cached i n hl
  rw [itrunc_eq] at hrun
  obtain ⟨_, s₁, h₁, hrun⟩ := bind_ok.mp hrun
  obtain ⟨hfreed, haddrs⟩ := freeNear_freed h hl h₁
  obtain ⟨_, s₂, h₂, hrun⟩ := bind_ok.mp hrun
  have hself : s₁.icache i = { s.icache i with addrs := fun _ => 0 } := by
    rw [hfreed.slot, haddrs]
  have hs₂ : s₂ = s₁ := by
    refine freeAddr_far (hfreed.word.trans h.word) (hfreed.past.trans h.past) ?_ ?_ h₂
    · rw [hself]
      exact h.dev hl
    · intro hlt
      rw [hfreed.slots _ (by omega)]
      exact h.devs _ hlt
  rw [hs₂] at hrun
  obtain ⟨_, s₃, h₃, h₄⟩ := bind_ok.mp hrun
  have hs₃ : s₁.setSlot i (fun ip => { ip with size := 0 }) = s₃ := update_ok.mp h₃
  have hslots₃ : ∀ j, j ≠ i → s₃.icache j = s.icache j := by
    intro j hj
    rw [← hs₃, setSlot_other _ _ _ hj, hfreed.slots j hj]
  have hself₃ : s₃.icache i = { s.icache i with size := 0, addrs := fun _ => 0 } := by
    rw [← hs₃, setSlot_self, hself]
  have hvol₃ : s₃.vol = s₁.vol := by rw [← hs₃, setSlot_vol]
  have hsteady₃ : Steady s s₃ := by
    have hfields : ∀ j, (s₃.icache j).dev = (s.icache j).dev ∧
        (s₃.icache j).inum = (s.icache j).inum ∧ (s₃.icache j).ref = (s.icache j).ref ∧
        (s₃.icache j).valid = (s.icache j).valid := by
      intro j
      by_cases hj : j = i
      · rw [hj, hself₃]
        exact ⟨rfl, rfl, rfl, rfl⟩
      · rw [hslots₃ j hj]
        exact ⟨rfl, rfl, rfl, rfl⟩
    rw [← hs₃] at hfields ⊢
    exact ⟨hfreed.sb, hfreed.past, hfreed.devsw, hfreed.strict, hfreed.outstanding, hfreed.held,
      fun j => (hfields j).1, fun j => (hfields j).2.1, fun j => (hfields j).2.2.1,
      fun j => (hfields j).2.2.2⟩
  have hino₃ : (s₃.icache i).ino = (v n).truncated := by
    rw [hself₃, ← hcached]
    rfl
  obtain ⟨hwf₃, hleak₃⟩ := h.truncate hl hfreed hvol₃ hsteady₃ hslots₃ hino₃
  obtain ⟨hwf, hframe, hheld, hvol⟩ := iupdate_spec hwf₃ (hsteady₃.loaded.mpr hl) h₄
  rw [Function.update_self, hvol₃] at hvol
  have hdata : t.vol.data = s.vol.data := by rw [hvol, ← hfreed.data]
  refine ⟨hwf, hsteady₃.trans (hframe.steady hheld), rfl, blocks_truncated hdata, hdata, ?_, ?_, ?_⟩
  · rw [hvol]
    exact hfreed.far
  · rw [hvol, ← hfreed.ino]
  · intro hleak
    have hleak₃' := hleak₃ hleak
    have hsame : blocks (Function.update v n (v n).truncated) t.vol =
        blocks (Function.update v n (v n).truncated) s₃.vol := by
      rw [hvol, hvol₃]
      rfl
    unfold NoLeaks at hleak₃' ⊢
    rw [hsame, hvol, ← hvol₃]
    exact hleak₃'

end Itrunc

end NorthOS.Fs
