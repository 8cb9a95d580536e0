import NorthOS.Fs

/-!
The three areas of a volume made by mkfs: inodes, the bitmap, data blocks. Each kind
of change that fs.c makes to a block changes one component of the volume.
-/
namespace NorthOS.Fs

open LittleEndian Halting

/-- What an inode says about its file, on disk or in the cache. -/
@[ext] structure Ino where
  type : ℕ
  major : ℕ
  minor : ℕ
  nlink : ℕ
  size : ℕ
  addrs : ℕ → ℕ

def Ino.free : Ino := ⟨0, 0, 0, 0, 0, fun _ => 0⟩

def Inode.ino (ip : Inode) : Ino :=
  ⟨ip.type, ip.major, ip.minor, ip.nlink, ip.size, ip.addrs⟩

/-- The fields fit their widths, and the map has no entries but its own. -/
structure Ino.InRange (x : Ino) : Prop where
  type : x.type < 2 ^ 16
  major : x.major < 2 ^ 16
  minor : x.minor < 2 ^ 16
  nlink : x.nlink < 2 ^ 16
  size : x.size < 2 ^ 32
  addrs : ∀ k, x.addrs k < 2 ^ 32
  rest : ∀ k, NDIRECT < k → x.addrs k = 0

def readIno (b : Bytes) (o : ℕ) : Ino where
  type := get b o 2
  major := get b (o + 2) 2
  minor := get b (o + 4) 2
  nlink := get b (o + 6) 2
  size := get b (o + 8) 4
  addrs := fun k => if k < NDIRECT + 1 then get b (o + 12 + 4 * k) 4 else 0

theorem readIno_inRange (b : Bytes) (o : ℕ) : (readIno b o).InRange where
  type := get_lt b o 2
  major := get_lt b (o + 2) 2
  minor := get_lt b (o + 4) 2
  nlink := get_lt b (o + 6) 2
  size := get_lt b (o + 8) 4
  addrs := by
    intro k
    show (if k < NDIRECT + 1 then get b (o + 12 + 4 * k) 4 else 0) < 2 ^ 32
    split
    · exact get_lt b _ 4
    · omega
  rest := by
    intro k hk
    exact if_neg (by omega)

theorem readIno_congr {b c : Bytes} {o : ℕ} (h : ∀ i, o ≤ i → i < o + 128 → b i = c i) :
    readIno b o = readIno c o := by
  have hget : ∀ o' len, o ≤ o' → o' + len ≤ o + 128 → get b o' len = get c o' len := by
    intro o' len hlo hhi
    exact get_congr fun i h₀ h₁ => h i (by omega) (by omega)
  ext
  · exact hget _ _ (by omega) (by omega)
  · exact hget _ _ (by omega) (by omega)
  · exact hget _ _ (by omega) (by omega)
  · exact hget _ _ (by omega) (by omega)
  · exact hget _ _ (by omega) (by omega)
  · rename_i k
    show (if k < NDIRECT + 1 then _ else 0) = (if k < NDIRECT + 1 then _ else 0)
    split
    · rename_i hk
      simp only [NDIRECT] at hk
      exact hget _ _ (by omega) (by omega)
    · rfl

theorem get_putAddrs_other {b : Bytes} {o : ℕ} {addrs : ℕ → ℕ} {n o' len : ℕ}
    (h : o' + len ≤ o ∨ o + 4 * n ≤ o') :
    get (putAddrs b o addrs n) o' len = get b o' len := by
  induction n with
  | zero => rfl
  | succ n ih =>
    rw [putAddrs, get_put_other (by omega)]
    exact ih (by omega)

theorem get_putAddrs {b : Bytes} {o : ℕ} {addrs : ℕ → ℕ} {n k : ℕ} (hk : k < n)
    (hfit : addrs k < 2 ^ 32) : get (putAddrs b o addrs n) (o + 4 * k) 4 = addrs k := by
  induction n with
  | zero => omega
  | succ n ih =>
    rw [putAddrs]
    by_cases hkn : k = n
    · subst hkn
      exact get_put_of_lt hfit
    · rw [get_put_other (by omega)]
      exact ih (by omega)

theorem readIno_storeDinode (b : Bytes) (o : ℕ) {ip : Inode} (h : ip.ino.InRange) :
    readIno (storeDinode b o ip) o = ip.ino := by
  have htype : ip.type < 256 ^ 2 := h.type
  have hmajor : ip.major < 256 ^ 2 := h.major
  have hminor : ip.minor < 256 ^ 2 := h.minor
  have hnlink : ip.nlink < 256 ^ 2 := h.nlink
  have hsize : ip.size < 256 ^ 4 := h.size
  unfold storeDinode
  ext
  · show get (putAddrs _ _ _ _) o 2 = ip.type
    rw [get_putAddrs_other (by omega), get_put_other (by omega), get_put_other (by omega),
      get_put_other (by omega), get_put_other (by omega), get_put_of_lt htype]
  · show get (putAddrs _ _ _ _) (o + 2) 2 = ip.major
    rw [get_putAddrs_other (by omega), get_put_other (by omega), get_put_other (by omega),
      get_put_other (by omega), get_put_of_lt hmajor]
  · show get (putAddrs _ _ _ _) (o + 4) 2 = ip.minor
    rw [get_putAddrs_other (by omega), get_put_other (by omega), get_put_other (by omega),
      get_put_of_lt hminor]
  · show get (putAddrs _ _ _ _) (o + 6) 2 = ip.nlink
    rw [get_putAddrs_other (by omega), get_put_other (by omega), get_put_of_lt hnlink]
  · show get (putAddrs _ _ _ _) (o + 8) 4 = ip.size
    rw [get_putAddrs_other (by omega), get_put_of_lt hsize]
  · rename_i k
    show (if k < NDIRECT + 1 then get (putAddrs _ _ _ _) (o + 12 + 4 * k) 4 else 0) = ip.addrs k
    split
    · rename_i hk
      exact get_putAddrs hk (h.addrs k)
    · rename_i hk
      exact (h.rest k (by omega)).symm

theorem putAddrs_other {b : Bytes} {o : ℕ} {addrs : ℕ → ℕ} {n i : ℕ}
    (h : i < o ∨ o + 4 * n ≤ i) : putAddrs b o addrs n i = b i := by
  induction n with
  | zero => rfl
  | succ n ih =>
    rw [putAddrs, put_other (by omega)]
    exact ih (by omega)

theorem storeDinode_other {b : Bytes} {o : ℕ} {ip : Inode} {i : ℕ}
    (h : i < o ∨ o + 56 ≤ i) : storeDinode b o ip i = b i := by
  unfold storeDinode
  rw [putAddrs_other (by simp only [NDIRECT]; omega), put_other (by omega), put_other (by omega),
    put_other (by omega), put_other (by omega), put_other (by omega)]

/-- `far` is the double-indirect entry of the inode on disk, which the inode cache does
not have, and `word` is the first word of the block of the superblock. -/
@[ext] structure Volume where
  ino : ℕ → Ino
  far : ℕ → ℕ
  used : ℕ → Bool
  data : ℕ → Bytes
  word : ℕ

/-- The inodes that the inode blocks have room for. -/
def maxInodes : ℕ := ninodeblocks * IPB

def volume (blk : ℕ → Bytes) : Volume where
  ino := fun inum =>
    if inum < maxInodes then readIno (blk (IBLOCK inum mkfsSuperblock)) (dinodeOffset inum)
    else .free
  far := fun inum =>
    if inum < maxInodes then
      get (blk (IBLOCK inum mkfsSuperblock)) (dinodeOffset inum + 12 + 4 * (NDIRECT + 1)) 4
    else 0
  used := fun b =>
    if b < nbitmap * BPB then Bitmap.test (blk (BMAPBLOCK b mkfsSuperblock)) (b % BPB) else false
  data := fun b => if nmeta ≤ b then blk b else fun _ => 0
  word := get (blk 1) 0 4

def State.vol (s : State) : Volume := volume (s.blk ROOTDEV)

theorem IBLOCK_mkfs (inum : ℕ) : IBLOCK inum mkfsSuperblock = inum / 16 + 32 := rfl

theorem BMAPBLOCK_mkfs (b : ℕ) : BMAPBLOCK b mkfsSuperblock = b / 16384 + 45 := rfl

theorem maxInodes_eq : maxInodes = 208 := rfl

theorem nmeta_eq : nmeta = 47 := rfl

theorem bitmap_bits : nbitmap * BPB = 32768 := rfl

section Updates

variable {blk : ℕ → Bytes} {b inum : ℕ} {y : Bytes}

theorem volume_data (hb : nmeta ≤ b) : volume (Function.update blk b y) =
    { volume blk with data := Function.update (volume blk).data b y } := by
  have hb' := hb
  rw [nmeta_eq] at hb'
  ext1
  · funext n
    simp only [volume, IBLOCK_mkfs]
    split
    · rename_i hn
      rw [maxInodes_eq] at hn
      rw [Function.update_of_ne (by omega)]
    · rfl
  · funext n
    simp only [volume, IBLOCK_mkfs]
    split
    · rename_i hn
      rw [maxInodes_eq] at hn
      rw [Function.update_of_ne (by omega)]
    · rfl
  · funext c
    simp only [volume, BMAPBLOCK_mkfs]
    split
    · rename_i hc
      rw [bitmap_bits] at hc
      rw [Function.update_of_ne (by omega)]
    · rfl
  · funext c
    by_cases hcb : c = b
    · subst hcb
      simp [volume, hb]
    · simp [volume, hcb]
  · simp only [volume]
    rw [Function.update_of_ne (by omega)]

/-- A new bitmap block that differs from the old one in the bit of `b`. -/
theorem volume_bit (hb : b < nbitmap * BPB) {v : Bool}
    (hbit : ∀ j, Bitmap.test y j =
      if j = b % BPB then v else Bitmap.test (blk (BMAPBLOCK b mkfsSuperblock)) j) :
    volume (Function.update blk (BMAPBLOCK b mkfsSuperblock) y) =
      { volume blk with used := Function.update (volume blk).used b v } := by
  have hb' := hb
  rw [bitmap_bits] at hb'
  rw [BMAPBLOCK_mkfs] at hbit ⊢
  ext1
  · funext n
    simp only [volume, IBLOCK_mkfs]
    split
    · rename_i hn
      rw [maxInodes_eq] at hn
      rw [Function.update_of_ne (by omega)]
    · rfl
  · funext n
    simp only [volume, IBLOCK_mkfs]
    split
    · rename_i hn
      rw [maxInodes_eq] at hn
      rw [Function.update_of_ne (by omega)]
    · rfl
  · funext c
    simp only [volume, BMAPBLOCK_mkfs]
    by_cases hcb : c = b
    · subst hcb
      rw [if_pos hb, Function.update_self, hbit, if_pos rfl, Function.update_self]
    · rw [Function.update_of_ne hcb]
      split
      · by_cases hblock : c / 16384 = b / 16384
        · rw [hblock, Function.update_self, hbit, if_neg]
          show c % 16384 ≠ b % 16384
          omega
        · rw [Function.update_of_ne (by omega)]
      · rfl
  · funext c
    simp only [volume]
    split
    · rename_i hc
      rw [nmeta_eq] at hc
      rw [Function.update_of_ne (by omega)]
    · rfl
  · simp only [volume]
    rw [Function.update_of_ne (by omega)]

theorem volume_set (hb : b < nbitmap * BPB) :
    volume (Function.update blk (BMAPBLOCK b mkfsSuperblock)
        (Bitmap.set (blk (BMAPBLOCK b mkfsSuperblock)) (b % BPB))) =
      { volume blk with used := Function.update (volume blk).used b true } := by
  apply volume_bit hb
  intro j
  rw [Bitmap.test_set]
  split <;> simp_all

theorem volume_clear (hb : b < nbitmap * BPB) :
    volume (Function.update blk (BMAPBLOCK b mkfsSuperblock)
        (Bitmap.clear (blk (BMAPBLOCK b mkfsSuperblock)) (b % BPB))) =
      { volume blk with used := Function.update (volume blk).used b false } := by
  apply volume_bit hb
  intro j
  rw [Bitmap.test_clear]
  split <;> simp_all

/-- A new inode block that differs from the old one in the 128 bytes of `inum`. -/
theorem volume_ino (hinum : inum < maxInodes)
    (hother : ∀ i, i < dinodeOffset inum ∨ dinodeOffset inum + 128 ≤ i →
      y i = blk (IBLOCK inum mkfsSuperblock) i) :
    volume (Function.update blk (IBLOCK inum mkfsSuperblock) y) =
      { volume blk with
        ino := Function.update (volume blk).ino inum (readIno y (dinodeOffset inum))
        far := Function.update (volume blk).far inum
          (get y (dinodeOffset inum + 12 + 4 * (NDIRECT + 1)) 4) } := by
  have hinum' := hinum
  rw [maxInodes_eq] at hinum'
  rw [IBLOCK_mkfs] at hother ⊢
  ext1
  · funext n
    simp only [volume, IBLOCK_mkfs]
    by_cases hn : n = inum
    · subst hn
      rw [if_pos hinum, Function.update_self, Function.update_self]
    · rw [Function.update_of_ne hn]
      split
      · by_cases hblock : n / 16 = inum / 16
        · rw [hblock, Function.update_self]
          apply readIno_congr
          intro i hlo hhi
          apply hother
          have hn' : dinodeOffset n = n % 16 * 128 := rfl
          have hi' : dinodeOffset inum = inum % 16 * 128 := rfl
          omega
        · rw [Function.update_of_ne (by omega)]
      · rfl
  · funext n
    simp only [volume, IBLOCK_mkfs]
    by_cases hn : n = inum
    · subst hn
      rw [if_pos hinum, Function.update_self, Function.update_self]
    · rw [Function.update_of_ne hn]
      split
      · by_cases hblock : n / 16 = inum / 16
        · rw [hblock, Function.update_self]
          apply get_congr
          intro i hlo hhi
          apply hother
          have hn' : dinodeOffset n = n % 16 * 128 := rfl
          have hi' : dinodeOffset inum = inum % 16 * 128 := rfl
          have hlast : NDIRECT = 10 := rfl
          omega
        · rw [Function.update_of_ne (by omega)]
      · rfl
  · funext c
    simp only [volume, BMAPBLOCK_mkfs]
    split
    · rename_i hc
      rw [bitmap_bits] at hc
      rw [Function.update_of_ne (by omega)]
    · rfl
  · funext c
    simp only [volume]
    split
    · rename_i hc
      rw [nmeta_eq] at hc
      rw [Function.update_of_ne (by omega)]
    · rfl
  · simp only [volume]
    rw [Function.update_of_ne (by omega)]

theorem volume_store (hinum : inum < maxInodes) {ip : Inode} (h : ip.ino.InRange) :
    volume (Function.update blk (IBLOCK inum mkfsSuperblock)
        (storeDinode (blk (IBLOCK inum mkfsSuperblock)) (dinodeOffset inum) ip)) =
      { volume blk with ino := Function.update (volume blk).ino inum ip.ino } := by
  have hlast : NDIRECT = 10 := rfl
  have hfar : get (storeDinode (blk (IBLOCK inum mkfsSuperblock)) (dinodeOffset inum) ip)
      (dinodeOffset inum + 12 + 4 * (NDIRECT + 1)) 4 = (volume blk).far inum := by
    show _ = if inum < maxInodes then _ else _
    rw [if_pos hinum]
    apply get_congr
    intro i hlo hhi
    exact storeDinode_other (by omega)
  rw [volume_ino hinum fun i hi => storeDinode_other (by omega), readIno_storeDinode _ _ h, hfar,
    Function.update_eq_self]

/-- memset and the assignment of the type in ialloc. -/
theorem volume_ialloc (hinum : inum < maxInodes) {type : ℕ} (htype : type < 2 ^ 16) :
    volume (Function.update blk (IBLOCK inum mkfsSuperblock)
        (put (splice (blk (IBLOCK inum mkfsSuperblock)) (dinodeOffset inum) (fun _ => 0) 0 128)
          (dinodeOffset inum) 2 type)) =
      { volume blk with
        ino := Function.update (volume blk).ino inum { Ino.free with type := type }
        far := Function.update (volume blk).far inum 0 } := by
  have hzero : ∀ o' len, dinodeOffset inum + 2 ≤ o' → o' + len ≤ dinodeOffset inum + 128 →
      get (put (splice (blk (IBLOCK inum mkfsSuperblock)) (dinodeOffset inum) (fun _ => 0) 0 128)
        (dinodeOffset inum) 2 type) o' len = 0 := by
    intro o' len hlo hhi
    apply get_zero
    intro i h₀ h₁
    rw [put_other (by omega), splice, if_pos (by omega)]
  have hread : readIno
      (put (splice (blk (IBLOCK inum mkfsSuperblock)) (dinodeOffset inum) (fun _ => 0) 0 128)
        (dinodeOffset inum) 2 type) (dinodeOffset inum) = { Ino.free with type := type } := by
    ext
    · exact get_put_of_lt (show type < 256 ^ 2 from htype)
    · exact hzero _ _ (by omega) (by omega)
    · exact hzero _ _ (by omega) (by omega)
    · exact hzero _ _ (by omega) (by omega)
    · exact hzero _ _ (by omega) (by omega)
    · rename_i k
      show (if k < NDIRECT + 1 then get _ _ 4 else 0) = 0
      split
      · rename_i hk
        simp only [NDIRECT] at hk
        exact hzero _ _ (by omega) (by omega)
      · rfl
  rw [volume_ino hinum, hread, hzero _ _ (by omega) (by simp only [NDIRECT]; omega)]
  intro i hi
  rw [put_other (by omega), splice, if_neg (by omega)]

end Updates

theorem readIno_zero (o : ℕ) : readIno (fun _ => 0) o = .free := by
  have hzero : ∀ o' len, get (fun _ => 0) o' len = 0 := fun _ _ => get_zero fun _ _ _ => rfl
  ext
  · exact hzero _ _
  · exact hzero _ _
  · exact hzero _ _
  · exact hzero _ _
  · exact hzero _ _
  · show (if _ then get _ _ _ else 0) = 0
    rw [hzero, ite_self]

theorem Ino.free_inRange : Ino.free.InRange where
  type := by decide
  major := by decide
  minor := by decide
  nlink := by decide
  size := by decide
  addrs := fun _ => Nat.two_pow_pos 32
  rest := fun _ _ => rfl

end NorthOS.Fs
