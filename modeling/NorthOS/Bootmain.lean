import Mathlib.Algebra.Group.Nat.Defs
import Mathlib.Tactic.Common
import NorthOS.LittleEndian
import NorthOS.Memmove

/-!
bootmain.c. The kernel's segments come from the disk in whole sectors, so that more memory is
written than asked for, in front of a segment and behind it. All segments are in memory in the
end, when the sectors of the later ones agree with the earlier ones.
-/
namespace NorthOS.Bootmain

open LittleEndian
open Memmove (Address Memory offset)

def SECTSIZE : ℕ := 512

def ELF_MAGIC : ℕ := 0x464C457F

/-- Where the first page of the file goes. -/
def scratch : Address := 0x10000

/-- The sectors of the two drives. -/
abbrev Disks := Bool → ℕ → Bytes

/-- The sector that registers 0x1F3 to 0x1F6 name, written to memory. -/
def readsect (disks : Disks) (dst : Address) (sector : BitVec 32) (m : Memory) : Memory :=
  let low := sector.setWidth 8
  let mid := (sector >>> 8).setWidth 8
  let high := (sector >>> 16).setWidth 8
  let drive := (sector >>> 24).setWidth 8 ||| 0xE0#8
  let lba := low.toNat + 256 * mid.toNat + 65536 * high.toNat + 16777216 * (drive.toNat % 16)
  fun a => if (a - dst).toNat < SECTSIZE then disks (drive.getLsbD 4) lba (a - dst).toNat else m a

/-- `for (; pa < epa; pa += SECTSIZE, offset++)`, without a result when it takes too long. -/
def readsegLoop (disks : Disks) (epa : Address) : ℕ → Address → BitVec 32 → Memory → Option Memory
  | 0, _, _, _ => none
  | fuel + 1, pa, sector, m =>
    if pa < epa then
      readsegLoop disks epa fuel (pa + BitVec.ofNat 32 SECTSIZE) (sector + 1) (readsect disks pa sector m)
    else some m

def readseg (disks : Disks) (fuel : ℕ) (pa : Address) (count off : BitVec 32) (m : Memory) : Option Memory :=
  let epa := pa + count
  let pa := pa - off % BitVec.ofNat 32 SECTSIZE
  let sector := off / BitVec.ofNat 32 SECTSIZE + 1
  readsegLoop disks epa fuel pa sector m

/-- `stosb` of zeros. -/
def stosb (addr : Address) (cnt : BitVec 32) (m : Memory) : Memory :=
  fun a => if a - addr < cnt then 0 else m a

/-- The field of `len` bytes at `o` in a structure. -/
def field (m : Memory) (p : Address) (o len : ℕ) : ℕ := get (fun i => m (offset p i)) o len

def word (m : Memory) (p : Address) (o : ℕ) : BitVec 32 := BitVec.ofNat 32 (field m p o 4)

def loadSegment (disks : Disks) (fuel : ℕ) (ph : Address) (m : Memory) : Option Memory := do
  let pa := word m ph 12
  let m ← readseg disks fuel pa (word m ph 16) (word m ph 4) m
  if word m ph 20 > word m ph 16 then pure (stosb (pa + word m ph 16) (word m ph 20 - word m ph 16) m)
  else pure m

/-- `for (; ph < eph; ph++)`, at most `phnum` times. -/
def loadSegments (disks : Disks) (fuel : ℕ) (eph : Address) : ℕ → Address → Memory → Option Memory
  | 0, _, m => some m
  | phnum + 1, ph, m =>
    if ph < eph then do
      let m ← loadSegment disks fuel ph m
      loadSegments disks fuel eph phnum (ph + 32) m
    else some m

/-- The memory, and the entry point unless bootmain returns. -/
def bootmain (disks : Disks) (fuel : ℕ) (m : Memory) : Option (Memory × Option Address) := do
  let m ← readseg disks fuel scratch 4096 0 m
  if field m scratch 0 4 ≠ ELF_MAGIC then pure (m, none)
  else do
    let ph := scratch + word m scratch 28
    let phnum := field m scratch 44 2
    let eph := ph + BitVec.ofNat 32 (32 * phnum)
    let m ← loadSegments disks fuel eph phnum ph m
    pure (m, some (word m scratch 24))

section Files

/-- The file that the image of the kernel is: it begins at sector 1. -/
def kernelFile (disks : Disks) : Bytes := fun o => disks false (o / SECTSIZE + 1) (o % SECTSIZE)

/-- What bootmain uses of a program header. -/
structure Segment where
  off : ℕ
  paddr : ℕ
  filesz : ℕ
  memsz : ℕ
  deriving DecidableEq, Repr

def phoff (f : Bytes) : ℕ := get f 28 4

def phnum (f : Bytes) : ℕ := get f 44 2

/-- Program header `k` of a file. -/
def segment (f : Bytes) (k : ℕ) : Segment :=
  let o := phoff f + 32 * k
  ⟨get f (o + 4) 4, get f (o + 12) 4, get f (o + 16) 4, get f (o + 20) 4⟩

namespace Segment

/-- The sectors that hold a segment. -/
def sectors (x : Segment) : ℕ := (x.off % SECTSIZE + x.filesz + (SECTSIZE - 1)) / SECTSIZE

/-- The addresses that a segment is for. -/
def Holds (x : Segment) (a : ℕ) : Prop := x.paddr ≤ a ∧ a < x.paddr + max x.filesz x.memsz

/-- The addresses that are written with sectors of the disk. -/
def Reads (x : Segment) (a : ℕ) : Prop :=
  x.paddr - x.off % SECTSIZE ≤ a ∧ a < x.paddr - x.off % SECTSIZE + SECTSIZE * x.sectors
  deriving Decidable

/-- The addresses that are written with zeros. -/
def Clears (x : Segment) (a : ℕ) : Prop := x.paddr + x.filesz ≤ a ∧ a < x.paddr + x.memsz
  deriving Decidable

/-- The memory after the segment is loaded. -/
def onto (x : Segment) (f b : Bytes) : Bytes := fun a =>
  if x.Clears a then 0 else if x.Reads a then f (x.off + a - x.paddr) else b a

/-- A later segment `y` does not change what is loaded for the segment: where they meet, their
parts of the file do. -/
def Agrees (x y : Segment) : Prop :=
  ∀ a, x.Holds a → ¬ y.Clears a ∧ (y.Reads a → a < x.paddr + x.filesz ∧ x.off + y.paddr = y.off + x.paddr)

/-- A segment whose sectors are addresses. -/
structure Fits (x : Segment) : Prop where
  low : x.off % SECTSIZE ≤ x.paddr
  high : x.paddr + max x.filesz x.memsz + SECTSIZE ≤ 2 ^ 32
  off : x.off + x.filesz < 2 ^ 32

/-- A segment is in memory: its part of the file, and zeros behind it. -/
structure Loaded (f : Bytes) (x : Segment) (m : Bytes) : Prop where
  file : ∀ j, j < x.filesz → m (x.paddr + j) = f (x.off + j)
  zeros : ∀ j, x.filesz ≤ j → j < x.memsz → m (x.paddr + j) = 0

end Segment

/-- A kernel that bootmain can load. -/
structure Loadable (f : Bytes) : Prop where
  magic : get f 0 4 = ELF_MAGIC
  table : phoff f + 32 * phnum f ≤ 4096
  fits : ∀ k, k < phnum f → (segment f k).Fits
  /-- The segments leave the first page of the file alone. -/
  clear : ∀ k, k < phnum f → ∀ a, (segment f k).Reads a ∨ (segment f k).Clears a → a < 0x10000 ∨ 0x11000 ≤ a
  agree : ∀ k, k < phnum f → ∀ i, i < k → (segment f i).Agrees (segment f k)

end Files

/-- The memory by the numbers of its addresses. -/
def view (m : Memory) : Bytes := fun a => m (BitVec.ofNat 32 a)

variable {disks : Disks} {f : Bytes} {m m' : Memory} {pa epa dst p : Address} {sector cnt count off : BitVec 32}
  {fuel n k a o len lo : ℕ} {x : Segment}

section Reading

theorem sub_toNat (ha : a < 2 ^ 32) : (BitVec.ofNat 32 a - dst).toNat =
    if dst.toNat ≤ a then a - dst.toNat else 2 ^ 32 - dst.toNat + a := by
  have hdst := dst.isLt
  rw [BitVec.toNat_sub, BitVec.toNat_ofNat, Nat.mod_eq_of_lt ha]
  split <;> omega

theorem readsect_view (hdst : dst.toNat + SECTSIZE ≤ 2 ^ 32) (hsector : sector.toNat < 2 ^ 28) (ha : a < 2 ^ 32) :
    view (readsect disks dst sector m) a =
      if dst.toNat ≤ a ∧ a < dst.toNat + SECTSIZE then disks false sector.toNat (a - dst.toNat) else view m a := by
  have hsize : SECTSIZE = 512 := rfl
  have hdrive : ∀ d : BitVec 8, d.toNat < 16 →
      (d ||| 0xE0#8).getLsbD 4 = false ∧ (d ||| 0xE0#8).toNat % 16 = d.toNat := by decide
  have htop : ((sector >>> 24).setWidth 8).toNat = sector.toNat / 16777216 := by
    rw [BitVec.toNat_setWidth, BitVec.toNat_ushiftRight, Nat.shiftRight_eq_div_pow]
    omega
  obtain ⟨hfirst, hbits⟩ := hdrive ((sector >>> 24).setWidth 8) (by omega)
  have hlba : (sector.setWidth 8).toNat + 256 * ((sector >>> 8).setWidth 8).toNat +
      65536 * ((sector >>> 16).setWidth 8).toNat + 16777216 * (((sector >>> 24).setWidth 8 ||| 0xE0#8).toNat % 16) =
        sector.toNat := by
    rw [hbits, htop]
    simp only [BitVec.toNat_setWidth, BitVec.toNat_ushiftRight, Nat.shiftRight_eq_div_pow]
    omega
  unfold view
  show (if (BitVec.ofNat 32 a - dst).toNat < SECTSIZE then disks _ _ (BitVec.ofNat 32 a - dst).toNat else _) = _
  rw [hlba, hfirst, sub_toNat ha]
  by_cases hin : dst.toNat ≤ a
  · rw [if_pos hin]
    by_cases hlt : a < dst.toNat + SECTSIZE
    · rw [if_pos (by omega), if_pos ⟨hin, hlt⟩]
    · rw [if_neg (by omega), if_neg (fun h => hlt h.2)]
  · rw [if_neg hin, if_neg (by omega), if_neg (fun h => hin h.1)]

/-- The first of `n + 1` pieces and the others. -/
theorem in_pieces {b w : ℕ} : b ≤ a ∧ a < b + w * (n + 1) ↔
    (b + w ≤ a ∧ a < b + w + w * n) ∨ (b ≤ a ∧ a < b + w) := by
  rw [Nat.mul_succ]
  omega

/-- The loop reads one sector after the other. -/
theorem readsegLoop_view (disks : Disks) (fuel : ℕ) (pa epa : Address) (sector : BitVec 32) (m : Memory)
    (hin : ∀ i, i < n → pa.toNat + SECTSIZE * i < epa.toNat)
    (hend : epa.toNat ≤ pa.toNat + SECTSIZE * n) (htop : pa.toNat + SECTSIZE * n < 2 ^ 32)
    (hsector : sector.toNat + n ≤ 2 ^ 28) (hfuel : n < fuel) :
    ∃ m', readsegLoop disks epa fuel pa sector m = some m' ∧ ∀ a, a < 2 ^ 32 → view m' a =
      if pa.toNat ≤ a ∧ a < pa.toNat + SECTSIZE * n then
        disks false (sector.toNat + (a - pa.toNat) / SECTSIZE) ((a - pa.toNat) % SECTSIZE)
      else view m a := by
  have hsize : SECTSIZE = 512 := rfl
  rw [hsize] at hin hend htop ⊢
  induction n generalizing pa sector fuel m with
  | zero =>
    obtain ⟨fuel, rfl⟩ := Nat.exists_eq_succ_of_ne_zero (Nat.ne_of_gt hfuel)
    refine ⟨m, if_neg ?_, fun a _ => (if_neg (by omega)).symm⟩
    rw [BitVec.lt_def]
    omega
  | succ n ih =>
    obtain ⟨fuel, rfl⟩ := Nat.exists_eq_succ_of_ne_zero (Nat.ne_of_gt (Nat.zero_lt_of_lt hfuel))
    have hfirst := hin 0 (Nat.succ_pos n)
    have hpa : (pa + BitVec.ofNat 32 SECTSIZE).toNat = pa.toNat + 512 := by
      rw [BitVec.toNat_add]
      show (pa.toNat + 512) % 2 ^ 32 = _
      omega
    have hnext : (sector + 1).toNat = sector.toNat + 1 := by
      rw [BitVec.toNat_add]
      show (sector.toNat + 1) % 2 ^ 32 = _
      omega
    obtain ⟨m', hloop, hview⟩ := ih fuel (pa + BitVec.ofNat 32 SECTSIZE) (sector + 1)
      (readsect disks pa sector m) (fun i hi => by have hlt := hin (i + 1) (by omega); rw [hpa]; omega) (by rw [hpa]; omega) (by rw [hpa]; omega)
      (by rw [hnext]; omega) (by omega)
    refine ⟨m', ?_, fun a ha => ?_⟩
    · unfold readsegLoop
      rw [if_pos (by rw [BitVec.lt_def]; omega)]
      exact hloop
    · rw [hview a ha, hpa, hnext, readsect_view (by rw [hsize]; omega) (by omega) ha, hsize]
      by_cases hrest : pa.toNat + 512 ≤ a ∧ a < pa.toNat + 512 + 512 * n
      · have hdiv : (a - pa.toNat) / 512 = (a - (pa.toNat + 512)) / 512 + 1 := by omega
        have hmod : (a - pa.toNat) % 512 = (a - (pa.toNat + 512)) % 512 := by omega
        rw [if_pos hrest, if_pos (in_pieces.mpr (Or.inl hrest)), hdiv, hmod, Nat.add_assoc, Nat.add_comm 1]
      · rw [if_neg hrest]
        by_cases hhere : pa.toNat ≤ a ∧ a < pa.toNat + 512
        · have hdiv : (a - pa.toNat) / 512 = 0 := by omega
          have hmod : (a - pa.toNat) % 512 = a - pa.toNat := by omega
          rw [if_pos hhere, if_pos (in_pieces.mpr (Or.inr hhere)), hdiv, hmod]
          rfl
        · rw [if_neg hhere, if_neg fun hin => (in_pieces.mp hin).elim hrest hhere]

theorem readseg_view (disks : Disks) (fuel : ℕ) (pa : Address) (count off : BitVec 32) (m : Memory)
    (hlow : off.toNat % SECTSIZE ≤ pa.toNat) (htop : pa.toNat + count.toNat + SECTSIZE ≤ 2 ^ 32)
    (hlo : lo = pa.toNat - off.toNat % SECTSIZE)
    (hn : n = (off.toNat % SECTSIZE + count.toNat + (SECTSIZE - 1)) / SECTSIZE) (hfuel : n < fuel) :
    ∃ m', readseg disks fuel pa count off m = some m' ∧ ∀ a, a < 2 ^ 32 → view m' a =
      if lo ≤ a ∧ a < lo + SECTSIZE * n then kernelFile disks (off.toNat - off.toNat % SECTSIZE + (a - lo))
      else view m a := by
  have hsize : SECTSIZE = 512 := rfl
  rw [hsize] at hlow htop hlo hn ⊢
  have hoff := off.isLt
  have hsect : (BitVec.ofNat 32 SECTSIZE).toNat = 512 := by decide
  have hmod : (off % BitVec.ofNat 32 SECTSIZE).toNat = off.toNat % 512 := by rw [BitVec.toNat_umod, hsect]
  have hdiv : (off / BitVec.ofNat 32 SECTSIZE).toNat = off.toNat / 512 := by rw [BitVec.toNat_udiv, hsect]
  have hepa : (pa + count).toNat = pa.toNat + count.toNat := by
    rw [BitVec.toNat_add]
    omega
  have hstart : (pa - off % BitVec.ofNat 32 SECTSIZE).toNat = lo := by
    rw [BitVec.toNat_sub, hmod]
    omega
  have hsector : (off / BitVec.ofNat 32 SECTSIZE + 1).toNat = off.toNat / 512 + 1 := by
    rw [BitVec.toNat_add, hdiv]
    show (off.toNat / 512 + 1) % 2 ^ 32 = _
    omega
  obtain ⟨m', hloop, hview⟩ := readsegLoop_view disks fuel (pa - off % BitVec.ofNat 32 SECTSIZE) (pa + count)
    (off / BitVec.ofNat 32 SECTSIZE + 1) m (n := n)
    (fun i hi => by rw [hstart, hepa, hsize]; omega) (by rw [hstart, hepa, hsize]; omega)
    (by rw [hstart, hsize]; omega) (by rw [hsector]; omega) hfuel
  refine ⟨m', hloop, fun a ha => ?_⟩
  rw [hview a ha, hstart, hsector, hsize]
  have hsame : kernelFile disks (off.toNat - off.toNat % 512 + (a - lo)) =
      disks false (off.toNat / 512 + 1 + (a - lo) / 512) ((a - lo) % 512) := by
    unfold kernelFile
    rw [hsize]
    have hq : (off.toNat - off.toNat % 512 + (a - lo)) / 512 + 1 = off.toNat / 512 + 1 + (a - lo) / 512 := by omega
    have hr : (off.toNat - off.toNat % 512 + (a - lo)) % 512 = (a - lo) % 512 := by omega
    rw [hq, hr]
  rw [hsame]

theorem stosb_view (htop : p.toNat + cnt.toNat ≤ 2 ^ 32) (ha : a < 2 ^ 32) :
    view (stosb p cnt m) a = if p.toNat ≤ a ∧ a < p.toNat + cnt.toNat then 0 else view m a := by
  unfold view
  show (if BitVec.ofNat 32 a - p < cnt then 0 else _) = _
  simp only [BitVec.lt_def, sub_toNat ha]
  by_cases hin : p.toNat ≤ a
  · rw [if_pos hin]
    by_cases hlt : a < p.toNat + cnt.toNat
    · rw [if_pos (by omega), if_pos ⟨hin, hlt⟩]
    · rw [if_neg (by omega), if_neg (fun h => hlt h.2)]
  · rw [if_neg hin, if_neg (by omega), if_neg (fun h => hin h.1)]

end Reading

section Loading

/-- The first page of the file is in the scratch space. -/
def Kept (f : Bytes) (m : Memory) : Prop := ∀ i, i < 4096 → view m (0x10000 + i) = f i

theorem field_kept (h : Kept f m) (hp : p.toNat = 0x10000 + k) (hk : k + o + len ≤ 4096) :
    field m p o len = get f (k + o) len := by
  rw [← get_shift]
  refine get_congr fun i _ hi => ?_
  have hoffset : offset p i = BitVec.ofNat 32 (0x10000 + (k + i)) := by
    apply BitVec.eq_of_toNat_eq
    unfold offset
    rw [BitVec.toNat_add, hp, BitVec.toNat_ofNat, BitVec.toNat_ofNat]
    omega
  rw [hoffset]
  exact h (k + i) (by omega)

theorem word_kept (h : Kept f m) (hp : p.toNat = 0x10000 + k) (hk : k + o + 4 ≤ 4096) :
    (word m p o).toNat = get f (k + o) 4 := by
  have hlt : get f (k + o) 4 < 2 ^ 32 := get_lt f (k + o) 4
  unfold word
  rw [field_kept h hp hk, BitVec.toNat_ofNat, Nat.mod_eq_of_lt hlt]

/-- The program header of a segment, where bootmain reads it. -/
theorem header_kept (h : Kept f m) (hp : p.toNat = 0x10000 + (phoff f + 32 * k)) (hk : phoff f + 32 * k + 32 ≤ 4096) :
    (word m p 4).toNat = (segment f k).off ∧ (word m p 12).toNat = (segment f k).paddr ∧
      (word m p 16).toNat = (segment f k).filesz ∧ (word m p 20).toNat = (segment f k).memsz :=
  ⟨word_kept h hp (by omega), word_kept h hp (by omega), word_kept h hp (by omega), word_kept h hp (by omega)⟩

theorem Kept.onto (h : Kept f m) (hclear : ∀ a, x.Reads a ∨ x.Clears a → a < 0x10000 ∨ 0x11000 ≤ a)
    (hview : ∀ a, a < 2 ^ 32 → x.Reads a ∨ x.Clears a ∨ view m' a = view m a) : Kept f m' := by
  intro i hi
  rcases hview (0x10000 + i) (by omega) with hreads | hclears | hsame
  · have hout := hclear _ (Or.inl hreads)
    omega
  · have hout := hclear _ (Or.inr hclears)
    omega
  · rw [hsame]
    exact h i hi

theorem Segment.onto_other (hreads : ¬ x.Reads a) (hclears : ¬ x.Clears a) (b : Bytes) : x.onto f b a = b a := by
  unfold onto
  rw [if_neg hclears, if_neg hreads]

theorem Segment.Loaded.of_onto {b c : Bytes} (hfits : x.Fits) (h : ∀ a, a < 2 ^ 32 → c a = x.onto f b a) :
    x.Loaded f c := by
  have hsize : SECTSIZE = 512 := rfl
  have hlow := hfits.low
  have hhigh := hfits.high
  have hn : x.sectors = (x.off % 512 + x.filesz + 511) / 512 := rfl
  rw [hsize] at hlow hhigh
  refine ⟨fun j hj => ?_, fun j hj hj' => ?_⟩
  · have hclears : ¬ x.Clears (x.paddr + j) := fun hc => absurd hc.1 (by omega)
    have hreads : x.Reads (x.paddr + j) := by
      unfold Reads
      rw [hsize]
      omega
    rw [h _ (by omega), onto, if_neg hclears, if_pos hreads]
    congr 1
    omega
  · have hclears : x.Clears (x.paddr + j) := by
      unfold Clears
      omega
    rw [h _ (by omega), onto, if_pos hclears]

/-- A segment stays loaded when one is loaded that agrees with it. -/
theorem Segment.Loaded.keep {b c : Bytes} {y : Segment} (h : x.Loaded f b) (hfits : x.Fits) (hagrees : x.Agrees y)
    (hc : ∀ a, a < 2 ^ 32 → c a = y.onto f b a) : x.Loaded f c := by
  have hhigh := hfits.high
  refine ⟨fun j hj => ?_, fun j hj hj' => ?_⟩
  · obtain ⟨hclears, hreads⟩ := hagrees (x.paddr + j) ⟨by omega, by omega⟩
    rw [hc _ (by omega), onto, if_neg hclears]
    split
    · rename_i hin
      obtain ⟨_, heq⟩ := hreads hin
      congr 1
      omega
    · exact h.file j hj
  · obtain ⟨hclears, hreads⟩ := hagrees (x.paddr + j) ⟨by omega, by omega⟩
    rw [hc _ (by omega), onto_other (fun hin => absurd (hreads hin).1 (by omega)) hclears]
    exact h.zeros j hj hj'

/-- The body of the loop loads the segment. -/
theorem loadSegment_view (h : Kept (kernelFile disks) m) (hx : segment (kernelFile disks) k = x)
    (hp : p.toNat = 0x10000 + (phoff (kernelFile disks) + 32 * k))
    (htable : phoff (kernelFile disks) + 32 * k + 32 ≤ 4096) (hfits : x.Fits)
    (hclear : ∀ a, x.Reads a ∨ x.Clears a → a < 0x10000 ∨ 0x11000 ≤ a) (hfuel : 2 ^ 23 ≤ fuel) :
    ∃ m', loadSegment disks fuel p m = some m' ∧
      ∀ a, a < 2 ^ 32 → view m' a = x.onto (kernelFile disks) (view m) a := by
  have hsize : SECTSIZE = 512 := rfl
  obtain ⟨hoff, hpaddr, hfilesz, _⟩ := header_kept h hp htable
  rw [hx] at hoff hpaddr hfilesz
  have hlow := hfits.low
  have hhigh := hfits.high
  rw [hsize] at hlow hhigh
  obtain ⟨m₁, hread, hview⟩ := readseg_view disks fuel (word m p 12) (word m p 16) (word m p 4) m
    (by rw [hoff, hpaddr, hsize]; omega)
    (by rw [hpaddr, hfilesz, hsize]; omega) rfl rfl (by rw [hoff, hfilesz, hsize]; omega)
  have hview₁ : ∀ a, a < 2 ^ 32 → view m₁ a =
      if x.Reads a then kernelFile disks (x.off + a - x.paddr) else view m a := by
    intro a ha
    rw [hview a ha, hoff, hpaddr, hfilesz]
    show (if x.Reads a then _ else _) = _
    split
    · rename_i hin
      have hstart : x.paddr - x.off % 512 ≤ a := hin.1
      rw [hsize]
      congr 1
      omega
    · rfl
  have hkept : Kept (kernelFile disks) m₁ := h.onto hclear fun a ha => by
    by_cases hin : x.Reads a
    · exact Or.inl hin
    · rw [hview₁ a ha, if_neg hin]
      exact Or.inr (Or.inr rfl)
  obtain ⟨_, _, hfilesz₁, hmemsz₁⟩ := header_kept hkept hp htable
  rw [hx] at hfilesz₁ hmemsz₁
  have hloaded : loadSegment disks fuel p m = if word m₁ p 16 < word m₁ p 20 then
      some (stosb (word m p 12 + word m₁ p 16) (word m₁ p 20 - word m₁ p 16) m₁) else some m₁ := by
    unfold loadSegment
    dsimp only
    rw [hread]
    rfl
  rw [hloaded]
  by_cases hmore : x.filesz < x.memsz
  · have hend : (word m p 12 + word m₁ p 16).toNat = x.paddr + x.filesz := by
      rw [BitVec.toNat_add, hpaddr, hfilesz₁]
      omega
    have hcnt : (word m₁ p 20 - word m₁ p 16).toNat = x.memsz - x.filesz := by
      rw [BitVec.toNat_sub, hmemsz₁, hfilesz₁]
      omega
    have hsum : x.paddr + x.filesz + (x.memsz - x.filesz) = x.paddr + x.memsz := by omega
    refine ⟨_, if_pos ?_, fun a ha => ?_⟩
    · rw [BitVec.lt_def, hfilesz₁, hmemsz₁]
      exact hmore
    · rw [stosb_view (by rw [hend, hcnt]; omega) ha, hend, hcnt, hsum, hview₁ a ha]
      rfl
  · refine ⟨_, if_neg ?_, fun a ha => ?_⟩
    · rw [BitVec.lt_def, hfilesz₁, hmemsz₁]
      exact hmore
    · have hclears : ¬ x.Clears a := by
        intro hc
        have hlo := hc.1
        have hhi := hc.2
        omega
      rw [hview₁ a ha, Segment.onto, if_neg hclears]

/-- After `k` program headers. -/
structure Progress (disks : Disks) (m : Memory) (k : ℕ) (m' : Memory) : Prop where
  kept : Kept (kernelFile disks) m'
  loaded : ∀ i, i < k → (segment (kernelFile disks) i).Loaded (kernelFile disks) (view m')
  frame : ∀ a, a < 2 ^ 32 →
    (∀ i, i < k → ¬ (segment (kernelFile disks) i).Reads a ∧ ¬ (segment (kernelFile disks) i).Clears a) →
      view m' a = view m a

theorem Progress.next {m₁ m₂ : Memory} (h : Progress disks m k m₁) (hl : Loadable (kernelFile disks))
    (hk : k < phnum (kernelFile disks))
    (hview : ∀ a, a < 2 ^ 32 → view m₂ a = (segment (kernelFile disks) k).onto (kernelFile disks) (view m₁) a) :
    Progress disks m (k + 1) m₂ := by
  refine ⟨h.kept.onto (hl.clear k hk) fun a ha => ?_, fun i hi => ?_, fun a ha hnot => ?_⟩
  · by_cases hreads : (segment (kernelFile disks) k).Reads a
    · exact Or.inl hreads
    · by_cases hclears : (segment (kernelFile disks) k).Clears a
      · exact Or.inr (Or.inl hclears)
      · exact Or.inr (Or.inr ((hview a ha).trans (Segment.onto_other hreads hclears _)))
  · rcases Nat.lt_succ_iff_lt_or_eq.mp hi with hi | rfl
    · exact (h.loaded i hi).keep (hl.fits i (by omega)) (hl.agree k hk i hi) hview
    · exact Segment.Loaded.of_onto (hl.fits i hk) hview
  · obtain ⟨hreads, hclears⟩ := hnot k (Nat.lt_succ_self k)
    rw [hview a ha, Segment.onto_other hreads hclears]
    exact h.frame a ha fun i hi => hnot i (Nat.lt_succ_of_lt hi)

theorem loadSegments_progress (hl : Loadable (kernelFile disks)) (hfuel : 2 ^ 23 ≤ fuel) {eph : Address} {m₁ : Memory}
    (heph : eph.toNat = 0x10000 + (phoff (kernelFile disks) + 32 * phnum (kernelFile disks)))
    (hp : p.toNat = 0x10000 + (phoff (kernelFile disks) + 32 * k)) (hn : k + n = phnum (kernelFile disks))
    (h : Progress disks m k m₁) :
    ∃ m', loadSegments disks fuel eph n p m₁ = some m' ∧ Progress disks m (phnum (kernelFile disks)) m' := by
  have htable := hl.table
  induction n generalizing k p m₁ with
  | zero => exact ⟨m₁, rfl, hn ▸ h⟩
  | succ n ih =>
    have hk : k < phnum (kernelFile disks) := by omega
    obtain ⟨m₂, hload, hview⟩ := loadSegment_view h.kept rfl hp (by omega) (hl.fits k hk) (hl.clear k hk) hfuel
    have hnext : (p + 32).toNat = 0x10000 + (phoff (kernelFile disks) + 32 * (k + 1)) := by
      rw [BitVec.toNat_add, hp]
      show (_ + 32) % 2 ^ 32 = _
      omega
    obtain ⟨m', hrest, hprogress⟩ := ih hnext (by omega) (h.next hl hk hview)
    refine ⟨m', ?_, hprogress⟩
    unfold loadSegments
    rw [if_pos (by rw [BitVec.lt_def, hp, heph]; omega), hload]
    exact hrest

/-- bootmain loads every segment of a kernel, writes nothing but the sectors of the segments and
its scratch space, and goes on at the entry point. -/
theorem bootmain_loads (hl : Loadable (kernelFile disks)) (hfuel : 2 ^ 23 ≤ fuel) (m : Memory) :
    ∃ m', bootmain disks fuel m = some (m', some (BitVec.ofNat 32 (get (kernelFile disks) 24 4))) ∧
      (∀ k, k < phnum (kernelFile disks) → (segment (kernelFile disks) k).Loaded (kernelFile disks) (view m')) ∧
      ∀ a, a < 2 ^ 32 → a < 0x10000 ∨ 0x11000 ≤ a →
        (∀ k, k < phnum (kernelFile disks) →
          ¬ (segment (kernelFile disks) k).Reads a ∧ ¬ (segment (kernelFile disks) k).Clears a) →
            view m' a = view m a := by
  have htable := hl.table
  have hscratch : scratch.toNat = 0x10000 + 0 := by decide
  obtain ⟨m₁, hread, hview⟩ := readseg_view disks fuel scratch 4096 0 m (by decide) (by decide) rfl rfl (Nat.lt_of_lt_of_le (by decide) hfuel)
  have hview' : ∀ a, a < 2 ^ 32 → view m₁ a =
      if 0x10000 ≤ a ∧ a < 0x11000 then kernelFile disks (a - 0x10000) else view m a := by
    intro a ha
    rw [hview a ha]
    show (if _ then kernelFile disks (0 + (a - 0x10000)) else _) = _
    rw [Nat.zero_add]
    rfl
  have hstart : Progress disks m₁ 0 m₁ := by
    refine ⟨fun i hi => ?_, fun i hi => absurd hi (Nat.not_lt_zero i), fun a _ _ => rfl⟩
    rw [hview' _ (by omega), if_pos (by omega), Nat.add_sub_cancel_left]
  have hkept := hstart.kept
  have hph : (scratch + word m₁ scratch 28).toNat = 0x10000 + (phoff (kernelFile disks) + 32 * 0) := by
    rw [BitVec.toNat_add, word_kept hkept hscratch (by decide), hscratch]
    show (0x10000 + 0 + get _ 28 4) % 2 ^ 32 = 0x10000 + get _ 28 4
    have hle : get (kernelFile disks) 28 4 ≤ 4096 := by
      unfold phoff at htable
      omega
    omega
  have hnum : field m₁ scratch 44 2 = phnum (kernelFile disks) := field_kept hkept hscratch (by decide)
  have hmagic : field m₁ scratch 0 4 = ELF_MAGIC := (field_kept hkept hscratch (by decide)).trans hl.magic
  have heph : (scratch + word m₁ scratch 28 + BitVec.ofNat 32 (32 * field m₁ scratch 44 2)).toNat =
      0x10000 + (phoff (kernelFile disks) + 32 * phnum (kernelFile disks)) := by
    rw [BitVec.toNat_add, hph, hnum, BitVec.toNat_ofNat]
    omega
  obtain ⟨m', hload, hdone⟩ := loadSegments_progress hl hfuel heph hph (Nat.zero_add _) hstart
  have hentry : word m' scratch 24 = BitVec.ofNat 32 (get (kernelFile disks) 24 4) :=
    congrArg (BitVec.ofNat 32) (field_kept hdone.kept hscratch (by decide))
  refine ⟨m', ?_, hdone.loaded, fun a ha hout hnot => ?_⟩
  · unfold bootmain
    rw [hread]
    show (if field m₁ scratch 0 4 ≠ ELF_MAGIC then _ else _) = _
    rw [if_neg (not_not_intro hmagic), ← hentry]
    rw [hnum] at hload ⊢
    exact congrArg (Option.bind · _) hload
  · rw [hdone.frame a ha hnot, hview' a ha, if_neg (by omega)]

end Loading

section Kernel

/-- A kernel with a segment of text and one of data, which share a sector. -/
def twoSegments : Bytes := fun o => ([0x7F, 0x45, 0x4C, 0x46, 0, 0, 0, 0, 0, 0, 0, 0, 0, 0, 0, 0, 2, 0, 3, 0, 1, 0, 0, 0,
  0x0C, 0, 0x10, 0, 0x34, 0, 0, 0, 0, 0, 0, 0, 0, 0, 0, 0, 0x34, 0, 0x20, 0, 2, 0, 0, 0, 0, 0, 0, 0,
  1, 0, 0, 0, 0, 0x10, 0, 0, 0, 0, 0x10, 0, 0, 0, 0x10, 0, 6, 0, 0, 0, 6, 0, 0, 0, 5, 0, 0, 0, 0, 0x10, 0, 0,
  1, 0, 0, 0, 8, 0x10, 0, 0, 8, 0, 0x10, 0, 8, 0, 0x10, 0, 4, 0, 0, 0, 9, 0, 0, 0, 6, 0, 0, 0, 0, 0x10, 0, 0]
    : List UInt8).getD o (UInt8.ofNat o)

def diskOf (f : Bytes) : Disks := fun _ s o => f ((s - 1) * SECTSIZE + o)

theorem kernelFile_diskOf : kernelFile (diskOf f) = f := by
  funext o
  show f ((o / SECTSIZE + 1 - 1) * SECTSIZE + o % SECTSIZE) = f o
  rw [Nat.add_sub_cancel, Nat.mul_comm, Nat.div_add_mod]

theorem twoSegments_text : segment twoSegments 0 = ⟨0x1000, 0x100000, 6, 6⟩ := by decide

theorem twoSegments_data : segment twoSegments 1 = ⟨0x1008, 0x100008, 4, 9⟩ := by decide

theorem twoSegments_loadable : Loadable twoSegments := by
  have hphnum : phnum twoSegments = 2 := by decide
  have hsegments : ∀ {P : Segment → Prop}, P ⟨0x1000, 0x100000, 6, 6⟩ → P ⟨0x1008, 0x100008, 4, 9⟩ →
      ∀ k, k < phnum twoSegments → P (segment twoSegments k) := by
    intro P hfirst hsecond k hk
    rw [hphnum] at hk
    obtain rfl | rfl : k = 0 ∨ k = 1 := by omega
    · exact twoSegments_text ▸ hfirst
    · exact twoSegments_data ▸ hsecond
  refine ⟨by decide, by decide, hsegments ⟨by decide, by decide, by decide⟩ ⟨by decide, by decide, by decide⟩,
    @hsegments (fun x => ∀ a, x.Reads a ∨ x.Clears a → a < 0x10000 ∨ 0x11000 ≤ a) ?_ ?_, fun k hk i hi => ?_⟩
  · rintro a (⟨hlo, hhi⟩ | ⟨hlo, hhi⟩)
    · exact Or.inr (Nat.le_trans (by decide) hlo)
    · exact Or.inr (Nat.le_trans (by decide) hlo)
  · rintro a (⟨hlo, hhi⟩ | ⟨hlo, hhi⟩)
    · exact Or.inr (Nat.le_trans (by decide) hlo)
    · exact Or.inr (Nat.le_trans (by decide) hlo)
  · rw [hphnum] at hk
    obtain ⟨rfl, rfl⟩ : k = 1 ∧ i = 0 := by omega
    rw [twoSegments_text, twoSegments_data]
    rintro a ⟨_, hend⟩
    have hlt : a < 0x100006 := hend
    refine ⟨fun hclears => ?_, fun _ => ⟨hlt, rfl⟩⟩
    have hge : 0x10000C ≤ a := hclears.1
    omega

theorem bootmain_loads_twoSegments : ∃ m', bootmain (diskOf twoSegments) (2 ^ 23) (fun _ => 0xFF) =
      some (m', some 0x10000C) ∧
    view m' 0x100003 = 3 ∧ view m' 0x100009 = 9 ∧ view m' 0x10000D = 0 := by
  have hfile : kernelFile (diskOf twoSegments) = twoSegments := kernelFile_diskOf
  have hl : Loadable (kernelFile (diskOf twoSegments)) := by
    rw [hfile]
    exact twoSegments_loadable
  obtain ⟨m', hrun, hloaded, -⟩ := bootmain_loads hl (Nat.le_refl (2 ^ 23)) fun _ => 0xFF
  rw [hfile] at hrun hloaded
  have hfirst := hloaded 0 (by decide)
  have hsecond := hloaded 1 (by decide)
  rw [twoSegments_text] at hfirst
  rw [twoSegments_data] at hsecond
  refine ⟨m', hrun, ?_, ?_, ?_⟩
  · exact (hfirst.file 3 (by decide)).trans (by decide)
  · exact (hsecond.file 1 (by decide)).trans (by decide)
  · exact hsecond.zeros 5 (by decide) (by decide)

end Kernel

end NorthOS.Bootmain
