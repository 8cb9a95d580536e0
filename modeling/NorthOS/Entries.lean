import NorthOS.Directory
import NorthOS.FileView

/-!
A directory as the list of its entries. A lookup returns the first entry with the name,
a scan stops at the first entry that passes its test, and neither changes anything but
the cache slot that a lookup gets for its inode.
-/
namespace NorthOS.Fs

open LittleEndian Halting Comp

namespace Node

/-- Entry `k` of a directory. -/
def dirent (x : Node) (k : ℕ) : Bytes := fun j => x.byte (direntSize * k + j)

def inumAt (x : Node) (k : ℕ) : ℕ := get (x.dirent k) 0 2

def nameAt (x : Node) (k : ℕ) : Name := direntName (x.dirent k)

/-- The number of whole entries. -/
def entries (x : Node) : ℕ := x.size / direntSize

/-- Entry `k` is in use and has the name. -/
def named (x : Node) (name : Name) (k : ℕ) : Bool :=
  decide (x.inumAt k ≠ 0) && namecmp name (x.nameAt k)

/-- The first entry with the name. -/
def find (x : Node) (name : Name) : Option ℕ := (List.range' 0 x.entries).find? (x.named name)

variable {x : Node} {name : Name} {k : ℕ}

theorem find_some (h : x.find name = some k) : k < x.entries ∧ x.inumAt k ≠ 0 := by
  have hmem := List.mem_of_find?_eq_some h
  have hnamed := List.find?_some h
  rw [List.mem_range'_1] at hmem
  rw [named, Bool.and_eq_true, decide_eq_true_eq] at hnamed
  exact ⟨by omega, hnamed.1⟩

theorem entry_end (h : k < x.entries) : direntSize * k + direntSize ≤ x.size := by
  have hmul := Nat.mul_le_of_le_div direntSize (k + 1) x.size h
  rw [Nat.mul_comm, Nat.mul_succ] at hmul
  exact hmul

theorem lt_entries (h : direntSize * k + direntSize ≤ x.size) : k < x.entries := by
  apply (Nat.le_div_iff_mul_le (show 0 < direntSize by decide)).mpr
  rw [Nat.mul_comm, Nat.mul_succ]
  exact h

section Written

variable {l : ℕ} {de : Bytes}

theorem dirent_written_self {j : ℕ} (hj : j < direntSize) :
    (x.written (direntSize * k) direntSize de).dirent k j = de j := by
  show (if direntSize * k ≤ direntSize * k + j ∧ _ then _ else _) = _
  rw [if_pos ⟨Nat.le_add_right _ _, Nat.add_lt_add_left hj _⟩, Nat.add_sub_cancel_left]

theorem dirent_written_other (hl : l ≠ k) {j : ℕ} (hj : j < direntSize) :
    (x.written (direntSize * k) direntSize de).dirent l j = x.dirent l j := by
  show (if _ then _ else _) = _
  unfold direntSize at hj ⊢
  exact if_neg (by omega)

theorem inumAt_written_self :
    (x.written (direntSize * k) direntSize de).inumAt k = get de 0 2 := by
  apply get_congr
  intro j _ hj
  exact dirent_written_self (by simp only [direntSize]; omega)

theorem inumAt_written_other (hl : l ≠ k) :
    (x.written (direntSize * k) direntSize de).inumAt l = x.inumAt l := by
  apply get_congr
  intro j _ hj
  exact dirent_written_other hl (by simp only [direntSize]; omega)

/-- The entries beside the one that is written were there before. -/
theorem entries_written (hk : direntSize * k ≤ x.size)
    (hl : l < (x.written (direntSize * k) direntSize de).entries) (hlk : l ≠ k) :
    l < x.entries := by
  have hend : direntSize * l + direntSize ≤ max x.size (direntSize * k + direntSize) := entry_end hl
  apply lt_entries
  unfold direntSize at hk hend ⊢
  omega

end Written

end Node

theorem direntName_congr {d e : Bytes} (h : ∀ j, j < direntSize → d j = e j) :
    direntName d = direntName e := by
  unfold direntName
  congr 1
  apply List.map_congr_left
  intro k hk
  have hdir : direntSize = 2 + DIRSIZ := rfl
  have hlt := List.mem_range.mp hk
  exact h _ (by omega)

variable {near : Prop} {i n : ℕ} {s t : State} {A : Files} {σ : Slots} {name : Name}

section Reading

/-- A whole entry is read, or nothing is returned. -/
theorem Shows.readDirent (h : Shows near s A σ) (hat : At σ i n) (hdir : (A n).type = T_DIR)
    (hsize : (A n).size ≤ nearBytes) {k : ℕ} (hk : direntSize * k < (A n).size) :
    Gives (Fs.readDirent i (direntSize * k) s) fun de t => s = t ∧ k < (A n).entries ∧
      ∀ j, j < direntSize → de j = (A n).dirent k j := by
  have hdev : (A n).type ≠ T_DEV := by
    rw [hdir]
    decide
  have hword : nearBytes + direntSize < 2 ^ 32 := by decide
  obtain ⟨d, hread, hbytes⟩ := h.readi hat hdev (m := direntSize) (Nat.le_of_lt hk) (by omega)
    (by omega)
  unfold Fs.readDirent
  refine Ends.bind (Q := fun r u => s = u ∧
    r = (((min direntSize ((A n).size - direntSize * k) : ℕ) : ℤ), d)) ?_ ?_
  · rw [hread]
    exact ⟨rfl, rfl⟩
  · rintro r _ _ ⟨rfl, rfl⟩
    refine Ends.bind (Q := fun _ u => s = u ∧
      min direntSize ((A n).size - direntSize * k) = direntSize) ?_ ?_
    · refine gives_ensure fun hfull => ⟨rfl, ?_⟩
      exact Int.ofNat.inj (of_decide_eq_true hfull)
    · rintro _ _ _ ⟨rfl, hfull⟩
      rw [hfull] at hbytes
      exact ⟨rfl, Node.lt_entries (by omega), hbytes⟩

/-- What dirlookup returns for the entry that it found, if it found one. -/
def Found (x : Node) (s : State) (r : Option (ℕ × ℕ)) (t : State) : Option ℕ → Prop
  | none => r = none ∧ s = t
  | some k => ∃ j, r = some (j, direntSize * k) ∧ Fs.iget ROOTDEV (x.inumAt k) s = .ok (j, t)

theorem Shows.lookupLoop (h : Shows near s A σ) (hat : At σ i n) (hdir : (A n).type = T_DIR)
    (hsize : (A n).size ≤ nearBytes) {fuel k : ℕ} (hfuel : k + fuel = (A n).entries + 1) :
    Gives (Fs.lookupLoop i name fuel (direntSize * k) s) fun r t =>
      Found (A n) s r t ((List.range' k (fuel - 1)).find? ((A n).named name)) := by
  obtain ⟨hdev, _, _, _, _, _, hcached⟩ := h.fields hat
  induction fuel generalizing k with
  | zero => exact ⟨rfl, rfl⟩
  | succ fuel ih =>
    unfold Fs.lookupLoop
    refine Ends.bind (Q := fun dp u => s.icache i = dp ∧ s = u) ⟨rfl, rfl⟩ ?_
    rintro dp _ _ ⟨rfl, rfl⟩
    by_cases hlt : direntSize * k < (s.icache i).size
    · rw [if_pos hlt]
      rw [hcached] at hlt
      refine Ends.bind (h.readDirent hat hdir hsize hlt) ?_
      rintro de _ _ ⟨rfl, hk, hde⟩
      obtain ⟨fuel, rfl⟩ : ∃ f, fuel = f + 1 := ⟨fuel - 1, by omega⟩
      have hinum : get de 0 2 = (A n).inumAt k := by
        apply get_congr
        intro j _ hj
        exact hde j (by simp only [direntSize]; omega)
      have hname : direntName de = (A n).nameAt k := direntName_congr hde
      rw [show fuel + 1 + 1 - 1 = fuel + 1 from rfl, List.range'_succ, List.find?_cons,
        hinum, hname]
      by_cases hmatch : (A n).inumAt k ≠ 0 ∧ namecmp name ((A n).nameAt k)
      · have hnamed : (A n).named name k = true := by
          rw [Node.named, Bool.and_eq_true, decide_eq_true_eq]
          exact hmatch
        rw [if_pos hmatch, hnamed, hdev]
        refine gives_iff.mpr fun r t hrun => ?_
        obtain ⟨j, u, hget, hrest⟩ := bind_ok.mp hrun
        obtain ⟨rfl, rfl⟩ := pure_ok.mp hrest
        exact ⟨j, rfl, hget⟩
      · have hnamed : (A n).named name k = false := by
          rw [← Bool.not_eq_true, Node.named, Bool.and_eq_true, decide_eq_true_eq]
          exact hmatch
        rw [if_neg hmatch, hnamed]
        exact ih (k := k + 1) (by omega)
    · rw [if_neg hlt]
      rw [hcached] at hlt
      have hend : fuel = 0 := by
        by_contra hpos
        have hin := Node.entry_end (x := A n) (k := k) (by omega)
        have hsixteen : direntSize = 16 := rfl
        omega
      rw [hend]
      exact ⟨rfl, rfl⟩

/-- dirlookup finds the first entry with the name. -/
theorem Shows.dirlookup (h : Shows near s A σ) (hat : At σ i n)
    (hsize : (A n).type = T_DIR → (A n).size ≤ nearBytes) :
    Gives (Fs.dirlookup i name s) fun r t =>
      (A n).type = T_DIR ∧ Found (A n) s r t ((A n).find name) := by
  obtain ⟨_, _, htype, _, _, _, hcached⟩ := h.fields hat
  unfold Fs.dirlookup
  refine Ends.bind (Q := fun _ u => s = u ∧ (A n).type = T_DIR) ?_ ?_
  · refine gives_ensure fun hdir => ⟨rfl, ?_⟩
    rw [← htype]
    exact of_decide_eq_true hdir
  · rintro _ _ _ ⟨rfl, hdir⟩
    refine Ends.bind (Q := fun size u => (A n).size = size ∧ s = u) ⟨hcached.symm, rfl⟩ ?_
    rintro size _ _ ⟨rfl, rfl⟩
    refine (h.lookupLoop hat hdir (hsize hdir) (k := 0) (Nat.zero_add _)).mono fun r t hfound => ?_
    exact ⟨hdir, hfound⟩

/-- A scan from entry `k` on ends at the first entry that passes the test, or behind the
last one. -/
structure Stops (x : Node) (stop : ℕ → Bool) (k j : ℕ) : Prop where
  from_ : k ≤ j
  before : ∀ l, k ≤ l → l < j → l < x.entries ∧ stop (x.inumAt l) = false
  last : j < x.entries ∧ stop (x.inumAt j) = true ∨ x.size ≤ direntSize * j

namespace Node

/-- Where the loop of dirlink for an empty entry stops. -/
def firstFree (x : Node) : ℕ := (List.range x.entries).findIdx fun k => x.inumAt k == 0

variable {x : Node}

theorem firstFree_le : x.firstFree ≤ x.entries := by
  have hle : x.firstFree ≤ (List.range x.entries).length := List.findIdx_le_length
  rwa [List.length_range] at hle

theorem firstFree_end : direntSize * x.firstFree ≤ x.size :=
  Nat.le_trans (Nat.mul_le_mul_left _ firstFree_le) (Nat.mul_div_le x.size direntSize)

theorem firstFree_of_stops {j : ℕ} (h : Stops x (· == 0) 0 j) : x.firstFree = j := by
  have hle : j ≤ x.entries := by
    cases j with
    | zero => exact Nat.zero_le _
    | succ j => exact (h.before j (Nat.zero_le j) (Nat.lt_succ_self j)).1
  have hbefore : ∀ l, l < j → (x.inumAt l == 0) = false :=
    fun l hl => (h.before l (Nat.zero_le l) hl).2
  rcases h.last with ⟨hlt, hfree⟩ | hend
  · have hlen : j < (List.range x.entries).length := by rwa [List.length_range]
    refine (List.findIdx_eq hlen).mpr ⟨?_, fun l hl => ?_⟩
    · rw [List.getElem_range]
      exact hfree
    · rw [List.getElem_range]
      exact hbefore l hl
  · -- the scan came to the end
    have hall : x.entries = j := by
      refine Nat.le_antisymm ?_ hle
      exact Nat.div_le_of_le_mul hend
    have hlen : x.firstFree = (List.range x.entries).length := by
      refine List.findIdx_eq_length.mpr fun l hl => ?_
      rw [List.mem_range, hall] at hl
      exact hbefore l hl
    rw [hlen, List.length_range, hall]

end Node

theorem Shows.scanDirents (h : Shows near s A σ) (hat : At σ i n) (hdir : (A n).type = T_DIR)
    (hsize : (A n).size ≤ nearBytes) {g : ℕ → Bool} {f k : ℕ}
    (hfuel : (A n).entries + 1 ≤ k + f) :
    Gives (Fs.scanDirents i g f (direntSize * k) s) fun off t =>
      s = t ∧ ∃ j, off = direntSize * j ∧ Stops (A n) g k j := by
  obtain ⟨_, _, _, _, _, _, hcached⟩ := h.fields hat
  induction f generalizing k with
  | zero =>
    refine ⟨rfl, k, rfl, Nat.le_refl k, fun l hlo hhi => by omega, Or.inr ?_⟩
    by_contra hlt
    have hmod := Nat.lt_mul_div_succ (A n).size (show 0 < direntSize by decide)
    have hle : direntSize * ((A n).entries + 1) ≤ direntSize * k := Nat.mul_le_mul_left _ hfuel
    have hent : (A n).entries = (A n).size / direntSize := rfl
    rw [hent] at hle
    omega
  | succ f ih =>
    unfold Fs.scanDirents
    refine Ends.bind (Q := fun size u => (A n).size = size ∧ s = u) ⟨hcached.symm, rfl⟩ ?_
    rintro size _ _ ⟨rfl, rfl⟩
    by_cases hlt : direntSize * k < (A n).size
    · rw [if_pos hlt]
      refine Ends.bind (h.readDirent hat hdir hsize hlt) ?_
      rintro de _ _ ⟨rfl, hk, hde⟩
      have hinum : get de 0 2 = (A n).inumAt k := by
        apply get_congr
        intro j _ hj
        exact hde j (by simp only [direntSize]; omega)
      rw [hinum]
      by_cases hstop : g ((A n).inumAt k) = true
      · rw [if_pos hstop]
        exact ⟨rfl, k, rfl, Nat.le_refl k, fun l hlo hhi => by omega, Or.inl ⟨hk, hstop⟩⟩
      · rw [if_neg hstop]
        refine (ih (k := k + 1) (by omega)).mono ?_
        rintro off t ⟨hsame, j, hoff, hj⟩
        refine ⟨hsame, j, hoff, Nat.le_of_succ_le hj.from_, fun l hlo hhi => ?_, hj.last⟩
        rcases Nat.eq_or_lt_of_le hlo with rfl | hlo
        · exact ⟨hk, Bool.eq_false_iff.mpr hstop⟩
        · exact hj.before l hlo hhi
    · rw [if_neg hlt]
      exact ⟨rfl, k, rfl, Nat.le_refl k, fun l hlo hhi => by omega, Or.inr (Nat.not_lt.mp hlt)⟩

end Reading

end NorthOS.Fs
