import NorthOS.DirectoryMap
import NorthOS.MkfsImage

/-!
The image that mkfs leaves. Its pointers are always in order while the dinodes are, which
they are as long as there are no more than NINODES; the names in the root directory are
different when those of the arguments are.
-/
namespace NorthOS.Mkfs

open LittleEndian Halting Comp Fs Ownership

/-- The root directory of an image. -/
def rootDir (img : ℕ → Bytes) : Node where
  type := get (table img ROOTINO) 0 2
  major := get (table img ROOTINO) 2 2
  minor := get (table img ROOTINO) 4 2
  nlink := get (table img ROOTINO) 6 2
  size := dinSize (table img ROOTINO)
  byte := fileByte (table img) img ROOTINO

/-- A well-formed image: inodes are within the table, names in the root directory are
different, pointers are exclusive, and the bitmap marks the blocks that were taken. -/
structure WellFormed (t : State) : Prop where
  inums : ∀ n ∈ t.handed, n < NINODES
  written : ∀ b ∈ t.written, mkfsSuperblock.inodestart ≤ b ∧ b < mkfsSuperblock.bmapstart
  names : (rootDir t.img).Distinct
  inside : ∀ q, pointer (table t.img) t.img q ≠ 0 →
    nmeta ≤ pointer (table t.img) t.img q ∧ pointer (table t.img) t.img q < t.freeblock
  once : ∀ q r, pointer (table t.img) t.img q ≠ 0 →
    pointer (table t.img) t.img q = pointer (table t.img) t.img r → q = r
  bitmap : ∀ b, b < nbitmap * BPB →
    Bitmap.test (t.img (BMAPBLOCK b mkfsSuperblock)) (b % BPB) = decide (b < t.freeblock)

/-- The names that the root directory gets, as far as they count. -/
def rootNames (files : List HostFile) : List Name :=
  (dot :: dotdot :: (files.filter accepted).map fun f => filename f.path).map key

variable {s t : State} {n k : ℕ} {es : List (ℕ × Name)} {files : List HostFile}

section Finish

theorem test_marked (used j : ℕ) : Bitmap.test (marked used) j = decide (j < used) := by
  induction used with
  | zero =>
    simp [marked, Bitmap.test]
  | succ used ih =>
    rw [marked, Bitmap.test_set, ih]
    by_cases hj : j = used
    · simp [hj]
    · have hiff : j < used + 1 ↔ j < used := by omega
      simp [hj, hiff]

/-- The end of main leaves the pointers, and writes the size of the root directory and the
bitmap. -/
structure Finished (es : List (ℕ × Name)) (t : State) : Prop where
  sound : Sound (table t.img) t
  written : ∀ b ∈ t.written, mkfsSuperblock.inodestart ≤ b ∧ b < mkfsSuperblock.bmapstart
  size : dinSize (table t.img ROOTINO) = (direntSize * es.length / BSIZE + 1) * BSIZE
  bytes : ∀ o, fileByte (table t.img) t.img ROOTINO o = dirBytes es o
  bitmap : ∀ b, b < nbitmap * BPB →
    Bitmap.test (t.img (BMAPBLOCK b mkfsSuperblock)) (b % BPB) = decide (b < t.freeblock)

theorem Built.finish (h : Built es s) (hlen : es.length < 2 ^ 16) :
    Gives (finish ROOTINO s) fun _ t => Finished es t := by
  have hroot : ROOTINO < maxInodes := by decide
  have hmeta : nmeta = 47 := rfl
  have hdirect : NDIRECT = 10 := rfl
  have hsixteen : direntSize = 16 := rfl
  have hblock : BSIZE = 2048 := rfl
  have hbits : BPB = 16384 := rfl
  have hsize : FSSIZE = 25600 := rfl
  obtain ⟨hilo, hihi⟩ := IBLOCK_lt hroot
  unfold Mkfs.finish
  refine Ends.bind (rinode_spec hroot) fun d u _ hread => ?_
  obtain ⟨rfl, rfl⟩ := hread
  rw [h.size]
  set off := (direntSize * es.length / BSIZE + 1) * BSIZE with hoff
  have hofflt : off < 256 ^ 4 := by
    rw [hoff, hsixteen, hblock]
    omega
  refine Ends.bind (winode_spec h.sound.len hroot) fun _ t _ hwrite => ?_
  have himg : t.img = withDinode s.img ROOTINO (put (table s.img ROOTINO) 8 4 off) := by rw [hwrite]
  have hlow : ∀ b, b ≠ IBLOCK ROOTINO mkfsSuperblock → t.img b = s.img b := by
    intro b hb
    rw [himg]
    exact Function.update_of_ne hb _ _
  have haddr : ∀ m k, k < NDIRECT + 2 → dinAddr (table t.img m) k = dinAddr (table s.img m) k := by
    intro m k hk
    rw [himg]
    refine (get_table_withDinode hroot (by omega)).trans ?_
    by_cases hm : m = ROOTINO
    · subst hm
      rw [Function.update_self]
      exact get_put_other (by omega)
    · rw [Function.update_of_ne hm]
      rfl
  obtain ⟨hsound, hbytes⟩ := h.sound.table_congr (t := t) haddr (by rw [hwrite]) (by rw [hwrite])
    fun b hb => hlow b (by omega)
  have htsize : dinSize (table t.img ROOTINO) = off := by
    rw [himg]
    refine (get_table_withDinode hroot (by omega)).trans ?_
    rw [Function.update_self]
    exact get_put_of_lt hofflt
  refine Ends.bind (Q := fun used u => t.freeblock = used ∧ t = u) ⟨rfl, rfl⟩ ?_
  rintro _ _ _ ⟨rfl, rfl⟩
  unfold balloc
  refine Ends.bind (Q := fun _ u => t = u ∧ t.freeblock < BSIZE * 8)
    (gives_ensure fun hused => ⟨rfl, of_decide_eq_true hused⟩) ?_
  rintro _ _ _ ⟨rfl, hused⟩
  refine (wsect_spec hsound.len (by decide)).mono fun _ u hmark => ?_
  have huimg : u.img = Function.update t.img mkfsSuperblock.bmapstart
      (marked t.freeblock) := by rw [hmark]
  have htable : table u.img = table t.img := by
    funext m
    unfold table
    by_cases hm : m < maxInodes
    · obtain ⟨_, hlt⟩ := IBLOCK_lt hm
      rw [if_pos hm, if_pos hm, huimg, Function.update_of_ne (by rw [bmapstart_eq]; omega)]
    · rw [if_neg hm, if_neg hm]
  obtain ⟨husound, hubytes⟩ := hsound.table_congr (t := u) (fun _ _ _ => rfl) (by rw [hmark])
    (by rw [hmark]) fun b hb => by
      rw [huimg, Function.update_of_ne (by rw [bmapstart_eq]; omega)]
  refine ⟨by rw [htable]; exact husound, ?_, by rw [htable]; exact htsize, fun o => ?_,
    fun b hb => ?_⟩
  · rw [hmark, hwrite]
    exact h.written_cons hroot
  · rw [htable, hubytes, hbytes, h.bytes]
  · have hfree : u.freeblock = t.freeblock := by rw [hmark]
    rw [bitmap_bits] at hb
    rw [huimg, hfree, BMAPBLOCK_mkfs, bmapstart_eq, hbits]
    by_cases hfirst : b < 16384
    · have hzero : b / 16384 + 45 = 45 := by omega
      rw [hzero, Function.update_self, test_marked, Nat.mod_eq_of_lt hfirst]
    · -- the second block of the bitmap stays empty
      have hne : b / 16384 + 45 ≠ 45 := by omega
      have hblank : t.img (b / 16384 + 45) = fun _ => 0 := by
        rw [hlow _ (by omega)]
        exact h.bitmap _ (by rw [bmapstart_eq]; omega) (by omega)
      rw [Function.update_of_ne hne, hblank]
      rw [hblock] at hused
      have hclear : ∀ i, Bitmap.test (fun _ => 0) i = false := fun i => Nat.zero_testBit _
      rw [hclear]
      exact (decide_eq_false (by omega)).symm

end Finish

section Names

/-- The numbers of entries fit into them, and their names are C strings. -/
def Plain (es : List (ℕ × Name)) : Prop := ∀ e ∈ es, 0 < e.1 ∧ e.1 < 2 ^ 16 ∧ 0 ∉ e.2

theorem Finished.dirent (h : Finished es t) {j : ℕ} (hj : j < direntSize) :
    (rootDir t.img).dirent k j = match es[k]? with
      | some e => Fs.dirent e.1 e.2 j
      | none => 0 := by
  have hdiv : (direntSize * k + j) / direntSize = k := by
    rw [Nat.mul_add_div (by decide), Nat.div_eq_of_lt hj, Nat.add_zero]
  have hmod : (direntSize * k + j) % direntSize = j := by
    rw [Nat.mul_add_mod, Nat.mod_eq_of_lt hj]
  refine (h.bytes _).trans ?_
  unfold dirBytes
  cases hk : es[k]? with
  | none => rw [hdiv, hk]
  | some e => rw [hdiv, hmod, hk]

/-- The live entries of the root directory are those that were put there. -/
theorem Finished.live (h : Finished es t) (hes : Plain es) :
    (rootDir t.img).Live k ↔ k < es.length := by
  have hsixteen : direntSize = 16 := rfl
  have hblock : BSIZE = 2048 := rfl
  have hentries : (rootDir t.img).entries =
      (direntSize * es.length / BSIZE + 1) * BSIZE / direntSize := by
    rw [← h.size]
    rfl
  constructor
  · rintro ⟨_, hne⟩
    by_contra hk
    refine hne (get_zero fun j _ hj => ?_)
    rw [h.dirent (by omega), List.getElem?_eq_none (Nat.not_lt.mp hk)]
  · intro hk
    refine ⟨?_, ?_⟩
    · rw [hentries, hsixteen, hblock]
      omega
    · obtain ⟨hpos, hlt, _⟩ := hes _ (List.getElem_mem hk)
      have hinum : (rootDir t.img).inumAt k = get (Fs.dirent es[k].1 es[k].2) 0 2 := by
        refine get_congr fun j _ hj => ?_
        rw [h.dirent (by omega), List.getElem?_eq_getElem hk]
      rw [hinum, Fs.dirent, get_put_of_lt hlt]
      omega

theorem Finished.nameAt (h : Finished es t) (hes : Plain es) (hk : k < es.length) :
    (rootDir t.img).nameAt k = key es[k].2 := by
  obtain ⟨_, _, hname⟩ := hes _ (List.getElem_mem hk)
  rw [← @Node.direntName_dirent _ es[k].1 hname]
  refine direntName_congr fun j hj => ?_
  rw [h.dirent hj, List.getElem?_eq_getElem hk]

theorem Finished.distinct_iff (h : Finished es t) (hes : Plain es) :
    (rootDir t.img).Distinct ↔ (es.map fun e => key e.2).Nodup := by
  rw [List.nodup_iff_injective_getElem]
  constructor
  · intro hdistinct i j hij
    have hi : i.val < es.length := by simpa using i.isLt
    have hj : j.val < es.length := by simpa using j.isLt
    simp only [List.getElem_map] at hij
    apply Fin.ext
    refine hdistinct i j ((h.live hes).mpr hi) ((h.live hes).mpr hj) ?_
    rw [h.nameAt hes hi, h.nameAt hes hj, hij]
  · intro hinj k l hk hl hname
    have hk' := (h.live hes).mp hk
    have hl' := (h.live hes).mp hl
    rw [h.nameAt hes hk', h.nameAt hes hl'] at hname
    have hfin := @hinj ⟨k, by simpa using hk'⟩ ⟨l, by simpa using hl'⟩ (by simpa using hname)
    exact Fin.ext_iff.mp hfin

theorem basename_cstring {path : Name} (h : 0 ∉ path) : 0 ∉ basename path := by
  have htrim : 0 ∉ (path.reverse.dropWhile (· == slash)).reverse := by
    rw [List.mem_reverse]
    intro hmem
    exact h (List.mem_reverse.mp ((List.dropWhile_sublist _).mem hmem))
  unfold basename
  dsimp only
  split_ifs
  · decide
  · decide
  · rw [List.mem_reverse]
    intro hmem
    exact htrim (List.mem_reverse.mp ((List.takeWhile_sublist _).mem hmem))

theorem filename_cstring {path : Name} (h : 0 ∉ path) : 0 ∉ filename path := by
  unfold filename
  split
  · exact fun hmem => basename_cstring h (List.mem_of_mem_tail hmem)
  · exact basename_cstring h

theorem fileEntries_plain {b : ℕ} (hn : 0 < n) (hb : n + files.countP accepted ≤ b)
    (hlt : b ≤ 2 ^ 16) : Plain (fileEntries n files) := by
  induction files generalizing n with
  | nil => exact fun e he => absurd he List.not_mem_nil
  | cons f fs ih =>
    unfold fileEntries
    by_cases hf : accepted f
    · rw [List.countP_cons_of_pos hf] at hb
      rw [if_pos hf]
      intro e he
      rcases List.mem_cons.mp he with rfl | he
      · exact ⟨hn, by dsimp only; omega, filename_cstring f.cstring⟩
      · exact ih (Nat.succ_pos n) (by omega) e he
    · rw [List.countP_cons_of_neg hf] at hb
      rw [if_neg hf]
      exact ih hn hb

theorem fileEntries_names : (fileEntries n files).map (fun e => key e.2) =
    (files.filter accepted).map fun f => key (filename f.path) := by
  induction files generalizing n with
  | nil => rfl
  | cons f fs ih =>
    unfold fileEntries
    by_cases hf : accepted f
    · rw [if_pos hf, List.filter_cons_of_pos hf, List.map_cons, List.map_cons, ih]
    · rw [if_neg hf, List.filter_cons_of_neg hf, ih]

end Names

/-- What main leaves when there are dinodes enough. -/
theorem main_finished {image : Option Bool} (hcount : files.countP accepted + 2 ≤ maxInodes) :
    Gives (main image files start) fun _ t =>
      Finished ([(ROOTINO, dot), (ROOTINO, dotdot)] ++ fileEntries 2 files) t := by
  have hmax : maxInodes = 208 := rfl
  have hroot : ROOTINO = 1 := rfl
  have hensure : ∀ b : Bool, Gives ((ensure (fun _ => b) .exit : M Unit) start) fun _ u =>
      start = u :=
    fun b => gives_ensure fun _ => rfl
  unfold main
  refine Ends.bind (hensure _) ?_
  rintro _ _ _ rfl
  refine Ends.bind (hensure _) ?_
  rintro _ _ _ rfl
  refine Ends.bind (format_built rfl rfl rfl rfl) fun r t _ hformat => ?_
  obtain ⟨rfl, hbuilt, hfree⟩ := hformat
  have hadd : Gives (addFiles ROOTINO files t) fun _ u =>
      Built ([(ROOTINO, dot), (ROOTINO, dotdot)] ++ fileEntries 2 files) u := by
    rw [← hfree]
    exact hbuilt.addFiles (by omega) (by rw [hfree]; rfl) (by omega)
  refine Ends.bind hadd fun _ u _ hall => ?_
  refine hall.finish ?_
  rw [List.length_append, fileEntries_length]
  show 2 + files.countP accepted < 2 ^ 16
  omega

/-- The names of the root directory are those of the arguments. -/
theorem names_iff {image : Option Bool} (hrun : main image files start = .ok ((), t))
    (hle : files.countP accepted + 2 ≤ NINODES) :
    Finished ([(ROOTINO, dot), (ROOTINO, dotdot)] ++ fileEntries 2 files) t ∧
      ((rootDir t.img).Distinct ↔ (rootNames files).Nodup) := by
  have hninodes : NINODES = 200 := rfl
  have hmax : maxInodes = 208 := rfl
  have hfinished := (main_finished (by omega)).of_ok hrun
  have hplain : Plain ([(ROOTINO, dot), (ROOTINO, dotdot)] ++ fileEntries 2 files) := by
    intro e he
    rcases List.mem_append.mp he with he | he
    · simp only [List.mem_cons, List.not_mem_nil, or_false] at he
      rcases he with rfl | rfl
      · exact ⟨by decide, by decide, by decide⟩
      · exact ⟨by decide, by decide, by decide⟩
    · exact fileEntries_plain (by omega) (Nat.le_refl _) (by omega) e he
  refine ⟨hfinished, ?_⟩
  have hall : ([(ROOTINO, dot), (ROOTINO, dotdot)] ++ fileEntries 2 files).map (fun e => key e.2) =
      rootNames files := by
    simp [rootNames, fileEntries_names]
  rw [hfinished.distinct_iff hplain, hall]

/-- The image is well formed exactly when the inodes are fewer than NINODES and the names
of the arguments are different. -/
theorem wellFormed_iff {image : Option Bool} (hrun : main image files start = .ok ((), t)) :
    WellFormed t ↔ files.countP accepted + 2 ≤ NINODES ∧ (rootNames files).Nodup := by
  have hone : start.freeinode = 1 := rfl
  obtain ⟨hfree, htraced⟩ := (main_hands start_traced hone).of_ok hrun
  rw [hone] at hfree
  have hinums : (∀ n ∈ t.handed, n < NINODES) ↔ files.countP accepted + 2 ≤ NINODES := by
    constructor
    · intro hall
      have hlast := hall (files.countP accepted + 1) ((htraced _).mpr ⟨by omega, by omega⟩)
      omega
    · intro hle n hn
      have hrange := (htraced n).mp hn
      omega
  constructor
  · intro h
    have hle := hinums.mp h.inums
    exact ⟨hle, (names_iff hrun hle).2.mp h.names⟩
  · rintro ⟨hle, hnodup⟩
    obtain ⟨hfinished, hdistinct⟩ := names_iff hrun hle
    exact ⟨hinums.mpr hle, hfinished.written, hdistinct.mpr hnodup,
      fun q hq => hfinished.sound.pointer_lt hq, hfinished.sound.exclusive.once, hfinished.bitmap⟩

section Runs

/-- An empty file. -/
def emptyFile (path : Name) (h : 0 ∉ path) : HostFile where
  path := path
  cstring := h
  opens := true
  stat := some 0
  reads := [[]]
  short := by decide

/-- A run of main once the sectors are cleared, which its evaluation leaves out. -/
theorem main_start : main (some true) files start = (do
    let rootino ← makeRoot
    addFiles rootino files
    finish rootino : M Unit) (cleared start) := by
  have hensure : (ensure (fun _ => true) .exit : M Unit) start = .ok ((), start) := rfl
  unfold main
  refine (bind_of_ok hensure).trans ((bind_of_ok hensure).trans ?_)
  exact bind_congr (format_eq rfl rfl)

theorem returns_of_isOk {r : Except Halt (Unit × State)} (h : r.isOk = true) :
    ∃ t, r = .ok ((), t) := by
  cases r with
  | ok r => exact ⟨r.2, rfl⟩
  | error e => exact absurd h Bool.false_ne_true

/-- It runs to its end with one file. -/
theorem wellFormed_one : ∃ t, main (some true) [emptyFile [97] (by decide)] start = .ok ((), t) ∧
    WellFormed t := by
  obtain ⟨t, hrun⟩ : ∃ t, main (some true) [emptyFile [97] (by decide)] start = .ok ((), t) := by
    rw [main_start]
    exact returns_of_isOk (by decide +kernel)
  exact ⟨t, hrun, (wellFormed_iff hrun).mpr (by decide)⟩

/-- mkfs fs.img a _a gives two entries the name a. -/
theorem mkfs_not_wellFormed : ∃ t,
    main (some true) [emptyFile [97] (by decide), emptyFile [95, 97] (by decide)] start =
      .ok ((), t) ∧ ¬ WellFormed t := by
  obtain ⟨t, hrun⟩ : ∃ t, main (some true)
      [emptyFile [97] (by decide), emptyFile [95, 97] (by decide)] start = .ok ((), t) := by
    rw [main_start]
    exact returns_of_isOk (by decide +kernel)
  refine ⟨t, hrun, fun h => ?_⟩
  have hnodup := (names_iff hrun (by decide)).2.mp h.names
  revert hnodup
  decide

end Runs

end NorthOS.Mkfs
