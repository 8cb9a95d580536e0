import Mathlib.Data.List.TakeWhile
import NorthOS.BootedImage
import NorthOS.Cat

/-!
What comes back out of an image. The names that mkfs put into the root directory lead to the
files that it copied, and programs of the booted system that read these files get the bytes
that the host had.
-/
namespace NorthOS.Fs

open LittleEndian Halting Comp

variable {files : List Mkfs.HostFile} {t : Mkfs.State} {es : List (ℕ × Name)}
    {cs : List (List UInt8)} {n k : ℕ}
  {name path : Name} {f : Mkfs.HostFile}

section Entries

/-- The entry and the inode of the accepted file `k`. -/
theorem fileEntries_get (hk : (files.filter Mkfs.accepted)[k]? = some f) :
    (Mkfs.fileEntries n files)[k]? = some (n + k, Mkfs.filename f.path) := by
  induction files generalizing n k with
  | nil => cases hk
  | cons g fs ih =>
    unfold Mkfs.fileEntries
    by_cases hg : Mkfs.accepted g
    · rw [List.filter_cons_of_pos hg] at hk
      rw [if_pos hg]
      cases k with
      | zero =>
        rw [← Option.some.inj hk]
        rfl
      | succ k =>
        have hrest := ih (n := n + 1) hk
        rw [List.getElem?_cons_succ, hrest, Nat.add_right_comm, Nat.add_assoc]
    · rw [List.filter_cons_of_neg hg] at hk
      rw [if_neg hg]
      exact ih hk

theorem rootEntries_get (hk : (files.filter Mkfs.accepted)[k]? = some f) :
    (Mkfs.rootEntries files)[k + 2]? = some (k + 2, Mkfs.filename f.path) := by
  have hentry := fileEntries_get (n := 2) hk
  rw [Nat.add_comm 2 k] at hentry
  exact hentry

theorem contents_get (hk : (files.filter Mkfs.accepted)[k]? = some f) :
    (Mkfs.contents files)[k]? = some (Mkfs.copied f.reads) := by
  rw [Mkfs.contents, List.getElem?_map, hk]
  rfl

theorem entries_root (h : Mkfs.Image es cs t) :
    es.length < (seen t.img ROOTINO).entries := by
  have hsixteen : direntSize = 16 := rfl
  have hblock : BSIZE = 2048 := rfl
  rw [Node.entries, root_size h, hsixteen, hblock]
  omega

theorem nameAt_root (h : Mkfs.Image es cs t) (hes : es.length ≤ maxInodes) (hplain : Mkfs.Plain es)
    (hk : k < es.length) : (seen t.img ROOTINO).nameAt k = key es[k].2 := by
  have hin := entries_root h
  rw [← h.finished.nameAt hplain hk]
  exact direntName_congr fun j hj => dirent_root h hes (by omega) hj

/-- A lookup in the root finds the entry with the name, when the names are different. -/
theorem find_root (h : Mkfs.Image es cs t) (hfits : Fits es cs) (hplain : Mkfs.Plain es)
    (hnodup : (es.map fun e => key e.2).Nodup) {m : ℕ} (hk : es[k]? = some (m, name)) :
    (seen t.img ROOTINO).find (key name) = some k := by
  obtain ⟨hlt, hentry⟩ := List.getElem?_eq_some_iff.mp hk
  have hin := entries_root h
  have hkey : ∀ a b : Name, namecmp (key a) (key b) = true ↔ key a = key b := by
    intro a b
    unfold namecmp key
    rw [List.take_take, List.take_take, Nat.min_self, beq_iff_eq]
  unfold Node.find
  rw [List.find?_range'_eq_some, List.mem_range'_1]
  refine ⟨?_, ⟨Nat.zero_le _, by omega⟩, fun j _ hj => ?_⟩
  · have hinum := inumAt_root h hfits.many hfits.inums (k := k) (by exact Nat.lt_trans hlt hin)
    rw [hk] at hinum
    have hpos := (hplain _ (List.mem_of_getElem? hk)).1
    unfold Node.named
    rw [nameAt_root h hfits.many hplain hlt, hentry, (hkey name name).mpr rfl, Bool.and_true,
      decide_eq_true_eq]
    intro hzero
    have hm : m = 0 := hinum.symm.trans hzero
    omega
  · have hjlt : j < es.length := Nat.lt_trans hj hlt
    have hne : key name ≠ key es[j].2 := by
      intro heq
      have hinj := List.nodup_iff_injective_getElem.mp hnodup
      have hsame := @hinj ⟨j, by rwa [List.length_map]⟩ ⟨k, by rwa [List.length_map]⟩
        (by simp only [List.getElem_map, hentry]; exact heq.symm)
      have heq := Fin.ext_iff.mp hsame
      dsimp only at heq
      omega
    unfold Node.named
    rw [nameAt_root h hfits.many hplain hjlt, Bool.not_eq_true', Bool.and_eq_false_iff]
    right
    rw [← Bool.not_eq_true, hkey]
    exact hne

end Entries

section Files

theorem rootEntries_mem {e : ℕ × Name} (he : e ∈ Mkfs.rootEntries files) :
    e.1 < files.countP Mkfs.accepted + 2 := by
  rcases List.mem_append.mp he with he | he
  · simp only [List.mem_cons, List.not_mem_nil, or_false] at he
    have hroot : ROOTINO = 1 := rfl
    rcases he with rfl | rfl
    · show ROOTINO < _
      omega
    · show ROOTINO < _
      omega
  · have hlt := fileEntries_inums e he
    omega

theorem rootEntries_plain (hfiles : Modest files) : Mkfs.Plain (Mkfs.rootEntries files) := by
  have hcount := hfiles.count
  have hmax : maxInodes = 208 := rfl
  intro e he
  rcases List.mem_append.mp he with he | he
  · simp only [List.mem_cons, List.not_mem_nil, or_false] at he
    rcases he with rfl | rfl
    · exact ⟨by decide, by decide, by decide⟩
    · exact ⟨by decide, by decide, by decide⟩
  · exact Mkfs.fileEntries_plain (by omega) (Nat.le_refl _) (by omega) e he

theorem rootEntries_names :
    (Mkfs.rootEntries files).map (fun e => key e.2) = Mkfs.rootNames files := by
  simp [Mkfs.rootEntries, Mkfs.rootNames, Mkfs.fileEntries_names]

theorem image_sensible (h : Mkfs.Image (Mkfs.rootEntries files) (Mkfs.contents files) t)
    (hfiles : Modest files) : Sensible (seen t.img) := by
  have hfits := hfiles.fits
  have hcount := h.filled.count
  have hlen : (Mkfs.contents files).length = files.countP Mkfs.accepted := by
    rw [Mkfs.contents, List.length_map, List.countP_eq_length_filter]
  refine ⟨fun n htype => ?_, fun n k htype hk hne => ?_, ?_⟩
  · rw [image_dir h htype]
    rw [root_size h]
    exact Dvd.dvd.mul_left (by decide) _
  · rw [image_dir h htype] at hk hne ⊢
    rw [inumAt_root h hfits.many hfits.inums hk] at hne ⊢
    cases he : (Mkfs.rootEntries files)[k]? with
    | none =>
      rw [he] at hne
      exact absurd rfl hne
    | some e =>
      rw [he] at hne
      have hlt := rootEntries_mem (List.mem_of_getElem? he)
      have htype := (ino_made h (n := e.1) (Nat.pos_of_ne_zero hne) (by omega)).1
      show ((volume t.img).ino e.1).type ≠ 0
      rw [htype, Mkfs.madeType]
      split <;> decide
  · rw [root_type h]
    decide

theorem image_linked (h : Mkfs.Image es cs t) : Linked (seen t.img) := by
  intro n htype
  rcases ino_cases h n with ⟨hpos, hlt⟩ | hfree
  · show ((volume t.img).ino n).nlink ≠ 0
    rw [(ino_made h hpos hlt).2.2.2]
    decide
  · refine absurd ?_ htype
    show ((volume t.img).ino n).type = 0
    rw [hfree]
    rfl

/-- A file with a name that a path can have. -/
structure Nameable (f : Mkfs.HostFile) : Prop where
  nonempty : Mkfs.filename f.path ≠ []
  noSlash : slash ∉ Mkfs.filename f.path

/-- How a program that runs in the root names a file: with its name, or from the root. -/
def Calls (path : Name) (f : Mkfs.HostFile) : Prop :=
  path = Mkfs.filename f.path ∨ path = slash :: Mkfs.filename f.path

/-- A path with one element. -/
theorem skipelem_one (hne : name ≠ []) (hslash : slash ∉ name)
    (hp : path = name ∨ path = slash :: name) : skipelem path = some (key name, []) := by
  have hall : ∀ b ∈ name, (b ≠ slash) := fun b hb heq => hslash (heq ▸ hb)
  have hdrop : name.dropWhile (· == slash) = name := by
    cases name with
    | nil => rfl
    | cons b bs => exact List.dropWhile_cons_of_neg (by simpa using hall b List.mem_cons_self)
  have hstart : path.dropWhile (· == slash) = name := by
    rcases hp with rfl | rfl
    · exact hdrop
    · rw [List.dropWhile_cons_of_pos (by decide)]
      exact hdrop
  have htake : name.takeWhile (· ≠ slash) = name := by
    rw [List.takeWhile_eq_self_iff]
    exact fun b hb => decide_eq_true (hall b hb)
  have hrest : name.dropWhile (· ≠ slash) = [] := by
    rw [List.dropWhile_eq_nil_iff]
    exact fun b hb => decide_eq_true (hall b hb)
  unfold skipelem
  rw [hstart]
  dsimp only
  rw [if_neg hne, htake, hrest]
  rfl

/-- A name of one element leads from the root to the inode of its entry. -/
theorem walk_root {m fuel : ℕ} (h : Mkfs.Image (Mkfs.rootEntries files) (Mkfs.contents files) t)
    (hfiles : Modest files) (hnodup : (Mkfs.rootNames files).Nodup)
    (hk : (Mkfs.rootEntries files)[k]? = some (m, name)) (hskip : skipelem path = some (key name, [])) (prev : Name) :
    walk (seen t.img) false (fuel + 2) ROOTINO path prev = some (m, key name) := by
  have hfits := hfiles.fits
  have hfind := find_root h hfits (rootEntries_plain hfiles) (by rw [rootEntries_names]; exact hnodup) hk
  have hlt := (List.getElem?_eq_some_iff.mp hk).1
  have hinum := inumAt_root h hfits.many hfits.inums (Nat.lt_trans hlt (entries_root h))
  unfold walk
  rw [hskip]
  dsimp only
  rw [if_neg (not_not_intro (root_type h)), if_neg (fun hc => Bool.false_ne_true hc.1), hfind]
  dsimp only
  rw [hinum, hk]
  rfl

/-- The names that mkfs stored lead to the files. -/
theorem resolve_file (h : Mkfs.Image (Mkfs.rootEntries files) (Mkfs.contents files) t)
    (hfiles : Modest files) (hnodup : (Mkfs.rootNames files).Nodup)
    (hk : (files.filter Mkfs.accepted)[k]? = some f) (hf : Nameable f) (hpath : Calls path f) :
    resolve (seen t.img) ROOTINO path = some (k + 2) := by
  have hskip := skipelem_one hf.nonempty hf.noSlash hpath
  have horigin : origin ROOTINO path = ROOTINO := ite_self _
  obtain ⟨fuel, hfuel⟩ : ∃ fuel, path.length = fuel + 1 := by
    refine ⟨path.length - 1, ?_⟩
    have hpos : 0 < path.length := by
      rw [List.length_pos_iff]
      rintro rfl
      cases hskip
    omega
  unfold resolve
  rw [horigin, hfuel, walk_root h hfiles hnodup (rootEntries_get hk) hskip]
  rfl

/-- The root has room for entries. -/
theorem image_roomy (h : Mkfs.Image (Mkfs.rootEntries files) (Mkfs.contents files) t) (hfiles : Modest files)
    (path : Name) : Roomy (seen t.img) (looked (seen t.img) false ROOTINO path) := by
  refine roomy_of_dirs (fun n htype => ?_) false ROOTINO path
  have hsize := root_size_le h hfiles.fits.many
  have hsixteen : direntSize = 16 := rfl
  have hnear : nearBytes = 1069056 := rfl
  rw [image_dir h htype]
  omega

theorem names_file (h : Mkfs.Image (Mkfs.rootEntries files) (Mkfs.contents files) t)
    (hfiles : Modest files) (hnodup : (Mkfs.rootNames files).Nodup)
    (hk : (files.filter Mkfs.accepted)[k]? = some f) (hf : Nameable f) (hpath : Calls path f) :
    Names (seen t.img) ROOTINO path (k + 2) := by
  have hsmall := hfiles.fits.small _ (List.mem_of_getElem? (contents_get hk))
  have hnode := nodeOf_file h (contents_get hk) hsmall
  refine ⟨resolve_file h hfiles hnodup hk hf hpath, image_roomy h hfiles path, ?_, ?_, ?_⟩
  · rw [hnode]
    exact (by decide : T_FILE ≠ 0)
  · rw [hnode]
    exact (by decide : T_FILE ≠ T_DEV)
  · rw [hnode]
    exact hsmall

/-- All bytes of a file. -/
theorem fileNode_rest (d : List UInt8) : (fileNode d).rest 0 = d := by
  show (List.range' 0 (d.length - 0)).map (fun o => d.getD o 0) = d
  rw [Nat.sub_zero, ← List.range_eq_range']
  apply List.ext_getElem
  · rw [List.length_map, List.length_range]
  · intro k _ hk
    rw [List.getElem_map, List.getElem_range, List.getD_eq_getElem _ _ hk]

end Files

section Counting

/-- The words of a text: the pieces between white space that are not empty. -/
def words (bs : List UInt8) : List (List UInt8) := (bs.splitOnP isSpace).filter (· ≠ [])

/-- The words that begin after the first piece. -/
def wordsAfter (bs : List UInt8) : List (List UInt8) := (bs.splitOnP isSpace).tail.filter (· ≠ [])

variable {b : UInt8} {bs : List UInt8} {x : Counts}

theorem words_space (bs : List UInt8) (h : isSpace b = true) :
    words (b :: bs) = words bs ∧ wordsAfter (b :: bs) = words bs := by
  unfold words wordsAfter
  rw [List.splitOnP_cons_eq_if_modifyHead, if_pos h]
  exact ⟨List.filter_cons_of_neg (by simp), rfl⟩

theorem words_letter (bs : List UInt8) (h : isSpace b = false) :
    (words (b :: bs)).length = (wordsAfter bs).length + 1 ∧
      wordsAfter (b :: bs) = wordsAfter bs := by
  obtain ⟨w, ws, hsplit⟩ := List.exists_cons_of_ne_nil (List.splitOnP_ne_nil isSpace bs)
  unfold words wordsAfter
  rw [List.splitOnP_cons_eq_if_modifyHead, if_neg (by rw [h]; exact Bool.false_ne_true), hsplit,
    List.modifyHead_cons, List.filter_cons_of_pos (by simp)]
  exact ⟨rfl, rfl⟩

/-- The count of words goes on with the piece in which the loop is. -/
theorem foldl_words : (bs.foldl Counts.byte x).w =
    x.w + (if x.inword then wordsAfter bs else words bs).length := by
  induction bs generalizing x with
  | nil => cases x.inword <;> rfl
  | cons b bs ih =>
    rw [List.foldl_cons, ih]
    cases hb : isSpace b with
    | true =>
      obtain ⟨hwords, hafter⟩ := words_space bs hb
      rw [hwords, hafter, ite_self]
      simp [Counts.byte, hb]
    | false =>
      obtain ⟨hwords, hafter⟩ := words_letter bs hb
      cases hin : x.inword with
      | true => simp [Counts.byte, hb, hin, hafter]
      | false =>
        simp only [Counts.byte, hb, hin, Bool.not_false, Bool.and_self, if_true, Bool.false_eq_true,
          if_false, hwords]
        omega

theorem foldl_lines : (bs.foldl Counts.byte x).l = x.l + bs.count 10 := by
  induction bs generalizing x with
  | nil => rfl
  | cons b bs ih =>
    rw [List.foldl_cons, ih, List.count_cons]
    by_cases hb : b = 10
    · simp only [Counts.byte, hb, if_true, beq_self_eq_true]
      omega
    · simp [Counts.byte, hb]

theorem foldl_chars : (bs.foldl Counts.byte x).c = x.c + bs.length := by
  induction bs generalizing x with
  | nil => rfl
  | cons b bs ih =>
    rw [List.foldl_cons, ih, List.length_cons]
    show x.c + 1 + bs.length = x.c + (bs.length + 1)
    omega

end Counting

section Session

/-- The arguments of a program that runs in the root, with the files of the host that they stand for. -/
structure Arguments (files : List Mkfs.HostFile) (args : List Name) (gs : List Mkfs.HostFile) : Prop where
  nonempty : args ≠ []
  given : ∀ g ∈ gs, g ∈ files ∧ Mkfs.accepted g ∧ Nameable g
  calls : List.Forall₂ Calls args gs

/-- A file of the host that mkfs took has a position among those that it took. -/
theorem position (hf : f ∈ files) (hacc : Mkfs.accepted f) :
    ∃ k : ℕ, (files.filter Mkfs.accepted)[k]? = some f :=
  List.getElem?_of_mem (List.mem_filter.mpr ⟨hf, hacc⟩)

/-- What the kernel sees of the files that are named. -/
theorem named_files (h : Mkfs.Image (Mkfs.rootEntries files) (Mkfs.contents files) t)
    (hfiles : Modest files)
    (hnodup : (Mkfs.rootNames files).Nodup) {args : List Name} {gs : List Mkfs.HostFile}
    (hgiven : ∀ g ∈ gs, g ∈ files ∧ Mkfs.accepted g ∧ Nameable g)
    (hcalls : List.Forall₂ Calls args gs) :
    ∃ ns, List.Forall₂ (Names (seen t.img) ROOTINO) args ns ∧
      ns.map (seen t.img) = gs.map fun g => fileNode (Mkfs.copied g.reads) := by
  induction hcalls with
  | nil => exact ⟨[], List.Forall₂.nil, rfl⟩
  | @cons arg g args gs hcall hcalls ih =>
    obtain ⟨ns, hnames, hnodes⟩ := ih fun f hf => hgiven f (List.mem_cons_of_mem g hf)
    obtain ⟨hg, hacc, hname⟩ := hgiven g List.mem_cons_self
    obtain ⟨k, hk⟩ := position hg hacc
    have hsmall := hfiles.fits.small _ (List.mem_of_getElem? (contents_get hk))
    refine ⟨(k + 2) :: ns, List.Forall₂.cons (names_file h hfiles hnodup hk hname hcall) hnames, ?_⟩
    rw [List.map_cons, List.map_cons, hnodes, nodeOf_file h (contents_get hk) hsmall]

/-- A program that reads its arguments gets the files of the host. -/
theorem reader_mkfs {S R : Type} {use : S → List UInt8 → S} (huse : Seamless use)
    {image : Option Bool}
    (hrun : Mkfs.main image files Mkfs.start = .ok ((), t)) (hfiles : Modest files)
    (hnodup : (Mkfs.rootNames files).Nodup) {devsw : ℕ → Option Devsw} {s : Sys}
    (hboot : boot t.img devsw = some s)
    {args : List Name} {gs : List Mkfs.HostFile} (hargs : Arguments files args gs) {fuel : ℕ}
    (hfuel : ∀ g ∈ gs, (Mkfs.copied g.reads).length < fuel) (start : S) (shown : Exit → S → List R)
    (out : S → R) (hshown : ∀ x, shown .done x = [out x]) (stdin : File) :
    ∃ u, reader use start shown stdin fuel 0 args s.fs =
      .ok ((.done, gs.map fun g => out (use start (Mkfs.copied g.reads))), u) := by
  have himage := (Mkfs.main_image hfiles.count hfiles.small).of_ok hrun
  obtain ⟨fs, σ, hboot', hbooted⟩ := boot_image devsw himage hfiles.fits
  obtain rfl := Option.some.inj (hboot.symm.trans hboot')
  obtain ⟨ns, hnames, hnodes⟩ := named_files himage hfiles hnodup hargs.given hargs.calls
  have hsame : (ns.flatMap fun n => shown .done (use start ((seen t.img n).rest 0))) =
      gs.map fun g => out (use start (Mkfs.copied g.reads)) := by
    have hleft := List.flatMap_map (seen t.img) (fun x : Node => shown .done (use start (x.rest 0)))
        (l := ns)
    rw [← hleft, hnodes, List.flatMap_map]
    simp only [fileNode_rest, hshown]
    exact List.map_eq_flatMap.symm
  have hsizes : ∀ n ∈ ns, (seen t.img n).size < fuel := by
    intro n hn
    have hmem : seen t.img n ∈ gs.map fun g => fileNode (Mkfs.copied g.reads) :=
      hnodes ▸ List.mem_map_of_mem hn
    obtain ⟨g, hg, hnode⟩ := List.mem_map.mp hmem
    rw [← hnode]
    exact hfuel g hg
  obtain ⟨u, hrun, -⟩ := hbooted.good.forFiles_returns huse start shown
    (Multiset.mem_singleton_self 0) hbooted.idle (by rw [hbooted.log]; exact ⟨rfl, rfl, rfl⟩)
    (by decide)
    (image_sensible himage hfiles) (image_linked himage) hbooted.cwd
    (by rw [root_type himage]; decide) hnames hsizes
  refine ⟨u, ?_⟩
  unfold reader
  rw [if_neg hargs.nonempty, hrun, hsame]

/-- cat prints the files of the host byte for byte, and wc prints how many lines, words and
bytes they have. -/
theorem programs_mkfs {image : Option Bool} (hrun : Mkfs.main image files Mkfs.start = .ok ((), t))
    (hfiles : Modest files) (hnodup : (Mkfs.rootNames files).Nodup) (devsw : ℕ → Option Devsw) :
    ∃ s, boot t.img devsw = some s ∧ s.cwds = [0] ∧ ∀ args gs fuel stdin, Arguments files args gs →
      (∀ g ∈ gs, (Mkfs.copied g.reads).length < fuel) →
        (∃ u, cat stdin fuel 0 args s.fs = .ok ((.done, gs.map fun g => Mkfs.copied g.reads), u)) ∧
          ∃ u, wc stdin fuel 0 args s.fs = .ok ((.done, gs.map fun g =>
            ((Mkfs.copied g.reads).count 10, (words (Mkfs.copied g.reads)).length,
              (Mkfs.copied g.reads).length)), u) := by
  have himage := (Mkfs.main_image hfiles.count hfiles.small).of_ok hrun
  obtain ⟨fs, σ, hboot, -⟩ := boot_image devsw himage hfiles.fits
  refine ⟨_, hboot, rfl, fun args gs fuel stdin hargs hfuel => ⟨?_, ?_⟩⟩
  · exact reader_mkfs seamless_append hrun hfiles hnodup hboot hargs hfuel [] (fun _ x => [x]) id
      (fun _ => rfl) stdin
  · obtain ⟨u, hwc⟩ := reader_mkfs (seamless_foldl Counts.byte) hrun hfiles hnodup hboot hargs hfuel
      ⟨0, 0, 0, false⟩
      (fun e x => if e = .done then [(x.l, x.w, x.c)] else []) (fun x => (x.l, x.w, x.c)) (fun _ => if_pos rfl) stdin
    refine ⟨u, hwc.trans ?_⟩
    simp only [foldl_words, foldl_lines, foldl_chars, Nat.zero_add, Bool.false_eq_true, if_false]

theorem programs_mkfs_readme : ∃ t s, Mkfs.main (some true) [readme] Mkfs.start = .ok ((), t) ∧
    boot t.img (fun _ => none) = some s ∧
      (∃ u, cat ⟨true, false, 0, 0⟩ 6 0 [[slash, 97]] s.fs =
      .ok ((.done, [[104, 105, 32, 121, 10]]), u)) ∧
        ∃ u, wc ⟨true, false, 0, 0⟩ 6 0 [[slash, 97]] s.fs = .ok ((.done, [(1, 2, 5)]), u) := by
  obtain ⟨t, hrun⟩ := readme_runs
  obtain ⟨s, hboot, _, hall⟩ := programs_mkfs hrun readme_modest (by decide) fun _ => none
  have hgiven : ∀ g ∈ [readme], g ∈ [readme] ∧ Mkfs.accepted g ∧ Nameable g := by
    intro g hg
    rw [List.mem_singleton.mp hg]
    exact ⟨List.mem_singleton_self readme, by decide, ⟨by decide, by decide⟩⟩
  obtain ⟨hcat, hwc⟩ := hall [[slash, 97]] [readme] 6 ⟨true, false, 0, 0⟩
    ⟨by decide, hgiven, .cons (Or.inr rfl) .nil⟩ (by decide)
  exact ⟨t, s, hrun, hboot, hcat, hwc⟩

end Session

end NorthOS.Fs
