import NorthOS.Printf
import NorthOS.ReadBack

/-!
ls.c. Each entry of a directory that is in use makes a line, with what stat finds for it; the
last block of the root, which mkfs fills up with zeros, makes none.
-/
namespace NorthOS.Fs

open LittleEndian Halting Comp
open Printf (Text)

/-- `struct stat` -/
structure Stat where
  type : ℕ
  dev : ℕ
  ino : ℕ
  nlink : ℕ
  size : ℕ
  deriving DecidableEq, Repr

def stati (ip : Inode) : Stat := ⟨ip.type, ip.dev, ip.inum, ip.nlink, ip.size⟩

/-- `filestat` -/
def filestat (f : File) : M Stat := do
  ilock f.ip
  let st ← look fun s => stati (s.icache f.ip)
  iunlock f.ip
  pure st

/-- `stat` of ulib.c. -/
def stat (cwd : ℕ) (path : Name) : M (Option Stat) := do
  let r ← transaction (openFile cwd path 0 true)
  match r with
  | none => pure none
  | some f => do
    let st ← filestat f
    transaction (putInode f.ip)
    pure (some st)

/-- What follows the last slash. -/
def lastElement (path : Name) : Name := (path.reverse.takeWhile (· ≠ slash)).reverse

/-- The name, padded with blanks. -/
def fmtname (path : Name) : Text :=
  if (lastElement path).length ≥ DIRSIZ then lastElement path
  else lastElement path ++ List.replicate (DIRSIZ - (lastElement path).length) 32

/-- A printf with a string at some address and the words of its other arguments. -/
def printText (fmt s : Text) (args : List ℕ) : Text :=
  Printf.printf (fun _ => s) (fun k => BitVec.ofNat 32 ((1 :: args).getD k 0)) fmt

/-- `"%s %d %d %d\n"` -/
def lineFormat : Text := [37, 115, 32, 37, 100, 32, 37, 100, 32, 37, 100, 10]

/-- `"ls: cannot open %s\n"` -/
def openFormat : Text := [108, 115, 58, 32, 99, 97, 110, 110, 111, 116, 32, 111, 112, 101, 110, 32, 37, 115, 10]

/-- `"ls: cannot stat %s\n"` -/
def statFormat : Text := [108, 115, 58, 32, 99, 97, 110, 110, 111, 116, 32, 115, 116, 97, 116, 32, 37, 115, 10]

/-- `"ls: path too long\n"` -/
def longFormat : Text := [108, 115, 58, 32, 112, 97, 116, 104, 32, 116, 111, 111, 32, 108, 111, 110, 103, 10]

def lsLine (path : Name) (st : Stat) : Text := printText lineFormat (fmtname path) [st.type, st.ino, st.size]

/-- The loop over the entries of a directory: what is printed, to which descriptor. -/
def lsLoop (cwd : ℕ) (path : Name) : ℕ → File → M (List (ℕ × Text))
  | 0, _ => pure []
  | fuel + 1, f => do
    let r ← fileread f direntSize
    if r.1 = direntSize then
      if get r.2.1 0 2 = 0 then lsLoop cwd path fuel r.2.2
      else do
        let buf := path ++ slash :: direntName r.2.1
        let st ← stat cwd buf
        let rest ← lsLoop cwd path fuel r.2.2
        match st with
        | none => pure ((1, printText statFormat buf []) :: rest)
        | some st => pure ((1, lsLine buf st) :: rest)
    else pure []

/-- ls of one path. fstat does not fail for a file of an inode. -/
def ls (fuel cwd : ℕ) (path : Name) : M (List (ℕ × Text)) := do
  let r ← transaction (openFile cwd path 0 true)
  match r with
  | none => pure [(2, printText openFormat path [])]
  | some f => do
    let st ← filestat f
    let out ←
      if st.type = T_FILE then pure [(1, lsLine path st)]
      else if st.type = T_DIR then
        if path.length + 1 + DIRSIZ + 1 > 512 then pure [(1, longFormat)]
        else lsLoop cwd path fuel f
      else pure []
    transaction (putInode f.ip)
    pure out

variable {near : Prop} {i n c k cwd : ℕ} {s t : State} {A : Files} {σ : Slots} {E L : Multiset ℕ} {path : Name}
  {f : File}

section Stat

/-- What stat says of an inode. -/
def statOf (A : Files) (n : ℕ) : Stat := ⟨(A n).type, ROOTDEV, n, (A n).nlink, (A n).size⟩

theorem Good.filestat_returns (h : Good near s A σ E L) (hidle : Idle s) (hat : At σ f.ip n)
    (hmem : f.ip ∈ E + L) (htype : (A n).type ≠ 0) :
    ∃ t σ', filestat f s = .ok (statOf A n, t) ∧ Quiet s t ∧ Idle t ∧ Good near t A σ' E L ∧ Keeps (E + L) σ σ' := by
  have htyped : (A (σ f.ip).inum).type ≠ 0 := by rwa [hat.inum]
  obtain ⟨_, t, hlock, hquiet, ⟨σ₁, hdoes, hat', _⟩, _, _, _, hlocks⟩ :=
    (h.ilock_returns hmem (hidle _ hat.slot) htyped).gives ((h.ilock hmem).and (ilock_uses s))
  rw [hat.inum] at hat'
  obtain ⟨hdev, hinum, htype', _, _, hnlink, hsize⟩ := hdoes.good.shows.fields hat'
  have hlocked : t.locks f.ip = true := by
    rw [hlocks, Function.update_self]
  have hpos : 0 < t.refs f.ip := by
    rw [refs_eq hdoes.good]
    exact hat'.ref
  obtain ⟨_, u, hunlock, hquiet', hgood, _, hlocks'⟩ :=
    (iunlock_returns hlocked hpos).gives (hdoes.good.iunlock.and (iunlock_uses t))
  refine ⟨u, σ₁, ?_, quiet_composes.trans hquiet hquiet', ?_, hgood.good, hdoes.keeps.trans hgood.keeps⟩
  · have hst : stati (t.icache f.ip) = statOf A n := by
      unfold stati statOf
      rw [hdev, hinum, htype', hnlink, hsize]
    have hlook : (look fun s => stati (s.icache f.ip) : M Stat) t = .ok (statOf A n, t) := look_ok.mpr ⟨hst, rfl⟩
    unfold filestat
    rw [bind_of_ok hlock, bind_of_ok hlook, bind_of_ok hunlock]
    rfl
  · rw [hlocks] at hlocks'
    exact hidle.again hlocks'

/-- stat opens the file and closes it again. -/
theorem Good.stat_returns (h : Good near s A σ E 0) (hcwd : cwd ∈ E) (hidle : Idle s) (hstill : Still s.log)
    (hcard : E.toFinset.card + 2 ≤ NINODE) (hA : Sensible A) (hlinked : Linked A) (hc : (A (σ cwd).inum).type ≠ 0)
    (hname : Names A (σ cwd).inum path n) :
    ∃ t σ', stat cwd path s = .ok (some (statOf A n), t) ∧ t.log = s.log ∧ Idle t ∧
      Good near t A σ' E 0 ∧ Keeps E σ σ' := by
  have hbegun : Good near s.begun A σ E 0 := h.setLog _
  obtain ⟨ip, t, σ₁, hopen, hquiet, hidle₁, hgood₁, hkeeps₁, hat⟩ :=
    hbegun.openFile_returns hcwd hidle hcard hA hc hname.roomy hname.resolves hname.typed
  have hopened := transaction_returns hstill hopen hquiet
  obtain ⟨u, σ₂, hstat, hquiet₂, hidle₂, hgood₂, hkeeps₂⟩ :=
    (hgood₁.setLog s.log).filestat_returns (f := ⟨true, false, ip, 0⟩) hidle₁ hat
      (mem_refs (Multiset.mem_cons_self ip E)) hname.typed
  have hulog : u.log = s.log := hquiet₂.log
  have hstill₂ : Still u.log := by rwa [hulog]
  obtain ⟨v, σ₃, hclose, hquiet₃, hidle₃, hgood₃, hkeeps₃⟩ :=
    (hgood₂.setLog { u.log with outstanding := 1 }).close_returns hidle₂ hlinked
  have hclosed := transaction_returns hstill₂ hclose hquiet₃
  refine ⟨{ v with log := u.log }, σ₃, ?_, hulog, hidle₃, hgood₃.setLog u.log,
    hkeeps₁.trans ((hkeeps₂.mono fun j hj => mem_refs (Multiset.mem_cons_of_mem hj)).trans hkeeps₃)⟩
  unfold stat
  rw [bind_of_ok hopened]
  dsimp only
  rw [bind_of_ok hstat, bind_of_ok hclosed]
  rfl

end Stat

section Listing

/-- The lines for the entries of a directory from `k` on. -/
def lsLines (A : Files) (x : Node) (path : Name) (k : ℕ) : List (ℕ × Text) :=
  (List.range' k (x.entries - k)).flatMap fun j =>
    if x.inumAt j = 0 then [] else [(1, lsLine (path ++ slash :: x.nameAt j) (statOf A (x.inumAt j)))]

theorem lsLines_next {x : Node} (hlt : k < x.entries) : lsLines A x path k =
    (if x.inumAt k = 0 then [] else [(1, lsLine (path ++ slash :: x.nameAt k) (statOf A (x.inumAt k)))]) ++
      lsLines A x path (k + 1) := by
  have hlen : x.entries - k = x.entries - (k + 1) + 1 := by omega
  rw [lsLines, hlen, List.range'_succ, List.flatMap_cons]
  rfl

/-- The bytes of a buffer whose beginning is known. -/
theorem chunk_get {d : Bytes} {g : ℕ → UInt8} {o m j : ℕ} (h : chunk d m = (List.range' o m).map g) (hj : j < m) :
    d j = g (o + j) := by
  have hget := congrArg (fun l => l[j]?) h
  simpa [chunk, hj] using hget

theorem Good.lsLoop_returns {fuel : ℕ} (h : Good near s A σ E 0) (hcwd : cwd ∈ E) (hidle : Idle s) (hstill : Still s.log)
    (hcard : E.toFinset.card + 2 ≤ NINODE) (hA : Sensible A) (hlinked : Linked A) (hinum : (σ cwd).inum = c)
    (hc : (A c).type ≠ 0) (hmem : f.ip ∈ E) (hat : At σ f.ip n) (hread : f.readable = true)
    (htype : (A n).type = T_DIR) (hsize : (A n).size ≤ nearBytes)
    (hoff : f.off = direntSize * k) (hk : k ≤ (A n).entries)
    (hnames : ∀ j, j < (A n).entries → (A n).inumAt j ≠ 0 →
      Names A c (path ++ slash :: (A n).nameAt j) ((A n).inumAt j))
    (hfuel : (A n).entries - k < fuel) :
    ∃ t σ', lsLoop cwd path fuel f s = .ok (lsLines A (A n) path k, t) ∧ t.log = s.log ∧ Idle t ∧
      Good near t A σ' E 0 ∧ Keeps E σ σ' := by
  have hsixteen : direntSize = 16 := rfl
  have hwhole := hA.whole n htype
  have hfull : direntSize * (A n).entries = (A n).size := Nat.mul_div_cancel' hwhole
  have htyped : (A n).type ≠ 0 := by
    rw [htype]
    decide
  have hdev : (A n).type ≠ T_DEV := by
    rw [htype]
    decide
  induction fuel generalizing s σ f k with
  | zero => exact absurd hfuel (Nat.not_lt_zero _)
  | succ fuel ih =>
    subst hinum
    have hmem' : f.ip ∈ E + 0 := mem_refs hmem
    obtain ⟨d, t, σ₁, hrun, hbytes, hquiet, hidle₁, hgood₁, hkeeps₁⟩ :=
      h.fileread_returns hidle hat hmem' hread htyped hdev hsize (m := direntSize)
        (by rw [hoff, ← hfull]; exact Nat.mul_le_mul_left _ hk) (by decide)
    have hkeeps₁' : Keeps E σ σ₁ := hkeeps₁.mono fun j hj => mem_refs hj
    have htlog : t.log = s.log := hquiet.log
    unfold lsLoop
    rw [bind_of_ok hrun]
    dsimp only
    by_cases hend : k = (A n).entries
    · -- the end of the directory
      have hzero : min direntSize ((A n).size - f.off) = 0 := by
        rw [hoff, hend, hfull, Nat.sub_self]
        rfl
      have hlines : lsLines A (A n) path k = [] := by
        rw [lsLines, hend, Nat.sub_self]
        rfl
      rw [hzero, if_neg (by decide), hlines]
      exact ⟨t, σ₁, rfl, htlog, hidle₁, hgood₁, hkeeps₁'⟩
    · have hlt : k < (A n).entries := by omega
      have hin := Node.entry_end hlt
      have hlen : min direntSize ((A n).size - f.off) = direntSize := by omega
      rw [hlen] at hbytes ⊢
      have hentry : ∀ j, j < direntSize → d j = (A n).dirent k j := by
        intro j hj
        rw [chunk_get hbytes hj, hoff]
        rfl
      have hget : get d 0 2 = (A n).inumAt k := get_congr fun j _ hj => hentry j (by omega)
      have hname : direntName d = (A n).nameAt k := direntName_congr hentry
      rw [if_pos rfl, hget, hname]
      have hnext : f.off + direntSize = direntSize * (k + 1) := by rw [hoff, Nat.mul_succ]
      have hat₁ : At σ₁ f.ip n := hat.keep hgood₁ hmem' hkeeps₁ hmem'
      rw [lsLines_next hlt]
      by_cases hzero : (A n).inumAt k = 0
      · obtain ⟨u, σ₂, hrest, hulog, hidle₂, hgood₂, hkeeps₂⟩ :=
          ih (f := { f with off := f.off + direntSize }) (k := k + 1) hgood₁ hidle₁ (by rwa [htlog])
            (hkeeps₁' cwd hcwd).1 hmem hat₁ hread hnext (by omega) (by omega)
        rw [if_pos hzero, if_pos hzero]
        exact ⟨u, σ₂, hrest, hulog.trans htlog, hidle₂, hgood₂, hkeeps₁'.trans hkeeps₂⟩
      · have hwd : (σ₁ cwd).inum = (σ cwd).inum := (hkeeps₁' cwd hcwd).1
        obtain ⟨u, σ₂, hstat, hulog, hidle₂, hgood₂, hkeeps₂⟩ :=
          hgood₁.stat_returns hcwd hidle₁ (by rwa [htlog]) hcard hA hlinked (by rwa [hwd])
            (by rw [hwd]; exact hnames k hlt hzero)
        have hat₂ : At σ₂ f.ip n := hat₁.keep hgood₂ hmem' (hkeeps₂.mono fun j hj => hj) hmem
        obtain ⟨v, σ₃, hrest, hvlog, hidle₃, hgood₃, hkeeps₃⟩ :=
          ih (f := { f with off := f.off + direntSize }) (k := k + 1) hgood₂ hidle₂ (by rwa [hulog, htlog])
            ((hkeeps₂ cwd hcwd).1.trans hwd) hmem hat₂ hread hnext (by omega) (by omega)
        rw [if_neg hzero, if_neg hzero, bind_of_ok hstat, bind_of_ok hrest]
        exact ⟨v, σ₃, rfl, hvlog.trans (hulog.trans htlog), hidle₃, hgood₃,
          hkeeps₁'.trans (hkeeps₂.trans hkeeps₃)⟩

/-- ls of a directory prints its lines. -/
theorem Good.ls_returns {fuel : ℕ} (h : Good near s A σ E 0) (hcwd : cwd ∈ E) (hidle : Idle s) (hstill : Still s.log)
    (hcard : E.toFinset.card + 3 ≤ NINODE) (hA : Sensible A) (hlinked : Linked A) (hinum : (σ cwd).inum = c)
    (hc : (A c).type ≠ 0) (hpath : Names A c path n) (htype : (A n).type = T_DIR) (hlen : path.length + DIRSIZ + 2 ≤ 512)
    (hnames : ∀ j, j < (A n).entries → (A n).inumAt j ≠ 0 →
      Names A c (path ++ slash :: (A n).nameAt j) ((A n).inumAt j))
    (hfuel : (A n).entries < fuel) :
    ∃ t, ls fuel cwd path s = .ok (lsLines A (A n) path 0, t) ∧ t.log = s.log ∧ Idle t ∧
      ∃ σ', Good near t A σ' E 0 ∧ Keeps E σ σ' := by
  subst hinum
  have hbegun : Good near s.begun A σ E 0 := h.setLog _
  obtain ⟨ip, t, σ₁, hopen, hquiet, hidle₁, hgood₁, hkeeps₁, hat⟩ :=
    hbegun.openFile_returns hcwd hidle (by omega) hA hc hpath.roomy hpath.resolves hpath.typed
  have hopened := transaction_returns hstill hopen hquiet
  obtain ⟨u, σ₂, hstat, hquiet₂, hidle₂, hgood₂, hkeeps₂⟩ :=
    (hgood₁.setLog s.log).filestat_returns (f := ⟨true, false, ip, 0⟩) hidle₁ hat
      (mem_refs (Multiset.mem_cons_self ip E)) hpath.typed
  have hulog : u.log = s.log := hquiet₂.log
  have hip : ip ∈ ip ::ₘ E + 0 := mem_refs (Multiset.mem_cons_self ip E)
  have hcard₂ : (ip ::ₘ E).toFinset.card + 2 ≤ NINODE := by
    rw [Multiset.toFinset_cons]
    have hinsert := Finset.card_insert_le ip E.toFinset
    omega
  have hkeeps₂' : Keeps E σ σ₂ :=
    hkeeps₁.trans (hkeeps₂.mono fun j hj => mem_refs (Multiset.mem_cons_of_mem hj))
  obtain ⟨v, σ₃, hloop, hvlog, hidle₃, hgood₃, hkeeps₃⟩ :=
    hgood₂.lsLoop_returns (f := ⟨true, false, ip, 0⟩) (k := 0) (Multiset.mem_cons_of_mem hcwd) hidle₂ (by rwa [hulog])
      hcard₂ hA hlinked (hkeeps₂' cwd hcwd).1 hc (Multiset.mem_cons_self ip E) (hat.keep hgood₂ hip hkeeps₂ hip) rfl
      htype hpath.small rfl (Nat.zero_le _) hnames (by omega)
  have hvlog' : v.log = s.log := hvlog.trans hulog
  obtain ⟨w, σ₄, hclose, hquiet₄, hidle₄, hgood₄, hkeeps₄⟩ :=
    (hgood₃.setLog { v.log with outstanding := 1 }).close_returns hidle₃ hlinked
  have hclosed := transaction_returns (by rwa [hvlog']) hclose hquiet₄
  refine ⟨{ w with log := v.log }, ?_, hvlog', hidle₄, σ₄, hgood₄.setLog v.log,
    hkeeps₂'.trans ((hkeeps₃.mono fun j hj => Multiset.mem_cons_of_mem hj).trans hkeeps₄)⟩
  have hdir : (statOf A n).type = T_DIR := htype
  unfold ls
  rw [bind_of_ok hopened]
  dsimp only
  rw [bind_of_ok hstat]
  rw [if_neg (by rw [hdir]; decide), if_pos hdir, if_neg (by omega), bind_of_ok hloop, bind_of_ok hclosed]
  rfl

end Listing

section Lines

/-- A name, padded with blanks to the length of the longest. -/
def padded (name : Name) : Text := name ++ List.replicate (DIRSIZ - name.length) 32

/-- One line of a listing. -/
def row (name : Name) (type ino size : ℕ) : Text :=
  padded name ++ 32 :: Printf.decimal type ++ 32 :: Printf.decimal ino ++ 32 :: Printf.decimal size ++ [10]

theorem lastElement_append {dir name : Name} (hslash : slash ∉ name) : lastElement (dir ++ slash :: name) = name := by
  have hall : ∀ b ∈ name.reverse, decide (b ≠ slash) = true := fun b hb =>
    decide_eq_true fun h => hslash (h ▸ List.mem_reverse.mp hb)
  unfold lastElement
  rw [List.reverse_append, List.reverse_cons, List.append_assoc, List.takeWhile_append_of_pos hall]
  simp

theorem fmtname_append {dir name : Name} (hslash : slash ∉ name) : fmtname (dir ++ slash :: name) = padded name := by
  unfold fmtname padded
  rw [lastElement_append hslash]
  split
  · rename_i hlen
    rw [Nat.sub_eq_zero_of_le hlen]
    exact (List.append_nil name).symm
  · rfl

theorem lsLine_row {dir name : Name} {st : Stat} (hslash : slash ∉ name) (htype : st.type < 2 ^ 31)
    (hino : st.ino < 2 ^ 31) (hsize : st.size < 2 ^ 31) :
    lsLine (dir ++ slash :: name) st = row name st.type st.ino st.size := by
  have hpieces : Printf.pieces lineFormat =
      [.string, .letter 32, .number, .letter 32, .number, .letter 32, .number, .letter 10] := rfl
  have hname : Printf.string (fun _ => padded name) (BitVec.ofNat 32 1) = padded name := if_neg (by decide)
  unfold lsLine printText Printf.printf row
  rw [Printf.printfLoop_eq, hpieces, fmtname_append hslash, ← Printf.printint_decimal htype,
    ← Printf.printint_decimal hino, ← Printf.printint_decimal hsize]
  simp only [Printf.printPieces, List.append_assoc, List.cons_append, List.getD_cons_zero, List.getD_cons_succ, hname]

end Lines

section Image

variable {files : List Mkfs.HostFile} {t : Mkfs.State} {m : ℕ} {name : Name}

/-- The first element of a path in the working directory. -/
theorem skipelem_dot (hslash : slash ∉ name) : skipelem (dot ++ slash :: name) = some (dot, name) := by
  have hdrop : name.dropWhile (· == slash) = name := by
    cases name with
    | nil => rfl
    | cons b bs =>
      refine List.dropWhile_cons_of_neg ?_
      simp only [beq_iff_eq]
      exact fun hb => hslash (hb ▸ List.mem_cons_self)
  show some (dot, (name.dropWhile (· == slash))) = _
  rw [hdrop]

theorem image_small {es : List (ℕ × Name)} {cs : List (List UInt8)} (h : Mkfs.Image es cs t) (hfits : Fits es cs)
    (n : ℕ) : (seen t.img n).size ≤ nearBytes := by
  have hgood : Good True (initialized t.img mkfsSuperblock fun _ => none) (seen t.img) _ 0 0 := image_good h hfits
  exact hgood.dirs.small trivial n

theorem names_entry (h : Mkfs.Image (Mkfs.rootEntries files) (Mkfs.contents files) t) (hfiles : Modest files)
    (hnodup : (Mkfs.rootNames files).Nodup) (hk : (Mkfs.rootEntries files)[k]? = some (m, name)) (hne : name ≠ [])
    (hslash : slash ∉ name) : Names (seen t.img) ROOTINO (dot ++ slash :: key name) m := by
  have hfits := hfiles.fits
  have hkey : slash ∉ key name := fun hmem => hslash (List.mem_of_mem_take hmem)
  have hkeyne : key name ≠ [] := by
    intro hnil
    rcases List.take_eq_nil_iff.mp hnil with hzero | hnil
    · cases hzero
    · exact hne hnil
  have hagain : key (key name) = key name := List.take_take.trans (by rw [Nat.min_self]; rfl)
  have hskip := skipelem_one hkeyne hkey (Or.inl rfl)
  rw [hagain] at hskip
  have hdot : (Mkfs.rootEntries files)[0]? = some (ROOTINO, dot) := rfl
  have hfind := find_root h hfits (rootEntries_plain hfiles) (by rw [rootEntries_names]; exact hnodup) hdot
  have hinum := inumAt_root h hfits.many hfits.inums
    (Nat.lt_trans (List.getElem?_eq_some_iff.mp hdot).1 (entries_root h))
  rw [hdot] at hinum
  have hresolves : resolve (seen t.img) ROOTINO (dot ++ slash :: key name) = some m := by
    have horigin : origin ROOTINO (dot ++ slash :: key name) = ROOTINO := ite_self _
    have hlen : (dot ++ slash :: key name).length + 1 = (key name).length + 1 + 2 := rfl
    unfold resolve
    rw [horigin, hlen]
    unfold walk
    rw [skipelem_dot hkey]
    dsimp only
    have hfind' : (seen t.img ROOTINO).find dot = some 0 := hfind
    rw [if_neg (not_not_intro (root_type h)), if_neg (fun hc => Bool.false_ne_true hc.1), hfind']
    dsimp only
    rw [hinum]
    exact congrArg (Option.map Prod.fst) (walk_root h hfiles hnodup hk hskip dot)
  have hpos := (rootEntries_plain hfiles _ (List.mem_of_getElem? hk)).1
  have hlt := rootEntries_mem (List.mem_of_getElem? hk)
  have hcount := h.filled.count
  have hcontents : (Mkfs.contents files).length = files.countP Mkfs.accepted := by
    rw [Mkfs.contents, List.length_map, List.countP_eq_length_filter]
  have hmade : (seen t.img m).type = Mkfs.madeType m := (ino_made h hpos (by dsimp only at hlt; omega)).1
  refine ⟨hresolves, image_roomy h hfiles _, ?_, ?_, image_small h hfits m⟩
  · rw [hmade, Mkfs.madeType]
    split <;> decide
  · rw [hmade, Mkfs.madeType]
    split <;> decide

/-- The entries of the root, position by position. -/
theorem flatMap_entries {α β : Type} {es : List α} {f : ℕ → List β} {g : α → β} {N : ℕ} (hN : es.length ≤ N)
    (hf : ∀ j, j < N → f j = es[j]?.toList.map g) : (List.range' 0 N).flatMap f = es.map g := by
  induction es generalizing f N with
  | nil =>
    rw [List.flatMap_eq_nil_iff.mpr fun j hj => hf j (by rw [List.mem_range'_1] at hj; omega)]
    rfl
  | cons e es ih =>
    obtain ⟨M, rfl⟩ : ∃ M, N = M + 1 := ⟨N - 1, by rw [List.length_cons] at hN; omega⟩
    have hfirst : f 0 = [g e] := hf 0 (Nat.succ_pos M)
    have hrest := ih (f := fun j => f (j + 1)) (N := M) (Nat.le_of_succ_le_succ hN) fun j hj => hf (j + 1) (by omega)
    have hshift : List.range' 1 M = (List.range' 0 M).map (· + 1) := by
      simp [List.range'_eq_map_range, Nat.add_comm]
    rw [List.range'_succ, List.flatMap_cons, hfirst, hshift, List.flatMap_map, hrest]
    rfl

theorem fileEntries_mapIdx {n : ℕ} : Mkfs.fileEntries n files =
    (files.filter Mkfs.accepted).mapIdx fun k f => (n + k, Mkfs.filename f.path) := by
  induction files generalizing n with
  | nil => rfl
  | cons f fs ih =>
    unfold Mkfs.fileEntries
    by_cases hf : Mkfs.accepted f
    · rw [if_pos hf, List.filter_cons_of_pos hf, List.mapIdx_cons, ih]
      congr 1
      simp only [Nat.add_assoc, Nat.add_comm 1]
    · rw [if_neg hf, List.filter_cons_of_neg hf]
      exact ih

/-- What ls prints for the root of an image. -/
def listing (files : List Mkfs.HostFile) : List (ℕ × Text) :=
  let size := (direntSize * (Mkfs.rootEntries files).length / BSIZE + 1) * BSIZE
  (1, row dot T_DIR ROOTINO size) :: (1, row dotdot T_DIR ROOTINO size) ::
    (files.filter Mkfs.accepted).mapIdx fun k f =>
      (1, row (key (Mkfs.filename f.path)) T_FILE (k + 2) (Mkfs.copied f.reads).length)

/-- A name in the root of an image that paths can have. -/
theorem entry_nameable (hnames : ∀ f ∈ files, Mkfs.accepted f → Nameable f) {e : ℕ × Name}
    (he : e ∈ Mkfs.rootEntries files) : e.2 ≠ [] ∧ slash ∉ e.2 := by
  rcases List.mem_append.mp he with he | he
  · simp only [List.mem_cons, List.not_mem_nil, or_false] at he
    rcases he with rfl | rfl
    · exact ⟨by decide, by decide⟩
    · exact ⟨by decide, by decide⟩
  · rw [fileEntries_mapIdx] at he
    obtain ⟨k, hk, rfl⟩ := List.mem_mapIdx.mp he
    obtain ⟨hmem, hacc⟩ := List.mem_filter.mp (List.getElem_mem hk)
    exact ⟨(hnames _ hmem hacc).nonempty, (hnames _ hmem hacc).noSlash⟩

/-- The line for an entry of the root that is the root itself. -/
theorem lsLine_root (h : Mkfs.Image (Mkfs.rootEntries files) (Mkfs.contents files) t) (hfiles : Modest files)
    (hslash : slash ∉ name) : lsLine (dot ++ slash :: name) (statOf (seen t.img) ROOTINO) =
      row name T_DIR ROOTINO ((direntSize * (Mkfs.rootEntries files).length / BSIZE + 1) * BSIZE) := by
  have hst : statOf (seen t.img) ROOTINO =
      ⟨T_DIR, ROOTDEV, ROOTINO, (seen t.img ROOTINO).nlink, (seen t.img ROOTINO).size⟩ := by
    unfold statOf
    rw [root_type h]
  rw [hst, ← root_size h]
  exact lsLine_row hslash (show T_DIR < 2 ^ 31 by decide) (show ROOTINO < 2 ^ 31 by decide)
    (Nat.lt_of_le_of_lt (root_size_le h hfiles.fits.many) (by decide))

/-- The line for a file. -/
theorem lsLine_file (h : Mkfs.Image (Mkfs.rootEntries files) (Mkfs.contents files) t) (hfiles : Modest files)
    {f : Mkfs.HostFile} (hk : (files.filter Mkfs.accepted)[k]? = some f) (hslash : slash ∉ name) :
    lsLine (dot ++ slash :: name) (statOf (seen t.img) (k + 2)) =
      row name T_FILE (k + 2) (Mkfs.copied f.reads).length := by
  have hcontents := contents_get hk
  have hsmall := hfiles.fits.small _ (List.mem_of_getElem? hcontents)
  have hnear : nearBytes = 1069056 := rfl
  have hmax : maxInodes = 208 := rfl
  have hlen := (List.getElem?_eq_some_iff.mp hcontents).1
  have hcount := h.filled.count
  have hinodes := h.inodes
  have hst : statOf (seen t.img) (k + 2) = ⟨T_FILE, ROOTDEV, k + 2, 1, (Mkfs.copied f.reads).length⟩ := by
    unfold statOf
    rw [nodeOf_file h hcontents hsmall]
    rfl
  rw [hst]
  refine lsLine_row hslash (show T_FILE < 2 ^ 31 by decide) ?_ ?_
  · show k + 2 < 2 ^ 31
    omega
  · show (Mkfs.copied f.reads).length < 2 ^ 31
    omega

/-- The lines of ls for the root are those of the listing. -/
theorem lsLines_root (h : Mkfs.Image (Mkfs.rootEntries files) (Mkfs.contents files) t) (hfiles : Modest files)
    (hnames : ∀ f ∈ files, Mkfs.accepted f → Nameable f) :
    lsLines (seen t.img) (seen t.img ROOTINO) dot 0 = listing files := by
  have hfits := hfiles.fits
  have hplain := rootEntries_plain hfiles
  have hlines : lsLines (seen t.img) (seen t.img ROOTINO) dot 0 = (Mkfs.rootEntries files).map fun e =>
      (1, lsLine (dot ++ slash :: key e.2) (statOf (seen t.img) e.1)) := by
    refine flatMap_entries (Nat.le_of_lt (entries_root h)) fun j hj => ?_
    have hinum := inumAt_root h hfits.many hfits.inums hj
    cases he : (Mkfs.rootEntries files)[j]? with
    | none =>
      rw [he] at hinum
      exact if_pos hinum
    | some e =>
      obtain ⟨hlt, hget⟩ := List.getElem?_eq_some_iff.mp he
      rw [he] at hinum
      have hinum' : (seen t.img ROOTINO).inumAt j = e.1 := hinum
      have hpos := (hplain e (List.mem_of_getElem? he)).1
      rw [hinum', if_neg (by omega), nameAt_root h hfits.many hplain hlt, hget]
      rfl
  rw [hlines]
  show (1, _) :: (1, _) :: (Mkfs.fileEntries 2 files).map _ = listing files
  rw [fileEntries_mapIdx]
  refine congrArg₂ List.cons (Prod.ext rfl (lsLine_root h hfiles (by decide)))
    (congrArg₂ List.cons (Prod.ext rfl (lsLine_root h hfiles (by decide))) (List.ext_getElem ?_ fun k hk hk' => ?_))
  · rw [List.length_map, List.length_mapIdx, List.length_mapIdx]
  · rw [List.length_map, List.length_mapIdx] at hk
    obtain ⟨hmem, hacc⟩ := List.mem_filter.mp (List.getElem_mem hk)
    rw [List.getElem_map, List.getElem_mapIdx, List.getElem_mapIdx, Nat.add_comm 2 k]
    exact Prod.ext rfl (lsLine_file h hfiles (List.getElem?_eq_getElem hk)
      fun hs => (hnames _ hmem hacc).noSlash (List.mem_of_mem_take hs))

theorem names_dot (h : Mkfs.Image (Mkfs.rootEntries files) (Mkfs.contents files) t) (hfiles : Modest files)
    (hnodup : (Mkfs.rootNames files).Nodup) : Names (seen t.img) ROOTINO dot ROOTINO := by
  have hfirst : (Mkfs.rootEntries files)[0]? = some (ROOTINO, dot) := rfl
  refine ⟨congrArg (Option.map Prod.fst) (walk_root h hfiles hnodup hfirst
    (skipelem_one (by decide) (by decide) (Or.inl rfl)) dot), image_roomy h hfiles dot, ?_, ?_,
    image_small h hfiles.fits ROOTINO⟩
  · rw [root_type h]
    decide
  · rw [root_type h]
    decide

/-- What ls makes of an entry of the root is a path to the inode of the entry. -/
theorem names_root (h : Mkfs.Image (Mkfs.rootEntries files) (Mkfs.contents files) t) (hfiles : Modest files)
    (hnodup : (Mkfs.rootNames files).Nodup) (hnames : ∀ f ∈ files, Mkfs.accepted f → Nameable f) {j : ℕ}
    (hj : j < (seen t.img ROOTINO).entries) (hne : (seen t.img ROOTINO).inumAt j ≠ 0) :
    Names (seen t.img) ROOTINO (dot ++ slash :: (seen t.img ROOTINO).nameAt j) ((seen t.img ROOTINO).inumAt j) := by
  have hfits := hfiles.fits
  rw [inumAt_root h hfits.many hfits.inums hj] at hne ⊢
  cases he : (Mkfs.rootEntries files)[j]? with
  | none =>
    rw [he] at hne
    exact absurd rfl hne
  | some e =>
    obtain ⟨hlt, hget⟩ := List.getElem?_eq_some_iff.mp he
    obtain ⟨hnonempty, hslash⟩ := entry_nameable hnames (List.mem_of_getElem? he)
    rw [nameAt_root h hfits.many (rootEntries_plain hfiles) hlt, hget]
    exact names_entry h hfiles hnodup he hnonempty hslash

/-- ls on the image that mkfs made lists the files that it was given, with their sizes. -/
theorem ls_mkfs {image : Option Bool} (hrun : Mkfs.main image files Mkfs.start = .ok ((), t)) (hfiles : Modest files)
    (hnodup : (Mkfs.rootNames files).Nodup) (hnames : ∀ f ∈ files, Mkfs.accepted f → Nameable f)
    (devsw : ℕ → Option Devsw) :
    ∃ s, boot t.img devsw = some s ∧ s.cwds = [0] ∧
      ∀ fuel, 256 < fuel → ∃ u, ls fuel 0 dot s.fs = .ok (listing files, u) := by
  have himage := (Mkfs.main_image hfiles.count hfiles.small).of_ok hrun
  obtain ⟨fs, σ, hboot, hbooted⟩ := boot_image devsw himage hfiles.fits
  refine ⟨_, hboot, rfl, fun fuel hfuel => ?_⟩
  have hentries : (seen t.img ROOTINO).entries ≤ 256 :=
    Nat.div_le_div_right (root_size_le himage hfiles.fits.many)
  obtain ⟨u, hls, -⟩ := hbooted.good.ls_returns (Multiset.mem_singleton_self 0) hbooted.idle
    (by rw [hbooted.log]; exact ⟨rfl, rfl, rfl⟩) (by decide) (image_sensible himage hfiles) (image_linked himage)
    hbooted.cwd (by rw [root_type himage]; decide) (names_dot himage hfiles hnodup) (root_type himage) (by decide)
    (fun j hj hne => names_root himage hfiles hnodup hnames hj hne) (Nat.lt_of_le_of_lt hentries hfuel)
  rw [lsLines_root himage hfiles hnames] at hls
  exact ⟨u, hls⟩

theorem ls_mkfs_readme : ∃ t s, Mkfs.main (some true) [readme] Mkfs.start = .ok ((), t) ∧
    boot t.img (fun _ => none) = some s ∧ ∃ u, ls 257 0 dot s.fs =
      .ok ([(1, row dot 1 1 2048), (1, row dotdot 1 1 2048), (1, row [97] 2 2 5)], u) := by
  obtain ⟨t, hrun⟩ := readme_runs
  have hnames : ∀ f ∈ [readme], Mkfs.accepted f → Nameable f := by
    intro f hf _
    rw [List.mem_singleton.mp hf]
    exact ⟨by decide, by decide⟩
  obtain ⟨s, hboot, _, hls⟩ := ls_mkfs hrun readme_modest (by decide) hnames fun _ => none
  exact ⟨t, s, hrun, hboot, hls 257 (by decide)⟩

end Image

end NorthOS.Fs
