import NorthOS.CallRuns
import NorthOS.Lookups

/-!
cat.c and wc.c, which read a file until read returns 0. Where the reads end does not matter:
what comes out is what the program makes of all bytes of the file.
-/
namespace NorthOS.Fs

open LittleEndian Halting Comp

/-- How the program ends. `running` is left when the fuel is used up. -/
inductive Exit
  | done
  /-- `read error` -/
  | readError
  /-- `cannot open %s` -/
  | cannotOpen (name : Name)
  | running
  deriving DecidableEq

/-- The first `n` bytes of a buffer. -/
def chunk (d : Bytes) (n : ℕ) : List UInt8 := (List.range n).map d

variable {S R : Type}

/-- The loop `while ((n = read(fd, buf, sizeof(buf))) > 0)` with `use` as its body. -/
def drain (use : S → List UInt8 → S) : ℕ → S → File → M (Exit × S × File)
  | 0, acc, f => pure (.running, acc, f)
  | fuel + 1, acc, f => do
    let r ← fileread f 512
    if 0 < r.1 then drain use fuel (use acc (chunk r.2.1 r.1.toNat)) r.2.2
    else pure (if r.1 < 0 then .readError else .done, acc, r.2.2)

/-- The loop of main over the arguments: what is printed for each file, given how its loop ended.
close gives the last reference back; exit closes what is open. -/
def forFiles (use : S → List UInt8 → S) (start : S) (shown : Exit → S → List R) (fuel cwd : ℕ) :
    List Name → M (Exit × List R)
  | [] => pure (.done, [])
  | arg :: args => do
    let r ← transaction (openFile cwd arg 0 true)
    match r with
    | none => pure (.cannotOpen arg, [])
    | some f => do
      let c ← drain use fuel start f
      if c.1 = .done then do
        transaction (putInode f.ip)
        let rest ← forFiles use start shown fuel cwd args
        pure (rest.1, shown .done c.2.1 ++ rest.2)
      else pure (c.1, shown c.1 c.2.1)

/-- main: without arguments it is the standard input that is read. -/
def reader (use : S → List UInt8 → S) (start : S) (shown : Exit → S → List R) (stdin : File) (fuel cwd : ℕ)
    (args : List Name) : M (Exit × List R) :=
  if args = [] then do
    let c ← drain use fuel start stdin
    pure (c.1, shown c.1 c.2.1)
  else forFiles use start shown fuel cwd args

/-- cat writes what it reads to the console, which takes everything. -/
def cat (stdin : File) (fuel cwd : ℕ) (args : List Name) : M (Exit × List (List UInt8)) :=
  reader (· ++ ·) [] (fun _ out => [out]) stdin fuel cwd args

/-- The variables of wc. -/
structure Counts where
  l : ℕ
  w : ℕ
  c : ℕ
  inword : Bool
  deriving DecidableEq, Repr

/-- `" \r\t\n\v"`; strchr of this system does not find the NUL. -/
def isSpace (b : UInt8) : Bool := b ∈ [32, 13, 9, 10, 11]

/-- One turn of the inner loop of wc. -/
def Counts.byte (x : Counts) (b : UInt8) : Counts where
  l := if b = 10 then x.l + 1 else x.l
  w := if !isSpace b && !x.inword then x.w + 1 else x.w
  c := x.c + 1
  inword := !isSpace b

/-- wc prints its numbers when it has read the file to the end. -/
def wc (stdin : File) (fuel cwd : ℕ) (args : List Name) : M (Exit × List (ℕ × ℕ × ℕ)) :=
  reader (List.foldl Counts.byte) ⟨0, 0, 0, false⟩
    (fun e x => if e = .done then [(x.l, x.w, x.c)] else []) stdin fuel cwd args

/-- The bytes of a file from an offset on. -/
def Node.rest (x : Node) (off : ℕ) : List UInt8 := (List.range' off (x.size - off)).map x.byte

/-- What is done with the bytes does not depend on where they are cut. -/
structure Seamless (use : S → List UInt8 → S) : Prop where
  nil : ∀ x, use x [] = x
  append : ∀ x a b, use (use x a) b = use x (a ++ b)

theorem seamless_append : Seamless fun (x a : List UInt8) => x ++ a :=
  ⟨fun x => List.append_nil x, fun x a b => List.append_assoc x a b⟩

theorem seamless_foldl (count : S → UInt8 → S) : Seamless (List.foldl count) :=
  ⟨fun _ => rfl, fun _ _ _ => List.foldl_append.symm⟩

variable {near : Prop} {i n cwd : ℕ} {s t : State} {A : Files} {σ : Slots} {E L : Multiset ℕ}
    {path : Name}
  {f : File} {use : S → List UInt8 → S} {acc : S}

section Reading

/-- A read returns the next bytes. -/
theorem Good.fileread_returns (h : Good near s A σ E L) (hidle : Idle s) (hat : At σ f.ip n)
    (hmem : f.ip ∈ E + L) (hread : f.readable = true) (htype : (A n).type ≠ 0)
    (hdev : (A n).type ≠ T_DEV)
    (hsize : (A n).size ≤ nearBytes) (hoff : f.off ≤ (A n).size) {m : ℕ} (hm : m < 2 ^ 31) :
    ∃ d t σ', Fs.fileread f m s = .ok ((((min m ((A n).size - f.off) : ℕ) : ℤ), d,
        { f with off := f.off + min m ((A n).size - f.off) }), t) ∧
      chunk d (min m ((A n).size - f.off)) =
      (List.range' f.off (min m ((A n).size - f.off))).map (A n).byte ∧
      Quiet s t ∧ Idle t ∧ Good near t A σ' E L ∧ Keeps (E + L) σ σ' := by
  have hnear : nearBytes = 1069056 := rfl
  have htyped : (A (σ f.ip).inum).type ≠ 0 := by rwa [hat.inum]
  obtain ⟨_, t, hlock, hquiet, ⟨σ₁, hdoes, hat', _⟩, _, _, _, hlocks⟩ :=
    (h.ilock_returns hmem (hidle _ hat.slot) htyped).gives ((h.ilock hmem).and (ilock_uses s))
  rw [hat.inum] at hat'
  obtain ⟨d, hd, hbytes⟩ := hdoes.good.shows.readi hat' hdev (m := m) hoff (by omega) (by omega)
  have hlocked : t.locks f.ip = true := by
    rw [hlocks, Function.update_self]
  have hpos : 0 < t.refs f.ip := by
    rw [refs_eq hdoes.good]
    exact hat'.ref
  obtain ⟨_, u, hunlock, hquiet', hgood, _, hlocks'⟩ :=
    (iunlock_returns hlocked hpos).gives (hdoes.good.iunlock.and (iunlock_uses t))
  refine ⟨d, u, σ₁, ?_, ?_, quiet_composes.trans hquiet hquiet', ?_, hgood.good,
    hdoes.keeps.trans hgood.keeps⟩
  · unfold Fs.fileread
    rw [if_pos hread, bind_of_ok hlock, bind_of_ok hd, bind_of_ok hunlock]
    have hend : (f.off + min m ((A n).size - f.off)) % 2 ^ 32 =
        f.off + min m ((A n).size - f.off) :=
      Nat.mod_eq_of_lt (by omega)
    by_cases hzero : min m ((A n).size - f.off) = 0
    · rw [hzero]
      rfl
    · have hcond : (0 : ℤ) < ((min m ((A n).size - f.off) : ℕ) : ℤ) := by omega
      dsimp only
      rw [if_pos hcond, Int.toNat_natCast, hend]
      rfl
  · rw [chunk, List.range'_eq_map_range, List.map_map]
    exact List.map_congr_left fun k hk => hbytes k (List.mem_range.mp hk)
  · rw [hlocks] at hlocks'
    exact hidle.again hlocks'

theorem Node.rest_split (x : Node) {off m : ℕ} (hm : m ≤ x.size - off) :
    (List.range' off m).map x.byte ++ x.rest (off + m) = x.rest off := by
  have hrest : x.size - (off + m) = x.size - off - m := by omega
  have hsum : m + (x.size - off - m) = x.size - off := Nat.add_sub_cancel' hm
  have happend : List.range' off (x.size - off) = List.range' off m ++
      List.range' (off + m) (x.size - off - m) := by
    rw [List.range'_append_1, hsum]
  rw [Node.rest, Node.rest, hrest, happend, List.map_append]

theorem Node.rest_end (x : Node) {off : ℕ} (h : x.size ≤ off) : x.rest off = [] := by
  rw [Node.rest, Nat.sub_eq_zero_of_le h]
  rfl

/-- The loop reads the file to its end. -/
theorem Good.drain_returns (huse : Seamless use) (acc : S) (fuel : ℕ) (h : Good near s A σ E L)
    (hidle : Idle s)
    (hat : At σ f.ip n) (hmem : f.ip ∈ E + L) (hread : f.readable = true) (htype : (A n).type ≠ 0)
    (hdev : (A n).type ≠ T_DEV) (hsize : (A n).size ≤ nearBytes) (hoff : f.off ≤ (A n).size)
    (hfuel : (A n).size - f.off < fuel) :
    ∃ t σ', drain use fuel acc f s =
      .ok ((.done, use acc ((A n).rest f.off), { f with off := (A n).size }), t) ∧
      Quiet s t ∧ Idle t ∧ Good near t A σ' E L ∧ Keeps (E + L) σ σ' := by
  induction fuel generalizing s σ f acc with
  | zero => exact absurd hfuel (Nat.not_lt_zero _)
  | succ fuel ih =>
    obtain ⟨d, t, σ₁, hrun, hbytes, hquiet, hidle', hgood, hkeeps⟩ :=
      h.fileread_returns hidle hat hmem hread htype hdev hsize hoff (m := 512) (by decide)
    unfold drain
    rw [bind_of_ok hrun]
    dsimp only
    by_cases hend : (A n).size = f.off
    · -- the end of the file
      have hzero : min 512 ((A n).size - f.off) = 0 := by omega
      rw [hzero] at hrun ⊢
      have hnot : ¬ (0 : ℤ) < ((0 : ℕ) : ℤ) := by decide
      have hnonneg : ¬ (((0 : ℕ) : ℤ) < 0) := by decide
      rw [if_neg hnot, if_neg hnonneg, (A n).rest_end (Nat.le_of_eq hend), huse.nil, hend]
      exact ⟨t, σ₁, rfl, hquiet, hidle', hgood, hkeeps⟩
    · have hpos : (0 : ℤ) < ((min 512 ((A n).size - f.off) : ℕ) : ℤ) := by omega
      rw [if_pos hpos, Int.toNat_natCast, hbytes]
      have hat' : At σ₁ f.ip n := hat.keep hgood hmem hkeeps hmem
      obtain ⟨u, σ₂, hrest, hquiet', hidle'', hgood', hkeeps'⟩ :=
        ih (use acc ((List.range' f.off (min 512 ((A n).size - f.off))).map (A n).byte))
          (f := { f with off := f.off + min 512 ((A n).size - f.off) }) hgood hidle' hat' hmem hread
          (by dsimp only; omega) (by dsimp only; omega)
      rw [huse.append, (A n).rest_split (Nat.min_le_right _ _)] at hrest
      exact ⟨u, σ₂, hrest, quiet_composes.trans hquiet hquiet', hidle'', hgood',
        hkeeps.trans hkeeps'⟩

end Reading

section Calls

variable {B : Type} {body : M B}

/-- No call is in an operation, and nothing is to be committed. -/
structure Still (log : Log) : Prop where
  outstanding : log.outstanding = 0
  committing : log.committing = false
  empty : log.lh = []

/-- The log while one call is in its operation. -/
def State.begun (s : State) : State := { s with log := { s.log with outstanding := 1 } }

theorem endOp_last {log : Log} (hone : log.outstanding = 1) (hfree : log.committing = false) :
    log.endOp = .ok ({ log with outstanding := 0, committing := true }, true) := by
  unfold Log.endOp
  rw [if_neg (by rw [hfree]; exact Bool.false_ne_true), hone]
  rfl

/-- A call that logs nothing leaves the log as it was. -/
theorem transaction_returns {r : B} (hlog : Still s.log) (h : body s.begun = .ok (r, t))
    (hquiet : Quiet s.begun t) : transaction body s = .ok (r, { t with log := s.log }) := by
  have hbegin : beginOp s = .ok ((), s.begun) := by
    have hroom : s.log.beginOp = some { s.log with outstanding := 1 } := by
      refine Log.beginOp_eq_some.mpr ⟨hlog.committing, ?_, ?_⟩
      · rw [Log.n, hlog.empty, hlog.outstanding]
        decide
      · rw [hlog.outstanding]
    unfold beginOp
    rw [hroom]
    rfl
  have hend : endOp t = .ok ((), { t with log := s.log }) := by
    have htlog : t.log = { s.log with outstanding := 1 } := hquiet.log
    have hone : t.log.outstanding = 1 := by rw [htlog]
    have hlast := endOp_last hone (by rw [htlog]; exact hlog.committing)
    have hsame : ({ t.log with outstanding := 0, lh := [], committing := false } : Log) =
        s.log := by
      rw [htlog, ← hlog.outstanding, ← hlog.empty, ← hlog.committing]
    unfold endOp
    rw [hlast]
    exact congrArg (fun log => Except.ok ((), { t with log := log })) hsame
  unfold transaction
  rw [bind_of_ok hbegin, bind_of_ok h, bind_of_ok hend]
  rfl

/-- Every inode has a link. -/
def Linked (A : Files) : Prop := ∀ n, (A n).type ≠ 0 → (A n).nlink ≠ 0

/-- A reference may be the call's own where no inode is kept by references alone. -/
theorem Good.demote (h : Good near s A σ (i ::ₘ E) L) (hA : Linked A) :
    Good near s A σ E (i ::ₘ L) := by
  have hsum : i ::ₘ E + L = E + i ::ₘ L := by rw [Multiset.cons_add, Multiset.add_cons]
  refine ⟨h.shows, h.hint, ?_, ?_, h.dirs, fun n htype hnlink => absurd hnlink (hA n htype)⟩
  · rw [← hsum]
    exact h.inside
  · rw [← hsum]
    exact h.refs

/-- open of an existing file for reading. -/
theorem Good.openFile_returns (h : Good near s A σ E 0) (hcwd : cwd ∈ E) (hidle : Idle s)
    (hcard : E.toFinset.card + 2 ≤ NINODE) (hA : Sensible A) (hcwdType : (A (σ cwd).inum).type ≠ 0)
    (hroom : Roomy A (looked A false (σ cwd).inum path))
    (hpath : resolve A (σ cwd).inum path = some n)
    (htype : (A n).type ≠ 0) :
    ∃ ip t σ', Fs.openFile cwd path 0 true s = .ok (some ⟨true, false, ip, 0⟩, t) ∧
      Quiet s t ∧ Idle t ∧ Good near t A σ' (ip ::ₘ E) 0 ∧ Keeps E σ σ' ∧ At σ' ip n := by
  obtain ⟨r, t, σ₁, hname, hquiet, hidle₁, hdoes, hresolve⟩ :=
    h.namei_returns hcwd hidle hcard hA hcwdType hroom
  obtain ⟨ip, rfl⟩ : ∃ ip, r = some ip := by
    cases r with
    | none => cases hpath.symm.trans hresolve
    | some ip => exact ⟨ip, rfl⟩
  have hinum : (σ₁ ip).inum = n := (Option.some.inj (hpath.symm.trans hresolve)).symm
  have hgood : Good near t A σ₁ E (ip ::ₘ 0) := hdoes.good
  have hip := hgood.lt (mem_held (i := ip) (E := E) (L := 0))
  obtain ⟨_, u, hlock, hquiet₂, ⟨σ₂, hlocked, hat, _⟩, _, _, _, hlocks⟩ :=
    (hgood.ilock_returns mem_held (hidle₁ ip hip) (by rwa [hinum])).gives
      ((hgood.ilock mem_held).and (ilock_uses t))
  rw [hinum] at hat
  have hself : u.locks ip = true := by
    rw [hlocks, Function.update_self]
  have hpos : 0 < u.refs ip := by
    rw [refs_eq hlocked.good]
    exact hat.ref
  obtain ⟨_, v, hunlock, hquiet₃, hgood₃, _, hlocks₃⟩ :=
    (iunlock_returns hself hpos).gives (hlocked.good.iunlock.and (iunlock_uses u))
  refine ⟨ip, v, σ₂, ?_, quiet_composes.trans hquiet (quiet_composes.trans hquiet₂ hquiet₃), ?_,
    hgood₃.good.promote, ?_, hat⟩
  · have hinode : Fs.openInode cwd path 0 s = .ok (some ip, u) := by
      unfold Fs.openInode
      rw [if_neg (by decide), bind_of_ok hname]
      dsimp only
      rw [bind_of_ok hlock, bind_of_ok (look_ok.mpr ⟨rfl, rfl⟩), if_neg fun hc => hc.2 rfl]
      rfl
    unfold Fs.openFile
    rw [bind_of_ok hinode]
    dsimp only
    rw [if_pos rfl, bind_of_ok hunlock]
    rfl
  · rw [hlocks] at hlocks₃
    exact hidle₁.again hlocks₃
  · have hall : Keeps (E + 0) σ σ₂ :=
      hdoes.keeps.trans (hlocked.keeps.mono fun j hj => mem_held_of hj)
    exact hall.mono fun j hj => mem_refs hj

/-- close gives the reference back that open took. -/
theorem Good.close_returns (h : Good near s A σ (i ::ₘ E) 0) (hidle : Idle s) (hA : Linked A) :
    ∃ t σ', Fs.putInode i s = .ok ((), t) ∧ Quiet s t ∧ Idle t ∧ Good near t A σ' E 0 ∧
      Keeps E σ σ' := by
  have hdemoted := h.demote hA
  have hi := hdemoted.lt (mem_held (i := i) (E := E) (L := 0))
  have hpos : 0 < s.refs i := by
    rw [refs_eq h]
    exact hdemoted.pos mem_held
  obtain ⟨_, t, hrun, hquiet, ⟨σ', hput⟩, hmoves⟩ :=
    (hdemoted.putBack_returns (hidle i hi)).gives (hdemoted.putBack.and (iput_moves s hpos))
  refine ⟨t, σ', hrun, hquiet, fun j hj => ?_, hput.good, hput.keeps.mono fun j hj => mem_refs hj⟩
  rw [hmoves.locks]
  exact hidle j hj

/-- An argument that names a file. -/
structure Names (A : Files) (c : ℕ) (path : Name) (n : ℕ) : Prop where
  resolves : resolve A c path = some n
  roomy : Roomy A (looked A false c path)
  typed : (A n).type ≠ 0
  noDevice : (A n).type ≠ T_DEV
  small : (A n).size ≤ nearBytes

/-- A program that reads all its arguments to their ends. -/
theorem Good.forFiles_returns (huse : Seamless use) (start : S) (shown : Exit → S → List R)
    {fuel c : ℕ} {args : List Name}
    {ns : List ℕ} (h : Good near s A σ E 0) (hcwd : cwd ∈ E) (hidle : Idle s) (hstill : Still s.log)
    (hcard : E.toFinset.card + 2 ≤ NINODE) (hA : Sensible A) (hlinked : Linked A)
    (hinum : (σ cwd).inum = c)
    (hc : (A c).type ≠ 0) (hargs : List.Forall₂ (Names A c) args ns)
    (hfuel : ∀ n ∈ ns, (A n).size < fuel) : ∃ t, forFiles use start shown fuel cwd args s =
        .ok ((.done, ns.flatMap fun n => shown .done (use start ((A n).rest 0))), t) ∧
      t.log = s.log ∧ Idle t ∧ ∃ σ', Good near t A σ' E 0 ∧ Keeps E σ σ' := by
  induction hargs generalizing s σ with
  | nil => exact ⟨s, rfl, rfl, hidle, σ, h, Keeps.refl E σ⟩
  | @cons path n args ns hname hargs ih =>
    subst hinum
    have hbegun : Good near s.begun A σ E 0 := h.setLog _
    obtain ⟨ip, t, σ₁, hopen, hquiet, hidle₁, hgood₁, hkeeps₁, hat⟩ :=
      hbegun.openFile_returns hcwd hidle hcard hA hc hname.roomy hname.resolves hname.typed
    have hopened := transaction_returns hstill hopen hquiet
    obtain ⟨u, σ₂, hdrain, hquiet₂, hidle₂, hgood₂, hkeeps₂⟩ :=
      (hgood₁.setLog s.log).drain_returns huse start fuel (f := ⟨true, false, ip, 0⟩) hidle₁ hat
        (mem_refs (Multiset.mem_cons_self ip E)) rfl hname.typed hname.noDevice hname.small
        (Nat.zero_le _) (hfuel n List.mem_cons_self)
    have hulog : u.log = s.log := hquiet₂.log
    have hstill₂ : Still u.log := by rwa [hulog]
    obtain ⟨v, σ₃, hclose, hquiet₃, hidle₃, hgood₃, hkeeps₃⟩ :=
      (hgood₂.setLog { u.log with outstanding := 1 }).close_returns hidle₂ hlinked
    have hclosed := transaction_returns hstill₂ hclose hquiet₃
    have hkeeps : Keeps E σ σ₃ :=
      hkeeps₁.trans ((hkeeps₂.mono fun j hj => mem_refs (Multiset.mem_cons_of_mem hj)).trans
        hkeeps₃)
    obtain ⟨w, hrest, hwlog, hidle₄, σ₄, hgood₄, hkeeps₄⟩ :=
      ih (hgood₃.setLog u.log) hidle₃ hstill₂ (hkeeps cwd hcwd).1 fun m hm => hfuel m
        (List.mem_cons_of_mem n hm)
    refine ⟨w, ?_, hwlog.trans hulog, hidle₄, σ₄, hgood₄, hkeeps.trans hkeeps₄⟩
    unfold forFiles
    rw [bind_of_ok hopened]
    dsimp only
    rw [bind_of_ok hdrain, if_pos rfl, bind_of_ok hclosed, bind_of_ok hrest]
    rfl

end Calls

end NorthOS.Fs
