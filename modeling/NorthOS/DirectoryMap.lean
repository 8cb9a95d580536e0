import Mathlib.Data.List.GetD
import NorthOS.Names
import NorthOS.WriteBack

/-!
A directory as a finite map from names to inode numbers. Names are compared on their
first DIRSIZ bytes, and no two live entries have the same one; dirlink adds a name in
the first free entry or behind the last, and an entry is removed by clearing it.
-/
namespace NorthOS.Fs

open LittleEndian Halting Comp

/-- The part of a name that an entry has room for. -/
def key (name : Name) : Name := name.take DIRSIZ

namespace Node

/-- Entry `k` is live. -/
def Live (x : Node) (k : ℕ) : Prop := k < x.entries ∧ x.inumAt k ≠ 0

/-- Live entries have different names. -/
def Distinct (x : Node) : Prop :=
  ∀ k l, x.Live k → x.Live l → x.nameAt k = x.nameAt l → k = l

/-- The map from names to inode numbers. -/
def view (x : Node) (name : Name) : Option ℕ := (x.find name).map x.inumAt

/-- What dirlink makes of the directory. -/
def link (x : Node) (name : Name) (inum : ℕ) : Node :=
  if (x.find name).isSome then x
  else x.written (direntSize * x.firstFree) direntSize (Fs.dirent inum name)

/-- The directory without the entry of a name. -/
def unlink (x : Node) (name : Name) : Node :=
  match x.find name with
  | none => x
  | some k => x.written (direntSize * k) direntSize fun _ => 0

variable {x y : Node} {name : Name} {inum k l : ℕ}

theorem key_nameAt : key (x.nameAt k) = x.nameAt k := by
  refine List.take_of_length_le ?_
  refine Nat.le_trans (List.takeWhile_sublist _).length_le ?_
  rw [List.length_map, List.length_range]

theorem named_iff : x.named name k = true ↔ x.inumAt k ≠ 0 ∧ x.nameAt k = key name := by
  have hkey : (x.nameAt k).take DIRSIZ = x.nameAt k := key_nameAt
  rw [named, Bool.and_eq_true, decide_eq_true_eq, namecmp, beq_iff_eq, hkey,
    eq_comm (b := x.nameAt k)]
  rfl

/-- A name is found in the entry that has it. -/
theorem find_eq_some (hd : x.Distinct) :
    x.find name = some k ↔ x.Live k ∧ x.nameAt k = key name := by
  constructor
  · intro h
    have hnamed := named_iff.mp (List.find?_some h)
    exact ⟨⟨(find_some h).1, hnamed.1⟩, hnamed.2⟩
  · rintro ⟨hlive, hname⟩
    have hmem : k ∈ List.range' 0 x.entries := by
      rw [List.mem_range'_1]
      exact ⟨Nat.zero_le k, by simpa using hlive.1⟩
    cases hfind : x.find name with
    | none =>
      have hnot := List.find?_eq_none.mp hfind k hmem
      exact absurd (named_iff.mpr ⟨hlive.2, hname⟩) hnot
    | some l =>
      have hnamed := named_iff.mp (List.find?_some hfind)
      rw [hd l k ⟨(find_some hfind).1, hnamed.1⟩ hlive (hnamed.2.trans hname.symm)]

theorem find_eq_none : x.find name = none ↔ ∀ k, x.Live k → x.nameAt k ≠ key name := by
  constructor
  · intro h k hlive hname
    have hmem : k ∈ List.range' 0 x.entries := by
      rw [List.mem_range'_1]
      exact ⟨Nat.zero_le k, by simpa using hlive.1⟩
    exact List.find?_eq_none.mp h k hmem (named_iff.mpr ⟨hlive.2, hname⟩)
  · intro h
    refine List.find?_eq_none.mpr fun k hk hnamed => ?_
    rw [List.mem_range'_1] at hk
    have hn := named_iff.mp hnamed
    exact h k ⟨by omega, hn.1⟩ hn.2

theorem view_eq_some (hd : x.Distinct) : x.view name = some inum ↔
    ∃ k, x.Live k ∧ x.nameAt k = key name ∧ x.inumAt k = inum := by
  rw [view, Option.map_eq_some_iff]
  simp only [find_eq_some hd, and_assoc]

/-- `y` is the directory with another entry `k`, which may be the one behind the last. -/
structure Replaced (x y : Node) (k : ℕ) : Prop where
  entries : ∀ l, l < y.entries ↔ l < x.entries ∨ l = k
  inumAt : ∀ l, l ≠ k → y.inumAt l = x.inumAt l
  nameAt : ∀ l, l ≠ k → y.nameAt l = x.nameAt l

theorem written_replaced {de : Bytes} (hk : k < x.entries ∨ direntSize * k = x.size) :
    Replaced x (x.written (direntSize * k) direntSize de) k where
  entries := by
    intro l
    have hsize : (x.written (direntSize * k) direntSize de).size =
        max x.size (direntSize * k + direntSize) := rfl
    rcases hk with hk | hk
    · have hin := entry_end hk
      have hsame : (x.written (direntSize * k) direntSize de).entries = x.entries := by
        rw [entries, hsize, Nat.max_eq_left hin]
        rfl
      rw [hsame]
      omega
    · have hall : x.entries = k := by
        rw [entries, ← hk]
        exact Nat.mul_div_cancel_left k (by decide)
      have hmore : (x.written (direntSize * k) direntSize de).entries = k + 1 := by
        rw [entries, hsize, Nat.max_eq_right (by omega), ← Nat.mul_succ]
        exact Nat.mul_div_cancel_left (k + 1) (by decide)
      rw [hmore, hall]
      omega
  inumAt := fun l hl => inumAt_written_other hl
  nameAt := fun l hl => direntName_congr fun j hj => dirent_written_other hl hj

namespace Replaced

variable {name' : Name}

theorem live (h : Replaced x y k) (hl : l ≠ k) : y.Live l ↔ x.Live l := by
  rw [Live, Live, h.entries, h.inumAt l hl]
  simp [hl]

/-- An entry with a name that no other live entry has. -/
theorem distinct (h : Replaced x y k) (hd : x.Distinct)
    (hnew : y.Live k → ∀ l, l ≠ k → x.Live l → x.nameAt l ≠ y.nameAt k) : y.Distinct := by
  intro l m hl hm hname
  by_cases hlk : l = k
  · subst hlk
    by_contra hne
    have hmk : m ≠ l := fun e => hne e.symm
    rw [h.nameAt m hmk] at hname
    exact hnew hl m hmk ((h.live hmk).mp hm) hname.symm
  · rw [h.nameAt l hlk] at hname
    by_cases hmk : m = k
    · subst hmk
      exact absurd hname (hnew hm l hlk ((h.live hlk).mp hl))
    · rw [h.nameAt m hmk] at hname
      exact hd l m ((h.live hlk).mp hl) ((h.live hmk).mp hm) hname

/-- Names that neither the old nor the new entry has are found as before. -/
theorem view_other (h : Replaced x y k) (hd : x.Distinct) (hd' : y.Distinct)
    (hold : x.Live k → x.nameAt k ≠ key name') (hnew : y.Live k → y.nameAt k ≠ key name') :
    y.view name' = x.view name' := by
  ext m
  rw [view_eq_some hd, view_eq_some hd']
  constructor
  · rintro ⟨l, hl, hname, hm⟩
    have hlk : l ≠ k := by
      rintro rfl
      exact hnew hl hname
    rw [h.nameAt l hlk] at hname
    rw [h.inumAt l hlk] at hm
    exact ⟨l, (h.live hlk).mp hl, hname, hm⟩
  · rintro ⟨l, hl, hname, hm⟩
    have hlk : l ≠ k := by
      rintro rfl
      exact hold hl hname
    rw [← h.nameAt l hlk] at hname
    rw [← h.inumAt l hlk] at hm
    exact ⟨l, (h.live hlk).mpr hl, hname, hm⟩

end Replaced

section FirstFree

theorem firstFree_free : ¬ x.Live x.firstFree := by
  intro ⟨hlt, hne⟩
  have hlen : x.firstFree < (List.range x.entries).length := by rwa [List.length_range]
  have hfree : (x.inumAt ((List.range x.entries)[x.firstFree]) == 0) = true :=
    List.findIdx_getElem (w := hlen)
  rw [List.getElem_range, beq_iff_eq] at hfree
  exact hne hfree

end FirstFree

/-- The name of a C string fits into the entry that dirlink writes, as far as it counts. -/
theorem direntName_dirent (hname : 0 ∉ name) : direntName (Fs.dirent inum name) = key name := by
  have hbytes : ((List.range DIRSIZ).map fun k => Fs.dirent inum name (2 + k)) =
      key name ++ List.replicate (DIRSIZ - (key name).length) 0 := by
    have hlen : (key name).length ≤ DIRSIZ := List.length_take_le _ _
    refine List.ext_getElem ?_ fun k hk hk' => ?_
    · rw [List.length_map, List.length_range, List.length_append, List.length_replicate]
      omega
    · rw [List.getElem_map, List.getElem_range]
      have hbyte : Fs.dirent inum name (2 + k) = (key name).getD k 0 := by
        rw [Fs.dirent, put_other (Or.inr (Nat.le_add_right 2 k)), Nat.add_sub_cancel_left]
        rfl
      rw [hbyte, List.getElem_append]
      split
      · rename_i hlt
        exact List.getD_eq_getElem _ _ hlt
      · rename_i hge
        rw [List.getElem_replicate]
        exact List.getD_eq_default _ _ (Nat.not_lt.mp hge)
  have hmem : ∀ c ∈ key name, c ≠ 0 := by
    rintro c hc rfl
    exact hname (List.mem_of_mem_take hc)
  rw [direntName, hbytes, List.takeWhile_append_of_pos fun c hc => decide_eq_true (hmem c hc)]
  cases DIRSIZ - (key name).length with
  | zero => exact List.append_nil _
  | succ m => rw [List.replicate_succ, List.takeWhile_cons_of_neg (by decide), List.append_nil]

theorem link_found (h : x.find name = some k) : x.link name inum = x := by
  rw [link, h]
  rfl

theorem link_new (h : x.find name = none) :
    x.link name inum = x.written (direntSize * x.firstFree) direntSize (Fs.dirent inum name) := by
  rw [link, h]
  rfl

theorem unlink_found (h : x.find name = some k) :
    x.unlink name = x.written (direntSize * k) direntSize fun _ => 0 := by
  rw [unlink, h]

theorem unlink_missing (h : x.find name = none) : x.unlink name = x := by rw [unlink, h]

/-- The map with another value for the names that are stored like this one. -/
def assign (m : Name → Option ℕ) (name : Name) (r : Option ℕ) : Name → Option ℕ :=
  fun name' => if key name' = key name then r else m name'

section Link

variable {name' : Name}

/-- The first free entry, or one behind the last, takes the new one. -/
theorem link_replaced (hwhole : direntSize ∣ x.size) (h : x.find name = none) :
    Replaced x (x.link name inum) x.firstFree := by
  rw [link_new h]
  refine written_replaced ?_
  rcases Nat.lt_or_eq_of_le (firstFree_le (x := x)) with hlt | hall
  · exact Or.inl hlt
  · refine Or.inr ?_
    rw [hall]
    exact Nat.mul_div_cancel' hwhole

theorem link_entry (h : x.find name = none) (hname : 0 ∉ name) (hinum : inum < 2 ^ 16) :
    (x.link name inum).inumAt x.firstFree = inum ∧
      (x.link name inum).nameAt x.firstFree = key name := by
  rw [link_new h]
  constructor
  · rw [inumAt_written_self, Fs.dirent, get_put_of_lt hinum]
  · rw [← direntName_dirent hname]
    exact direntName_congr fun j hj => dirent_written_self hj

theorem link_distinct (hwhole : direntSize ∣ x.size) (hd : x.Distinct) (hname : 0 ∉ name)
    (hinum : inum < 2 ^ 16) : (x.link name inum).Distinct := by
  cases hfind : x.find name with
  | some k =>
    rw [link_found hfind]
    exact hd
  | none =>
    refine (link_replaced hwhole hfind).distinct hd fun _ l _ hl => ?_
    rw [(link_entry hfind hname hinum).2]
    exact find_eq_none.mp hfind l hl

theorem link_view (hwhole : direntSize ∣ x.size) (hd : x.Distinct) (hname : 0 ∉ name)
    (hpos : 0 < inum) (hinum : inum < 2 ^ 16) (h : x.find name = none) :
    (x.link name inum).view = assign x.view name (some inum) := by
  have hrep : Replaced x (x.link name inum) x.firstFree := link_replaced hwhole h
  have hd' := link_distinct hwhole hd hname hinum
  obtain ⟨hnew, hkey⟩ := link_entry h hname hinum
  have hlive : (x.link name inum).Live x.firstFree := by
    refine ⟨(hrep.entries _).mpr (Or.inr rfl), ?_⟩
    rw [hnew]
    exact Nat.ne_of_gt hpos
  funext name'
  unfold assign
  split
  · rename_i hsame
    exact (view_eq_some hd').mpr ⟨_, hlive, hkey.trans hsame.symm, hnew⟩
  · rename_i hother
    refine hrep.view_other hd hd' (fun hl => absurd hl firstFree_free) fun _ => ?_
    rw [hkey]
    exact fun e => hother e.symm

end Link

section Unlink

theorem unlink_replaced (h : x.find name = some k) : Replaced x (x.unlink name) k := by
  rw [unlink_found h]
  exact written_replaced (Or.inl (find_some h).1)

theorem unlink_dead (h : x.find name = some k) : ¬ (x.unlink name).Live k := by
  intro ⟨_, hne⟩
  rw [unlink_found h, inumAt_written_self] at hne
  exact hne (get_zero fun _ _ _ => rfl)

theorem unlink_distinct (hd : x.Distinct) : (x.unlink name).Distinct := by
  cases hfind : x.find name with
  | none =>
    rw [unlink_missing hfind]
    exact hd
  | some k => exact (unlink_replaced hfind).distinct hd fun hl => absurd hl (unlink_dead hfind)

theorem unlink_view (hd : x.Distinct) : (x.unlink name).view = assign x.view name none := by
  funext name'
  unfold assign
  cases hfind : x.find name with
  | none =>
    rw [unlink_missing hfind]
    split
    · rename_i hsame
      have hnone : x.find name' = none := by
        rw [find_eq_none] at hfind ⊢
        rw [hsame]
        exact hfind
      rw [view, hnone]
      rfl
    · rfl
  | some k =>
    have hd' : (x.unlink name).Distinct := unlink_distinct hd
    have hrep := unlink_replaced hfind
    have hdead := unlink_dead hfind
    obtain ⟨hlive, hkey⟩ := (find_eq_some hd).mp hfind
    split
    · rename_i hsame
      have hnone : (x.unlink name).find name' = none := by
        refine find_eq_none.mpr fun l hl hname => ?_
        have hlk : l ≠ k := by
          rintro rfl
          exact hdead hl
        rw [hrep.nameAt l hlk, hsame, ← hkey] at hname
        exact hlk (hd l k ((hrep.live hlk).mp hl) hlive hname)
      rw [view, hnone]
      rfl
    · rename_i hother
      refine hrep.view_other hd hd' (fun _ => ?_) fun hl => absurd hl hdead
      rw [hkey]
      exact fun e => hother e.symm

end Unlink

end Node

/-- An operation on a directory. -/
inductive DirOp
  | lookup (name : Name)
  | link (name : Name) (inum : ℕ)
  | unlink (name : Name)

/-- What an operation returns: an inode number, or 0 or -1. -/
inductive Answer
  | inode (r : Option ℕ)
  | status (r : ℤ)
  deriving DecidableEq, Repr

namespace DirOp

def name : DirOp → Name
  | .lookup name => name
  | .link name _ => name
  | .unlink name => name

/-- The operation on the locked directory of slot `i`; an inode that was looked up is given
back at once. The steps of unlink are those of sys_unlink that concern the directory. -/
def exec (i : ℕ) : DirOp → M Answer
  | .lookup name => do
    let found ← dirlookup i name
    match found with
    | none => pure (.inode none)
    | some (ip, _) => do
      let inum ← look fun s => (s.icache ip).inum
      iput ip
      pure (.inode (some inum))
  | .link name inum => do
    let r ← dirlink i name inum
    pure (.status r)
  | .unlink name => do
    let found ← dirlookup i name
    match found with
    | none => pure (.status (-1))
    | some (ip, off) => do
      let r ← writei i (fun _ => 0) off direntSize
      ensure (fun _ => decide (r = direntSize)) .dirWrite
      iput ip
      pure (.status 0)

def run (i : ℕ) : List DirOp → M (List Answer)
  | [] => pure []
  | op :: ops => do
    let a ← op.exec i
    let as ← run i ops
    pure (a :: as)

/-- What the operation returns for a map from names to inode numbers. -/
def answer (m : Name → Option ℕ) : DirOp → Answer
  | .lookup name => .inode (m name)
  | .link name _ => .status (if (m name).isSome then -1 else 0)
  | .unlink name => .status (if (m name).isSome then 0 else -1)

/-- The map after the operation. -/
def apply (m : Name → Option ℕ) : DirOp → Name → Option ℕ
  | .lookup _ => m
  | .link name inum => if (m name).isSome then m else Node.assign m name (some inum)
  | .unlink name => Node.assign m name none

/-- What a map answers to a list of operations, and the map in the end. -/
def runMap : List DirOp → (Name → Option ℕ) → List Answer × (Name → Option ℕ)
  | [], m => ([], m)
  | op :: ops, m =>
    let r := runMap ops (op.apply m)
    (op.answer m :: r.1, r.2)

/-- An operation on one name leaves the others. -/
theorem apply_other {m : Name → Option ℕ} {op : DirOp} {name : Name}
    (h : key op.name ≠ key name) : op.apply m name = m name := by
  cases op with
  | lookup => rfl
  | link _ inum =>
    rw [apply]
    split
    · rfl
    · exact if_neg fun e => h e.symm
  | unlink => exact if_neg fun e => h e.symm

/-- The directory after the operation. -/
def node (x : Node) : DirOp → Node
  | .lookup _ => x
  | .link name inum => x.link name inum
  | .unlink name => x.unlink name

theorem runMap_other {ops : List DirOp} {m : Name → Option ℕ} {name : Name}
    (h : ∀ op ∈ ops, key op.name ≠ key name) : (runMap ops m).2 name = m name := by
  induction ops generalizing m with
  | nil => rfl
  | cons op ops ih =>
    have hrest := ih (m := op.apply m) fun op' hop' => h op' (List.mem_cons_of_mem _ hop')
    exact hrest.trans (apply_other (h op (List.mem_cons_self ..)))

/-- An operation leaves the directory or writes one entry. -/
theorem node_cases (op : DirOp) (x : Node) : op.node x = x ∨
    ∃ k de, op.node x = x.written (direntSize * k) direntSize de := by
  cases op with
  | lookup name => exact Or.inl rfl
  | link name inum =>
    cases hfind : x.find name with
    | some k => exact Or.inl (Node.link_found hfind)
    | none => exact Or.inr ⟨_, _, Node.link_new hfind⟩
  | unlink name =>
    cases hfind : x.find name with
    | none => exact Or.inl (Node.unlink_missing hfind)
    | some k => exact Or.inr ⟨k, _, Node.unlink_found hfind⟩

/-- Names are C strings, and entries are made for inodes of the file system. -/
def Valid : DirOp → Prop
  | .lookup _ => True
  | .link name inum => 0 ∉ name ∧ 0 < inum ∧ inum < maxInodes
  | .unlink _ => True

/-- A new entry ends in front of the double-indirect blocks. -/
def Fits (x : Node) : DirOp → Prop
  | .link name _ => x.find name = none → direntSize * x.firstFree + direntSize ≤ nearBytes
  | _ => True

/-- Every operation of the list fits into the directory as it is by then. -/
def AllFit : List DirOp → Node → Prop
  | [], _ => True
  | op :: ops, x => op.Fits x ∧ AllFit ops (op.node x)

end DirOp

/-- A directory with whole entries and without double names. -/
structure Node.WellFormed (x : Node) : Prop where
  type : x.type = T_DIR
  whole : direntSize ∣ x.size
  distinct : x.Distinct

namespace Node.WellFormed

variable {x : Node} {op : DirOp}

theorem node (h : x.WellFormed) (hop : op.Valid) : (op.node x).WellFormed := by
  have hdistinct : (op.node x).Distinct := by
    cases op with
    | lookup name => exact h.distinct
    | link name inum =>
      obtain ⟨hname, _, hinum⟩ := hop
      have hmax : maxInodes = 208 := rfl
      exact link_distinct h.whole h.distinct hname (by omega)
    | unlink name => exact unlink_distinct h.distinct
  rcases op.node_cases x with hsame | ⟨k, de, hwritten⟩
  · rw [hsame]
    exact h
  · refine ⟨?_, ?_, hdistinct⟩
    · rw [hwritten]
      exact h.type
    · rw [hwritten]
      show direntSize ∣ max x.size (direntSize * k + direntSize)
      rcases max_choice x.size (direntSize * k + direntSize) with hmax | hmax
      · rw [hmax]
        exact h.whole
      · rw [hmax]
        exact Nat.dvd_add (Nat.dvd_mul_right _ k) (Nat.dvd_refl _)

/-- The directory after an operation shows the map after it. -/
theorem view_node (h : x.WellFormed) (hop : op.Valid) : (op.node x).view = op.apply x.view := by
  cases op with
  | lookup name => rfl
  | link name inum =>
    obtain ⟨hname, hpos, hinum⟩ := hop
    have hmax : maxInodes = 208 := rfl
    rw [DirOp.node, DirOp.apply]
    cases hfind : x.find name with
    | some k => rw [link_found hfind, view, hfind, Option.map_some, Option.isSome_some, if_pos rfl]
    | none =>
      rw [link_view h.whole h.distinct hname hpos (by omega) hfind, view, hfind, Option.map_none,
        Option.isSome_none, if_neg Bool.false_ne_true]
  | unlink name => exact unlink_view h.distinct

end Node.WellFormed

variable {near : Prop} {i n : ℕ} {s t : State} {A A' : Files} {σ σ' : Slots} {E L : Multiset ℕ}

/-- Slot `i` holds the well-formed directory `n`, which ends in front of the
double-indirect blocks. -/
structure Holding (near : Prop) (i n : ℕ) (s : State) (A : Files) (σ : Slots) (E L : Multiset ℕ) :
    Prop where
  good : Good near s A σ E L
  mem : i ∈ E + L
  loaded : At σ i n
  dir : (A n).WellFormed
  small : (A n).size ≤ nearBytes

namespace Holding

theorem does (h : Holding near i n s A σ E L) {X : Set ℕ}
    (hd : Does near (E + L) X s A σ t A σ' E L) : Holding near i n t A σ' E L where
  good := hd.good
  mem := h.mem
  loaded := h.loaded.keep hd.good h.mem hd.keeps h.mem
  dir := h.dir
  small := h.small

/-- An entry is written in front of the double-indirect blocks. -/
theorem wrote (h : Holding near i n s A σ E L) {X : Set ℕ} {x : Node} (hx : x.WellFormed)
    (hsize : x.size ≤ nearBytes) (hd : Does near (E + L) X s A σ t (Function.update A n x) σ' E L) :
    Holding near i n t (Function.update A n x) σ' E L where
  good := hd.good
  mem := h.mem
  loaded := h.loaded.keep hd.good h.mem hd.keeps h.mem
  dir := by rwa [Function.update_self]
  small := by rwa [Function.update_self]

/-- A lookup finds the entry of the map, and holds a reference to its inode. -/
theorem dirlookup (h : Holding near i n s A σ E L) {name : Name} :
    Gives (Fs.dirlookup i name s) fun r t =>
      match (A n).find name with
      | none => r = none ∧ ∃ σ', Holding near i n t A σ' E L
      | some k => ∃ j σ', r = some (j, direntSize * k) ∧ (σ' j).inum = (A n).inumAt k ∧
          Holding near i n t A σ' E (j ::ₘ L) := by
  refine (h.good.dirlookup h.loaded fun _ => h.small).mono fun r t hfound => ?_
  obtain ⟨_, hfound⟩ := hfound
  cases hfind : (A n).find name with
  | none =>
    rw [hfind] at hfound
    exact ⟨hfound.1, σ, h.does hfound.2⟩
  | some k =>
    rw [hfind] at hfound
    obtain ⟨j, σ', hr, hdoes, hinum⟩ := hfound
    refine ⟨j, σ', hr, hinum, hdoes.good, mem_held_of h.mem, ?_, h.dir, h.small⟩
    exact h.loaded.keep hdoes.good (mem_held_of h.mem) hdoes.keeps h.mem

/-- The reference of a lookup is given back. -/
theorem iput {j : ℕ} (h : Holding near i n s A σ E (j ::ₘ L)) (hi : i ∈ E + L) :
    Gives (Fs.iput j s) fun _ t => ∃ σ', Holding near i n t A σ' E L := by
  refine h.good.putBack.mono fun _ t hput => ?_
  obtain ⟨σ', hput⟩ := hput
  exact ⟨σ', hput.good, hi, h.loaded.keep hput.good hi hput.keeps hi, h.dir, h.small⟩

/-- The entry of a name is cleared. -/
theorem clear (h : Holding near i n s A σ E L) {name : Name} {k : ℕ}
    (hfind : (A n).find name = some k) :
    Gives (writei i (fun _ => 0) (direntSize * k) direntSize s) fun r t => r = direntSize ∧
      Holding near i n t (Function.update A n ((A n).unlink name)) σ E L := by
  have hend := Node.entry_end (Node.find_some hfind).1
  have hsmall := h.small
  have hzero : get (fun _ => 0) 0 2 = 0 := get_zero fun _ _ _ => rfl
  refine (h.good.writeEntry h.loaded h.dir.type h.small (k := k) (by omega) (by omega)
    (by rw [hzero]; decide)).mono fun r t hwrote => ?_
  obtain ⟨hr, D, _, hwrote⟩ := hwrote
  rw [← Node.unlink_found hfind] at hwrote
  have hnode : (DirOp.node (A n) (.unlink name)).WellFormed := h.dir.node trivial
  refine ⟨hr, h.wrote hnode ?_ hwrote⟩
  rw [Node.unlink_found hfind]
  exact Nat.max_le.mpr ⟨hsmall, by omega⟩

/-- An operation answers what the map answers, and leaves the directory of the new map. -/
theorem exec (h : Holding near i n s A σ E L) {op : DirOp} (hop : op.Valid)
    (hfits : op.Fits (A n)) : Gives (op.exec i s) fun a t => a = op.answer (A n).view ∧
      ∃ σ', Holding near i n t (Function.update A n (op.node (A n))) σ' E L := by
  cases op with
  | lookup name =>
    have hsame : Function.update A n (DirOp.node (A n) (.lookup name)) = A :=
      Function.update_eq_self n A
    rw [hsame]
    unfold DirOp.exec
    refine Ends.bind h.dirlookup fun r t _ hfound => ?_
    rw [DirOp.answer, Node.view]
    cases hfind : (A n).find name with
    | none =>
      rw [hfind] at hfound
      obtain ⟨rfl, hheld⟩ := hfound
      exact ⟨rfl, hheld⟩
    | some k =>
      rw [hfind] at hfound
      obtain ⟨j, σ', rfl, hinum, hheld⟩ := hfound
      refine Ends.bind (Q := fun m u => m = (A n).inumAt k ∧ t = u) ⟨?_, rfl⟩ ?_
      · obtain ⟨_, _, _, rfl⟩ := hheld.good.shows
        exact hinum
      · rintro m _ _ ⟨rfl, rfl⟩
        refine Ends.bind (hheld.iput h.mem) fun _ u _ hput => ?_
        exact ⟨rfl, hput⟩
  | link name inum =>
    obtain ⟨hname, hpos, hinum⟩ := hop
    unfold DirOp.exec
    refine Ends.bind (h.good.linkEntry h.loaded (fun _ => h.small) (fun _ => hfits) hinum)
      fun r t _ hdone => ?_
    obtain ⟨_, hdone⟩ := hdone
    rw [DirOp.answer, Node.view]
    cases hfind : (A n).find name with
    | some k =>
      rw [hfind] at hdone
      obtain ⟨rfl, σ', hdoes⟩ := hdone
      refine ⟨rfl, σ', ?_⟩
      rw [DirOp.node, Node.link_found hfind, Function.update_eq_self]
      exact h.does hdoes
    | none =>
      rw [hfind] at hdone
      obtain ⟨rfl, D, _, hdoes⟩ := hdone
      refine ⟨rfl, σ, ?_⟩
      have hnode : (DirOp.node (A n) (.link name inum)).WellFormed :=
        h.dir.node ⟨hname, hpos, hinum⟩
      rw [DirOp.node, Node.link_new hfind] at hnode ⊢
      exact h.wrote hnode (Nat.max_le.mpr ⟨h.small, hfits hfind⟩) hdoes
  | unlink name =>
    unfold DirOp.exec
    refine Ends.bind h.dirlookup fun r t _ hfound => ?_
    rw [DirOp.answer, Node.view]
    cases hfind : (A n).find name with
    | none =>
      rw [hfind] at hfound
      obtain ⟨rfl, hheld⟩ := hfound
      refine ⟨rfl, ?_⟩
      rw [DirOp.node, Node.unlink_missing hfind, Function.update_eq_self]
      exact hheld
    | some k =>
      rw [hfind] at hfound
      obtain ⟨j, σ', rfl, _, hheld⟩ := hfound
      refine Ends.bind (hheld.clear hfind) fun r u _ hclear => ?_
      obtain ⟨rfl, hclear⟩ := hclear
      refine Ends.bind (Q := fun _ w => u = w) (gives_ensure fun _ => rfl) ?_
      rintro _ _ _ rfl
      refine Ends.bind (hclear.iput h.mem) fun _ w _ hput => ?_
      exact ⟨rfl, hput⟩

/-- A sequence of operations answers what the map answers, and ends in the directory of the
last map. -/
theorem run_mapped {ops : List DirOp} (h : Holding near i n s A σ E L)
    (hops : ∀ op ∈ ops, op.Valid) (hfit : DirOp.AllFit ops (A n)) :
    Gives (DirOp.run i ops s) fun as t => ∃ x σ',
      Holding near i n t (Function.update A n x) σ' E L ∧ DirOp.runMap ops (A n).view =
      (as, x.view) := by
  induction ops generalizing s A σ with
  | nil =>
    refine ⟨A n, σ, ?_, rfl⟩
    rw [Function.update_eq_self]
    exact h
  | cons op ops ih =>
    have hop := hops op (List.mem_cons_self ..)
    unfold DirOp.run
    refine Ends.bind (h.exec hop hfit.1) fun a t _ hstep => ?_
    obtain ⟨rfl, σ₁, hheld⟩ := hstep
    have hnode : Function.update A n (op.node (A n)) n = op.node (A n) := Function.update_self ..
    have hrest := ih hheld (fun op' hop' => hops op' (List.mem_cons_of_mem _ hop'))
      (by rw [hnode]; exact hfit.2)
    refine Ends.bind hrest fun as u _ hrun => ?_
    obtain ⟨x, σ₂, hlast, hmap⟩ := hrun
    rw [Function.update_idem] at hlast
    rw [hnode, h.dir.view_node hop] at hmap
    refine ⟨x, σ₂, hlast, ?_⟩
    rw [DirOp.runMap, hmap]

end Holding

/-- A directory is a map: a sequence of operations answers what the map answers, no name
is in two entries, and a single operation leaves the other names and the other files. -/
theorem directory_mapped {ops : List DirOp} {as : List Answer} (h : Holding near i n s A σ E L)
    (hops : ∀ op ∈ ops, op.Valid) (hfit : DirOp.AllFit ops (A n))
    (hrun : DirOp.run i ops s = .ok (as, t)) :
    ∃ A' σ', Holding near i n t A' σ' E L ∧
      DirOp.runMap ops (A n).view = (as, (A' n).view) ∧ (A' n).Distinct ∧
      (∀ name, (∀ op ∈ ops, key op.name ≠ key name) → (A' n).view name = (A n).view name) ∧
      ∀ m, m ≠ n → A' m = A m := by
  obtain ⟨x, σ', hheld, hmap⟩ := (h.run_mapped hops hfit).of_ok hrun
  have hnode : Function.update A n x n = x := Function.update_self ..
  have hdistinct := hheld.dir.distinct
  refine ⟨_, σ', hheld, by rw [hnode]; exact hmap, hdistinct, fun name hname => ?_, fun m hm => ?_⟩
  · have hother := DirOp.runMap_other (m := (A n).view) hname
    rw [hmap] at hother
    rw [hnode]
    exact hother
  · exact Function.update_of_ne hm _ _

section EmptyDirectory

def emptyIno : Ino := { Ino.free with type := T_DIR, nlink := 1 }

def emptyInode : Inode := { fullInode with type := T_DIR, size := 0, addrs := fun _ => 0 }

/-- An empty directory in the first slot of the cache, inside a transaction. -/
def emptyDir : State :=
  { fullFile with
    blk := fun _ => Function.update fullBase 32 (storeDinode (fun _ => 0) 256 emptyInode)
    icache := fun i => if i = 0 then emptyInode else unusedInode }

def emptyInos : Inos := Function.update (fun _ => Ino.free) 2 emptyIno

theorem emptyIno_inRange : emptyIno.InRange :=
  { Ino.free_inRange with
    type := by decide
    nlink := by decide }

theorem emptyDir_vol : emptyDir.vol = { volume fullBase with ino := emptyInos } := by
  have hzero : fullBase (IBLOCK 2 mkfsSuperblock) = fun _ => 0 := rfl
  have hstore : volume (Function.update fullBase (IBLOCK 2 mkfsSuperblock)
      (storeDinode (fullBase (IBLOCK 2 mkfsSuperblock)) (dinodeOffset 2) emptyInode)) =
        { volume fullBase with ino := Function.update (volume fullBase).ino 2 emptyIno } :=
    volume_store (by decide) emptyIno_inRange
  rw [hzero] at hstore
  refine hstore.trans ?_
  rw [fullBase_volume]
  rfl

theorem emptyInos_cases (n : ℕ) :
    n = 2 ∧ emptyInos n = emptyIno ∨ n ≠ 2 ∧ emptyInos n = Ino.free := by
  by_cases hn : n = 2
  · subst hn
    exact Or.inl ⟨rfl, rfl⟩
  · exact Or.inr ⟨hn, Function.update_of_ne hn _ _⟩

theorem emptyDir_blocks (q : ℕ × Place) : blocks emptyInos emptyDir.vol q = 0 := by
  have haddrs : ∀ k, (emptyInos q.1).addrs k = 0 := by
    intro k
    rcases emptyInos_cases q.1 with ⟨_, he⟩ | ⟨_, he⟩
    · rw [he]
      rfl
    · rw [he]
      rfl
  unfold blocks Ino.entry
  cases q.2 <;> simp [haddrs]

theorem emptyDir_sound : Sound False emptyDir emptyInos := by
  have hused : ∀ j, 0 < (emptyDir.icache j).ref → j = 0 := by
    intro j hr
    by_contra hj
    rw [show emptyDir.icache j = unusedInode from if_neg hj] at hr
    exact Nat.lt_irrefl 0 hr
  have hloaded : ∀ j m, Loaded emptyDir j m → j = 0 ∧ m = 2 := by
    intro j m hl
    obtain rfl := hused j hl.ref
    exact ⟨rfl, hl.inum.symm⟩
  have hino : emptyDir.vol.ino = emptyInos := by rw [emptyDir_vol]
  refine ⟨⟨rfl, ?_, rfl, List.nodup_nil, ?_, ?_, ?_, ?_, ?_, ?_, ?_, ?_, ?_, ?_⟩, rfl, ?_, ?_, ?_,
    False.elim, False.elim⟩
  · rw [emptyDir_vol, fullBase_volume]
  · intro n hn
    rw [maxInodes_eq] at hn
    exact Function.update_of_ne (by omega) _ _
  · intro n
    rcases emptyInos_cases n with ⟨_, he⟩ | ⟨_, he⟩
    · rw [he]
      exact emptyIno_inRange
    · rw [he]
      exact Ino.free_inRange
  · intro n hn k
    rcases emptyInos_cases n with ⟨_, he⟩ | ⟨_, he⟩
    · rw [he] at hn
      cases hn
    · rw [he]
      rfl
  · intro b hb
    rw [nmeta_eq] at hb
    rw [emptyDir_vol, fullBase_volume]
    exact decide_eq_true (by omega)
  · exact ⟨fun q hq => absurd (emptyDir_blocks q) hq, fun q _ hq => absurd (emptyDir_blocks q) hq⟩
  · intro j _ hr
    obtain rfl := hused j hr
    exact ⟨rfl, by decide, by decide⟩
  · intro j _
    by_cases hj : j = 0
    · rw [hj]
      exact Or.inr rfl
    · rw [show emptyDir.icache j = unusedInode from if_neg hj]
      exact Or.inl rfl
  · intro j k _ _ hrj hrk _
    rw [hused j hrj, hused k hrk]
  · intro j m hl
    obtain ⟨rfl, rfl⟩ := hloaded j m hl
    rfl
  · intro m _ _
    rw [hino]
  · intro m _
    rw [hino]
  · intro j m hl
    obtain ⟨rfl, rfl⟩ := hloaded j m hl
    decide
  · intro n o ho
    rcases emptyInos_cases n with ⟨_, he⟩ | ⟨_, he⟩
    · rw [he] at ho
      exact absurd ho (Nat.not_lt_zero o)
    · rw [he] at ho
      exact absurd ho (Nat.not_lt_zero o)

theorem emptyDir_holding :
    Holding False 0 2 emptyDir (nodeOf emptyInos emptyDir.vol) emptyDir.slots {0} 0 := by
  have hat : At emptyDir.slots 0 2 := ⟨by decide, by decide, rfl, rfl⟩
  have htype : ∀ n, (nodeOf emptyInos emptyDir.vol n).type ≠ 0 → n = 2 := by
    intro n hn
    rcases emptyInos_cases n with ⟨h2, _⟩ | ⟨_, he⟩
    · exact h2
    · exact absurd (congrArg Ino.type he) hn
  have hempty : (nodeOf emptyInos emptyDir.vol 2).entries = 0 := rfl
  refine ⟨⟨⟨_, emptyDir_sound, rfl, rfl⟩, by decide, ?_, ?_, ⟨False.elim, ?_⟩, ?_⟩, ?_, hat,
    ⟨rfl, ⟨0, rfl⟩, ?_⟩, Nat.zero_le _⟩
  · intro j hj
    rw [Multiset.add_zero, Multiset.mem_singleton] at hj
    rw [hj]
    decide
  · intro j _
    rw [Multiset.add_zero, Multiset.count_singleton]
    by_cases hj : j = 0
    · subst hj
      rfl
    · rw [if_neg hj]
      show (emptyDir.icache j).ref = 0
      rw [show emptyDir.icache j = unusedInode from if_neg hj]
      rfl
  · intro n k hdir hk
    obtain rfl := htype n (by rw [hdir]; decide)
    rw [hempty] at hk
    exact absurd hk (Nat.not_lt_zero k)
  · intro n hn hzero
    obtain rfl := htype n hn
    cases hzero
  · rw [Multiset.add_zero]
    exact Multiset.mem_singleton_self 0
  · intro k l hk
    rw [Node.Live, hempty] at hk
    exact absurd hk.1 (Nat.not_lt_zero k)

/-- The answers of a run that returns. -/
def answers (r : Except Halt (List Answer × State)) : Option (List Answer) :=
  match r with
  | .ok (as, _) => some as
  | .error _ => none

/-- A name is linked, found and removed. -/
theorem directory_mapped_first : ∃ t A' σ',
    DirOp.run 0 [.link [120] 5, .lookup [120], .unlink [120], .lookup [120]] emptyDir =
      .ok ([.status 0, .inode (some 5), .status 0, .inode none], t) ∧
    Holding False 0 2 t A' σ' {0} 0 ∧ (A' 2).view [120] = none := by
  have hanswers : answers (DirOp.run 0 [.link [120] 5, .lookup [120], .unlink [120], .lookup [120]]
      emptyDir) = some [.status 0, .inode (some 5), .status 0, .inode none] := by decide +kernel
  unfold answers at hanswers
  split at hanswers
  · rename_i as t hrun
    obtain rfl := Option.some.inj hanswers
    have hvalid : ∀ op ∈ [DirOp.link [120] 5, .lookup [120], .unlink [120], .lookup [120]],
        op.Valid := by
      simp only [List.forall_mem_cons]
      exact ⟨⟨by decide, by decide, by decide⟩, trivial, trivial, trivial, by simp⟩
    have hfit : DirOp.AllFit [.link [120] 5, .lookup [120], .unlink [120], .lookup [120]]
        (nodeOf emptyInos emptyDir.vol 2) := by
      refine ⟨fun _ => ?_, trivial, trivial, trivial, trivial⟩
      exact Nat.le_trans (Nat.add_le_add_right Node.firstFree_end _) (by decide)
    obtain ⟨A', σ', hheld, hmap, _⟩ := directory_mapped emptyDir_holding hvalid hfit hrun
    refine ⟨t, A', σ', hrun, hheld, ?_⟩
    have hgone : ∀ m : Name → Option ℕ, Node.assign m [120] none [120] = none :=
      fun m => if_pos rfl
    have hlast := congrArg (fun r => r.2 [120]) hmap
    simp only [DirOp.runMap, DirOp.apply, hgone] at hlast
    exact hlast.symm
  · cases hanswers

end EmptyDirectory

section FarDirectory

/-- Byte `o` of file `n` behind the single-indirect blocks, as the disk inode names its
blocks. -/
def farByte (vol : Volume) (n o : ℕ) : UInt8 :=
  let bn := o / BSIZE - smallBlocks
  let outer := get (vol.data (vol.far n)) (4 * (bn / NINDIRECT)) 4
  let inner := get (vol.data outer) (4 * (bn % NINDIRECT)) 4
  vol.data inner (o % BSIZE)

/-- The file as it is on the disk, with all of its blocks. -/
def fileOn (v : Inos) (vol : Volume) (n : ℕ) : Node :=
  { nodeOf v vol n with
    byte := fun o =>
      if o < nearBytes then (nodeOf v vol n).byte o else if o < (v n).size then farByte vol n o else 0 }

/-- A directory of free entries with one more behind its single-indirect blocks. -/
def farIno : Ino := { fullIno with type := T_DIR, size := nearBytes + direntSize }

def farInode : Inode := { fullInode with type := T_DIR, size := nearBytes + direntSize }

def markUsed (blk : ℕ → Bytes) (b : ℕ) : ℕ → Bytes :=
  Function.update blk (BMAPBLOCK b mkfsSuperblock)
    (Bitmap.set (blk (BMAPBLOCK b mkfsSuperblock)) (b % BPB))

/-- The blocks 570, 571 and 572 lead to the last entry. -/
def farBase : ℕ → Bytes :=
  markUsed (markUsed (markUsed (Function.update (Function.update (Function.update fullBlk
    570 (put (fun _ => 0) 0 4 571)) 571 (put (fun _ => 0) 0 4 572)) 572 (dirent 2 [120])) 570) 571) 572

def farNamed : ℕ → Bytes := Function.update farBase 32 (put (farBase 32) 312 4 570)

def farBlk : ℕ → Bytes := Function.update farNamed 32 (storeDinode (farNamed 32) 256 farInode)

/-- The directory in the first slot of the cache, inside a transaction. -/
def farDir : State :=
  { fullFile with
    blk := fun _ => farBlk
    icache := fun i => if i = 0 then farInode else unusedInode }

def farInos : Inos := Function.update (fun _ => Ino.free) 2 farIno

theorem volume_markUsed {blk : ℕ → Bytes} {b : ℕ} (hb : b < nbitmap * BPB) :
    volume (markUsed blk b) =
      { volume blk with used := Function.update (volume blk).used b true } :=
  volume_set hb

theorem farIno_inRange : farIno.InRange :=
  { fullIno_inRange with
    type := by decide
    size := by decide }

theorem farBase_volume : volume farBase = { fullFile.vol with
    used := Function.update (Function.update (Function.update fullFile.vol.used
      570 true) 571 true) 572 true
    data := Function.update (Function.update (Function.update fullFile.vol.data
      570 (put (fun _ => 0) 0 4 571)) 571 (put (fun _ => 0) 0 4 572)) 572 (dirent 2 [120]) } := by
  unfold farBase
  rw [volume_markUsed (by decide), volume_markUsed (by decide), volume_markUsed (by decide),
    volume_data (by decide), volume_data (by decide), volume_data (by decide)]
  rfl

theorem farDir_vol : farDir.vol = { volume farBase with
    ino := farInos
    far := Function.update (volume farBase).far 2 570 } := by
  have hother : ∀ i, i < dinodeOffset 2 ∨ dinodeOffset 2 + 128 ≤ i →
      put (farBase 32) 312 4 570 i = farBase (IBLOCK 2 mkfsSuperblock) i := by
    intro i hi
    have hoff : dinodeOffset 2 = 256 := rfl
    rw [hoff] at hi
    exact put_other (by omega)
  have hfar : get (put (farBase 32) 312 4 570) (dinodeOffset 2 + 12 + 4 * (NDIRECT + 1)) 4 = 570 :=
    get_put_of_lt (by decide)
  have hnamed : volume farNamed = { volume farBase with
      ino := Function.update (volume farBase).ino 2 (readIno (put (farBase 32) 312 4 570) 256)
      far := Function.update (volume farBase).far 2 570 } := by
    refine (@volume_ino farBase 2 _ (by decide) hother).trans ?_
    rw [hfar]
    rfl
  have hstore : volume farBlk =
      { volume farNamed with ino := Function.update (volume farNamed).ino 2 farIno } :=
    @volume_store farNamed 2 (by decide) farInode farIno_inRange
  have hinos : Function.update (volume farBase).ino 2 farIno = farInos := by
    rw [farBase_volume, fullFile_vol]
    exact Function.update_idem _ _ _
  refine hstore.trans ?_
  rw [hnamed, Function.update_idem, hinos]

theorem farDir_blocks : blocks farInos farDir.vol = blocks fullInos fullFile.vol := by
  have hindex : farDir.vol.data (fullIno.addrs NDIRECT) =
      fullFile.vol.data (fullIno.addrs NDIRECT) := by
    rw [farDir_vol, farBase_volume]
    rfl
  funext ⟨m, p⟩
  show (farInos m).entry farDir.vol.data p = (fullInos m).entry fullFile.vol.data p
  by_cases hm : m = 2
  · subst hm
    exact Ino.entry_congr (x := fullIno) (fun _ => hindex) p
  · have hfar : farInos m = Ino.free := Function.update_of_ne hm _ _
    have hfull : fullInos m = Ino.free := Function.update_of_ne hm _ _
    rw [hfar, hfull]
    exact Ino.entry_congr (fun h => absurd rfl h) p

theorem farDir_used {b : ℕ} (h : fullFile.vol.used b = true) : farDir.vol.used b = true := by
  rw [farDir_vol, farBase_volume]
  dsimp only
  simp only [Function.update_apply]
  split_ifs <;> first | rfl | exact h

theorem farDir_wf : Wf farDir farInos ∧ Synced farDir farInos := by
  have hfull := fullFile_regular.wf
  have hino : farDir.vol.ino = farInos := by rw [farDir_vol]
  have hother : ∀ j, j ≠ 0 → farDir.icache j = fullFile.icache j := by
    intro j hj
    show (if j = 0 then farInode else unusedInode) = if j = 0 then fullInode else unusedInode
    rw [if_neg hj, if_neg hj]
  have hslot : ∀ j, (farDir.icache j).dev = (fullFile.icache j).dev ∧
      (farDir.icache j).inum = (fullFile.icache j).inum ∧
      (farDir.icache j).ref = (fullFile.icache j).ref := by
    intro j
    by_cases hj : j = 0
    · subst hj
      exact ⟨rfl, rfl, rfl⟩
    · rw [hother j hj]
      exact ⟨rfl, rfl, rfl⟩
  refine ⟨⟨rfl, ?_, rfl, List.nodup_nil, ?_, ?_, ?_, ?_, ?_, ?_, ?_, ?_, ?_, ?_⟩, ?_⟩
  · rw [farDir_vol, farBase_volume]
    exact hfull.word
  · intro n hn
    rw [maxInodes_eq] at hn
    exact Function.update_of_ne (by omega) _ _
  · intro n
    by_cases hn : n = 2
    · rw [hn]
      exact farIno_inRange
    · rw [farInos, Function.update_of_ne hn]
      exact Ino.free_inRange
  · intro n hn k
    by_cases hn2 : n = 2
    · rw [hn2] at hn
      cases hn
    · rw [farInos, Function.update_of_ne hn2]
      rfl
  · exact fun b hb => farDir_used (hfull.reserved b hb)
  · rw [farDir_blocks]
    exact ⟨fun p hp => ⟨(hfull.owned.inside p hp).1, farDir_used (hfull.owned.inside p hp).2⟩,
      hfull.owned.once⟩
  · intro j hj hr
    obtain ⟨hdev, hinum, href⟩ := hslot j
    rw [href] at hr
    rw [hdev, hinum]
    exact hfull.slots j hj hr
  · intro j hj
    rw [(hslot j).1]
    exact hfull.devs j hj
  · intro j k hj hk hrj hrk he
    rw [(hslot j).2.2] at hrj
    rw [(hslot k).2.2] at hrk
    rw [(hslot j).2.1, (hslot k).2.1] at he
    exact hfull.unique j k hj hk hrj hrk he
  · intro j m hl
    by_cases hj : j = 0
    · subst hj
      rw [← hl.inum]
      rfl
    · have hr := hl.ref
      have hunused : fullFile.icache j = unusedInode := if_neg hj
      rw [hother j hj, hunused] at hr
      exact absurd hr (Nat.lt_irrefl 0)
  · intro m _ _
    rw [hino]
  · intro m _
    rw [hino]

/-- The single-indirect blocks of the directory are zero. -/
theorem farDir_near {o : ℕ} (ho : o < nearBytes) :
    blocks farInos farDir.vol (2, placeOf (o / BSIZE)) ≠ 0 ∧ byteAt farInos farDir.vol 2 o = 0 := by
  have hmap : blocks farInos farDir.vol (2, placeOf (o / BSIZE)) ≠ 0 := by
    rw [farDir_blocks]
    exact fullFile_regular.mapped o ho ho
  refine ⟨hmap, ?_⟩
  rw [byteAt_mapped hmap]
  rw [farDir_blocks] at hmap ⊢
  obtain ⟨_, hentry⟩ := fullInos_entry hmap
  have hvalue := fullIno_entry (placeOf (o / BSIZE))
  rw [hentry, hvalue] at hmap ⊢
  obtain ⟨hlo, hhi, honce⟩ := fullEntry_rank hmap
  have hindex : fullEntry (placeOf (o / BSIZE)) ≠ 57 := by
    intro he
    exact placeOf_ne_index _ (honce .index he.symm).symm
  rw [farDir_vol, farBase_volume, fullFile_vol]
  dsimp only
  rw [Function.update_of_ne (by omega), Function.update_of_ne (by omega),
    Function.update_of_ne (by omega), Function.update_of_ne hindex]

/-- The entries in front of the double-indirect blocks are free. -/
theorem farDir_free {k : ℕ} (hk : direntSize * k < nearBytes) :
    ∃ d, readDirent 0 (direntSize * k) farDir = .ok (d, farDir) ∧ get d 0 2 = 0 := by
  have hnear : nearBytes = direntSize * 66816 := rfl
  have hsize : (farInos 2).size = nearBytes + direntSize := rfl
  have hfits : direntSize * k + direntSize ≤ nearBytes := by
    rw [hnear] at hk ⊢
    rw [← Nat.mul_succ]
    exact Nat.mul_le_mul_left _ (Nat.lt_of_mul_lt_mul_left hk)
  have hword : nearBytes + direntSize < 2 ^ 32 := by decide
  have hloaded : Loaded farDir 0 2 := ⟨by decide, by decide, rfl, rfl⟩
  have hmapped : ∀ o, direntSize * k ≤ o → o < (farInos 2).size → o < direntSize * k + direntSize →
      blocks farInos farDir.vol (2, placeOf (o / BSIZE)) ≠ 0 :=
    fun o _ _ ho => (farDir_near (Nat.lt_of_lt_of_le ho hfits)).1
  obtain ⟨d, hread, hbytes⟩ := readi_mapped farDir_wf.1 hloaded rfl (by decide) hmapped
    (by rw [hsize]; omega) (by omega)
  have hlen : min direntSize ((farInos 2).size - direntSize * k) = direntSize := by
    rw [hsize]
    omega
  rw [hlen] at hread hbytes
  refine ⟨d, ?_, get_zero fun o _ ho => ?_⟩
  · exact (bind_of_ok hread).trans (bind_of_ok rfl)
  · have hsixteen : direntSize = 16 := rfl
    rw [hbytes o (by omega), (farDir_near (by omega)).2]

theorem farDir_lookup_step {name : Name} {f k : ℕ} (hk : direntSize * k < nearBytes) :
    lookupLoop 0 name (f + 1) (direntSize * k) farDir =
      lookupLoop 0 name f (direntSize * (k + 1)) farDir := by
  obtain ⟨d, hread, hfree⟩ := farDir_free hk
  have hlt : direntSize * k < (farDir.icache 0).size := Nat.lt_of_lt_of_le hk (Nat.le_add_right _ _)
  refine (bind_of_ok (t := farDir) (a := farDir.icache 0) rfl).trans ?_
  rw [if_pos hlt]
  refine (bind_of_ok hread).trans ?_
  rw [if_neg fun h => h.1 hfree]
  rfl

/-- The lookup comes to the double-indirect blocks. -/
theorem farDir_lookup {name : Name} {f m : ℕ} (hm : m ≤ 66816) :
    lookupLoop 0 name (f + m) (direntSize * (66816 - m)) farDir =
      lookupLoop 0 name f nearBytes farDir := by
  induction m with
  | zero => rfl
  | succ m ih =>
    have hnear : nearBytes = direntSize * 66816 := rfl
    have hlt : direntSize * (66816 - (m + 1)) < nearBytes := by
      rw [hnear]
      exact (Nat.mul_lt_mul_left (by decide)).mpr (by omega)
    have hstep : lookupLoop 0 name (f + m + 1) (direntSize * (66816 - (m + 1))) farDir =
        lookupLoop 0 name (f + m) (direntSize * (66816 - (m + 1) + 1)) farDir :=
        farDir_lookup_step hlt
    have hnext : 66816 - (m + 1) + 1 = 66816 - m := by omega
    rw [hnext, ih (by omega)] at hstep
    exact hstep

theorem farDir_byte {o : ℕ} (ho : o < nearBytes) : (fileOn farInos farDir.vol 2).byte o = 0 := by
  have hsize : o < (farInos 2).size := Nat.lt_of_lt_of_le ho (Nat.le_add_right _ _)
  show (if o < nearBytes then
    if o < (farInos 2).size then byteAt farInos farDir.vol 2 o else 0 else _) = 0
  rw [if_pos ho, if_pos hsize, (farDir_near ho).2]

theorem farDir_last {j : ℕ} (hj : j < direntSize) :
    (fileOn farInos farDir.vol 2).dirent 66816 j = dirent 2 [120] j := by
  have hsixteen : direntSize = 16 := rfl
  have hblock : BSIZE = 2048 := rfl
  have hnear : nearBytes = direntSize * 66816 := rfl
  have hsize : (farInos 2).size = direntSize * 66816 + direntSize := rfl
  have hsmall : smallBlocks = 522 := rfl
  have houter : get (farDir.vol.data (farDir.vol.far 2)) 0 4 = 571 := by
    rw [farDir_vol, farBase_volume]
    exact get_put_of_lt (by decide)
  have hinner : get (farDir.vol.data 571) 0 4 = 572 := by
    rw [farDir_vol, farBase_volume]
    exact get_put_of_lt (by decide)
  have hbn : (direntSize * 66816 + j) / BSIZE - smallBlocks = 0 := by
    rw [hsixteen] at hj ⊢
    rw [hblock, hsmall]
    omega
  show (if direntSize * 66816 + j < nearBytes then _ else
    if direntSize * 66816 + j < (farInos 2).size then farByte farDir.vol 2 _ else 0) = _
  rw [if_neg (by omega), if_pos (by omega), farByte, hbn]
  rw [Nat.zero_div, Nat.zero_mod, Nat.mul_zero, houter, hinner]
  have hmod : (direntSize * 66816 + j) % BSIZE = j := by
    rw [hsixteen] at hj ⊢
    rw [hblock]
    omega
  rw [hmod, farDir_vol, farBase_volume]
  rfl

theorem farDir_live {k : ℕ} (hk : (fileOn farInos farDir.vol 2).Live k) : k = 66816 := by
  obtain ⟨hlt, hne⟩ := hk
  have hentries : (fileOn farInos farDir.vol 2).entries = 66817 := rfl
  by_contra hother
  refine hne (get_zero fun o _ ho => farDir_byte ?_)
  have hnear : nearBytes = direntSize * 66816 := rfl
  have hend : direntSize * (k + 1) ≤ direntSize * 66816 := Nat.mul_le_mul_left _ (by omega)
  have htwo : 2 ≤ direntSize := by decide
  rw [Nat.mul_succ] at hend
  omega

/-- On the disk the directory is well formed, and it has the entry. -/
theorem farDir_wellFormed : (fileOn farInos farDir.vol 2).WellFormed ∧
    (fileOn farInos farDir.vol 2).view [120] = some 2 := by
  have hwell : (fileOn farInos farDir.vol 2).WellFormed := by
    refine ⟨rfl, ⟨66817, rfl⟩, fun k l hk hl _ => ?_⟩
    rw [farDir_live hk, farDir_live hl]
  have hinum : (fileOn farInos farDir.vol 2).inumAt 66816 = 2 := by
    have hsame : (fileOn farInos farDir.vol 2).inumAt 66816 = get (dirent 2 [120]) 0 2 :=
      get_congr fun j _ hj => farDir_last (Nat.lt_of_lt_of_le hj (by decide))
    rw [hsame]
    rfl
  have hname : (fileOn farInos farDir.vol 2).nameAt 66816 = key [120] :=
    direntName_congr fun j hj => farDir_last hj
  refine ⟨hwell, (Node.view_eq_some hwell.distinct).mpr ⟨66816, ⟨by decide, ?_⟩, hname, hinum⟩⟩
  rw [hinum]
  decide

/-- Whether a lookup returns and finds nothing. -/
def findsNone (r : Except Halt (Option (ℕ × ℕ) × State)) : Bool :=
  match r with
  | .ok (none, _) => true
  | _ => false

/-- The lookup does not find the entry. -/
theorem not_always_mapped : Wf farDir farInos ∧ Synced farDir farInos ∧ At farDir.slots 0 2 ∧
    (fileOn farInos farDir.vol 2).WellFormed ∧ nearBytes < (fileOn farInos farDir.vol 2).size ∧
    DirOp.answer (fileOn farInos farDir.vol 2).view (.lookup [120]) = .inode (some 2) ∧
    ∃ t, DirOp.exec 0 (.lookup [120]) farDir = .ok (.inode none, t) := by
  refine ⟨farDir_wf.1, farDir_wf.2, ⟨by decide, by decide, rfl, rfl⟩, farDir_wellFormed.1,
    by decide, ?_, ?_⟩
  · rw [DirOp.answer, farDir_wellFormed.2]
  · have hend : findsNone (lookupLoop 0 [120] 2 nearBytes farDir) = true := by decide +kernel
    have hrun : dirlookup 0 [120] farDir = lookupLoop 0 [120] 2 nearBytes farDir := by
      have hfuel : (farDir.icache 0).size / direntSize + 1 = 2 + 66816 := by decide
      refine (bind_of_ok (a := ()) (ensure_ok.mpr ⟨rfl, rfl⟩)).trans ?_
      refine (bind_of_ok (look_ok.mpr ⟨rfl, rfl⟩)).trans ?_
      rw [hfuel]
      exact farDir_lookup (Nat.le_refl _)
    unfold findsNone at hend
    split at hend
    · rename_i t ht
      exact ⟨t, (bind_of_ok (hrun.trans ht)).trans rfl⟩
    · cases hend

end FarDirectory

end NorthOS.Fs
