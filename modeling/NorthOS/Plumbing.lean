import NorthOS.Runcmd
import NorthOS.Runs
import NorthOS.ShellStrings

/-!
The descriptors of the processes of a command line. Each node of the tree has its descriptors
from the redirections and pipes above it, and every process that works at the node has just
these, whatever descriptors pipe and dup have passed through on the way.
-/
namespace NorthOS.Runcmd

open Shell (Cmd)
open Descriptors Runs Files

/-- With these descriptors `T` for the root, the tree has this command at the node, and it is
to run with the descriptors `U`; `made` are the files and pipes made for the nodes. -/
inductive At (root : Cmd) (T : Table) (made : Node → Option ℕ) : Node → Cmd → Table → Prop
  | root : At root T made [] root T
  | redir {π c file efile mode fd U n} : At root T made π (.redir c file efile mode fd) U →
      made π = some n → At root T made (.body :: π) c (Function.update U fd (some (.opened n file efile mode)))
  | first {π l r U} : At root T made π (.list l r) U → At root T made (.left :: π) l U
  | second {π l r U} : At root T made π (.list l r) U → At root T made (.right :: π) r U
  | writer {π l r U n} : At root T made π (.pipe l r) U → made π = some n →
      At root T made (.left :: π) l (Function.update U 1 (some (.pipe n true)))
  | reader {π l r U n} : At root T made π (.pipe l r) U → made π = some n →
      At root T made (.right :: π) r (Function.update U 0 (some (.pipe n false)))
  | back {π c U} : At root T made π (.back c) U → At root T made (.back :: π) c U

/-- The redirections of the tree are of the standard input and output. -/
def Redirs : Cmd → Prop
  | .exec _ => True
  | .redir c _ _ _ fd => fd ≤ 1 ∧ Redirs c
  | .pipe l r => Redirs l ∧ Redirs r
  | .list l r => Redirs l ∧ Redirs r
  | .back c => Redirs c

/-- The descriptors of a process that has called pipe. -/
def ends (U : Table) (n p0 p1 : ℕ) : Table :=
  Function.update (Function.update U p0 (some (.pipe n false))) p1 (some (.pipe n true))

/-- A node of type PIPE has its pipe, whose descriptors were free. -/
structure Piped (root : Cmd) (T : Table) (made : Node → Option ℕ) (π : Node) (l r : Cmd) (U : Table)
    (n p0 p1 : ℕ) : Prop where
  pipe : At root T made π (.pipe l r) U
  made : made π = some n
  free0 : U p0 = none
  free1 : U p1 = none
  apart : p0 ≠ p1

/-- The descriptors of a process, at each point of the code. -/
def Fits (root : Cmd) (T : Table) (made : Node → Option ℕ) (U : Table) : Code → Prop
  | .runcmd π c => At root T made π c U
  | .opening π c file efile mode => ∃ fd V, At root T made π (.redir c file efile mode fd) V ∧
      U = Function.update V fd none
  | .waiting π r => ∃ l, At root T made π (.list l r) U
  | .piped π l r p0 p1 => ∃ V n, Piped root T made π l r V n p0 p1 ∧ U = ends V n p0 p1
  | .forked π r p0 p1 => ∃ l V n, Piped root T made π l r V n p0 p1 ∧ U = ends V n p0 p1
  | .close0 π p0 p1 => ∃ l r V n, Piped root T made π l r V n p0 p1 ∧ U = ends V n p0 p1
  | .close1 π p1 => ∃ l r V n p0, Piped root T made π l r V n p0 p1 ∧
      U = Function.update (ends V n p0 p1) p0 none
  | .wait0 π | .wait1 π => ∃ l r, At root T made π (.pipe l r) U
  | .wire π w c p0 p1 => ∃ l r V n, Piped root T made π l r V n p0 p1 ∧ c = (if w then l else r) ∧
      U = ends V n p0 p1
  | .dup π w c p0 p1 => ∃ l r V n, Piped root T made π l r V n p0 p1 ∧ c = (if w then l else r) ∧
      U = Function.update (ends V n p0 p1) (std w) none
  | .wired π w c p0 p1 => ∃ l r V n, Piped root T made π l r V n p0 p1 ∧ c = (if w then l else r) ∧
      U = Function.update (ends V n p0 p1) (std w) (some (.pipe n w))
  | .last π w c p1 => ∃ l r V n p0, Piped root T made π l r V n p0 p1 ∧ c = (if w then l else r) ∧
      U = Function.update (Function.update (ends V n p0 p1) (std w) (some (.pipe n w))) p0 none
  | .running π | .exit π => ∃ c, At root T made π c U
  | .zombie _ => U = fun _ => none

/-- The nodes that are the process's to begin, now or later. -/
def Code.claims : Code → Node → Prop
  | .runcmd π _, ρ | .opening π _ _ _ _, ρ => π <:+ ρ
  | .waiting π _, ρ | .forked π _ _ _, ρ => (.right :: π) <:+ ρ
  | .piped π _ _ _ _, ρ => (.left :: π) <:+ ρ ∨ (.right :: π) <:+ ρ
  | .wire π w _ _ _, ρ | .dup π w _ _ _, ρ | .wired π w _ _ _, ρ | .last π w _ _, ρ =>
    (side w :: π) <:+ ρ
  | .close0 _ _ _, _ | .close1 _ _, _ | .wait0 _, _ | .wait1 _, _ | .running _, _ | .exit _, _
  | .zombie _, _ => False

/-- The invariant. Each node is begun once, by one process, with its descriptors. -/
structure Wired (root : Cmd) (T : Table) (s : Sys) : Prop where
  next : ∀ p, s.next ≤ p → s.proc p = none
  fits : ∀ p P, s.proc p = some P → Fits root T s.made P.ofile P.code
  apart : ∀ p q P Q ρ, p ≠ q → s.proc p = some P → s.proc q = some Q → P.code.claims ρ →
    ¬ Q.code.claims ρ
  fresh : ∀ p P ρ, s.proc p = some P → P.code.claims ρ → s.made ρ = none ∧ ρ ∉ s.begun
  below : ∀ ρ n, s.made ρ = some n → n < s.files
  distinct : ∀ ρ σ n, s.made ρ = some n → s.made σ = some n → ρ = σ
  started : ∀ x ∈ s.started, At root T s.made x.node (.exec x.argv) x.ofile ∧ x.node ∈ s.begun
  once : (s.started.map Started.node).Nodup

section Nodes

variable {root c d : Cmd} {T U V : Table} {made made' : Node → Option ℕ} {π ρ : Node}

/-- What was made stays made. -/
def Grows (made made' : Node → Option ℕ) : Prop := ∀ ρ n, made ρ = some n → made' ρ = some n

theorem At.grows (h : At root T made π c U) (hm : Grows made made') : At root T made' π c U := by
  induction h with
  | root => exact .root
  | redir _ hn ih => exact .redir ih (hm _ _ hn)
  | first _ ih => exact .first ih
  | second _ ih => exact .second ih
  | writer _ hn ih => exact .writer ih (hm _ _ hn)
  | reader _ hn ih => exact .reader ih (hm _ _ hn)
  | back _ ih => exact .back ih

theorem Piped.grows {l r : Cmd} {n p0 p1 : ℕ} (h : Piped root T made π l r U n p0 p1)
    (hm : Grows made made') : Piped root T made' π l r U n p0 p1 :=
  ⟨h.pipe.grows hm, hm _ _ h.made, h.free0, h.free1, h.apart⟩

theorem Fits.grows {code : Code} (h : Fits root T made U code) (hm : Grows made made') :
    Fits root T made' U code := by
  cases code with
  | runcmd => exact At.grows h hm
  | opening =>
    obtain ⟨fd, V, hat, hU⟩ := h
    exact ⟨fd, V, hat.grows hm, hU⟩
  | waiting =>
    obtain ⟨l, hat⟩ := h
    exact ⟨l, hat.grows hm⟩
  | piped =>
    obtain ⟨V, n, hpiped, hU⟩ := h
    exact ⟨V, n, hpiped.grows hm, hU⟩
  | forked =>
    obtain ⟨l, V, n, hpiped, hU⟩ := h
    exact ⟨l, V, n, hpiped.grows hm, hU⟩
  | close0 =>
    obtain ⟨l, r, V, n, hpiped, hU⟩ := h
    exact ⟨l, r, V, n, hpiped.grows hm, hU⟩
  | close1 =>
    obtain ⟨l, r, V, n, p0, hpiped, hU⟩ := h
    exact ⟨l, r, V, n, p0, hpiped.grows hm, hU⟩
  | wait0 =>
    obtain ⟨l, r, hat⟩ := h
    exact ⟨l, r, hat.grows hm⟩
  | wait1 =>
    obtain ⟨l, r, hat⟩ := h
    exact ⟨l, r, hat.grows hm⟩
  | wire =>
    obtain ⟨l, r, V, n, hpiped, hU⟩ := h
    exact ⟨l, r, V, n, hpiped.grows hm, hU⟩
  | dup =>
    obtain ⟨l, r, V, n, hpiped, hU⟩ := h
    exact ⟨l, r, V, n, hpiped.grows hm, hU⟩
  | wired =>
    obtain ⟨l, r, V, n, hpiped, hU⟩ := h
    exact ⟨l, r, V, n, hpiped.grows hm, hU⟩
  | last =>
    obtain ⟨l, r, V, n, p0, hpiped, hU⟩ := h
    exact ⟨l, r, V, n, p0, hpiped.grows hm, hU⟩
  | running =>
    obtain ⟨c, hat⟩ := h
    exact ⟨c, hat.grows hm⟩
  | exit =>
    obtain ⟨c, hat⟩ := h
    exact ⟨c, hat.grows hm⟩
  | zombie => exact h

/-- A node has at most one command, and runs with one set of descriptors. -/
theorem At.unique (h : At root T made π c U) (h' : At root T made π d V) : c = d ∧ U = V := by
  induction h generalizing d V with
  | root => cases h'; exact ⟨rfl, rfl⟩
  | redir _ hn ih =>
    cases h' with
    | redir h' hn' =>
      obtain ⟨he, rfl⟩ := ih h'
      cases he
      cases hn.symm.trans hn'
      exact ⟨rfl, rfl⟩
  | first _ ih =>
    cases h' with
    | first h' =>
      obtain ⟨he, rfl⟩ := ih h'
      cases he
      exact ⟨rfl, rfl⟩
    | writer h' _ => cases (ih h').1
  | second _ ih =>
    cases h' with
    | second h' =>
      obtain ⟨he, rfl⟩ := ih h'
      cases he
      exact ⟨rfl, rfl⟩
    | reader h' _ => cases (ih h').1
  | writer _ hn ih =>
    cases h' with
    | first h' => cases (ih h').1
    | writer h' hn' =>
      obtain ⟨he, rfl⟩ := ih h'
      cases he
      cases hn.symm.trans hn'
      exact ⟨rfl, rfl⟩
  | reader _ hn ih =>
    cases h' with
    | second h' => cases (ih h').1
    | reader h' hn' =>
      obtain ⟨he, rfl⟩ := ih h'
      cases he
      cases hn.symm.trans hn'
      exact ⟨rfl, rfl⟩
  | back _ ih =>
    cases h' with
    | back h' =>
      obtain ⟨he, rfl⟩ := ih h'
      cases he
      exact ⟨rfl, rfl⟩

/-- The standard descriptors stay open, and the others are those of the root. -/
structure Standard (T U : Table) : Prop where
  input : U 0 ≠ none
  output : U 1 ≠ none
  others : ∀ fd, 2 ≤ fd → U fd = T fd

theorem Standard.update (h : Standard T U) {fd : ℕ} (hfd : fd ≤ 1) (f : File) :
    Standard T (Function.update U fd (some f)) := by
  refine ⟨?_, ?_, fun i hi => ?_⟩
  · by_cases h0 : 0 = fd
    · rw [← h0, Function.update_self]
      simp
    · rw [Function.update_of_ne h0]
      exact h.input
  · by_cases h1 : 1 = fd
    · rw [← h1, Function.update_self]
      simp
    · rw [Function.update_of_ne h1]
      exact h.output
  · rw [Function.update_of_ne (by omega)]
    exact h.others i hi

theorem At.standard (h : At root T made π c U) (hroot : Redirs root) (hT : Standard T T) :
    Redirs c ∧ Standard T U := by
  induction h with
  | root => exact ⟨hroot, hT⟩
  | redir _ _ ih => exact ⟨ih.1.2, ih.2.update ih.1.1 _⟩
  | first _ ih => exact ⟨ih.1.1, ih.2⟩
  | second _ ih => exact ⟨ih.1.2, ih.2⟩
  | writer _ _ ih => exact ⟨ih.1.1, ih.2.update le_rfl _⟩
  | reader _ _ ih => exact ⟨ih.1.2, ih.2.update (Nat.zero_le 1) _⟩
  | back _ ih => exact ⟨ih.1, ih.2⟩

/-- The two sides of a node have no node in common. -/
theorem sides_apart (hl : (Turn.left :: π) <:+ ρ) : ¬ (Turn.right :: π) <:+ ρ := by
  intro hr
  have he := (List.suffix_of_suffix_length_le hl hr (by simp)).eq_of_length (by simp)
  cases he

theorem claims_below {t : Turn} (h : (t :: π) <:+ ρ) : π <:+ ρ :=
  (List.suffix_cons t π).trans h

theorem not_below {t : Turn} : ¬ (t :: π) <:+ π := by
  intro h
  have hle := h.length_le
  rw [List.length_cons] at hle
  omega

end Nodes

section Advance

variable {root : Cmd} {T : Table} {s t : Sys} {p : ℕ} {P R : Proc} {C : Option Proc} {π : Node}

/-- What a step of the process `p` does, with the child that it may fork: the nodes that it
and the child claim were its own, and only such a node is begun or gets a file. -/
structure Advance (root : Cmd) (T : Table) (s t : Sys) (p : ℕ) (P R : Proc) (C : Option Proc)
    (π : Node) : Prop where
  old : s.proc p = some P
  proc : ∀ q Q, t.proc q = some Q →
    q ≠ p ∧ s.proc q = some Q ∨ q = p ∧ Q = R ∨ q ≠ p ∧ q = s.next ∧ C = some Q
  next : ∀ q, t.next ≤ q → t.proc q = none
  self : ∀ ρ, R.code.claims ρ → P.code.claims ρ ∧ t.made ρ = none ∧ ρ ∉ t.begun
  child : ∀ Q, C = some Q → ∀ ρ, Q.code.claims ρ →
    P.code.claims ρ ∧ t.made ρ = none ∧ ρ ∉ t.begun ∧ ¬ R.code.claims ρ
  made : ∀ ρ, t.made ρ = s.made ρ ∨
    ρ = π ∧ P.code.claims π ∧ t.made π = some s.files ∧ t.files = s.files + 1
  files : s.files ≤ t.files
  begun : ∀ ρ ∈ t.begun, ρ ∈ s.begun ∨ P.code.claims ρ
  kept : s.begun ⊆ t.begun
  started : t.started = s.started ∨ ∃ x, t.started = x :: s.started ∧
    At root T t.made x.node (.exec x.argv) x.ofile ∧ P.code.claims x.node ∧ x.node ∈ t.begun
  fits : Fits root T t.made R.ofile R.code
  fitsChild : ∀ Q, C = some Q → Fits root T t.made Q.ofile Q.code

theorem Advance.grows (ha : Advance root T s t p P R C π) (h : Wired root T s) :
    Grows s.made t.made := by
  intro ρ n hn
  rcases ha.made ρ with he | ⟨rfl, hclaim, _⟩
  · rw [he, hn]
  · rw [(h.fresh p P ρ ha.old hclaim).1] at hn
    cases hn

/-- What is not the process's to begin stays as it is. -/
theorem Advance.same (ha : Advance root T s t p P R C π) {ρ : Node} (hρ : ¬ P.code.claims ρ) :
    t.made ρ = s.made ρ ∧ (ρ ∈ t.begun → ρ ∈ s.begun) := by
  refine ⟨(ha.made ρ).resolve_right ?_, fun hb => (ha.begun ρ hb).resolve_right hρ⟩
  rintro ⟨rfl, hclaim, _⟩
  exact hρ hclaim

theorem Wired.advance (h : Wired root T s) (ha : Advance root T s t p P R C π) :
    Wired root T t := by
  have hgrows := ha.grows h
  have hother : ∀ q Q ρ, q ≠ p → s.proc q = some Q → Q.code.claims ρ → ¬ P.code.claims ρ :=
    fun q Q ρ hq hQ hclaim => h.apart q p Q P ρ hq hQ ha.old hclaim
  refine ⟨ha.next, fun q Q hq => ?_, fun q q' Q Q' ρ hne hq hq' hclaim hclaim' => ?_,
    fun q Q ρ hq hclaim => ?_, fun ρ n hn => ?_, fun ρ σ n hρ hσ => ?_, fun x hx => ?_, ?_⟩
  · rcases ha.proc q Q hq with ⟨_, hold⟩ | ⟨_, rfl⟩ | ⟨_, _, hC⟩
    · exact (h.fits q Q hold).grows hgrows
    · exact ha.fits
    · exact ha.fitsChild Q hC
  · rcases ha.proc q Q hq with ⟨hqp, hold⟩ | ⟨rfl, rfl⟩ | ⟨hqp, rfl, hC⟩
    · rcases ha.proc q' Q' hq' with ⟨_, hold'⟩ | ⟨_, rfl⟩ | ⟨_, _, hC'⟩
      · exact h.apart q q' Q Q' ρ hne hold hold' hclaim hclaim'
      · exact hother q Q ρ hqp hold hclaim (ha.self ρ hclaim').1
      · exact hother q Q ρ hqp hold hclaim (ha.child Q' hC' ρ hclaim').1
    · rcases ha.proc q' Q' hq' with ⟨hqp', hold'⟩ | ⟨rfl, _⟩ | ⟨_, _, hC'⟩
      · exact hother q' Q' ρ hqp' hold' hclaim' (ha.self ρ hclaim).1
      · exact hne rfl
      · exact (ha.child Q' hC' ρ hclaim').2.2.2 hclaim
    · rcases ha.proc q' Q' hq' with ⟨hqp', hold'⟩ | ⟨_, rfl⟩ | ⟨_, rfl, _⟩
      · exact hother q' Q' ρ hqp' hold' hclaim' (ha.child Q hC ρ hclaim).1
      · exact (ha.child Q hC ρ hclaim).2.2.2 hclaim'
      · exact hne rfl
  · rcases ha.proc q Q hq with ⟨hqp, hold⟩ | ⟨_, rfl⟩ | ⟨_, _, hC⟩
    · obtain ⟨hmade, hbegun⟩ := ha.same (hother q Q ρ hqp hold hclaim)
      obtain ⟨hnone, hnot⟩ := h.fresh q Q ρ hold hclaim
      exact ⟨hmade.trans hnone, fun hb => hnot (hbegun hb)⟩
    · exact (ha.self ρ hclaim).2
    · exact ⟨(ha.child Q hC ρ hclaim).2.1, (ha.child Q hC ρ hclaim).2.2.1⟩
  · rcases ha.made ρ with he | ⟨rfl, _, hnew, hfiles⟩
    · rw [he] at hn
      exact Nat.lt_of_lt_of_le (h.below ρ n hn) ha.files
    · rw [hnew] at hn
      rw [hfiles, ← Option.some.inj hn]
      exact Nat.lt_succ_self _
  · have hlt : ∀ ρ, t.made ρ = s.made ρ → t.made ρ = some n → n < s.files :=
      fun ρ he hn => h.below ρ n (he.symm.trans hn)
    rcases ha.made ρ with he | ⟨rfl, _, hnew, _⟩
    · rcases ha.made σ with he' | ⟨rfl, _, hnew', _⟩
      · exact h.distinct ρ σ n (he.symm.trans hρ) (he'.symm.trans hσ)
      · have hn := hlt ρ he hρ
        rw [← Option.some.inj (hnew'.symm.trans hσ)] at hn
        exact absurd hn (Nat.lt_irrefl _)
    · rcases ha.made σ with he' | ⟨rfl, _, _, _⟩
      · have hn := hlt σ he' hσ
        rw [← Option.some.inj (hnew.symm.trans hρ)] at hn
        exact absurd hn (Nat.lt_irrefl _)
      · rfl
  · rcases ha.started with he | ⟨y, he, hat, _, hbegun⟩
    · rw [he] at hx
      exact ⟨(h.started x hx).1.grows hgrows, ha.kept (h.started x hx).2⟩
    · rw [he] at hx
      rcases List.mem_cons.mp hx with rfl | hx
      · exact ⟨hat, hbegun⟩
      · exact ⟨(h.started x hx).1.grows hgrows, ha.kept (h.started x hx).2⟩
  · rcases ha.started with he | ⟨y, he, _, hclaim, _⟩
    · rw [he]
      exact h.once
    · rw [he, List.map_cons, List.nodup_cons]
      refine ⟨fun hmem => ?_, h.once⟩
      obtain ⟨x, hx, hxy⟩ := List.mem_map.mp hmem
      refine (h.fresh p P y.node ha.old hclaim).2 ?_
      rw [← hxy]
      exact (h.started x hx).2

theorem proc_put {code : Code} {U : Table} {q : ℕ} {Q : Proc}
    (hq : (s.put p code U).proc q = some Q) :
    q ≠ p ∧ s.proc q = some Q ∨ q = p ∧ Q = ⟨code, U⟩ := by
  by_cases hqp : q = p
  · subst hqp
    have hself : (s.put q code U).proc q = some ⟨code, U⟩ := Function.update_self _ _ _
    exact Or.inr ⟨rfl, Option.some.inj (hq.symm.trans hself)⟩
  · have hother : (s.put p code U).proc q = s.proc q := Function.update_of_ne hqp _ _
    exact Or.inl ⟨hqp, hother.symm.trans hq⟩

/-- No process is numbered from `next` on. -/
theorem Wired.proc_ne (h : Wired root T s) (hp : s.proc p = some P) {q : ℕ} (hq : s.next ≤ q) :
    q ≠ p := by
  rintro rfl
  rw [h.next q hq] at hp
  cases hp

theorem Wired.next_put (h : Wired root T s) (hp : s.proc p = some P) {code : Code}
    {U : Table} {q : ℕ} (hq : s.next ≤ q) : (s.put p code U).proc q = none :=
  (Function.update_of_ne (h.proc_ne hp hq) _ _).trans (h.next q hq)

/-- A step that begins no node. -/
theorem Wired.put (h : Wired root T s) (hp : s.proc p = some P) {code : Code} {U : Table}
    (hclaim : ∀ ρ, code.claims ρ → P.code.claims ρ) (hfits : Fits root T s.made U code) :
    Wired root T (s.put p code U) := by
  refine h.advance (p := p) (P := P) (R := ⟨code, U⟩) (C := none) (π := []) ⟨hp, fun q Q hq => ?_,
    fun q hq => h.next_put hp hq, fun ρ hρ => ⟨hclaim ρ hρ, h.fresh p P ρ hp (hclaim ρ hρ)⟩,
    fun Q hQ => absurd hQ (Option.some_ne_none Q).symm, fun ρ => Or.inl rfl, le_rfl,
    fun ρ hρ => Or.inl hρ, fun ρ hρ => hρ,
    Or.inl rfl, hfits, fun Q hQ => absurd hQ (Option.some_ne_none Q).symm⟩
  exact (proc_put hq).imp id Or.inl

/-- The end of a process. -/
theorem Wired.die (h : Wired root T s) (hp : s.proc p = some P) (π : Node) :
    Wired root T (s.die p π) := by
  have hput : Wired root T (s.put p (.zombie π) fun _ => none) := h.put hp (fun ρ hρ => hρ.elim) rfl
  exact ⟨hput.next, hput.fits, hput.apart, hput.fresh, hput.below, hput.distinct, hput.started,
    hput.once⟩

/-- The nodes below the one that the process begins. -/
theorem Wired.fresh_below (h : Wired root T s) (hp : s.proc p = some P)
    (hclaims : ∀ ρ, π <:+ ρ → P.code.claims ρ) {turn : Turn} {ρ : Node} (hρ : (turn :: π) <:+ ρ) :
    P.code.claims ρ ∧ s.made ρ = none ∧ (∀ x, Function.update s.made π x ρ = none) ∧
      ρ ∉ π :: s.begun := by
  have hclaim := hclaims ρ (claims_below hρ)
  obtain ⟨hmade, hbegun⟩ := h.fresh p P ρ hp hclaim
  have hne : ρ ≠ π := by
    rintro rfl
    exact not_below hρ
  refine ⟨hclaim, hmade, fun x => (Function.update_of_ne hne _ _).trans hmade, fun hmem => ?_⟩
  rcases List.mem_cons.mp hmem with he | hmem
  · exact hne he
  · exact hbegun hmem

theorem begun_cons (hclaims : ∀ ρ, π <:+ ρ → P.code.claims ρ) {ρ : Node} (hρ : ρ ∈ π :: s.begun) :
    ρ ∈ s.begun ∨ P.code.claims ρ := by
  rcases List.mem_cons.mp hρ with rfl | hρ
  · exact Or.inr (hclaims _ List.suffix_rfl)
  · exact Or.inl hρ

/-- A node is begun, and the process goes on without it. -/
theorem Wired.begin_put (h : Wired root T s) (hp : s.proc p = some P)
    (hclaims : ∀ ρ, π <:+ ρ → P.code.claims ρ) {code : Code} {U : Table}
    (hcode : ∀ ρ, code.claims ρ → ∃ turn, (turn :: π) <:+ ρ) (hfits : Fits root T s.made U code) :
    Wired root T ((s.begin π).put p code U) := by
  refine h.advance (p := p) (P := P) (R := ⟨code, U⟩) (C := none) (π := π) ⟨hp, fun q Q hq => ?_,
    fun q hq => h.next_put hp hq, fun ρ hρ => ?_, fun Q hQ => absurd hQ
    (Option.some_ne_none Q).symm, fun ρ => Or.inl rfl, le_rfl,
    fun ρ hρ => begun_cons hclaims hρ, List.subset_cons_self _ _, Or.inl rfl, hfits,
    fun Q hQ => absurd hQ (Option.some_ne_none Q).symm⟩
  · exact (proc_put (s := s) hq).imp id Or.inl
  · obtain ⟨turn, hbelow⟩ := hcode ρ hρ
    obtain ⟨hclaim, hmade, _, hbegun⟩ := h.fresh_below hp hclaims hbelow
    exact ⟨hclaim, hmade, hbegun⟩

theorem Wired.begin_die (h : Wired root T s) (hp : s.proc p = some P)
    (hclaims : ∀ ρ, π <:+ ρ → P.code.claims ρ) (π' : Node) :
    Wired root T ((s.begin π).die p π') := by
  have hput : Wired root T ((s.begin π).put p (.zombie π') fun _ => none) :=
    h.begin_put hp hclaims (fun ρ hρ => hρ.elim) rfl
  exact ⟨hput.next, hput.fits, hput.apart, hput.fresh, hput.below, hput.distinct, hput.started,
    hput.once⟩

/-- A node is begun, and a file or a pipe is made for it. -/
theorem Wired.make_put (h : Wired root T s) (hp : s.proc p = some P)
    (hclaims : ∀ ρ, π <:+ ρ → P.code.claims ρ) {code : Code} {U : Table}
    (hcode : ∀ ρ, code.claims ρ → ∃ turn, (turn :: π) <:+ ρ)
    (hfits : Fits root T (Function.update s.made π (some s.files)) U code) :
    Wired root T (((s.begin π).make π).put p code U) := by
  refine h.advance (p := p) (P := P) (R := ⟨code, U⟩) (C := none) (π := π) ⟨hp, fun q Q hq => ?_,
    fun q hq => h.next_put hp hq, fun ρ hρ => ?_, fun Q hQ => absurd hQ
    (Option.some_ne_none Q).symm, fun ρ => ?_, Nat.le_succ _,
    fun ρ hρ => begun_cons hclaims hρ, List.subset_cons_self _ _, Or.inl rfl, hfits,
    fun Q hQ => absurd hQ (Option.some_ne_none Q).symm⟩
  · exact (proc_put (s := s) hq).imp id Or.inl
  · obtain ⟨turn, hbelow⟩ := hcode ρ hρ
    obtain ⟨hclaim, _, hmade, hbegun⟩ := h.fresh_below hp hclaims hbelow
    exact ⟨hclaim, hmade _, hbegun⟩
  · by_cases hρ : ρ = π
    · subst hρ
      exact Or.inr ⟨rfl, hclaims ρ List.suffix_rfl, Function.update_self _ _ _, rfl⟩
    · exact Or.inl (Function.update_of_ne hρ _ _)

/-- The process forks; `b` is what it begins. -/
theorem Wired.fork_put (h : Wired root T s) (hp : s.proc p = some P) {b : List Node}
    (hb : ∀ ρ ∈ b, P.code.claims ρ) {born : Node} {code code' : Code} {U V : Table}
    (hcode : ∀ ρ, code.claims ρ → P.code.claims ρ ∧ s.made ρ = none ∧ ρ ∉ b ++ s.begun)
    (hcode' : ∀ ρ, code'.claims ρ → P.code.claims ρ ∧ s.made ρ = none ∧ ρ ∉ b ++ s.begun)
    (hapart : ∀ ρ, code'.claims ρ → ¬ code.claims ρ)
    (hfits : Fits root T s.made U code) (hfits' : Fits root T s.made V code') :
    Wired root T ((Sys.fork { s with begun := b ++ s.begun } p born code' V).put p code U) := by
  have hne : s.next ≠ p := h.proc_ne hp le_rfl
  refine h.advance (p := p) (P := P) (R := ⟨code, U⟩) (C := some ⟨code', V⟩) (π := [])
    ⟨hp, fun q Q hq => ?_,
    fun q hq => ?_, hcode, fun Q hQ ρ hρ => ?_, fun ρ => Or.inl rfl, le_rfl, fun ρ hρ => ?_,
    List.subset_append_right _ _, Or.inl rfl, hfits, fun Q hQ => ?_⟩
  · rcases proc_put hq with ⟨hqp, hq⟩ | hq
    · have hq : Function.update s.proc s.next (some ⟨code', V⟩) q = some Q := hq
      by_cases hqn : q = s.next
      · rw [hqn, Function.update_self] at hq
        exact Or.inr (Or.inr ⟨hqp, hqn, hq⟩)
      · rw [Function.update_of_ne hqn] at hq
        exact Or.inl ⟨hqp, hq⟩
    · exact Or.inr (Or.inl hq)
  · have hlt : s.next < q := hq
    have hqp : q ≠ p := h.proc_ne hp (Nat.le_of_lt hlt)
    show Function.update (Function.update s.proc s.next _) p _ q = none
    rw [Function.update_of_ne hqp, Function.update_of_ne (Nat.ne_of_gt hlt)]
    exact h.next q (Nat.le_of_lt hlt)
  · obtain rfl := Option.some.inj hQ
    obtain ⟨hclaim, hmade, hbegun⟩ := hcode' ρ hρ
    exact ⟨hclaim, hmade, hbegun, hapart ρ hρ⟩
  · rcases List.mem_append.mp hρ with hρ | hρ
    · exact Or.inr (hb ρ hρ)
    · exact Or.inl hρ
  · obtain rfl := Option.some.inj hQ
    exact hfits'

end Advance

section Tables

variable {root : Cmd} {T U V : Table} {made : Node → Option ℕ} {π : Node} {l r : Cmd} {n p0 p1 : ℕ}
    {w : Bool}

theorem std_le (w : Bool) : std w ≤ 1 := by
  cases w <;> decide

theorem Standard.std (h : Standard T U) (w : Bool) : U (std w) ≠ none := by
  cases w with
  | true => exact h.output
  | false => exact h.input

/-- The slots below the one that is replaced are in use. -/
theorem Standard.used (h : Standard T U) {fd j : ℕ} (hfd : fd ≤ 1) (hj : j < fd) : U j ≠ none := by
  obtain rfl : j = 0 := by omega
  exact h.input

theorem ends_of_used {fd : ℕ} (h : Piped root T made π l r U n p0 p1) (hfd : U fd ≠ none) :
    ends U n p0 p1 fd = U fd := by
  have h0 : fd ≠ p0 := by
    rintro rfl
    exact hfd h.free0
  have h1 : fd ≠ p1 := by
    rintro rfl
    exact hfd h.free1
  unfold ends
  rw [Function.update_of_ne h1, Function.update_of_ne h0]

/-- What dup finds at the end of the pipe that the child is to use. -/
theorem ends_side (h : Piped root T made π l r U n p0 p1) (w : Bool) :
    ends U n p0 p1 (if w then p1 else p0) = some (.pipe n w) := by
  unfold ends
  cases w with
  | true => exact Function.update_self _ _ _
  | false =>
    show Function.update _ p1 _ p0 = _
    rw [Function.update_of_ne h.apart, Function.update_self]

/-- dup puts the end of the pipe where the standard descriptor was closed. -/
theorem dup_eq (h : Piped root T made π l r U n p0 p1) (hU : Standard T U) (w : Bool) :
    (match Function.update (ends U n p0 p1) (std w) none (if w then p1 else p0),
        lowest NOFILE (Function.update (ends U n p0 p1) (std w) none) with
      | some f, some fd => Function.update (Function.update (ends U n p0 p1) (std w) none)
          fd (some f)
      | _, _ => Function.update (ends U n p0 p1) (std w) none) =
    Function.update (ends U n p0 p1) (std w) (some (.pipe n w)) := by
  have hend : Function.update (ends U n p0 p1) (std w) none (if w then p1 else p0) = some (.pipe n w) := by
    rw [Function.update_of_ne, ends_side h]
    intro he
    have hused := hU.std w
    rw [← he] at hused
    cases w with
    | true => exact hused h.free1
    | false => exact hused h.free0
  have hlow : lowest NOFILE (Function.update (ends U n p0 p1) (std w) none) = some (std w) := by
    refine lowest_close (Nat.lt_of_le_of_lt (std_le w) (by decide)) fun j hj => ?_
    have hused := hU.used (std_le w) hj
    rw [ends_of_used h hused]
    exact hused
  rw [hend, hlow]
  exact Function.update_idem _ _ _

/-- After the two close the child has the descriptors of the node but for the one replaced. -/
theorem wired_eq (h : Piped root T made π l r U n p0 p1) (hU : Standard T U) (w : Bool) :
    Function.update (Function.update
      (Function.update (ends U n p0 p1) (std w) (some (.pipe n w))) p0 none)
      p1 none = Function.update U (std w) (some (.pipe n w)) := by
  have hused := hU.std w
  have h0 : std w ≠ p0 := fun he => hused (he ▸ h.free0)
  have h1 : std w ≠ p1 := fun he => hused (he ▸ h.free1)
  funext fd
  unfold ends
  by_cases hf1 : fd = p1
  · subst hf1
    rw [Function.update_self, Function.update_of_ne h1.symm, h.free1]
  rw [Function.update_of_ne hf1]
  by_cases hf0 : fd = p0
  · subst hf0
    rw [Function.update_self, Function.update_of_ne h0.symm, h.free0]
  rw [Function.update_of_ne hf0]
  by_cases hw : fd = std w
  · rw [hw, Function.update_self, Function.update_self]
  · rw [Function.update_of_ne hw, Function.update_of_ne hw, Function.update_of_ne hf1,
      Function.update_of_ne hf0]

/-- The parent has closed both ends. -/
theorem closed_eq (h : Piped root T made π l r U n p0 p1) :
    Function.update (Function.update (ends U n p0 p1) p0 none) p1 none = U := by
  funext fd
  unfold ends
  by_cases hf1 : fd = p1
  · rw [hf1, Function.update_self, h.free1]
  rw [Function.update_of_ne hf1]
  by_cases hf0 : fd = p0
  · rw [hf0, Function.update_self, h.free0]
  rw [Function.update_of_ne hf0, Function.update_of_ne hf1, Function.update_of_ne hf0]

theorem Piped.child (h : Piped root T made π l r U n p0 p1) (w : Bool) :
    At root T made (side w :: π) (if w then l else r) (Function.update U (std w) (some (.pipe n w))) := by
  cases w with
  | true => exact .writer h.pipe h.made
  | false => exact .reader h.pipe h.made

theorem pipefds_spec {id : ℕ} (h : Sys.pipefds U id = some (p0, p1)) :
    U p0 = none ∧ U p1 = none ∧ p0 ≠ p1 := by
  obtain ⟨q0, h0, h⟩ := Option.bind_eq_some_iff.mp h
  obtain ⟨q1, h1, he⟩ := Option.map_eq_some_iff.mp h
  obtain ⟨rfl, rfl⟩ := Prod.mk.inj he
  have hfree0 := (lowest_spec h0).2
  have hne : q0 ≠ q1 := by
    refine (lowest_ne h1 ?_).symm
    rw [Function.update_self]
    simp
  have hfree1 := (lowest_spec h1).2
  rw [Function.update_of_ne hne.symm] at hfree1
  exact ⟨hfree0, hfree1, hne⟩

end Tables

section Steps

variable {root : Cmd} {T : Table} {s t : Sys} {p : ℕ} {U : Table} {π : Node} {ok : Bool}

theorem Wired.list (h : Wired root T s) {l r : Cmd}
    (hp : s.proc p = some ⟨.runcmd π (.list l r), U⟩)
    (hat : At root T s.made π (.list l r) U) : Wired root T
    (((s.begin π).fork p (.left :: π) (.runcmd (.left :: π) l) U).put p (.waiting π r) U) := by
  refine h.fork_put hp (b := [π]) (fun ρ hρ => ?_) (fun ρ hρ => ?_) (fun ρ hρ => ?_)
    (fun ρ hρ => sides_apart hρ) ⟨l, hat⟩ (.first hat)
  · obtain rfl := List.mem_singleton.mp hρ
    exact List.suffix_rfl
  · obtain ⟨hclaim, hmade, _, hbegun⟩ := h.fresh_below (π := π) hp (fun _ hρ => hρ) hρ
    exact ⟨hclaim, hmade, hbegun⟩
  · obtain ⟨hclaim, hmade, _, hbegun⟩ := h.fresh_below (π := π) hp (fun _ hρ => hρ) hρ
    exact ⟨hclaim, hmade, hbegun⟩

theorem Wired.back (h : Wired root T s) {c : Cmd} (hp : s.proc p = some ⟨.runcmd π (.back c), U⟩)
    (hat : At root T s.made π (.back c) U) : Wired root T
    (((s.begin π).fork p (.back :: π) (.runcmd (.back :: π) c) U).put p (.exit π) U) := by
  refine h.fork_put hp (b := [π]) (fun ρ hρ => ?_) (fun ρ hρ => hρ.elim) (fun ρ hρ => ?_)
    (fun ρ _ => id) ⟨.back c, hat⟩ (.back hat)
  · obtain rfl := List.mem_singleton.mp hρ
    exact List.suffix_rfl
  · obtain ⟨hclaim, hmade, _, hbegun⟩ := h.fresh_below hp (fun _ hρ => hρ) hρ
    exact ⟨hclaim, hmade, hbegun⟩

theorem Wired.pipe (h : Wired root T s) {l r : Cmd}
    (hp : s.proc p = some ⟨.runcmd π (.pipe l r), U⟩)
    (hat : At root T s.made π (.pipe l r) U) {p0 p1 : ℕ}
    (hfds : Sys.pipefds U s.files = some (p0, p1)) :
    Wired root T (((s.begin π).make π).put p (.piped π l r p0 p1)
      (Function.update (Function.update U p0 (some (.pipe s.files false))) p1
      (some (.pipe s.files true)))) := by
  have hgrows : Grows s.made (Function.update s.made π (some s.files)) := by
    intro ρ n hn
    by_cases hρ : ρ = π
    · rw [hρ, (h.fresh p _ π hp List.suffix_rfl).1] at hn
      cases hn
    · rw [Function.update_of_ne hρ, hn]
  obtain ⟨hfree0, hfree1, hne⟩ := pipefds_spec hfds
  refine h.make_put hp (fun _ hρ => hρ) (fun ρ hρ => ?_) ?_
  · rcases hρ with hρ | hρ
    · exact ⟨.left, hρ⟩
    · exact ⟨.right, hρ⟩
  · exact ⟨U, s.files, ⟨hat.grows hgrows, Function.update_self _ _ _, hfree0, hfree1, hne⟩, rfl⟩

theorem Wired.exec (h : Wired root T s) {argv : List (ℕ × ℕ)}
    (hp : s.proc p = some ⟨.runcmd π (.exec argv), U⟩) (hat : At root T s.made π (.exec argv) U) :
    Wired root T { (s.begin π).put p (.running π) U with started := ⟨π, argv, U⟩ :: s.started } := by
  have hbegun : ∀ ρ ∈ π :: s.begun, ρ ∈ s.begun ∨ (Code.runcmd π (.exec argv)).claims ρ :=
    fun ρ hρ => begun_cons (P := ⟨.runcmd π (.exec argv), U⟩) (fun _ hρ => hρ) hρ
  refine h.advance (p := p) (P := ⟨.runcmd π (.exec argv), U⟩) (R := ⟨.running π, U⟩)
    (C := none) (π := π) ⟨hp, fun q Q hq => ?_, fun q hq => h.next_put hp hq, fun ρ hρ => hρ.elim,
    fun Q hQ => absurd hQ (Option.some_ne_none Q).symm, fun ρ => Or.inl rfl, le_rfl, hbegun,
    List.subset_cons_self _ _,
    Or.inr ⟨⟨π, argv, U⟩, rfl, hat, List.suffix_rfl, List.mem_cons_self ..⟩, ⟨_, hat⟩,
    fun Q hQ => absurd hQ (Option.some_ne_none Q).symm⟩
  exact (proc_put (s := s) hq).imp id Or.inl

theorem Wired.runcmd (h : Wired root T s) {c : Cmd} (hp : s.proc p = some ⟨.runcmd π c, U⟩) :
    Wired root T (s.runcmd p U π ok c) := by
  have hat : At root T s.made π c U := h.fits p _ hp
  have hdie : Wired root T ((s.begin π).die p π) := h.begin_die (π := π) hp (fun _ hρ => hρ) π
  cases c with
  | exec argv =>
    simp only [Sys.runcmd]
    split
    · exact h.exec hp hat
    · exact hdie
  | redir c file efile mode fd =>
    exact h.put hp (fun _ hρ => hρ) ⟨fd, U, hat, rfl⟩
  | list l r =>
    simp only [Sys.runcmd]
    split
    · exact h.list hp hat
    · exact hdie
  | pipe l r =>
    simp only [Sys.runcmd]
    split
    · rename_i p0 p1 hfds
      obtain ⟨_, hfds⟩ := Option.ite_none_right_eq_some.mp hfds
      exact h.pipe hp hat hfds
    · exact hdie
  | back c =>
    simp only [Sys.runcmd]
    split
    · exact h.back hp hat
    · exact hdie

/-- The system calls of runcmd behind the switch. -/
theorem Wired.go (hroot : Redirs root) (hT : Standard T T) (h : Wired root T s) {code : Code}
    (hp : s.proc p = some ⟨code, U⟩) (ht : s.go p ok U code = some t) : Wired root T t := by
  have hfits := h.fits p _ hp
  cases code with
  | runcmd π c =>
    obtain rfl := Option.some.inj ht
    exact h.runcmd hp
  | opening π c file efile mode =>
    obtain ⟨fd, V, hat, rfl⟩ := hfits
    obtain ⟨⟨hfd, _⟩, hV⟩ := hat.standard hroot hT
    simp only [Sys.go] at ht
    split at ht
    · rename_i fd' hlow
      obtain rfl := Option.some.inj ht
      obtain ⟨_, hlow⟩ := Option.ite_none_right_eq_some.mp hlow
      have hsame : lowest NOFILE (Function.update V fd none) = some fd :=
        lowest_close (Nat.lt_of_le_of_lt hfd (by decide)) fun j hj => hV.used hfd hj
      obtain rfl := Option.some.inj (hsame.symm.trans hlow)
      have hgrows : Grows s.made (Function.update s.made π (some s.files)) := by
        intro ρ n hn
        by_cases hρ : ρ = π
        · rw [hρ, (h.fresh p _ π hp List.suffix_rfl).1] at hn
          cases hn
        · rw [Function.update_of_ne hρ, hn]
      refine h.make_put hp (fun _ hρ => hρ) (fun ρ hρ => ⟨.body, hρ⟩) ?_
      rw [Function.update_idem]
      exact .redir (hat.grows hgrows) (Function.update_self _ _ _)
    · obtain rfl := Option.some.inj ht
      exact h.begin_die (π := π) hp (fun _ hρ => hρ) π
  | waiting π right =>
    obtain ⟨l, hat⟩ := hfits
    obtain ⟨_, ht⟩ := Option.ite_none_right_eq_some.mp ht
    obtain rfl := Option.some.inj ht
    exact h.put hp (fun _ hρ => hρ) (.second hat)
  | piped π left right p0 p1 =>
    obtain ⟨V, n, hpiped, rfl⟩ := hfits
    simp only [Sys.go] at ht
    obtain rfl := Option.some.inj ht
    split
    · have hfresh : ∀ ρ, (Code.piped π left right p0 p1).claims ρ → s.made ρ = none ∧ ρ ∉ s.begun :=
        fun ρ hρ => h.fresh p _ ρ hp hρ
      refine h.fork_put hp (b := []) (fun ρ hρ => absurd hρ List.not_mem_nil) (fun ρ hρ => ?_)
        (fun ρ hρ => ?_) (fun ρ hρ => sides_apart hρ) ⟨left, V, n, hpiped, rfl⟩
        ⟨left, right, V, n, hpiped, rfl, rfl⟩
      · exact ⟨Or.inr hρ, hfresh ρ (Or.inr hρ)⟩
      · exact ⟨Or.inl hρ, hfresh ρ (Or.inl hρ)⟩
    · exact h.die hp π
  | forked π right p0 p1 =>
    obtain ⟨l, V, n, hpiped, rfl⟩ := hfits
    simp only [Sys.go] at ht
    obtain rfl := Option.some.inj ht
    split
    · refine h.fork_put hp (b := []) (fun ρ hρ => absurd hρ List.not_mem_nil) (fun ρ hρ => hρ.elim)
        (fun ρ hρ => ⟨hρ, h.fresh p _ ρ hp hρ⟩) (fun ρ _ => id) ⟨l, right, V, n, hpiped, rfl⟩
        ⟨l, right, V, n, hpiped, rfl, rfl⟩
    · exact h.die hp π
  | close0 π p0 p1 =>
    obtain ⟨l, r, V, n, hpiped, rfl⟩ := hfits
    obtain rfl := Option.some.inj ht
    exact h.put hp (fun _ hρ => hρ.elim) ⟨l, r, V, n, p0, hpiped, rfl⟩
  | close1 π p1 =>
    obtain ⟨l, r, V, n, p0, hpiped, rfl⟩ := hfits
    obtain rfl := Option.some.inj ht
    refine h.put hp (fun _ hρ => hρ.elim) ⟨l, r, ?_⟩
    rw [closed_eq hpiped]
    exact hpiped.pipe
  | wait0 π =>
    obtain ⟨_, ht⟩ := Option.ite_none_right_eq_some.mp ht
    obtain rfl := Option.some.inj ht
    exact h.put hp (fun _ hρ => hρ.elim) hfits
  | wait1 π =>
    obtain ⟨l, r, hat⟩ := hfits
    obtain ⟨_, ht⟩ := Option.ite_none_right_eq_some.mp ht
    obtain rfl := Option.some.inj ht
    exact h.put hp (fun _ hρ => hρ.elim) ⟨_, hat⟩
  | wire π w c p0 p1 =>
    obtain ⟨l, r, V, n, hpiped, hc, rfl⟩ := hfits
    obtain rfl := Option.some.inj ht
    exact h.put hp (fun _ hρ => hρ) ⟨l, r, V, n, hpiped, hc, rfl⟩
  | dup π w c p0 p1 =>
    obtain ⟨l, r, V, n, hpiped, hc, rfl⟩ := hfits
    obtain rfl := Option.some.inj ht
    refine h.put hp (fun _ hρ => hρ) ⟨l, r, V, n, hpiped, hc, ?_⟩
    exact dup_eq hpiped (hpiped.pipe.standard hroot hT).2 w
  | wired π w c p0 p1 =>
    obtain ⟨l, r, V, n, hpiped, hc, rfl⟩ := hfits
    obtain rfl := Option.some.inj ht
    exact h.put hp (fun _ hρ => hρ) ⟨l, r, V, n, p0, hpiped, hc, rfl⟩
  | last π w c p1 =>
    obtain ⟨l, r, V, n, p0, hpiped, rfl, rfl⟩ := hfits
    obtain rfl := Option.some.inj ht
    refine h.put hp (fun _ hρ => hρ) ?_
    rw [wired_eq hpiped (hpiped.pipe.standard hroot hT).2 w]
    exact hpiped.child w
  | running π => cases ht
  | exit π =>
    obtain rfl := Option.some.inj ht
    exact h.die hp π
  | zombie π => cases ht

/-- A process is gone for good. -/
theorem Wired.reap (h : Wired root T s) (q : ℕ) :
    Wired root T { s with proc := Function.update s.proc q none } := by
  have hsub : ∀ p P, Function.update s.proc q none p = some P → s.proc p = some P := by
    intro p P hp
    by_cases hpq : p = q
    · rw [hpq, Function.update_self] at hp
      cases hp
    · rwa [Function.update_of_ne hpq] at hp
  refine ⟨fun p hp => ?_, fun p P hp => h.fits p P (hsub p P hp), fun p p' P R ρ hne hp hp' =>
    h.apart p p' P R ρ hne (hsub p P hp) (hsub p' R hp'), fun p P ρ hp => h.fresh p P ρ
      (hsub p P hp),
    h.below, h.distinct, h.started, h.once⟩
  show Function.update s.proc q none p = none
  by_cases hpq : p = q
  · rw [hpq, Function.update_self]
  · rw [Function.update_of_ne hpq]
    exact h.next p hp

theorem Wired.step (hroot : Redirs root) (hT : Standard T T) (h : Wired root T s) {a : Act}
    (ht : s.step a = some t) : Wired root T t := by
  cases a with
  | go p ok =>
    obtain ⟨P, hp, ht⟩ := Option.bind_eq_some_iff.mp ht
    exact h.go hroot hT hp ht
  | wait p q =>
    simp only [Sys.step] at ht
    split at ht
    · rename_i P Q hp hq
      obtain ⟨_, ht⟩ := Option.ite_none_right_eq_some.mp ht
      obtain ⟨code, hcode, rfl⟩ := Option.map_eq_some_iff.mp ht
      have hfits := h.fits p P hp
      have hput : Wired root T (s.put p code P.ofile) := by
        obtain ⟨old, U⟩ := P
        cases old with
        | waiting π right =>
          obtain ⟨l, hat⟩ := hfits
          obtain rfl := Option.some.inj hcode
          exact h.put hp (fun _ hρ => hρ) (.second hat)
        | wait0 π =>
          obtain rfl := Option.some.inj hcode
          exact h.put hp (fun _ hρ => hρ.elim) hfits
        | wait1 π =>
          obtain ⟨l, r, hat⟩ := hfits
          obtain rfl := Option.some.inj hcode
          exact h.put hp (fun _ hρ => hρ.elim) ⟨_, hat⟩
        | _ => cases hcode
      exact hput.reap q
    · cases ht
  | stop p =>
    simp only [Sys.step] at ht
    split at ht
    · rename_i P hp
      obtain ⟨_, ht⟩ := Option.ite_none_left_eq_some.mp ht
      obtain rfl := Option.some.inj ht
      exact h.die hp _
    · cases ht

theorem start_wired (c : Cmd) (U : Table) : Wired c U (.start c U) := by
  have honly : ∀ p P, (Sys.start c U).proc p = some P → p = 0 ∧ P = ⟨.runcmd [] c, U⟩ := by
    intro p P hp
    obtain ⟨rfl, hp⟩ := Option.ite_none_right_eq_some.mp hp
    exact ⟨rfl, (Option.some.inj hp).symm⟩
  refine ⟨fun p hp => if_neg (Nat.ne_of_gt hp), fun p P hp => ?_, fun p q P Q ρ hne hp hq => ?_,
    fun p P ρ hp hρ => ⟨rfl, List.not_mem_nil⟩, fun ρ n hn => ?_, fun ρ σ n hn => ?_,
    fun x hx => ?_, List.nodup_nil⟩
  · rw [(honly p P hp).2]
    exact .root
  · exact absurd ((honly p P hp).1.trans (honly q Q hq).1.symm) hne
  · cases hn
  · cases hn
  · exact absurd hx List.not_mem_nil

end Steps

section Lines

open CString

variable {n : ℕ} {a b : Cells} {l : List ℤ} {root : Cmd} {T : Table}

theorem redirs_back {c : Cmd} (k : ℕ) (h : Redirs c) : Redirs (Cmd.back^[k] c) := by
  induction k generalizing c with
  | zero => exact h
  | succ k ih => exact ih (c := .back c) h

theorem redirs_around {c : Cmd} (r : Shell.Redirection) (h : Redirs c) : Redirs (r.around c) := by
  unfold Shell.Redirection.around
  split
  · exact ⟨Nat.zero_le 1, h⟩
  · exact ⟨le_rfl, h⟩

theorem redirs_wrap {c : Cmd} (rs : List Shell.Redirection) (h : Redirs c) :
    Redirs (Shell.wrap rs c) := by
  induction rs generalizing c with
  | nil => exact h
  | cons r rs ih => exact ih (redirs_around r h)

mutual

theorem line_redirs : ∀ {ts c}, Shell.Line ts c → Redirs c
  | _, _, .last hpipe _ => redirs_back _ (pipe_redirs hpipe)
  | _, _, .next hpipe _ _ hline => ⟨redirs_back _ (pipe_redirs hpipe), line_redirs hline⟩

theorem pipe_redirs : ∀ {ts c}, Shell.Pipe ts c → Redirs c
  | _, _, .last hexec => exec_redirs hexec
  | _, _, .next hexec _ hpipe => ⟨exec_redirs hexec, pipe_redirs hpipe⟩

theorem exec_redirs : ∀ {ts c}, Shell.Exec ts c → Redirs c
  | _, _, .block _ hline _ => redirs_wrap _ (line_redirs hline)
  | _, _, .simple _ => redirs_wrap _ trivial

end

/-- What the parser returns redirects the standard input and output only. -/
theorem parsecmd_redirs (h : Holds n a l) (hne : l ≠ [])
    (hparse : Shell.parsecmd n a = .ok (some root, b)) : Redirs root := by
  have hsound := Shell.parsecmd_sound h hne
  rw [hparse] at hsound
  obtain ⟨c, he, ts, _, hline⟩ := hsound
  obtain rfl := Option.some.inj (Prod.mk.inj he).1
  exact line_redirs hline

/-- The descriptors with which the shell forks for a line. -/
structure Inherited (T : Table) : Prop where
  input : T 0 ≠ none
  output : T 1 ≠ none
  given : ∀ fd f, T fd = some f → ∃ k, f = .given k

theorem Inherited.standard (hT : Inherited T) :
    Standard T T := ⟨hT.input, hT.output, fun _ _ => rfl⟩

theorem always_wired (hroot : Redirs root) (hT : Standard T T) (as : List Act) :
    Always Sys.step (Wired root T) (.start root T) as :=
  always_of_invariant (fun _ _ _ h ht => h.step hroot hT ht) (start_wired root T) as

/-- The three standard descriptors, and no others. -/
def console : Table := fun fd => if fd < 3 then some (.given fd) else none

theorem console_inherited : Inherited console := by
  refine ⟨Option.some_ne_none _, Option.some_ne_none _, fun fd f h => ?_⟩
  obtain ⟨_, h⟩ := Option.ite_none_right_eq_some.mp h
  exact ⟨fd, (Option.some.inj h).symm⟩

/-- The line a|b is parsed. -/
theorem bar_line : ∃ b, Shell.parsecmd 4 (fun i => [97, 124, 98].getD i 0) =
    .ok (some (.pipe (.exec [(0, 1)]) (.exec [(2, 3)])), b) := by
  have hcmd : (Shell.parsecmd 4 (fun i => [97, 124, 98].getD i 0)).toOption.bind Prod.fst =
      some (.pipe (.exec [(0, 1)]) (.exec [(2, 3)])) := by decide +kernel
  match hparse : Shell.parsecmd 4 (fun i => [97, 124, 98].getD i 0) with
  | .ok (c, b) =>
    rw [hparse] at hcmd
    obtain rfl : c = _ := hcmd
    exact ⟨b, rfl⟩
  | .error _ =>
    rw [hparse] at hcmd
    cases hcmd

/-- Every program of a line is started at most once, and with the descriptors of its node: each
redirection and each pipe above it is in place, every other descriptor is the shell's, and no
two nodes have a pipe or a file in common. -/
theorem always_plumbed (h : Holds n a l) (hne : l ≠ [])
    (hparse : Shell.parsecmd n a = .ok (some root, b)) (hT : Inherited T) (as : List Act) :
    Always Sys.step (fun s =>
      (∀ x ∈ s.started, At root T s.made x.node (.exec x.argv) x.ofile) ∧
      (s.started.map Started.node).Nodup ∧
      ∀ ρ σ n, s.made ρ = some n → s.made σ = some n → ρ = σ) (.start root T) as :=
  (always_wired (parsecmd_redirs h hne hparse) hT.standard as).mono fun _ hw =>
    ⟨fun x hx => (hw.started x hx).1, hw.once, hw.distinct⟩

/-- The line a|b -/
theorem always_plumbed_pipe : ∃ b,
    Shell.parsecmd 4 (fun i => [97, 124, 98].getD i 0) =
      .ok (some (.pipe (.exec [(0, 1)]) (.exec [(2, 3)])), b) ∧
    Always Sys.step (fun s =>
      (∀ x ∈ s.started, At (.pipe (.exec [(0, 1)]) (.exec [(2, 3)])) console s.made x.node
        (.exec x.argv) x.ofile) ∧
      (s.started.map Started.node).Nodup ∧
      ∀ ρ σ n, s.made ρ = some n → s.made σ = some n → ρ = σ)
      (.start (.pipe (.exec [(0, 1)]) (.exec [(2, 3)])) console)
      [.go 0 true, .go 0 true, .go 1 true] := by
  obtain ⟨b, hparse⟩ := bar_line
  exact ⟨b, hparse, always_plumbed (l := [97, 124, 98]) ⟨by decide, by decide, fun _ _ => rfl⟩
    (by decide) hparse console_inherited _⟩

end Lines

section Ends

variable {n k : ℕ} {a b : CString.Cells} {l : List ℤ} {root c : Cmd} {T U : Table}
    {made : Node → Option ℕ}
  {π : Node} {fd : ℕ} {w : Bool}

/-- The process is at the node, and has an end of its pipe that it has not yet closed. -/
def Code.holdsEnds (π : Node) : Code → Prop
  | .piped ρ _ _ _ _ | .forked ρ _ _ _ | .close0 ρ _ _ | .close1 ρ _ | .wire ρ _ _ _ _ | .dup ρ _ _ _ _
  | .wired ρ _ _ _ _ | .last ρ _ _ _ => ρ = π
  | _ => False

theorem update_pipe {i : ℕ} {x : Option File} (hU : Function.update U i x fd = some (.pipe k w)) :
    x = some (.pipe k w) ∨ U fd = some (.pipe k w) := by
  by_cases hi : fd = i
  · rw [hi, Function.update_self] at hU
    exact Or.inl hU
  · rw [Function.update_of_ne hi] at hU
    exact Or.inr hU

/-- The end of a pipe that a node uses is from a node above, and from its side. -/
theorem At.end_above (h : At root T made π c U) (hT : Inherited T) (hU : U fd = some (.pipe k w)) :
    ∃ ρ, made ρ = some k ∧ (side w :: ρ) <:+ π := by
  have hup : ∀ {turn : Turn} {σ : Node}, (∃ ρ, made ρ = some k ∧ (side w :: ρ) <:+ σ) →
      ∃ ρ, made ρ = some k ∧ (side w :: ρ) <:+ turn :: σ :=
    fun ⟨ρ, hρ, hbelow⟩ => ⟨ρ, hρ, hbelow.trans (List.suffix_cons _ _)⟩
  induction h with
  | root =>
    obtain ⟨i, hi⟩ := hT.given fd _ hU
    cases hi
  | redir h hm ih =>
    rcases update_pipe hU with he | hU
    · cases he
    · exact hup (ih hU)
  | first _ ih => exact hup (ih hU)
  | second _ ih => exact hup (ih hU)
  | back _ ih => exact hup (ih hU)
  | writer h hm ih =>
    rcases update_pipe hU with he | hU
    · cases he
      exact ⟨_, hm, List.suffix_rfl⟩
    · exact hup (ih hU)
  | reader h hm ih =>
    rcases update_pipe hU with he | hU
    · cases he
      exact ⟨_, hm, List.suffix_rfl⟩
    · exact hup (ih hU)

theorem ends_pipe {m p0 p1 : ℕ} (hU : ends U m p0 p1 fd = some (.pipe k w)) :
    k = m ∨ U fd = some (.pipe k w) := by
  rcases update_pipe hU with he | hU
  · cases he
    exact Or.inl rfl
  rcases update_pipe hU with he | hU
  · cases he
    exact Or.inl rfl
  · exact Or.inr hU

/-- A process that has an end of a pipe uses it, or is about to close it. -/
theorem Piped.end_above {r : Cmd} {m p0 p1 : ℕ} {ρ : Node} (h : Piped root T made π c r U m p0 p1)
    (hT : Inherited T) (hU : k = m ∨ U fd = some (.pipe k w)) (hρ : π <:+ ρ) :
    ∃ σ, made σ = some k ∧ ((side w :: σ) <:+ ρ ∨ π = σ) := by
  rcases hU with rfl | hU
  · exact ⟨π, h.made, Or.inr rfl⟩
  · obtain ⟨σ, hσ, hbelow⟩ := h.pipe.end_above hT hU
    exact ⟨σ, hσ, Or.inl (hbelow.trans hρ)⟩

theorem Fits.end_above {code : Code} (h : Fits root T made U code) (hT : Inherited T)
    (hU : U fd = some (.pipe k w)) :
    ∃ ρ, made ρ = some k ∧ ((side w :: ρ) <:+ code.node ∨ code.holdsEnds ρ) := by
  have hat : ∀ {π c}, At root T made π c U → ∃ ρ, made ρ = some k ∧ ((side w :: ρ) <:+ π ∨ False) :=
    fun hat => (hat.end_above hT hU).imp fun _ hρ => ⟨hρ.1, Or.inl hρ.2⟩
  cases code with
  | runcmd => exact hat h
  | opening =>
    obtain ⟨i, V, hV, rfl⟩ := h
    rcases update_pipe hU with he | hU
    · cases he
    · exact (hV.end_above hT hU).imp fun _ hρ => ⟨hρ.1, Or.inl hρ.2⟩
  | waiting =>
    obtain ⟨l, h⟩ := h
    exact hat h
  | piped =>
    obtain ⟨V, m, hpiped, rfl⟩ := h
    exact hpiped.end_above hT (ends_pipe hU) List.suffix_rfl
  | forked =>
    obtain ⟨l, V, m, hpiped, rfl⟩ := h
    exact hpiped.end_above hT (ends_pipe hU) List.suffix_rfl
  | close0 =>
    obtain ⟨l, r, V, m, hpiped, rfl⟩ := h
    exact hpiped.end_above hT (ends_pipe hU) List.suffix_rfl
  | close1 =>
    obtain ⟨l, r, V, m, p0, hpiped, rfl⟩ := h
    rcases update_pipe hU with he | hU
    · cases he
    · exact hpiped.end_above hT (ends_pipe hU) List.suffix_rfl
  | wait0 | wait1 =>
    obtain ⟨l, r, h⟩ := h
    exact hat h
  | wire =>
    obtain ⟨l, r, V, m, hpiped, _, rfl⟩ := h
    exact hpiped.end_above hT (ends_pipe hU) (List.suffix_cons _ _)
  | dup =>
    obtain ⟨l, r, V, m, hpiped, _, rfl⟩ := h
    rcases update_pipe hU with he | hU
    · cases he
    · exact hpiped.end_above hT (ends_pipe hU) (List.suffix_cons _ _)
  | wired =>
    obtain ⟨l, r, V, m, hpiped, _, rfl⟩ := h
    rcases update_pipe hU with he | hU
    · cases he
      have hown : k = k ∨ V fd = some (.pipe k w) := Or.inl rfl
      exact hpiped.end_above hT hown (List.suffix_cons _ _)
    · exact hpiped.end_above hT (ends_pipe hU) (List.suffix_cons _ _)
  | last =>
    obtain ⟨l, r, V, m, p0, hpiped, _, rfl⟩ := h
    rcases update_pipe hU with he | hU
    · cases he
    rcases update_pipe hU with he | hU
    · cases he
      have hown : k = k ∨ V fd = some (.pipe k w) := Or.inl rfl
      exact hpiped.end_above hT hown (List.suffix_cons _ _)
    · exact hpiped.end_above hT (ends_pipe hU) (List.suffix_cons _ _)
  | running | exit =>
    obtain ⟨c, h⟩ := h
    exact hat h
  | zombie =>
    obtain rfl := h
    cases hU

/-- In every state the processes that have the write end of a pipe open are those on its left
side and those that are about to close it, and likewise for the read end and the right side. So
the reader sees the end of the file when the left side is gone. -/
theorem always_ends {n : ℕ} (h : CString.Holds n a l) (hne : l ≠ [])
    (hparse : Shell.parsecmd n a = .ok (some root, b)) (hT : Inherited T) (as : List Act) :
    Always Sys.step (fun s => ∀ p P fd k w, s.proc p = some P → P.ofile fd = some (.pipe k w) →
      ∃ ρ, s.made ρ = some k ∧ ((side w :: ρ) <:+ P.code.node ∨ P.code.holdsEnds ρ))
      (.start root T) as := by
  refine (always_wired (parsecmd_redirs h hne hparse) hT.standard as).mono fun s hw => ?_
  intro p P fd k w hP hU
  exact (hw.fits p P hP).end_above hT hU

/-- The line a|b -/
theorem always_ends_pipe : ∃ b,
    Shell.parsecmd 4 (fun i => [97, 124, 98].getD i 0) =
      .ok (some (.pipe (.exec [(0, 1)]) (.exec [(2, 3)])), b) ∧
    Always Sys.step (fun s => ∀ p P fd k w, s.proc p = some P → P.ofile fd = some (.pipe k w) →
      ∃ ρ, s.made ρ = some k ∧ ((side w :: ρ) <:+ P.code.node ∨ P.code.holdsEnds ρ))
      (.start (.pipe (.exec [(0, 1)]) (.exec [(2, 3)])) console)
      [.go 0 true, .go 0 true, .go 1 true] := by
  obtain ⟨b, hparse⟩ := bar_line
  exact ⟨b, hparse, always_ends (l := [97, 124, 98]) ⟨by decide, by decide, fun _ _ => rfl⟩
    (by decide) hparse console_inherited _⟩

end Ends

end NorthOS.Runcmd
