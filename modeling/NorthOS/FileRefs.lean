import Mathlib.Algebra.BigOperators.Ring.Finset
import Mathlib.Algebra.Order.BigOperators.Group.Finset
import NorthOS.FileTable

/-!
References to open files. A descriptor names a file, and a call holds the files that it
has no descriptor for; dup fills a descriptor before it takes the reference and exit
drops a reference before it clears the descriptor, so each of them owes one. Descriptors
and files held make up the references and what is owed, in every run.
-/
namespace NorthOS.Files

open Process (ProcState NPROC)

/-- The files that a call holds without a descriptor. -/
def Doing.held : Doing → List ℕ
  | .opened f _ | .pipe0 f | .pipe3 _ f _ | .forkSet _ _ f => [f]
  | .pipe1 f0 f1 | .pipe2 f0 f1 => [f0, f1]
  | .closing _ fs => fs
  | .idle | .typing _ _ | .dup _ | .fork _ _ | .exit _ | .exiting _ _ _ => []

/-- The files that have a descriptor for which there is no reference. -/
def Doing.owing : Doing → List ℕ
  | .dup f | .exiting f _ _ => [f]
  | _ => []

/-- The files of the call that have no type yet. -/
def Doing.raw : Doing → List ℕ
  | .opened f _ | .typing f _ | .pipe0 f => [f]
  | .pipe1 f0 f1 => [f0, f1]
  | _ => []

def Doing.child : Doing → Option ℕ
  | .fork np _ | .forkSet np _ _ => some np
  | _ => none

namespace Sys

/-- How many descriptors of the process name the file. -/
def named (s : Sys) (p f : ℕ) : ℕ := ∑ fd ∈ Finset.range NOFILE, if s.ofile p fd = some f then 1 else 0

def held (s : Sys) (p f : ℕ) : ℕ := (s.doing p).held.count f

def owing (s : Sys) (p f : ℕ) : ℕ := (s.doing p).owing.count f

/-- The file that the next step of the process passes to filedup or fileclose. -/
def touched (s : Sys) (p : ℕ) : Option ℕ :=
  match s.doing p with
  | .dup f | .closing none (f :: _) => some f
  | .fork _ i | .exit i => if i < NOFILE then s.ofile p i else none
  | _ => none

end Sys

section Weights

/-- A sum in which one term changes. -/
theorem sum_change {n p : ℕ} {W W' : ℕ → ℤ} (hp : p < n) (h : ∀ q, q ≠ p → W' q = W q) :
    ∑ q ∈ Finset.range n, W' q = ∑ q ∈ Finset.range n, W q + (W' p - W p) := by
  have hmem : p ∈ Finset.range n := Finset.mem_range.mpr hp
  rw [← Finset.add_sum_erase _ W' hmem, ← Finset.add_sum_erase _ W hmem]
  have hrest : ∑ q ∈ (Finset.range n).erase p, W' q = ∑ q ∈ (Finset.range n).erase p, W q :=
    Finset.sum_congr rfl fun q hq => h q (Finset.ne_of_mem_erase hq)
  omega

variable {s s' : Sys} {p q f fd : ℕ}

/-- The part of a process in the references to a file. -/
def weight (s : Sys) (p f : ℕ) : ℤ := (s.named p f : ℤ) + s.held p f - s.owing p f

theorem named_eq (s : Sys) (p f : ℕ) :
    (s.named p f : ℤ) = ∑ fd ∈ Finset.range NOFILE, if s.ofile p fd = some f then (1 : ℤ) else 0 := by
  unfold Sys.named
  push_cast
  rfl

theorem named_setFd (s : Sys) (p f : ℕ) (hfd : fd < NOFILE) (x : Option ℕ) :
    ((s.setFd p fd x).named p f : ℤ) =
      s.named p f + ((if x = some f then 1 else 0) - if s.ofile p fd = some f then 1 else 0) := by
  rw [named_eq, named_eq]
  have hofile : (s.setFd p fd x).ofile p = Function.update (s.ofile p) fd x :=
    Function.update_self ..
  rw [hofile, sum_change (W := fun g => if s.ofile p g = some f then (1 : ℤ) else 0) hfd]
  · rw [Function.update_self]
  · intro g hg
    rw [Function.update_of_ne hg]

theorem one_le_named (hfd : fd < NOFILE) (h : s.ofile p fd = some f) : 1 ≤ s.named p f := by
  unfold Sys.named
  refine le_trans ?_ (Finset.single_le_sum (f := fun fd => if s.ofile p fd = some f then 1 else 0)
    (fun _ _ => Nat.zero_le _) (Finset.mem_range.mpr hfd))
  rw [if_pos h]

theorem two_le_named (hfd : fd < NOFILE) {fd' : ℕ} (hfd' : fd' < NOFILE) (hne : fd' ≠ fd)
    (h : s.ofile p fd = some f) (h' : s.ofile p fd' = some f) : 2 ≤ s.named p f := by
  have hclear := named_setFd s p f hfd none
  have hone : 1 ≤ (s.setFd p fd none).named p f := by
    refine one_le_named hfd' ?_
    show Function.update s.ofile p _ p fd' = _
    rw [Function.update_self, Function.update_of_ne hne, h']
  rw [h, if_pos rfl, if_neg (by simp)] at hclear
  omega

/-- What the descriptors have to do with the point where the process stands. -/
def Placed (s : Sys) (p : ℕ) : Doing → Prop
  | .typing f _ => ∃ fd, fd < NOFILE ∧ s.ofile p fd = some f
  | .dup f => 2 ≤ s.named p f
  | .pipe3 f0 _ fd0 => fd0 < NOFILE ∧ s.ofile p fd0 = some f0
  | .fork np i => ∀ j, i ≤ j → j < NOFILE → s.ofile np j = none
  | .forkSet np i _ => i < NOFILE ∧ ∀ j, i ≤ j → j < NOFILE → s.ofile np j = none
  | .exit fd => ∀ j, j < fd → s.ofile p j = none
  | .exiting f fd _ => fd < NOFILE ∧ s.ofile p fd = some f ∧ ∀ j, j < fd → s.ofile p j = none
  | _ => True

/-- The invariant of the references. A file without a type belongs to one call. -/
structure Refs (s : Sys) : Prop where
  ref : ∀ f, ((s.file f).ref : ℤ) = ∑ p ∈ Finset.range NPROC, weight s p f
  placed : ∀ p, Placed s p (s.doing p)
  busy : ∀ p, s.doing p ≠ .idle → s.state p = .RUNNING
  inside : ∀ p, s.state p = .RUNNING → p < NPROC
  bare : ∀ p, s.state p = .UNUSED ∨ s.state p = .ZOMBIE → ∀ fd, fd < NOFILE → s.ofile p fd = none
  child : ∀ p np, (s.doing p).child = some np → s.state np = .EMBRYO ∧ np < NPROC
  children : ∀ p q np, (s.doing p).child = some np → (s.doing q).child = some np → p = q
  raw : ∀ p, ∀ f ∈ (s.doing p).raw, (s.file f).ref = 1 ∧ (s.file f).type = none
  apart : ∀ p, (s.doing p).raw.Nodup

theorem Refs.nonneg (h : Refs s) (p f : ℕ) : 0 ≤ weight s p f := by
  have hplaced := h.placed p
  unfold weight Sys.held Sys.owing
  cases hd : s.doing p with
  | dup g =>
    rw [hd] at hplaced
    by_cases hg : g = f
    · subst hg
      have htwo : 2 ≤ s.named p g := hplaced
      simp only [Doing.held, Doing.owing, List.count_nil, List.count_singleton_self]
      omega
    · simp only [Doing.held, Doing.owing, List.count_nil, List.count_singleton, beq_iff_eq,
        if_neg hg]
      omega
  | exiting g fd r =>
    rw [hd] at hplaced
    obtain ⟨hfd, hof, _⟩ := hplaced
    by_cases hg : g = f
    · subst hg
      have hone := one_le_named hfd hof
      simp only [Doing.held, Doing.owing, List.count_nil, List.count_singleton_self]
      omega
    · simp only [Doing.held, Doing.owing, List.count_nil, List.count_singleton, beq_iff_eq,
        if_neg hg]
      omega
  | _ =>
    simp only [Doing.owing, List.count_nil]
    omega

theorem Refs.busy_inside (h : Refs s) (hd : s.doing p ≠ .idle) :
    p < NPROC := h.inside p (h.busy p hd)

/-- The file that a step takes or drops a reference of is the process's own. -/
theorem Refs.touched_pos (h : Refs s) (ht : s.touched p = some f) : 1 ≤ weight s p f := by
  have hplaced := h.placed p
  unfold Sys.touched at ht
  unfold weight Sys.held Sys.owing
  cases hd : s.doing p with
  | dup g =>
    rw [hd] at hplaced ht
    obtain rfl := Option.some.inj ht
    have htwo : 2 ≤ s.named p g := hplaced
    simp only [Doing.held, Doing.owing, List.count_nil, List.count_singleton_self]
    omega
  | closing r fs =>
    rw [hd] at ht
    cases r with
    | some r => cases ht
    | none =>
      cases fs with
      | nil => cases ht
      | cons g fs =>
        obtain rfl := Option.some.inj ht
        simp only [Doing.held, Doing.owing, List.count_nil, List.count_cons_self]
        omega
  | fork np i =>
    rw [hd] at ht
    obtain ⟨hi, hof⟩ := Option.ite_none_right_eq_some.mp ht
    have hone := one_le_named hi hof
    simp only [Doing.held, Doing.owing, List.count_nil]
    omega
  | exit fd =>
    rw [hd] at ht
    obtain ⟨hi, hof⟩ := Option.ite_none_right_eq_some.mp ht
    have hone := one_le_named hi hof
    simp only [Doing.held, Doing.owing, List.count_nil]
    omega
  | _ =>
    rw [hd] at ht
    cases ht

theorem Refs.raw_pos (h : Refs s) (hf : f ∈ (s.doing p).raw) : 1 ≤ weight s p f := by
  have hplaced := h.placed p
  unfold weight Sys.held Sys.owing
  cases hd : s.doing p with
  | typing g ip =>
    rw [hd] at hplaced hf
    obtain rfl := List.mem_singleton.mp hf
    obtain ⟨fd, hfd, hof⟩ := hplaced
    have hone := one_le_named hfd hof
    simp only [Doing.held, Doing.owing, List.count_nil]
    omega
  | opened g ip | pipe0 g =>
    rw [hd] at hf
    obtain rfl := List.mem_singleton.mp hf
    simp only [Doing.held, Doing.owing, List.count_nil, List.count_singleton_self]
    omega
  | pipe1 f0 f1 =>
    rw [hd] at hf
    have hone : 1 ≤ List.count f [f0, f1] := List.one_le_count_iff.mpr hf
    simp only [Doing.held, Doing.owing, List.count_nil]
    omega
  | _ =>
    rw [hd] at hf
    cases hf

theorem Refs.one_le (h : Refs s) (hp : p < NPROC) (hw : 1 ≤ weight s p f) : 1 ≤ (s.file f).ref := by
  have hsum : weight s p f ≤ ∑ q ∈ Finset.range NPROC, weight s q f :=
    Finset.single_le_sum (fun q _ => h.nonneg q f) (Finset.mem_range.mpr hp)
  rw [← h.ref f] at hsum
  omega

/-- Two processes with a part in a file have two references. -/
theorem Refs.two_le (h : Refs s) (hp : p < NPROC) (hq : q < NPROC) (hne : q ≠ p)
    (hw : 1 ≤ weight s p f) (hw' : 1 ≤ weight s q f) : 2 ≤ (s.file f).ref := by
  have href := h.ref f
  rw [← Finset.add_sum_erase _ _ (Finset.mem_range.mpr hp)] at href
  have hrest : weight s q f ≤ ∑ r ∈ (Finset.range NPROC).erase p, weight s r f :=
    Finset.single_le_sum (fun r _ => h.nonneg r f)
      (Finset.mem_erase.mpr ⟨hne, Finset.mem_range.mpr hq⟩)
  omega

theorem weight_congr (s s' : Sys) (hofile : s'.ofile q = s.ofile q)
    (hdoing : s'.doing q = s.doing q) (f : ℕ) : weight s' q f = weight s q f := by
  unfold weight Sys.named Sys.held Sys.owing
  rw [hofile, hdoing]

theorem Placed.congr {d : Doing} (h : Placed s q d) (hofile : s'.ofile q = s.ofile q)
    (hchild : ∀ np, d.child = some np → s'.ofile np = s.ofile np) : Placed s' q d := by
  cases d with
  | dup f =>
    show 2 ≤ s'.named q f
    unfold Sys.named
    rw [hofile]
    exact h
  | fork np i =>
    dsimp only [Placed] at h ⊢
    rw [hchild np rfl]
    exact h
  | forkSet np i f =>
    dsimp only [Placed] at h ⊢
    rw [hchild np rfl]
    exact h
  | typing _ _ | pipe3 _ _ _ | exit _ | exiting _ _ _ =>
    dsimp only [Placed] at h ⊢
    rw [hofile]
    exact h
  | _ => trivial

/-- A step of one process that leaves the others, and the states of all, alone. -/
structure Own (s s' : Sys) (p : ℕ) : Prop where
  state : s'.state = s.state
  ofile : ∀ q, q ≠ p → s'.ofile q = s.ofile q
  doing : ∀ q, q ≠ p → s'.doing q = s.doing q

/-- The files of which the step changes the references are the process's own, or free. -/
theorem Refs.own (h : Refs s) (hrun : s.state p = .RUNNING) (hown : Own s s' p)
    (hweight : ∀ f, weight s' p f - weight s p f = (s'.file f).ref - (s.file f).ref)
    (hplaced : Placed s' p (s'.doing p))
    (hchild : ∀ np, (s'.doing p).child = some np → (s.doing p).child = some np)
    (hfile : ∀ f, s'.file f ≠ s.file f → (s.file f).ref = 0 ∨ 1 ≤ weight s p f)
    (hraw : ∀ f ∈ (s'.doing p).raw, (s'.file f).ref = 1 ∧ (s'.file f).type = none)
    (hapart : (s'.doing p).raw.Nodup) : Refs s' := by
  have hp := h.inside p hrun
  refine ⟨fun f => ?_, fun q => ?_, fun q hq => ?_, fun q hq => ?_, fun q hq fd hfd => ?_,
    fun q np hq => ?_, fun q r np hq hr => ?_, fun q f hf => ?_, fun q => ?_⟩
  · rw [sum_change hp fun q hq => weight_congr s s' (hown.ofile q hq) (hown.doing q hq) f, ← h.ref
      f, hweight f]
    omega
  · by_cases hqp : q = p
    · rw [hqp]
      exact hplaced
    · rw [hown.doing q hqp]
      refine (h.placed q).congr (hown.ofile q hqp) fun np hnp => hown.ofile np ?_
      rintro rfl
      have hembryo := (h.child q np hnp).1
      rw [hrun] at hembryo
      cases hembryo
  · rw [hown.state]
    by_cases hqp : q = p
    · rw [hqp]
      exact hrun
    · rw [hown.doing q hqp] at hq
      exact h.busy q hq
  · rw [hown.state] at hq
    exact h.inside q hq
  · rw [hown.state] at hq
    have hqp : q ≠ p := by
      rintro rfl
      rw [hrun] at hq
      rcases hq with hq | hq
      · cases hq
      · cases hq
    rw [hown.ofile q hqp]
    exact h.bare q hq fd hfd
  · rw [hown.state]
    by_cases hqp : q = p
    · rw [hqp] at hq
      exact h.child p np (hchild np hq)
    · rw [hown.doing q hqp] at hq
      exact h.child q np hq
  · have hold : ∀ r, (s'.doing r).child = some np → (s.doing r).child = some np := by
      intro r hr
      by_cases hrp : r = p
      · rw [hrp] at hr ⊢
        exact hchild np hr
      · rwa [hown.doing r hrp] at hr
    exact h.children q r np (hold q hq) (hold r hr)
  · by_cases hqp : q = p
    · rw [hqp] at hf
      exact hraw f hf
    · rw [hown.doing q hqp] at hf
      obtain ⟨hone, htype⟩ := h.raw q f hf
      have hbusy : s.doing q ≠ .idle := by
        intro hidle
        rw [hidle] at hf
        cases hf
      have hsame : s'.file f = s.file f := by
        by_contra hne
        rcases hfile f hne with hzero | hpos
        · rw [hzero] at hone
          cases hone
        · have htwo := h.two_le hp (h.busy_inside hbusy) hqp hpos (h.raw_pos hf)
          omega
      rw [hsame]
      exact ⟨hone, htype⟩
  · by_cases hqp : q = p
    · rw [hqp]
      exact hapart
    · rw [hown.doing q hqp]
      exact h.apart q

theorem goTo_own (s : Sys) (p : ℕ) (d : Doing) : Own s (s.goTo p d) p :=
  ⟨rfl, fun _ _ => rfl, fun _ hq => Function.update_of_ne hq _ _⟩

theorem weight_goTo (s : Sys) (p f : ℕ) (d : Doing) :
    weight (s.goTo p d) p f = (s.named p f : ℤ) + d.held.count f - d.owing.count f := by
  have hd : (s.goTo p d).doing p = d := Function.update_self ..
  unfold weight Sys.held Sys.owing
  rw [hd]
  rfl

theorem weight_at {d : Doing} (hd : s.doing p = d) (f : ℕ) :
    weight s p f = (s.named p f : ℤ) + d.held.count f - d.owing.count f := by
  unfold weight Sys.held Sys.owing
  rw [hd]

/-- The process moves on and touches no file. -/
theorem Refs.move (h : Refs s) (hrun : s.state p = .RUNNING) {t : Sys} (ht : Own s t p)
    (htfile : t.file = s.file)
    {d : Doing} (hweight : ∀ f, (t.named p f : ℤ) + d.held.count f - d.owing.count f = weight s p f)
    (hplaced : Placed (t.goTo p d) p d)
    (hchild : ∀ np, d.child = some np → (s.doing p).child = some np)
    (hraw : d.raw.Sublist (s.doing p).raw) : Refs (t.goTo p d) := by
  have hd : (t.goTo p d).doing p = d := Function.update_self ..
  have hfile : (t.goTo p d).file = s.file := htfile
  refine h.own hrun ⟨ht.state, ht.ofile, fun q hq => ?_⟩ (fun f => ?_) (by rwa [hd]) (by rwa [hd])
    (fun f hf => ?_) (fun f hf => ?_) ?_
  · rw [(goTo_own t p d).doing q hq, ht.doing q hq]
  · rw [weight_goTo, hweight f, hfile]
    omega
  · rw [hfile] at hf
    exact absurd rfl hf
  · rw [hd] at hf
    rw [hfile]
    exact h.raw p f (hraw.subset hf)
  · rw [hd]
    exact hraw.nodup (h.apart p)

/-- The process takes or drops a reference of a file of its own, or of one that is free. -/
theorem Refs.change (h : Refs s) (hrun : s.state p = .RUNNING) {t : Sys} (ht : Own s t p)
    (hofile : t.ofile = s.ofile) {x : File} (hfile : t.file = Function.update s.file f x)
    (hpart : (s.file f).ref = 0 ∨ 1 ≤ weight s p f) {d : Doing}
    (hweight : ∀ g, (s.named p g : ℤ) + d.held.count g - d.owing.count g =
      weight s p g + if g = f then (x.ref : ℤ) - (s.file f).ref else 0)
    (hplaced : Placed (t.goTo p d) p d)
    (hchild : ∀ np, d.child = some np → (s.doing p).child = some np)
    (hraw : ∀ g ∈ d.raw, (t.file g).ref = 1 ∧ (t.file g).type = none) (hapart : d.raw.Nodup) :
    Refs (t.goTo p d) := by
  have hd : (t.goTo p d).doing p = d := Function.update_self ..
  have hnamed : ∀ g, t.named p g = s.named p g := by
    intro g
    unfold Sys.named
    rw [hofile]
  refine h.own hrun ⟨ht.state, ht.ofile, fun q hq => ?_⟩ (fun g => ?_) (by rwa [hd]) (by rwa [hd])
    (fun g hg => ?_) (by rwa [hd]) (by rwa [hd])
  · rw [(goTo_own t p d).doing q hq, ht.doing q hq]
  · rw [weight_goTo, hnamed, hweight g]
    show _ = ((t.file g).ref : ℤ) - _
    rw [hfile]
    by_cases hg : g = f
    · subst hg
      rw [if_pos rfl, Function.update_self]
      omega
    · rw [if_neg hg, Function.update_of_ne hg]
      omega
  · by_cases hgf : g = f
    · rw [hgf]
      exact hpart
    · refine absurd ?_ hg
      show t.file g = s.file g
      rw [hfile, Function.update_of_ne hgf]

theorem fdalloc_some (h : s.fdalloc p = some fd) : fd < NOFILE ∧ s.ofile p fd = none := by
  refine ⟨List.mem_range.mp (List.mem_of_find?_eq_some h), ?_⟩
  simpa using List.find?_some h

theorem setFd_own (s : Sys) (p fd : ℕ) (x : Option ℕ) : Own s (s.setFd p fd x) p :=
  ⟨rfl, fun _ hq => Function.update_of_ne hq _ _, fun _ _ => rfl⟩

theorem setFd_self (s : Sys) (p fd : ℕ) (x : Option ℕ) : (s.setFd p fd x).ofile p fd = x := by
  show Function.update s.ofile p _ p fd = x
  rw [Function.update_self, Function.update_self]

theorem setFd_other (s : Sys) (p : ℕ) {j : ℕ} (hj : j ≠ fd) (x : Option ℕ) :
    (s.setFd p fd x).ofile p j = s.ofile p j := by
  show Function.update s.ofile p _ p j = _
  rw [Function.update_self, Function.update_of_ne hj]

theorem same_own (s t : Sys) (hstate : t.state = s.state) (hofile : t.ofile = s.ofile)
    (hdoing : t.doing = s.doing) (p : ℕ) : Own s t p :=
  ⟨hstate, fun q _ => congrFun hofile q, fun q _ => congrFun hdoing q⟩

theorem setFile_own (s : Sys) (f : ℕ) (x : File) (p : ℕ) : Own s (s.setFile f x) p :=
  same_own s (s.setFile f x) rfl rfl rfl p

/-- The process moves on and does nothing else. -/
theorem Refs.stay {d d' : Doing} (h : Refs s) (hrun : s.state p = .RUNNING) (hd : s.doing p = d)
    (hcount : ∀ g, (d'.held.count g : ℤ) - d'.owing.count g = d.held.count g - d.owing.count g)
    (hplaced : Placed (s.goTo p d') p d') (hchild : ∀ np, d'.child = some np → d.child = some np)
    (hraw : d'.raw = []) : Refs (s.goTo p d') := by
  refine h.move hrun (same_own s s rfl rfl rfl p) rfl (fun g => ?_) hplaced (by rwa [hd])
    (hraw ▸ List.nil_sublist _)
  have hg := hcount g
  rw [weight_at hd]
  omega

/-- The process lets go of an inode or of an end of a pipe. -/
theorem Refs.released {d d' : Doing} (h : Refs s) (hrun : s.state p = .RUNNING) (hd : s.doing p = d)
    (r : Use) (hsame : d'.held = d.held ∧ d'.owing = d.owing) (hplaced : Placed s p d')
    (hchild : d'.child = none) (hraw : d'.raw = []) : Refs ((s.release r).goTo p d') := by
  refine h.move hrun (same_own s (s.release r) rfl rfl rfl p) rfl (fun g => ?_)
    (hplaced.congr rfl fun _ _ => rfl) (fun np hc => ?_) (hraw ▸ List.nil_sublist _)
  · rw [weight_at hd, hsame.1, hsame.2]
    rfl
  · rw [hchild] at hc
    cases hc

/-- The process fills a free descriptor with a file that it held, or that it owes for. -/
theorem Refs.fill {d d' : Doing} (h : Refs s) (hrun : s.state p = .RUNNING) (hd : s.doing p = d)
    (hfd : s.fdalloc p = some fd) (hfiles : (f :: d'.held ++ d.owing).Perm (d.held ++ d'.owing))
    (hplaced : Placed ((s.setFd p fd (some f)).goTo p d') p d') (hchild : d'.child = none)
    (hraw : d'.raw.Sublist d.raw) : Refs ((s.setFd p fd (some f)).goTo p d') := by
  obtain ⟨hlt, hnone⟩ := fdalloc_some hfd
  refine h.move hrun (setFd_own s p fd _) rfl (fun g => ?_) hplaced (fun np hc => ?_) (hd ▸ hraw)
  · have hcount := hfiles.count_eq g
    simp only [List.cons_append, List.count_cons, List.count_append, beq_iff_eq] at hcount
    rw [named_setFd s p g hlt, weight_at hd, hnone, if_neg (Option.some_ne_none g).symm]
    simp only [Option.some.injEq]
    split at hcount
    · rename_i hg
      rw [if_pos hg]
      omega
    · rename_i hg
      rw [if_neg hg]
      omega
  · rw [hchild] at hc
    cases hc

/-- The process clears a descriptor, and holds the file or no longer owes for it. -/
theorem Refs.clear {d d' : Doing} (h : Refs s) (hrun : s.state p = .RUNNING) (hd : s.doing p = d)
    (hlt : fd < NOFILE) (hof : s.ofile p fd = some f)
    (hfiles : (d'.held ++ d.owing).Perm (f :: d.held ++ d'.owing))
    (hplaced : Placed ((s.setFd p fd none).goTo p d') p d') (hchild : d'.child = none)
    (hraw : d'.raw = []) : Refs ((s.setFd p fd none).goTo p d') := by
  refine h.move hrun (setFd_own s p fd none) rfl (fun g => ?_) hplaced (fun np hc => ?_)
    (hraw ▸ List.nil_sublist _)
  · have hcount := hfiles.count_eq g
    simp only [List.cons_append, List.count_cons, List.count_append, beq_iff_eq] at hcount
    rw [named_setFd s p g hlt, weight_at hd, hof, if_neg (Option.some_ne_none g).symm]
    simp only [Option.some.injEq]
    split at hcount
    · rename_i hg
      rw [if_pos hg]
      omega
    · rename_i hg
      rw [if_neg hg]
      omega
  · rw [hchild] at hc
    cases hc

theorem Refs.go_opened {ip : ℕ} (h : Refs s) (hrun : s.state p = .RUNNING)
    (hd : s.doing p = .opened f ip) {t : Sys} {k : Option ℕ}
    (hs : s.go p k (.opened f ip) = some t) : Refs t := by
  dsimp only [Sys.go] at hs
  split at hs
  · rename_i fd hfd
    obtain rfl := Option.some.inj hs
    exact h.fill hrun hd hfd (List.Perm.refl _) ⟨fd, (fdalloc_some hfd).1, setFd_self s p fd _⟩ rfl
      (List.Sublist.refl _)
  · obtain rfl := Option.some.inj hs
    exact h.stay hrun hd (fun g => rfl) trivial (fun _ hc => by cases hc) rfl

theorem Refs.go_typing {ip : ℕ} (h : Refs s) (hrun : s.state p = .RUNNING)
    (hd : s.doing p = .typing f ip) : Refs ((s.setType f (.inode ip)).goTo p .idle) := by
  have hpart : 1 ≤ weight s p f := by
    refine h.raw_pos ?_
    rw [hd]
    exact List.mem_singleton_self f
  refine h.change hrun (same_own s (s.setType f (.inode ip)) rfl rfl rfl p) rfl rfl (Or.inr hpart)
    (fun g => ?_)
    trivial (fun _ hc => ?_) (fun g hg => ?_) List.nodup_nil
  · rw [weight_at hd]
    generalize s.named p g = n
    simp [Doing.held, Doing.owing]
  · cases hc
  · cases hg

theorem filedup_some {t : Sys} (h : s.filedup f = some t) :
    1 ≤ (s.file f).ref ∧ t = s.setFile f { s.file f with ref := (s.file f).ref + 1 } := by
  unfold Sys.filedup at h
  split at h
  · cases h
  · rename_i hpos
    exact ⟨Nat.le_of_not_lt hpos, (Option.some.inj h).symm⟩

/-- A call takes a reference that it holds or no longer owes for. -/
theorem Refs.take (h : Refs s) (hrun : s.state p = .RUNNING) (htouched : s.touched p = some f)
    {t : Sys} (ht : s.filedup f = some t) {d : Doing}
    (hfiles : (d.held ++ (s.doing p).owing).Perm (f :: (s.doing p).held ++ d.owing))
    (hplaced : Placed (t.goTo p d) p d)
    (hchild : ∀ np, d.child = some np → (s.doing p).child = some np)
    (hraw : d.raw = []) : Refs (t.goTo p d) := by
  obtain ⟨_, rfl⟩ := filedup_some ht
  refine h.change hrun (setFile_own s f _ p) rfl rfl (Or.inr (h.touched_pos htouched))
    (fun g => ?_) hplaced hchild (fun g hg => ?_) (hraw ▸ List.nodup_nil)
  · have hcount := hfiles.count_eq g
    simp only [List.cons_append, List.count_cons, List.count_append, beq_iff_eq] at hcount
    rw [weight_at rfl]
    by_cases hg : f = g
    · rw [if_pos hg] at hcount
      rw [if_pos hg.symm]
      push_cast
      omega
    · rw [if_neg hg] at hcount
      rw [if_neg (Ne.symm hg)]
      omega
  · rw [hraw] at hg
    cases hg

theorem Refs.go_dup (h : Refs s) (hrun : s.state p = .RUNNING) (hd : s.doing p = .dup f) {t : Sys}
    (ht : s.filedup f = some t) : Refs (t.goTo p .idle) := by
  refine h.take hrun ?_ ht ?_ trivial (fun _ hc => by cases hc) rfl
  · unfold Sys.touched
    rw [hd]
  · rw [hd]
    exact List.Perm.refl _

/-- The file that filealloc takes was free. -/
theorem filealloc_some {t : Sys} (h : s.filealloc = some (t, f)) : f < NFILE ∧ (s.file f).ref = 0 ∧
    t = { s.setFile f { s.file f with ref := 1, life := s.lives + 1 } with lives := s.lives +
      1 } := by
  obtain ⟨g, hg, he⟩ := Option.map_eq_some_iff.mp h
  obtain ⟨rfl, rfl⟩ := Prod.mk.inj he
  refine ⟨List.mem_range.mp (List.mem_of_find?_eq_some hg), ?_, rfl⟩
  simpa using List.find?_some hg

/-- A call takes a free file, which has no type. -/
theorem Refs.alloc (h : Refs s) (hrun : s.state p = .RUNNING) {t : Sys}
    (ht : s.filealloc = some (t, f)) (htype : (s.file f).type = none) {d : Doing}
    (hheld : d.held.Perm (f :: (s.doing p).held) ∧ d.owing = (s.doing p).owing)
    (hplaced : Placed (t.goTo p d) p d) (hchild : d.child = none)
    (hraw : d.raw.Perm (f :: (s.doing p).raw)) : Refs (t.goTo p d) := by
  obtain ⟨_, hzero, rfl⟩ := filealloc_some ht
  have hfresh : f ∉ (s.doing p).raw := by
    intro hf
    have hone := (h.raw p f hf).1
    rw [hzero] at hone
    cases hone
  have hown : Own s
      { s.setFile f { s.file f with ref := 1, life := s.lives + 1 } with lives := s.lives + 1 } p :=
    ⟨rfl, fun _ _ => rfl, fun _ _ => rfl⟩
  refine h.change hrun hown rfl rfl (Or.inl hzero) (fun g => ?_) hplaced (fun np hc => ?_)
    (fun g hg => ?_) (hraw.nodup_iff.mpr (List.nodup_cons.mpr ⟨hfresh, h.apart p⟩))
  · rw [weight_at rfl, hheld.1.count_eq, hheld.2, hzero, List.count_cons]
    simp only [beq_iff_eq]
    by_cases hg : f = g
    · rw [if_pos hg, if_pos hg.symm]
      push_cast
      omega
    · rw [if_neg hg, if_neg (Ne.symm hg)]
      push_cast
      omega
  · rw [hchild] at hc
    cases hc
  · show (Function.update s.file f _ g).ref = 1 ∧ (Function.update s.file f _ g).type = none
    by_cases hgf : g = f
    · rw [hgf, Function.update_self]
      exact ⟨rfl, htype⟩
    · rw [Function.update_of_ne hgf]
      have hmem := hraw.subset hg
      exact h.raw p g ((List.mem_cons.mp hmem).resolve_left hgf)

/-- fileclose drops one reference. -/
theorem fileclose_some {t : Sys} {r : Option Use} (h : s.fileclose f = some (t, r)) :
    1 ≤ (s.file f).ref ∧
    ∃ x : File, t = s.setFile f x ∧ x.ref = (s.file f).ref - 1 ∧ x.life = (s.file f).life ∧
      (x.ref > 0 ∧ x.type = (s.file f).type ∧ r = none ∨
        x.ref = 0 ∧ x.type = none ∧ r = (s.file f).type.map fun t => ((s.file f).life, t)) := by
  unfold Sys.fileclose at h
  split at h
  · cases h
  · rename_i hpos
    refine ⟨Nat.le_of_not_lt hpos, ?_⟩
    split at h
    · rename_i hmore
      obtain ⟨rfl, rfl⟩ := Prod.mk.inj (Option.some.inj h)
      exact ⟨_, rfl, rfl, rfl, Or.inl ⟨hmore, rfl, rfl⟩⟩
    · rename_i hlast
      obtain ⟨rfl, rfl⟩ := Prod.mk.inj (Option.some.inj h)
      refine ⟨_, rfl, ?_, rfl, Or.inr ⟨rfl, rfl, rfl⟩⟩
      dsimp only
      omega

/-- A call drops a reference that it held or owes for from now on. -/
theorem Refs.drop (h : Refs s) (hrun : s.state p = .RUNNING) (htouched : s.touched p = some f)
    {t : Sys}
    {r : Option Use} (ht : s.fileclose f = some (t, r)) {d : Doing}
    (hfiles : (f :: d.held ++ (s.doing p).owing).Perm ((s.doing p).held ++ d.owing))
    (hplaced : Placed (t.goTo p d) p d) (hplain : d.child = none ∧ d.raw = []) :
    Refs (t.goTo p d) := by
  obtain ⟨hpos, x, rfl, href, _⟩ := fileclose_some ht
  refine h.change hrun (setFile_own s f x p) rfl rfl (Or.inr (h.touched_pos htouched))
    (fun g => ?_) hplaced (fun np hc => ?_) (fun g hg => ?_) (hplain.2 ▸ List.nodup_nil)
  · have hcount := hfiles.count_eq g
    simp only [List.cons_append, List.count_cons, List.count_append, beq_iff_eq] at hcount
    rw [weight_at rfl, href]
    by_cases hg : f = g
    · rw [if_pos hg] at hcount
      rw [if_pos hg.symm]
      omega
    · rw [if_neg hg] at hcount
      rw [if_neg (Ne.symm hg)]
      omega
  · rw [hplain.1] at hc
    cases hc
  · rw [hplain.2] at hg
    cases hg

theorem setType_ref (s : Sys) (f g : ℕ) (t : Target) :
    ((s.setType f t).file g).ref = (s.file g).ref := by
  show (Function.update s.file f _ g).ref = _
  by_cases hg : g = f
  · rw [hg, Function.update_self]
  · rw [Function.update_of_ne hg]

theorem setType_other (s : Sys) {f g : ℕ} (hg : g ≠ f) (t : Target) :
    (s.setType f t).file g = s.file g :=
  Function.update_of_ne hg ..

/-- The ends of a new pipe get their types. -/
theorem Refs.go_pipe1 {f0 f1 page : ℕ} (h : Refs s) (hrun : s.state p = .RUNNING)
    (hd : s.doing p = .pipe1 f0 f1) :
    Refs (((s.setType f0 (.pipe page false)).setType f1 (.pipe page true)).goTo p
      (.pipe2 f0 f1)) := by
  have hpart : ∀ f, f = f0 ∨ f = f1 → 1 ≤ weight s p f := by
    intro f hf
    refine h.raw_pos ?_
    rw [hd]
    rcases hf with rfl | rfl
    · exact List.mem_cons_self
    · exact List.mem_cons_of_mem _ (List.mem_singleton_self _)
  have hdoing : (((s.setType f0 (.pipe page false)).setType f1 (.pipe page true)).goTo p
      (.pipe2 f0 f1)).doing p = .pipe2 f0 f1 := Function.update_self ..
  refine h.own hrun ⟨rfl, fun _ _ => rfl, fun q hq => Function.update_of_ne hq ..⟩ (fun f => ?_)
    (by rw [hdoing]; trivial) (fun np hc => ?_) (fun f hf => Or.inr (hpart f ?_))
    (fun f hf => ?_) ?_
  · have hweight : weight (((s.setType f0 (.pipe page false)).setType f1 (.pipe page true)).goTo p
        (.pipe2 f0 f1)) p f = weight s p f := (weight_goTo ..).trans (weight_at hd f).symm
    have href := (setType_ref (s.setType f0 (.pipe page false)) f1 f (.pipe page true)).trans
        (setType_ref ..)
    show _ = (((((s.setType f0 (.pipe page false)).setType f1 (.pipe page true)).file f).ref : ℕ) :
      ℤ) - _
    rw [hweight, href]
    omega
  · rw [hdoing] at hc
    cases hc
  · by_contra hne
    obtain ⟨h0, h1⟩ := not_or.mp hne
    exact hf ((setType_other _ h1 _).trans (setType_other s h0 _))
  · rw [hdoing] at hf
    cases hf
  · rw [hdoing]
    exact List.nodup_nil

/-- The states of processes change, and one process moves on. -/
theorem Refs.restate (h : Refs s) {d : Doing} {n : ℕ} {st : ProcState}
    (hplain : d.held = (s.doing p).held ∧
      d.owing = (s.doing p).owing ∧ d.raw = [])
    (hplaced : Placed s p d) (hbusy : ∀ q, (s.goTo p d).doing q ≠ .idle →
      Function.update s.state n st q = .RUNNING)
    (hn : st = .RUNNING → n < NPROC)
    (hbare : st = .UNUSED ∨ st = .ZOMBIE → ∀ fd, fd < NOFILE → s.ofile n fd = none)
    (hchild : ∀ q np, ((s.goTo p d).doing q).child = some np →
      Function.update s.state n st np = .EMBRYO ∧ np < NPROC)
    (hchildren : ∀ q r np, ((s.goTo p d).doing q).child = some np → ((s.goTo p d).doing r).child =
      some np → q = r) :
    Refs { s.goTo p d with state := Function.update s.state n st } := by
  have hself : (s.goTo p d).doing p = d := Function.update_self ..
  have hother : ∀ q, q ≠ p → (s.goTo p d).doing q = s.doing q := (goTo_own s p d).doing
  have hweight : ∀ q f, weight { s.goTo p d with state := Function.update s.state n st } q f =
      weight s q f := by
    intro q f
    by_cases hq : q = p
    · subst hq
      refine (weight_at hself f).trans ?_
      rw [weight_at rfl, hplain.1, hplain.2.1]
      rfl
    · exact weight_congr s { s.goTo p d with state := Function.update s.state n st } rfl
        (hother q hq) f
  refine ⟨fun f => ?_, fun q => ?_, hbusy, fun q hq => ?_, fun q hq => ?_, hchild, hchildren,
    fun q f hf => ?_, fun q => ?_⟩
  · rw [Finset.sum_congr rfl fun q _ => hweight q f]
    exact h.ref f
  · by_cases hq : q = p
    · subst hq
      show Placed _ q ((s.goTo q d).doing q)
      rw [hself]
      exact hplaced.congr rfl fun _ _ => rfl
    · show Placed _ q ((s.goTo p d).doing q)
      rw [hother q hq]
      exact (h.placed q).congr rfl fun _ _ => rfl
  · change Function.update s.state n st q = _ at hq
    by_cases hqn : q = n
    · rw [hqn, Function.update_self] at hq
      rw [hqn]
      exact hn hq
    · rw [Function.update_of_ne hqn] at hq
      exact h.inside q hq
  · change Function.update s.state n st q = _ ∨ Function.update s.state n st q = _ at hq
    by_cases hqn : q = n
    · rw [hqn, Function.update_self] at hq
      rw [hqn]
      exact hbare hq
    · rw [Function.update_of_ne hqn] at hq
      exact h.bare q hq
  · change f ∈ ((s.goTo p d).doing q).raw at hf
    by_cases hq : q = p
    · rw [hq, hself, hplain.2.2] at hf
      cases hf
    · rw [hother q hq] at hf
      exact h.raw q f hf
  · change ((s.goTo p d).doing q).raw.Nodup
    by_cases hq : q = p
    · rw [hq, hself, hplain.2.2]
      exact List.nodup_nil
    · rw [hother q hq]
      exact h.apart q

/-- fork passes the reference that it took to the child's descriptor. -/
theorem Refs.go_forkSet {np i : ℕ} (h : Refs s) (hrun : s.state p = .RUNNING)
    (hd : s.doing p = .forkSet np i f) :
    Refs ((s.setFd np i (some f)).goTo p (.fork np (i + 1))) := by
  have hp := h.inside p hrun
  obtain ⟨hembryo, hnp⟩ := h.child p np (by rw [hd]; rfl)
  have hplaced := h.placed p
  rw [hd] at hplaced
  obtain ⟨hi, hclear⟩ := hplaced
  have hne : np ≠ p := by
    rintro rfl
    rw [hrun] at hembryo
    cases hembryo
  have hidle : s.doing np = .idle := by
    by_contra hbusy
    rw [h.busy np hbusy] at hembryo
    cases hembryo
  have hself : ((s.setFd np i (some f)).goTo p (.fork np (i + 1))).doing p = .fork np (i + 1) :=
    Function.update_self ..
  have hother : ∀ q, q ≠ p → ((s.setFd np i (some f)).goTo p (.fork np (i + 1))).doing q =
      s.doing q :=
    fun q hq => Function.update_of_ne hq _ _
  have hofile : ∀ q, q ≠ np → ((s.setFd np i (some f)).goTo p (.fork np (i + 1))).ofile q =
      s.ofile q :=
    fun q hq => Function.update_of_ne hq _ _
  refine ⟨fun g => ?_, fun q => ?_, fun q hq => ?_, h.inside, fun q hq fd hfd => ?_,
    fun q r hq => ?_, fun q r n hq hr => ?_, fun q g hg => ?_, fun q => ?_⟩
  · have hchild : weight ((s.setFd np i (some f)).goTo p (.fork np (i + 1))) np g =
        weight s np g + if f = g then 1 else 0 := by
      rw [weight_at (hother np hne), hidle, weight_at hidle]
      have hnamed := named_setFd s np g hi (some f)
      rw [hclear i le_rfl hi] at hnamed
      show ((s.setFd np i (some f)).named np g : ℤ) + _ - _ = _
      rw [hnamed]
      generalize s.named np g = n
      simp [Doing.held, Doing.owing]
    have hparent : weight (s.goTo p (.fork np (i + 1))) p g = weight s p g - if f = g then 1 else 0 := by
      rw [weight_goTo, weight_at hd]
      generalize s.named p g = n
      simp [Doing.held, Doing.owing, List.count_singleton]
    have hfirst : ∑ q ∈ Finset.range NPROC, weight (s.goTo p (.fork np (i + 1))) q g =
        ∑ q ∈ Finset.range NPROC,
        weight s q g + (weight (s.goTo p (.fork np (i + 1))) p g - weight s p g) :=
      sum_change hp fun q hq => weight_congr s (s.goTo p _) rfl ((goTo_own s p _).doing q hq) g
    have hnp' : weight (s.goTo p (.fork np (i + 1))) np g = weight s np g :=
      weight_congr s (s.goTo p _) rfl ((goTo_own s p _).doing np hne) g
    have hsecond : ∑ q ∈ Finset.range NPROC,
        weight ((s.setFd np i (some f)).goTo p (.fork np (i + 1))) q g =
        ∑ q ∈ Finset.range NPROC, weight (s.goTo p (.fork np (i + 1))) q g +
          (weight ((s.setFd np i (some f)).goTo p (.fork np (i + 1))) np g -
            weight (s.goTo p (.fork np (i + 1))) np g) := by
      exact sum_change hnp fun q hq => weight_congr (s.goTo p (.fork np (i + 1)))
        ((s.setFd np i (some f)).goTo p (.fork np (i + 1))) (hofile q hq) rfl g
    rw [hsecond, hfirst, hchild, hparent, hnp', ← h.ref g]
    show ((s.file g).ref : ℤ) = _
    omega
  · by_cases hqp : q = p
    · rw [hqp, hself]
      intro j hj hlt
      rw [show ((s.setFd np i (some f)).goTo p (.fork np (i + 1))).ofile np j = s.ofile np j from
        setFd_other s np (Nat.ne_of_gt hj) _]
      exact hclear j (Nat.le_of_succ_le hj) hlt
    · rw [hother q hqp]
      by_cases hqn : q = np
      · rw [hqn, hidle]
        trivial
      · refine (h.placed q).congr (hofile q hqn) fun n hn => hofile n ?_
        rintro rfl
        exact hqp (h.children q p n hn (by rw [hd]; rfl))
  · by_cases hqp : q = p
    · rw [hqp]
      exact hrun
    · rw [hother q hqp] at hq
      exact h.busy q hq
  · have hqn : q ≠ np := by
      rintro rfl
      change s.state q = _ ∨ s.state q = _ at hq
      rw [hembryo] at hq
      rcases hq with hq | hq
      · cases hq
      · cases hq
    rw [hofile q hqn]
    exact h.bare q hq fd hfd
  · by_cases hqp : q = p
    · rw [hqp, hself] at hq
      obtain rfl := Option.some.inj hq
      exact ⟨hembryo, hnp⟩
    · rw [hother q hqp] at hq
      exact h.child q r hq
  · have hold : ∀ r, (((s.setFd np i (some f)).goTo p (.fork np (i + 1))).doing r).child = some n →
        (s.doing r).child = some n := by
      intro r hr
      by_cases hrp : r = p
      · rw [hrp, hself] at hr
        rw [hrp, hd]
        exact hr
      · rwa [hother r hrp] at hr
    exact h.children q r n (hold q hq) (hold r hr)
  · by_cases hqp : q = p
    · rw [hqp, hself] at hg
      cases hg
    · rw [hother q hqp] at hg
      exact h.raw q g hg
  · by_cases hqp : q = p
    · rw [hqp, hself]
      exact List.nodup_nil
    · rw [hother q hqp]
      exact h.apart q

theorem Refs.go_pipe0 {f0 : ℕ} {k : Option ℕ} (h : Refs s)
    (hfree : ∀ f, (s.file f).ref = 0 → (s.file f).type = none) (hrun : s.state p = .RUNNING)
    (hd : s.doing p = .pipe0 f0) (hs : s.go p k (.pipe0 f0) = some s') : Refs s' := by
  dsimp only [Sys.go] at hs
  split at hs
  · rename_i t f1 ht
    obtain rfl := Option.some.inj hs
    refine h.alloc hrun ht (hfree f1 (filealloc_some ht).2.1) ?_ trivial rfl ?_
    · rw [hd]
      exact ⟨List.Perm.swap f1 f0 [], rfl⟩
    · rw [hd]
      exact List.Perm.swap f1 f0 []
  · obtain rfl := Option.some.inj hs
    exact h.stay hrun hd (fun g => rfl) trivial (fun _ hc => by cases hc) rfl

theorem Refs.go_pipe2 {f0 f1 : ℕ} {k : Option ℕ} (h : Refs s) (hrun : s.state p = .RUNNING)
    (hd : s.doing p = .pipe2 f0 f1) (hs : s.go p k (.pipe2 f0 f1) = some s') : Refs s' := by
  dsimp only [Sys.go] at hs
  split at hs
  · rename_i fd hfd
    obtain rfl := Option.some.inj hs
    exact h.fill hrun hd hfd (List.Perm.refl _) ⟨(fdalloc_some hfd).1, setFd_self s p fd _⟩ rfl
      (List.nil_sublist _)
  · obtain rfl := Option.some.inj hs
    exact h.stay hrun hd (fun g => rfl) trivial (fun _ hc => by cases hc) rfl

theorem Refs.go_pipe3 {f0 f1 fd0 : ℕ} {k : Option ℕ} (h : Refs s) (hrun : s.state p = .RUNNING)
    (hd : s.doing p = .pipe3 f0 f1 fd0) (hs : s.go p k (.pipe3 f0 f1 fd0) = some s') : Refs s' := by
  have hplaced := h.placed p
  rw [hd] at hplaced
  obtain ⟨hlt0, hfd0⟩ := hplaced
  dsimp only [Sys.go] at hs
  split at hs
  · rename_i fd hfd
    obtain rfl := Option.some.inj hs
    exact h.fill hrun hd hfd (List.Perm.refl _) trivial rfl (List.nil_sublist _)
  · obtain rfl := Option.some.inj hs
    exact h.clear hrun hd hlt0 hfd0 (List.Perm.refl _) trivial rfl rfl

theorem Refs.go_closing {r : Option Use} {fs : List ℕ} {k : Option ℕ} (h : Refs s)
    (hrun : s.state p = .RUNNING) (hd : s.doing p = .closing r fs)
    (hs : s.go p k (.closing r fs) = some s') : Refs s' := by
  cases r with
  | some r =>
    obtain rfl := Option.some.inj hs
    exact h.released hrun hd r ⟨rfl, rfl⟩ trivial rfl rfl
  | none =>
    cases fs with
    | nil =>
      obtain rfl := Option.some.inj hs
      exact h.stay hrun hd (fun g => rfl) trivial (fun _ hc => by cases hc) rfl
    | cons f fs =>
      obtain ⟨⟨t, r⟩, ht, rfl⟩ := Option.map_eq_some_iff.mp hs
      refine h.drop hrun ?_ ht ?_ trivial ⟨rfl, rfl⟩
      · unfold Sys.touched
        rw [hd]
      · rw [hd]
        exact List.Perm.refl _

/-- fork takes a reference for the child, which is not in its descriptor yet. -/
theorem Refs.go_forkDup {np i : ℕ} (h : Refs s) (hrun : s.state p = .RUNNING)
    (hd : s.doing p = .fork np i) (hi : i < NOFILE) (hof : s.ofile p i = some f) {t : Sys}
    (ht : s.filedup f = some t) : Refs (t.goTo p (.forkSet np i f)) := by
  have hplaced := h.placed p
  rw [hd] at hplaced
  obtain ⟨_, rfl⟩ := filedup_some ht
  refine h.take hrun ?_ ht ?_ ⟨hi, hplaced⟩ (fun _ hc => ?_) rfl
  · unfold Sys.touched
    rw [hd]
    dsimp only
    rw [if_pos hi, hof]
  · rw [hd]
    exact List.Perm.refl _
  · rw [hd]
    exact hc

/-- fork lets the child run. -/
theorem Refs.go_forkDone {np i : ℕ} (h : Refs s) (hrun : s.state p = .RUNNING)
    (hd : s.doing p = .fork np i) :
    Refs { s.goTo p .idle with state := Function.update s.state np .RUNNING } := by
  have hmine : (s.doing p).child = some np := by
    rw [hd]
    rfl
  obtain ⟨hembryo, hnp⟩ := h.child p np hmine
  have hold : ∀ q n, ((s.goTo p .idle).doing q).child = some n → q ≠ p ∧
      (s.doing q).child = some n := by
    intro q n hq
    have hqp : q ≠ p := by
      rintro rfl
      rw [show (s.goTo q .idle).doing q = .idle from Function.update_self ..] at hq
      cases hq
    rw [(goTo_own s p .idle).doing q hqp] at hq
    exact ⟨hqp, hq⟩
  refine h.restate ?_ trivial (fun q hq => ?_) (fun _ => hnp) (fun hst => ?_) (fun q n hq => ?_)
    fun q r n hq hr => h.children q r n (hold q n hq).2 (hold r n hr).2
  · rw [hd]
    exact ⟨rfl, rfl, rfl⟩
  · by_cases hqn : q = np
    · rw [hqn, Function.update_self]
    · rw [Function.update_of_ne hqn]
      by_cases hqp : q = p
      · rw [hqp]
        exact hrun
      · rw [(goTo_own s p .idle).doing q hqp] at hq
        exact h.busy q hq
  · rcases hst with hst | hst
    · cases hst
    · cases hst
  · obtain ⟨hqp, hq⟩ := hold q n hq
    have hne : n ≠ np := by
      rintro rfl
      exact hqp (h.children q p n hq hmine)
    rw [Function.update_of_ne hne]
    exact h.child q n hq

theorem Refs.go_fork {np i : ℕ} {k : Option ℕ} (h : Refs s) (hrun : s.state p = .RUNNING)
    (hd : s.doing p = .fork np i) (hs : s.go p k (.fork np i) = some s') : Refs s' := by
  have hplaced := h.placed p
  rw [hd] at hplaced
  have hclear : ∀ j, i ≤ j → j < NOFILE → s.ofile np j = none := hplaced
  dsimp only [Sys.go] at hs
  split at hs
  · rename_i hi
    split at hs
    · rename_i f hof
      obtain ⟨t, ht, rfl⟩ := Option.map_eq_some_iff.mp hs
      exact h.go_forkDup hrun hd hi hof ht
    · obtain rfl := Option.some.inj hs
      exact h.stay hrun hd (fun g => rfl) (fun j hj => hclear j (Nat.le_of_succ_le hj))
        (fun _ hc => hc) rfl
  · obtain rfl := Option.some.inj hs
    exact h.go_forkDone hrun hd

/-- exit drops the reference of a descriptor, which still names the file. -/
theorem Refs.go_exitClose (h : Refs s) (hrun : s.state p = .RUNNING) (hd : s.doing p = .exit fd)
    (hfd : fd < NOFILE) (hof : s.ofile p fd = some f) {t : Sys} {r : Option Use}
    (ht : s.fileclose f = some (t, r)) : Refs (t.goTo p (.exiting f fd r)) := by
  have hplaced := h.placed p
  rw [hd] at hplaced
  obtain ⟨_, x, rfl, _⟩ := fileclose_some ht
  refine h.drop hrun ?_ ht ?_ ⟨hfd, hof, hplaced⟩ ⟨rfl, rfl⟩
  · unfold Sys.touched
    rw [hd]
    dsimp only
    rw [if_pos hfd, hof]
  · rw [hd]
    exact List.Perm.refl _

/-- exit has cleared every descriptor, and the process is a zombie. -/
theorem Refs.go_exitDone (h : Refs s) (hrun : s.state p = .RUNNING) (hd : s.doing p = .exit fd)
    (hfd : ¬ fd < NOFILE) :
    Refs { s.goTo p .idle with state := Function.update s.state p .ZOMBIE } := by
  have hplaced := h.placed p
  rw [hd] at hplaced
  have hother : ∀ q, q ≠ p → (s.goTo p .idle).doing q = s.doing q := (goTo_own s p .idle).doing
  have hself : (s.goTo p .idle).doing p = .idle := Function.update_self ..
  have hold : ∀ q n, ((s.goTo p .idle).doing q).child = some n → (s.doing q).child = some n := by
    intro q n hq
    by_cases hqp : q = p
    · rw [hqp, hself] at hq
      cases hq
    · rwa [hother q hqp] at hq
  refine h.restate ?_ trivial (fun q hq => ?_) (fun hst => by cases hst) (fun _ j hj => ?_)
    (fun q n hq => ?_) fun q r n hq hr => h.children q r n (hold q n hq) (hold r n hr)
  · rw [hd]
    exact ⟨rfl, rfl, rfl⟩
  · have hqp : q ≠ p := by
      rintro rfl
      exact hq hself
    rw [Function.update_of_ne hqp]
    rw [hother q hqp] at hq
    exact h.busy q hq
  · exact hplaced j (Nat.lt_of_lt_of_le hj (Nat.le_of_not_lt hfd))
  · obtain ⟨hembryo, hn⟩ := h.child q n (hold q n hq)
    have hne : n ≠ p := by
      rintro rfl
      rw [hrun] at hembryo
      cases hembryo
    rw [Function.update_of_ne hne]
    exact ⟨hembryo, hn⟩

theorem Refs.go_exit {k : Option ℕ} (h : Refs s) (hrun : s.state p = .RUNNING)
    (hd : s.doing p = .exit fd) (hs : s.go p k (.exit fd) = some s') : Refs s' := by
  have hplaced := h.placed p
  rw [hd] at hplaced
  have hclear : ∀ j, j < fd → s.ofile p j = none := hplaced
  dsimp only [Sys.go] at hs
  split at hs
  · rename_i hfd
    split at hs
    · rename_i f hof
      obtain ⟨⟨t, r⟩, ht, rfl⟩ := Option.map_eq_some_iff.mp hs
      exact h.go_exitClose hrun hd hfd hof ht
    · rename_i hof
      obtain rfl := Option.some.inj hs
      refine h.stay hrun hd (fun g => rfl) (fun j hj => ?_) (fun _ hc => by cases hc) rfl
      rcases Nat.lt_succ_iff_lt_or_eq.mp hj with hlt | rfl
      · exact hclear j hlt
      · exact hof
  · rename_i hfd
    obtain rfl := Option.some.inj hs
    exact h.go_exitDone hrun hd hfd

theorem Refs.go_exiting {r : Option Use} {k : Option ℕ} (h : Refs s) (hrun : s.state p = .RUNNING)
    (hd : s.doing p = .exiting f fd r) (hs : s.go p k (.exiting f fd r) = some s') : Refs s' := by
  have hplaced := h.placed p
  rw [hd] at hplaced
  obtain ⟨hlt, hof, hclear⟩ := hplaced
  cases r with
  | some r =>
    obtain rfl := Option.some.inj hs
    exact h.released hrun hd r ⟨rfl, rfl⟩ ⟨hlt, hof, hclear⟩ rfl rfl
  | none =>
    obtain rfl := Option.some.inj hs
    refine h.clear hrun hd hlt hof (List.Perm.refl _) (fun j hj => ?_) rfl rfl
    rcases Nat.lt_succ_iff_lt_or_eq.mp hj with hj' | rfl
    · exact (setFd_other s p (Nat.ne_of_lt hj') none).trans (hclear j hj')
    · exact setFd_self s p j none

/-- A step of a call keeps the references, where free files have no type. -/
theorem Refs.go {k : Option ℕ} {d : Doing} (h : Refs s)
    (hfree : ∀ f, (s.file f).ref = 0 → (s.file f).type = none)
    (hrun : s.state p = .RUNNING) (hd : s.doing p = d) (hs : s.go p k d = some s') : Refs s' := by
  cases d with
  | idle => cases hs
  | opened f ip => exact h.go_opened hrun hd hs
  | typing f ip => exact Option.some.inj hs ▸ h.go_typing hrun hd
  | dup f =>
    obtain ⟨t, ht, rfl⟩ := Option.map_eq_some_iff.mp hs
    exact h.go_dup hrun hd ht
  | pipe0 f0 => exact h.go_pipe0 hfree hrun hd hs
  | pipe1 f0 f1 =>
    cases k with
    | some page => exact Option.some.inj hs ▸ h.go_pipe1 hrun hd
    | none =>
      obtain rfl := Option.some.inj hs
      exact h.stay hrun hd (fun g => rfl) trivial (fun _ hc => by cases hc) rfl
  | pipe2 f0 f1 => exact h.go_pipe2 hrun hd hs
  | pipe3 f0 f1 fd0 => exact h.go_pipe3 hrun hd hs
  | closing r fs => exact h.go_closing hrun hd hs
  | fork np i => exact h.go_fork hrun hd hs
  | forkSet np i f => exact Option.some.inj hs ▸ h.go_forkSet hrun hd
  | exit fd => exact h.go_exit hrun hd hs
  | exiting f fd r => exact h.go_exiting hrun hd hs

theorem argfd_some (h : s.argfd p fd = some f) : fd < NOFILE ∧ s.ofile p fd = some f :=
  Option.ite_none_right_eq_some.mp h

/-- The start of a call. -/
theorem Refs.step {a : Act} (h : Refs s) (hfree : ∀ f, (s.file f).ref = 0 → (s.file f).type = none)
    (hs : s.step a = some s') : Refs s' := by
  cases a with
  | sysOpen p ip =>
    obtain ⟨⟨hrun, hd⟩, hs⟩ := Option.ite_none_right_eq_some.mp hs
    obtain rfl := Option.some.inj hs
    split
    · rename_i t f ht
      refine h.alloc hrun ht (hfree f (filealloc_some ht).2.1) ?_ trivial rfl ?_
      · rw [hd]
        exact ⟨List.Perm.refl _, rfl⟩
      · rw [hd]
        exact List.Perm.refl _
    · exact h
  | sysDup p fd =>
    obtain ⟨⟨hrun, hd⟩, hs⟩ := Option.ite_none_right_eq_some.mp hs
    obtain rfl := Option.some.inj hs
    split
    · rename_i f fd' hf hfd'
      obtain ⟨hlt, hof⟩ := argfd_some hf
      obtain ⟨hlt', hnone⟩ := fdalloc_some hfd'
      have hne : fd ≠ fd' := by
        rintro rfl
        rw [hof] at hnone
        cases hnone
      have htwo : 2 ≤ (s.setFd p fd' (some f)).named p f := by
        refine two_le_named hlt' hlt hne (setFd_self s p fd' _) ?_
        exact (setFd_other s p hne _).trans hof
      exact h.fill hrun hd hfd' (List.Perm.refl _) htwo rfl (List.nil_sublist _)
    · exact h
  | sysPipe p =>
    obtain ⟨⟨hrun, hd⟩, hs⟩ := Option.ite_none_right_eq_some.mp hs
    obtain rfl := Option.some.inj hs
    split
    · rename_i t f ht
      refine h.alloc hrun ht (hfree f (filealloc_some ht).2.1) ?_ trivial rfl ?_
      · rw [hd]
        exact ⟨List.Perm.refl _, rfl⟩
      · rw [hd]
        exact List.Perm.refl _
    · exact h
  | sysClose p fd =>
    obtain ⟨⟨hrun, hd⟩, hs⟩ := Option.ite_none_right_eq_some.mp hs
    obtain rfl := Option.some.inj hs
    split
    · rename_i f hf
      obtain ⟨hlt, hof⟩ := argfd_some hf
      exact h.clear hrun hd hlt hof (List.Perm.refl _) trivial rfl rfl
    · exact h
  | fork p np =>
    obtain ⟨⟨hnp, hunused⟩, hs⟩ := Option.ite_none_right_eq_some.mp hs
    obtain ⟨⟨hrun, hd⟩, hs⟩ := Option.ite_none_right_eq_some.mp hs
    obtain rfl := Option.some.inj hs
    have hother : ∀ q, q ≠ p → (s.goTo p (.fork np 0)).doing q = s.doing q := (goTo_own s p _).doing
    have hself : (s.goTo p (.fork np 0)).doing p = .fork np 0 := Function.update_self ..
    have hstranger : ∀ q n, (s.doing q).child = some n → n ≠ np := by
      rintro q n hq rfl
      rw [(h.child q n hq).1] at hunused
      cases hunused
    refine h.restate ?_ (fun j _ hj => h.bare np (Or.inl hunused) j hj) (fun q hq => ?_)
      (fun hst => by cases hst) (fun hst => ?_) (fun q n hq => ?_) fun q r n hq hr => ?_
    · rw [hd]
      exact ⟨rfl, rfl, rfl⟩
    · have hrunning : s.state q = .RUNNING := by
        by_cases hqp : q = p
        · rw [hqp]
          exact hrun
        · rw [hother q hqp] at hq
          exact h.busy q hq
      have hne : q ≠ np := by
        rintro rfl
        rw [hrunning] at hunused
        cases hunused
      rw [Function.update_of_ne hne]
      exact hrunning
    · rcases hst with hst | hst
      · cases hst
      · cases hst
    · by_cases hqp : q = p
      · rw [hqp, hself] at hq
        obtain rfl := Option.some.inj hq
        exact ⟨Function.update_self .., hnp⟩
      · rw [hother q hqp] at hq
        rw [Function.update_of_ne (hstranger q n hq)]
        exact h.child q n hq
    · by_cases hqp : q = p
      · by_cases hrp : r = p
        · rw [hqp, hrp]
        · rw [hqp, hself] at hq
          rw [hother r hrp] at hr
          exact absurd (Option.some.inj hq).symm (hstranger r n hr)
      · rw [hother q hqp] at hq
        by_cases hrp : r = p
        · rw [hrp, hself] at hr
          exact absurd (Option.some.inj hr).symm (hstranger q n hq)
        · rw [hother r hrp] at hr
          exact h.children q r n hq hr
  | exit p =>
    obtain ⟨⟨hrun, hd⟩, hs⟩ := Option.ite_none_right_eq_some.mp hs
    obtain rfl := Option.some.inj hs
    exact h.stay hrun hd (fun g => rfl) (fun j hj => absurd hj (Nat.not_lt_zero j))
      (fun _ hc => by cases hc) rfl
  | wait np =>
    obtain ⟨hzombie, hs⟩ := Option.ite_none_right_eq_some.mp hs
    obtain rfl := Option.some.inj hs
    have hidle : s.doing np = .idle := by
      by_contra hbusy
      rw [h.busy np hbusy] at hzombie
      cases hzombie
    have hsame : s.goTo np .idle = s := by
      unfold Sys.goTo
      rw [← hidle, Function.update_eq_self]
    have hmoved : Refs { s.goTo np .idle with state := Function.update s.state np .UNUSED } := by
      refine h.restate ?_ trivial (fun q hq => ?_) (fun hst => by cases hst)
        (fun _ => h.bare np (Or.inr hzombie)) (fun q n hq => ?_) ?_
      · rw [hidle]
        exact ⟨rfl, rfl, rfl⟩
      · rw [hsame] at hq
        have hne : q ≠ np := by
          rintro rfl
          exact hq hidle
        rw [Function.update_of_ne hne]
        exact h.busy q hq
      · rw [hsame] at hq
        obtain ⟨hembryo, hn⟩ := h.child q n hq
        have hne : n ≠ np := by
          rintro rfl
          rw [hembryo] at hzombie
          cases hzombie
        rw [Function.update_of_ne hne]
        exact ⟨hembryo, hn⟩
      · rw [hsame]
        exact h.children
    rwa [hsame] at hmoved
  | go p k =>
    obtain ⟨hrun, hs⟩ := Option.ite_none_right_eq_some.mp hs
    exact h.go hfree hrun rfl hs

end Weights

end NorthOS.Files
