import NorthOS.Plumbing

/-!
The order in which the programs of a command line run. A process waits for the children that
it has forked at its node, unless the command is to run in the background. So a process that
is not in the background is a descendant of a process that waits, and when the left command of
a list is over, nothing of it is left but what was put in the background.
-/
namespace NorthOS.Runcmd

open Shell (Cmd)
open Runs Files

/-- No process of the shell is killed, and the second fork of a pipe succeeds: the steps that
would leave a child behind for which nobody waits. -/
def Orderly (s : Sys) : Act → Prop
  | .go p ok => ∀ π r p0 p1 U, s.proc p = some ⟨.forked π r p0 p1, U⟩ → ok = true
  | .wait _ _ => True
  | .stop p => ∃ π U, s.proc p = some ⟨.running π, U⟩

/-- The nodes for which a process may have children at this point. -/
def Code.mayHave : Code → Node → Prop
  | .waiting π _, ρ | .forked π _ _ _, ρ => ρ = .left :: π
  | .close0 π _ _, ρ | .close1 π _, ρ | .wait0 π, ρ | .wait1 π, ρ => ρ = .left :: π ∨ ρ = .right :: π
  | .exit π, ρ => ρ = .back :: π
  | .runcmd _ _, _ | .opening _ _ _ _ _, _ | .piped _ _ _ _ _, _ | .wire _ _ _ _ _, _ | .dup _ _ _ _ _, _
  | .wired _ _ _ _ _, _ | .last _ _ _ _, _ | .running _, _ | .zombie _, _ => False

/-- From the one node a process reaches the other without a fork. -/
def Walks (π ρ : Node) : Prop := ∃ ts, ρ = ts ++ π ∧ ∀ t ∈ ts, t = Turn.body ∨ t = Turn.right

/-- The node is below the other, and not in the background of it. -/
def Foreground (π ρ : Node) : Prop := ∃ ts, ρ = ts ++ π ∧ Turn.back ∉ ts

/-- The invariant. The children of a process are for the sides of its node, one for each. -/
structure Kin (s : Sys) : Prop where
  parents : ∀ q Q p, s.proc q = some Q → s.parent q = some p →
    ∃ P, s.proc p = some P ∧ P.code.mayHave (s.born q)
  orphans : ∀ q Q, s.proc q = some Q → s.parent q = none → s.born q = [] ∨ ∃ π, s.born q = .back :: π
  apart : ∀ q q' Q Q' p, s.proc q = some Q → s.proc q' = some Q' → s.parent q = some p →
    s.parent q' = some p → s.born q = s.born q' → q = q'
  one : ∀ p π U q q' Q Q', s.proc p = some ⟨.wait1 π, U⟩ → s.proc q = some Q → s.proc q' = some Q' →
    s.parent q = some p → s.parent q' = some p → q = q'
  path : ∀ q Q, s.proc q = some Q → Walks (s.born q) Q.code.node

section Nodes

variable {π ρ σ : Node} {t : Turn} {code : Code}

theorem Walks.refl (π : Node) : Walks π π := ⟨[], rfl, fun _ h => absurd h List.not_mem_nil⟩

theorem Walks.step (h : Walks π ρ) (ht : t = .body ∨ t = .right) : Walks π (t :: ρ) := by
  obtain ⟨ts, rfl, hts⟩ := h
  refine ⟨t :: ts, rfl, fun u hu => ?_⟩
  rcases List.mem_cons.mp hu with rfl | hu
  · exact ht
  · exact hts u hu

theorem mayHave_node (h : code.mayHave (t :: σ)) : code.node = σ ∧ Sys.isZombie code = false := by
  cases code with
  | waiting | forked | exit =>
    cases h
    exact ⟨rfl, rfl⟩
  | close0 | close1 | wait0 | wait1 =>
    rcases h with h | h
    · cases h
      exact ⟨rfl, rfl⟩
    · cases h
      exact ⟨rfl, rfl⟩
  | _ => exact h.elim

/-- Of the two sides of a node, two that differ from a third are the same. -/
theorem other_side {ρ₁ ρ₂ : Node} (h : ρ = .left :: π ∨ ρ = .right :: π)
    (h₁ : ρ₁ = .left :: π ∨ ρ₁ = .right :: π) (h₂ : ρ₂ = .left :: π ∨ ρ₂ = .right :: π)
    (hne₁ : ρ₁ ≠ ρ) (hne₂ : ρ₂ ≠ ρ) : ρ₁ = ρ₂ := by
  rcases h with rfl | rfl
  · exact (h₁.resolve_left hne₁).trans (h₂.resolve_left hne₂).symm
  · exact (h₁.resolve_right hne₁).trans (h₂.resolve_right hne₂).symm

/-- Where the way of a process goes through the left side of a node, it was forked there or
further down. -/
theorem Walks.born_below (h : Walks σ ρ) (hρ : Foreground (.left :: π) ρ) :
    Foreground (.left :: π) σ := by
  obtain ⟨ts, rfl, hts⟩ := h
  obtain ⟨us, he, hus⟩ := hρ
  rcases List.append_eq_append_iff.mp he with ⟨as, rfl, hσ⟩ | ⟨bs, rfl, hσ⟩
  · exact ⟨as, hσ, fun hb => hus (List.mem_append_right _ hb)⟩
  · cases bs with
    | nil => exact ⟨[], hσ.symm, List.not_mem_nil⟩
    | cons b bs =>
      obtain ⟨rfl, _⟩ := List.cons.inj hσ
      rcases hts .left (List.mem_append_right _ (List.mem_cons_self ..)) with hleft | hleft
      · cases hleft
      · cases hleft

end Nodes

section Moves

variable {root : Cmd} {T : Table} {s t : Sys} {p q : ℕ} {P Q : Proc} {code code' : Code}
    {U V : Table} {π : Node}

theorem Kin.begin (h : Kin s) (π : Node) :
    Kin (s.begin π) := ⟨h.parents, h.orphans, h.apart, h.one, h.path⟩

theorem Kin.make (h : Kin s) (π : Node) :
    Kin (s.make π) := ⟨h.parents, h.orphans, h.apart, h.one, h.path⟩

/-- A process goes on; the children that it has may be there. -/
theorem Kin.put (h : Kin s) (hp : s.proc p = some P) (U : Table)
    (hpath : Walks (s.born p) code.node)
    (hmay : ∀ q Q, s.proc q = some Q → s.parent q = some p → code.mayHave (s.born q))
    (hone : ∀ π, code = .wait1 π → ∀ q q' Q Q', s.proc q = some Q → s.proc q' = some Q' →
      s.parent q = some p → s.parent q' = some p → q = q') : Kin (s.put p code U) := by
  have hold : ∀ {q Q}, (s.put p code U).proc q = some Q → ∃ Q', s.proc q = some Q' := by
    intro q Q hq
    rcases proc_put hq with ⟨_, hq⟩ | ⟨rfl, _⟩
    · exact ⟨Q, hq⟩
    · exact ⟨P, hp⟩
  refine ⟨fun q Q p' hq hparent => ?_, fun q Q hq => ?_, fun q q' Q Q' p' hq hq' => ?_,
    fun p' π U' q q' Q Q' hp' hq hq' hparent hparent' => ?_, fun q Q hq => ?_⟩
  · obtain ⟨Q', hQ'⟩ := hold hq
    by_cases hpp : p' = p
    · subst hpp
      exact ⟨⟨code, U⟩, Function.update_self _ _ _, hmay q Q' hQ' hparent⟩
    · obtain ⟨P', hP', hhave⟩ := h.parents q Q' p' hQ' hparent
      exact ⟨P', (Function.update_of_ne hpp _ _).trans hP', hhave⟩
  · obtain ⟨Q', hQ'⟩ := hold hq
    exact h.orphans q Q' hQ'
  · obtain ⟨R, hR⟩ := hold hq
    obtain ⟨R', hR'⟩ := hold hq'
    exact h.apart q q' R R' p' hR hR'
  · obtain ⟨R, hR⟩ := hold hq
    obtain ⟨R', hR'⟩ := hold hq'
    rcases proc_put hp' with ⟨_, hp'⟩ | ⟨rfl, he⟩
    · exact h.one p' π U' q q' R R' hp' hR hR' hparent hparent'
    · cases he
      exact hone π rfl q q' R R' hR hR' hparent hparent'
  · rcases proc_put hq with ⟨_, hq⟩ | ⟨rfl, rfl⟩
    · exact h.path q Q hq
    · exact hpath

/-- A zombie is reaped. -/
theorem Kin.reap (h : Kin s) (hq : s.proc q = some Q) (hz : Sys.isZombie Q.code = true) :
    Kin { s with proc := Function.update s.proc q none } := by
  have hold : ∀ {r R}, Function.update s.proc q none r = some R → r ≠ q ∧ s.proc r = some R := by
    intro r R hr
    by_cases hrq : r = q
    · rw [hrq, Function.update_self] at hr
      cases hr
    · rw [Function.update_of_ne hrq] at hr
      exact ⟨hrq, hr⟩
  refine ⟨fun r R p hr hparent => ?_, fun r R hr => h.orphans r R (hold hr).2, fun r r' R R' p hr hr' =>
    h.apart r r' R R' p (hold hr).2 (hold hr').2, fun p π U r r' R R' hp hr hr' =>
    h.one p π U r r' R R' (hold hp).2 (hold hr).2 (hold hr').2, fun r R hr => h.path r R
      (hold hr).2⟩
  obtain ⟨P, hP, hhave⟩ := h.parents r R p (hold hr).2 hparent
  refine ⟨P, (Function.update_of_ne ?_ _ _).trans hP, hhave⟩
  -- a zombie has no children
  rintro rfl
  obtain rfl := Option.some.inj (hP.symm.trans hq)
  obtain ⟨old, U⟩ := P
  cases old with
  | zombie => exact hhave
  | _ => cases hz

/-- A process ends whose children are in the background. -/
theorem Kin.die (h : Kin s) (hp : s.proc p = some P) (hpath : Walks (s.born p) π)
    (hmay : ∀ ρ, P.code.mayHave ρ → ∃ σ, ρ = .back :: σ) : Kin (s.die p π) := by
  have hold : ∀ {q Q}, (s.put p (.zombie π) fun _ => none).proc q = some Q → ∃ Q',
      s.proc q = some Q' := by
    intro q Q hq
    rcases proc_put hq with ⟨_, hq⟩ | ⟨rfl, _⟩
    · exact ⟨Q, hq⟩
    · exact ⟨P, hp⟩
  have hparents : ∀ {q p'}, (s.die p π).parent q = some p' → s.parent q = some p' ∧ p' ≠ p := by
    intro q p' hq
    obtain ⟨hne, hparent⟩ := Option.ite_none_left_eq_some.mp hq
    exact ⟨hparent, fun hpp => hne (hparent.trans (congrArg some hpp))⟩
  refine ⟨fun q Q p' hq hparent => ?_, fun q Q hq hparent => ?_,
    fun q q' Q Q' p' hq hq' hparent hparent' => ?_,
    fun p' π' U q q' Q Q' hp' hq hq' hparent hparent' => ?_, fun q Q hq => ?_⟩
  · obtain ⟨Q', hQ'⟩ := hold hq
    obtain ⟨hparent, hpp⟩ := hparents hparent
    obtain ⟨P', hP', hhave⟩ := h.parents q Q' p' hQ' hparent
    exact ⟨P', (Function.update_of_ne hpp _ _).trans hP', hhave⟩
  · obtain ⟨Q', hQ'⟩ := hold hq
    by_cases hqp : s.parent q = some p
    · obtain ⟨P', hP', hhave⟩ := h.parents q Q' p hQ' hqp
      obtain rfl := Option.some.inj (hp.symm.trans hP')
      exact Or.inr (hmay _ hhave)
    · have hnone : (if s.parent q = some p then none else s.parent q) = none := hparent
      rw [if_neg hqp] at hnone
      exact h.orphans q Q' hQ' hnone
  · obtain ⟨R, hR⟩ := hold hq
    obtain ⟨R', hR'⟩ := hold hq'
    exact h.apart q q' R R' p' hR hR' (hparents hparent).1 (hparents hparent').1
  · obtain ⟨R, hR⟩ := hold hq
    obtain ⟨R', hR'⟩ := hold hq'
    rcases proc_put hp' with ⟨_, hp'⟩ | ⟨_, he⟩
    · exact h.one p' π' U q q' R R' hp' hR hR' (hparents hparent).1 (hparents hparent').1
    · cases he
  · rcases proc_put hq with ⟨_, hq⟩ | ⟨rfl, rfl⟩
    · exact h.path q Q hq
    · exact hpath

/-- A process forks a child for a node for which it has none yet. -/
theorem Kin.fork (h : Kin s) (hnext : s.proc s.next = none) (hp : s.proc p = some P) {born : Node}
    (V : Table) (hpath : Walks born code.node) (hborn : P.code.mayHave born)
    (hnew : ∀ q Q, s.proc q = some Q → s.parent q = some p → s.born q ≠ born)
    (hone : ∀ π, P.code ≠ .wait1 π) (hone' : ∀ π, code ≠ .wait1 π) :
    Kin (s.fork p born code V) := by
  have hne : ∀ {q Q}, s.proc q = some Q → q ≠ s.next := by
    rintro q Q hq rfl
    rw [hnext] at hq
    cases hq
  have hparent_old : ∀ {q}, q ≠ s.next → (s.fork p born code V).parent q = s.parent q :=
    fun hq => Function.update_of_ne hq _ _
  have hborn_old : ∀ {q}, q ≠ s.next → (s.fork p born code V).born q = s.born q :=
    fun hq => Function.update_of_ne hq _ _
  have hparent_new : (s.fork p born code V).parent s.next = some p := Function.update_self _ _ _
  have hborn_new : (s.fork p born code V).born s.next = born := Function.update_self _ _ _
  have hproc_old : ∀ {q Q}, s.proc q = some Q → (s.fork p born code V).proc q = some Q :=
    fun hq => (Function.update_of_ne (hne hq) _ _).trans hq
  -- each process is the child, or was there before
  have hproc : ∀ {q Q}, (s.fork p born code V).proc q = some Q →
      q = s.next ∧ Q = ⟨code, V⟩ ∨ q ≠ s.next ∧ s.proc q = some Q := by
    intro q Q hq
    have hq : Function.update s.proc s.next (some ⟨code, V⟩) q = some Q := hq
    by_cases hqn : q = s.next
    · rw [hqn, Function.update_self] at hq
      exact Or.inl ⟨hqn, (Option.some.inj hq).symm⟩
    · rw [Function.update_of_ne hqn] at hq
      exact Or.inr ⟨hqn, hq⟩
  refine ⟨fun q Q p' hq hparent => ?_, fun q Q hq hparent => ?_,
    fun q q' Q Q' p' hq hq' hparent hparent' hsame => ?_,
    fun p' π U q q' Q Q' hp' hq hq' hparent hparent' => ?_, fun q Q hq => ?_⟩
  · rcases hproc hq with ⟨rfl, _⟩ | ⟨hqn, hq⟩
    · obtain rfl := Option.some.inj (hparent_new.symm.trans hparent)
      rw [hborn_new]
      exact ⟨P, hproc_old hp, hborn⟩
    · rw [hparent_old hqn] at hparent
      rw [hborn_old hqn]
      obtain ⟨P', hP', hhave⟩ := h.parents q Q p' hq hparent
      exact ⟨P', hproc_old hP', hhave⟩
  · rcases hproc hq with ⟨rfl, _⟩ | ⟨hqn, hq⟩
    · rw [hparent_new] at hparent
      cases hparent
    · rw [hparent_old hqn] at hparent
      rw [hborn_old hqn]
      exact h.orphans q Q hq hparent
  · rcases hproc hq with ⟨rfl, _⟩ | ⟨hqn, hq⟩
    · rcases hproc hq' with ⟨rfl, _⟩ | ⟨hqn', hq'⟩
      · rfl
      · obtain rfl := Option.some.inj (hparent_new.symm.trans hparent)
        rw [hparent_old hqn'] at hparent'
        rw [hborn_new, hborn_old hqn'] at hsame
        exact absurd hsame.symm (hnew q' Q' hq' hparent')
    · rcases hproc hq' with ⟨rfl, _⟩ | ⟨hqn', hq'⟩
      · obtain rfl := Option.some.inj (hparent_new.symm.trans hparent')
        rw [hparent_old hqn] at hparent
        rw [hborn_new, hborn_old hqn] at hsame
        exact absurd hsame (hnew q Q hq hparent)
      · rw [hparent_old hqn] at hparent
        rw [hparent_old hqn'] at hparent'
        rw [hborn_old hqn, hborn_old hqn'] at hsame
        exact h.apart q q' Q Q' p' hq hq' hparent hparent' hsame
  · rcases hproc hp' with ⟨_, he⟩ | ⟨_, hp'⟩
    · cases he
      exact absurd rfl (hone' π)
    -- a process that waits the second time forks no more
    have hold : ∀ {q Q}, (s.fork p born code V).proc q = some Q →
        (s.fork p born code V).parent q = some p' → s.proc q = some Q ∧ s.parent q = some p' := by
      intro q Q hq hparent
      rcases hproc hq with ⟨rfl, _⟩ | ⟨hqn, hq⟩
      · obtain rfl := Option.some.inj (hparent_new.symm.trans hparent)
        obtain rfl := Option.some.inj (hp.symm.trans hp')
        exact absurd rfl (hone π)
      · rw [hparent_old hqn] at hparent
        exact ⟨hq, hparent⟩
    obtain ⟨hq, hparent⟩ := hold hq hparent
    obtain ⟨hq', hparent'⟩ := hold hq' hparent'
    exact h.one p' π U q q' Q Q' hp' hq hq' hparent hparent'
  · rcases hproc hq with ⟨rfl, rfl⟩ | ⟨hqn, hq⟩
    · rw [hborn_new]
      exact hpath
    · rw [hborn_old hqn]
      exact h.path q Q hq

theorem fork_put {born : Node} (hne : p ≠ s.next) :
    (s.fork p born code V).put p code' U = (s.put p code' U).fork p born code V := by
  unfold Sys.put Sys.fork
  simp only [Function.update_comm hne]

end Moves

section Steps

variable {root : Cmd} {T : Table} {s t : Sys} {p q : ℕ} {P Q : Proc} {U : Table} {π : Node}
    {ok : Bool}

/-- The process forks and goes on; it has no child yet for the node. -/
theorem Kin.fork_put (h : Kin s) (hnext : ∀ q, s.next ≤ q → s.proc q = none)
    (hp : s.proc p = some P)
    {code code' : Code} {born : Node} (U V : Table) (hnode : code.node = P.code.node)
    (hpath : Walks born code'.node) (hborn : code.mayHave born)
    (hold : ∀ ρ, P.code.mayHave ρ → code.mayHave ρ ∧ ρ ≠ born) (hone : ∀ π, code ≠ .wait1 π)
    (hone' : ∀ π, code' ≠ .wait1 π) : Kin ((s.fork p born code' V).put p code U) := by
  have hne : s.next ≠ p := by
    rintro rfl
    rw [hnext _ le_rfl] at hp
    cases hp
  have hchild : ∀ q Q, s.proc q = some Q → s.parent q = some p → code.mayHave (s.born q) ∧
      s.born q ≠ born := by
    intro q Q hq hparent
    obtain ⟨P', hP', hhave⟩ := h.parents q Q p hq hparent
    obtain rfl := Option.some.inj (hp.symm.trans hP')
    exact hold _ hhave
  have hput : Kin (s.put p code U) := h.put hp U (hnode ▸ h.path p P hp)
    (fun q Q hq hparent => (hchild q Q hq hparent).1) fun π he => absurd he (hone π)
  rw [Runcmd.fork_put hne.symm]
  refine hput.fork (P := ⟨code, U⟩) ((Function.update_of_ne hne _ _).trans (hnext _ le_rfl))
    (Function.update_self _ _ _) V hpath hborn (fun q Q hq hparent => ?_) hone hone'
  rcases proc_put hq with ⟨_, hq⟩ | ⟨rfl, _⟩
  · exact (hchild q Q hq hparent).2
  · exact (hchild q P hp hparent).2

theorem Kin.no_child (h : Kin s) (hp : s.proc p = some P) (hnone : ∀ ρ, ¬ P.code.mayHave ρ)
    (hq : s.proc q = some Q) : s.parent q ≠ some p := by
  intro hparent
  obtain ⟨P', hP', hhave⟩ := h.parents q Q p hq hparent
  obtain rfl := Option.some.inj (hp.symm.trans hP')
  exact hnone _ hhave

/-- A process without children goes on. -/
theorem Kin.put_alone (h : Kin s) (hp : s.proc p = some P) {code : Code} (U : Table)
    (hpath : Walks (s.born p) code.node) (hnone : ∀ q Q, s.proc q = some Q → s.parent q ≠ some p) :
    Kin (s.put p code U) :=
  h.put hp U hpath (fun q Q hq hparent => absurd hparent (hnone q Q hq))
    fun _ _ q _ Q _ hq _ hparent _ => absurd hparent (hnone q Q hq)

theorem childless_spec (hw : Wired root T s) (h : s.childless p = true) (hq : s.proc q = some Q) :
    s.parent q ≠ some p := by
  have hlt : q < s.next := by
    by_contra hle
    rw [hw.next q (Nat.le_of_not_lt hle)] at hq
    cases hq
  have hq' := List.all_eq_true.mp h q (List.mem_range.mpr hlt)
  rw [hq] at hq'
  simpa using hq'

theorem Kin.runcmd (h : Kin s) (hw : Wired root T s) {c : Cmd}
    (hp : s.proc p = some ⟨.runcmd π c, U⟩) : Kin (s.runcmd p U π ok c) := by
  have hpath : Walks (s.born p) π := h.path p _ hp
  have hnone : ∀ q Q, s.proc q = some Q → s.parent q ≠ some p := fun q Q hq => h.no_child hp
      (fun _ => id) hq
  have hdie : Kin ((s.begin π).die p π) := (h.begin π).die (s := s.begin π) hp hpath
      fun ρ hρ => hρ.elim
  have hbegin := h.begin π
  cases c with
  | exec argv =>
    simp only [Sys.runcmd]
    split
    · have hput : Kin ((s.begin π).put p (.running π) U) :=
        hbegin.put_alone (s := s.begin π) hp U hpath hnone
      exact ⟨hput.parents, hput.orphans, hput.apart, hput.one, hput.path⟩
    · exact hdie
  | redir c file efile mode fd => exact h.put_alone hp _ hpath hnone
  | list l r =>
    simp only [Sys.runcmd]
    split
    · exact hbegin.fork_put (s := s.begin π) hw.next hp U U rfl (Walks.refl _) rfl
        (fun _ => False.elim) (fun _ he => by cases he) fun _ he => by cases he
    · exact hdie
  | pipe l r =>
    simp only [Sys.runcmd]
    split
    · exact (hbegin.make π).put_alone (s := (s.begin π).make π) hp _ hpath hnone
    · exact hdie
  | back c =>
    simp only [Sys.runcmd]
    split
    · exact hbegin.fork_put (s := s.begin π) hw.next hp U U rfl (Walks.refl _) rfl
        (fun _ => False.elim) (fun _ he => by cases he) fun _ he => by cases he
    · exact hdie

/-- The system calls of runcmd behind the switch. -/
theorem Kin.go (h : Kin s) (hw : Wired root T s) {code : Code} (hp : s.proc p = some ⟨code, U⟩)
    (hok : Orderly s (.go p ok)) (ht : s.go p ok U code = some t) : Kin t := by
  have hpath := h.path p _ hp
  cases code with
  | runcmd π c =>
    obtain rfl := Option.some.inj ht
    exact h.runcmd hw hp
  | opening π c file efile mode =>
    have hnone : ∀ q Q, s.proc q = some Q → s.parent q ≠ some p := fun q Q hq => h.no_child hp
        (fun _ => id) hq
    simp only [Sys.go] at ht
    split at ht
    · obtain rfl := Option.some.inj ht
      exact ((h.begin π).make π).put_alone (s := (s.begin π).make π) hp
        _ (Walks.step hpath (Or.inl rfl)) hnone
    · obtain rfl := Option.some.inj ht
      exact (h.begin π).die (s := s.begin π) hp hpath fun ρ hρ => hρ.elim
  | waiting π right =>
    obtain ⟨hnone, ht⟩ := Option.ite_none_right_eq_some.mp ht
    obtain rfl := Option.some.inj ht
    exact h.put_alone hp _ (Walks.step hpath (Or.inr rfl)) fun q Q hq => childless_spec hw hnone hq
  | piped π left right p0 p1 =>
    simp only [Sys.go] at ht
    obtain rfl := Option.some.inj ht
    split
    · exact h.fork_put hw.next hp U U rfl (Walks.refl _) rfl (fun _ => False.elim)
        (fun _ he => by cases he) fun _ he => by cases he
    · exact h.die hp hpath fun ρ hρ => hρ.elim
  | forked π right p0 p1 =>
    have hok : ok = true := hok π right p0 p1 U hp
    simp only [Sys.go, hok] at ht
    obtain rfl := Option.some.inj ht
    refine h.fork_put hw.next hp U U rfl (Walks.refl _) (Or.inr rfl) (fun ρ hρ => ?_)
      (fun _ he => by cases he) fun _ he => by cases he
    obtain rfl := hρ
    exact ⟨Or.inl rfl, by simp⟩
  | close0 π p0 p1 | close1 π p1 =>
    obtain rfl := Option.some.inj ht
    refine h.put hp _ hpath (fun q Q hq hparent => ?_) fun _ he => by cases he
    obtain ⟨P', hP', hhave⟩ := h.parents q Q p hq hparent
    obtain rfl := Option.some.inj (hp.symm.trans hP')
    exact hhave
  | wait0 π | wait1 π =>
    obtain ⟨hnone, ht⟩ := Option.ite_none_right_eq_some.mp ht
    obtain rfl := Option.some.inj ht
    exact h.put_alone hp _ hpath fun q Q hq => childless_spec hw hnone hq
  | wire π w c p0 p1 | dup π w c p0 p1 | wired π w c p0 p1 | last π w c p1 =>
    obtain rfl := Option.some.inj ht
    exact h.put_alone hp _ hpath fun q Q hq => h.no_child hp (fun _ => id) hq
  | running π => cases ht
  | exit π =>
    obtain rfl := Option.some.inj ht
    exact h.die hp hpath fun ρ hρ => ⟨π, hρ⟩
  | zombie π => cases ht

/-- A process that waits has the zombie `q` for a child, and goes on. -/
theorem Kin.wait (h : Kin s) (hp : s.proc p = some P) (hq : s.proc q = some Q)
    (hparent : s.parent q = some p)
    (hz : Sys.isZombie Q.code = true) {code : Code} (hcode : Sys.reaped P.code = some code) :
    Kin { s.put p code P.ofile with proc := Function.update (s.put p code P.ofile).proc q none } := by
  have hreap := h.reap hq hz
  obtain ⟨P', hP', hhave⟩ := h.parents q Q p hq hparent
  obtain rfl := Option.some.inj (hp.symm.trans hP')
  have hne : p ≠ q := by
    rintro rfl
    obtain rfl := Option.some.inj (hp.symm.trans hq)
    obtain ⟨old, U⟩ := P
    cases old with
    | zombie => cases hcode
    | _ => cases hz
  have hp' : Function.update s.proc q none p = some P := (Function.update_of_ne hne _ _).trans hp
  -- the other children, none of which is for the same node
  have hothers : ∀ {q' Q'}, Function.update s.proc q none q' = some Q' → s.parent q' = some p →
      P.code.mayHave (s.born q') ∧ s.born q' ≠ s.born q ∧ s.proc q' = some Q' ∧ q' ≠ q := by
    intro q' Q' hq' hparent'
    have hqq : q' ≠ q := by
      rintro rfl
      rw [Function.update_self] at hq'
      cases hq'
    rw [Function.update_of_ne hqq] at hq'
    obtain ⟨P', hP', hhave'⟩ := h.parents q' Q' p hq' hparent'
    obtain rfl := Option.some.inj (hp.symm.trans hP')
    exact ⟨hhave', fun hsame => hqq (h.apart q' q Q' Q p hq' hq hparent' hparent hsame), hq', hqq⟩
  have hpath := h.path p P hp
  have hput : Kin (Sys.put { s with proc := Function.update s.proc q none } p code P.ofile) := by
    obtain ⟨old, U⟩ := P
    cases old with
    | waiting π right =>
      obtain rfl := Option.some.inj hcode
      refine hreap.put_alone hp' U (Walks.step hpath (Or.inr rfl)) fun q' Q' hq' hparent' => ?_
      obtain ⟨hhave', hsame, _⟩ := hothers hq' hparent'
      exact hsame (hhave'.trans hhave.symm)
    | wait0 π =>
      obtain rfl := Option.some.inj hcode
      refine hreap.put hp' U hpath (fun q' Q' hq' hparent' => (hothers hq' hparent').1) ?_
      intro σ hσ q₁ q₂ Q₁ Q₂ hq₁ hq₂ hparent₁ hparent₂
      obtain ⟨hhave₁, hsame₁, hold₁, _⟩ := hothers hq₁ hparent₁
      obtain ⟨hhave₂, hsame₂, hold₂, _⟩ := hothers hq₂ hparent₂
      refine h.apart q₁ q₂ Q₁ Q₂ p hold₁ hold₂ hparent₁ hparent₂ ?_
      exact other_side hhave hhave₁ hhave₂ hsame₁ hsame₂
    | wait1 π =>
      obtain rfl := Option.some.inj hcode
      refine hreap.put_alone hp' U hpath fun q' Q' hq' hparent' => ?_
      obtain ⟨_, _, hold, hqq⟩ := hothers hq' hparent'
      exact hqq (h.one p π U q' q Q' Q hp hold hq hparent' hparent)
    | _ => cases hcode
  have hsame : Function.update (s.put p code P.ofile).proc q none =
      (Sys.put { s with proc := Function.update s.proc q none } p code P.ofile).proc :=
    Function.update_comm hne _ _ _
  rw [hsame]
  exact ⟨hput.parents, hput.orphans, hput.apart, hput.one, hput.path⟩

theorem Kin.step (h : Kin s) (hw : Wired root T s) {a : Act} (hok : Orderly s a)
    (ht : s.step a = some t) : Kin t := by
  cases a with
  | go p ok =>
    obtain ⟨P, hp, ht⟩ := Option.bind_eq_some_iff.mp ht
    exact h.go hw hp hok ht
  | wait p q =>
    simp only [Sys.step] at ht
    split at ht
    · rename_i P Q hp hq
      obtain ⟨⟨hparent, hz⟩, ht⟩ := Option.ite_none_right_eq_some.mp ht
      obtain ⟨code, hcode, rfl⟩ := Option.map_eq_some_iff.mp ht
      exact h.wait hp hq hparent hz hcode
    · cases ht
  | stop p =>
    obtain ⟨π, U, hp⟩ := hok
    simp only [Sys.step, hp] at ht
    obtain rfl := Option.some.inj ht
    exact h.die hp (h.path p _ hp) fun ρ hρ => hρ.elim

theorem start_kin (c : Cmd) (U : Table) : Kin (.start c U) := by
  have honly : ∀ p P, (Sys.start c U).proc p = some P → p = 0 ∧ P = ⟨.runcmd [] c, U⟩ := by
    intro p P hp
    obtain ⟨rfl, hp⟩ := Option.ite_none_right_eq_some.mp hp
    exact ⟨rfl, (Option.some.inj hp).symm⟩
  refine ⟨fun q Q p hq hparent => ?_, fun q Q hq _ => Or.inl rfl,
    fun q q' Q Q' p hq hq' _ _ _ => ?_, fun p π V q q' Q Q' hp hq hq' _ _ => ?_, fun q Q hq => ?_⟩
  · cases hparent
  · exact (honly q Q hq).1.trans (honly q' Q' hq').1.symm
  · exact (honly q Q hq).1.trans (honly q' Q' hq').1.symm
  · rw [(honly q Q hq).2]
    exact Walks.refl []

/-- A process in the foreground of the left side of a list is a descendant of the process
that waits there. The induction goes from child to parent, up the tree. -/
theorem Kin.waits (h : Kin s) (hw : Wired root T s) {l r : Cmd}
    (hat : At root T s.made π (.list l r) U)
    (n : ℕ) : ∀ {q Q}, Q.code.node.length ≤ n → s.proc q = some Q → Sys.isZombie Q.code = false →
    Foreground (.left :: π) Q.code.node → ∃ p V, s.proc p = some ⟨.waiting π r, V⟩ := by
  induction n with
  | zero =>
    rintro q Q hn hq hz ⟨ts, he, _⟩
    rw [he, List.length_append, List.length_cons] at hn
    omega
  | succ n ih =>
    intro q Q hn hq hz hbelow
    obtain ⟨ts, hwalk, _⟩ := h.path q Q hq
    obtain ⟨as, hborn, hback⟩ := (h.path q Q hq).born_below hbelow
    cases hparent : s.parent q with
    | none =>
      rcases h.orphans q Q hq hparent with he | ⟨σ, he⟩
      · rw [he] at hborn
        cases as <;> cases hborn
      · rw [he] at hborn
        cases as with
        | nil => cases hborn
        | cons a as =>
          obtain ⟨rfl, _⟩ := List.cons.inj hborn
          exact absurd (List.mem_cons_self ..) hback
    | some p =>
      obtain ⟨P, hp, hhave⟩ := h.parents q Q p hq hparent
      rw [hborn] at hhave
      cases as with
      | nil =>
        obtain ⟨code, V⟩ := P
        have hfits := hw.fits p _ hp
        cases code with
        | waiting =>
          cases hhave
          obtain ⟨_, hat'⟩ := hfits
          obtain ⟨he, _⟩ := hat.unique hat'
          cases he
          exact ⟨p, V, hp⟩
        | forked =>
          cases hhave
          obtain ⟨_, _, _, hpiped, _⟩ := hfits
          cases (hat.unique hpiped.pipe).1
        | close0 =>
          obtain ⟨_, _, _, _, hpiped, _⟩ := hfits
          rcases hhave with hhave | hhave
          · cases hhave
            cases (hat.unique hpiped.pipe).1
          · cases hhave
        | close1 =>
          obtain ⟨_, _, _, _, _, hpiped, _⟩ := hfits
          rcases hhave with hhave | hhave
          · cases hhave
            cases (hat.unique hpiped.pipe).1
          · cases hhave
        | wait0 | wait1 =>
          obtain ⟨_, _, hat'⟩ := hfits
          rcases hhave with hhave | hhave
          · cases hhave
            cases (hat.unique hat').1
          · cases hhave
        | exit => cases hhave
        | _ => exact hhave.elim
      | cons a as =>
        have hnode : P.code.node = as ++ Turn.left :: π := (mayHave_node hhave).1
        have hzp : Sys.isZombie P.code = false := (mayHave_node hhave).2
        refine ih ?_ hp hzp ⟨as, hnode, fun hmem => hback (List.mem_cons_of_mem _ hmem)⟩
        rw [hwalk, hborn, List.length_append, List.cons_append, List.length_cons] at hn
        rw [hnode]
        omega

end Steps

section Lists

open CString

variable {n : ℕ} {a b : Cells} {l : List ℤ} {root : Cmd} {T : Table}

/-- When a program on the right side of a list is started, every process on the left side has
ended, but for those put in the background there. -/
theorem always_sequenced (h : Holds n a l) (hne : l ≠ [])
    (hparse : Shell.parsecmd n a = .ok (some root, b)) (hT : Inherited T) {as : List Act}
    (has : Meets Sys.step Orderly (.start root T) as) :
    Always Sys.step (fun s => ∀ π c d U, At root T s.made π (.list c d) U →
      ∀ x ∈ s.started, (.right :: π) <:+ x.node → ∀ q Q, s.proc q = some Q →
      Foreground (.left :: π) Q.code.node → Sys.isZombie Q.code = true) (.start root T) as := by
  have hroot := parsecmd_redirs h hne hparse
  have hrun : Always Sys.step (fun s => Wired root T s ∧ Kin s) (.start root T) as :=
    always_of_meets (fun _ _ _ hs hok ht => ⟨hs.1.step hroot hT.standard ht, hs.2.step hs.1 hok ht⟩)
      ⟨start_wired root T, start_kin root T⟩ has
  refine hrun.mono fun s ⟨hw, hk⟩ π c d U hat x hx hright q Q hq hleft => ?_
  by_contra hz
  -- else the process of the list still waits, and has not yet begun the right side
  obtain ⟨p, V, hp⟩ := hk.waits hw hat _ le_rfl hq (Bool.eq_false_of_not_eq_true hz) hleft
  exact (hw.fresh p _ x.node hp hright).2 (hw.started x hx).2

/-- The line a;b, in which both programs run and end. -/
theorem always_sequenced_semicolon : ∃ b,
    Shell.parsecmd 4 (fun i => [97, 59, 98].getD i 0) =
      .ok (some (.list (.exec [(0, 1)]) (.exec [(2, 3)])), b) ∧
    Always Sys.step (fun s => ∀ π c d U,
      At (.list (.exec [(0, 1)]) (.exec [(2, 3)])) console s.made π (.list c d) U →
      ∀ x ∈ s.started, (.right :: π) <:+ x.node → ∀ q Q, s.proc q = some Q →
      Foreground (.left :: π) Q.code.node → Sys.isZombie Q.code = true)
      (.start (.list (.exec [(0, 1)]) (.exec [(2, 3)])) console)
      [.go 0 true, .go 1 true, .stop 1, .wait 0 1, .go 0 true, .stop 0] := by
  have hcmd : (Shell.parsecmd 4 (fun i => [97, 59, 98].getD i 0)).toOption.bind Prod.fst =
      some (.list (.exec [(0, 1)]) (.exec [(2, 3)])) := by decide +kernel
  have horderly : Meets Sys.step Orderly (.start (.list (.exec [(0, 1)]) (.exec [(2, 3)])) console)
      [.go 0 true, .go 1 true, .stop 1, .wait 0 1, .go 0 true, .stop 0] := by
    rintro s ⟨⟩
    refine ⟨fun _ _ _ _ _ _ => rfl, ?_⟩
    rintro s ⟨⟩
    refine ⟨fun _ _ _ _ _ _ => rfl, ?_⟩
    rintro s ⟨⟩
    refine ⟨⟨_, _, rfl⟩, ?_⟩
    rintro s ⟨⟩
    refine ⟨trivial, ?_⟩
    rintro s ⟨⟩
    refine ⟨fun _ _ _ _ _ _ => rfl, ?_⟩
    rintro s ⟨⟩
    exact ⟨⟨_, _, rfl⟩, trivial⟩
  match hparse : Shell.parsecmd 4 (fun i => [97, 59, 98].getD i 0) with
  | .ok (c, b) =>
    rw [hparse] at hcmd
    obtain rfl : c = _ := hcmd
    exact ⟨b, rfl, always_sequenced (l := [97, 59, 98]) ⟨by decide, by decide, fun _ _ => rfl⟩
      (by decide) hparse console_inherited horderly⟩
  | .error _ =>
    rw [hparse] at hcmd
    cases hcmd

end Lists

end NorthOS.Runcmd
