import NorthOS.FileRefs
import NorthOS.Runs

/-!
Open files in whole runs. Each use of a file structure that was given a pipe or an inode
is still there, or a call is about to give it back, or pipeclose or iput has been called
for it, and only once; the references are exact all the time.
-/
namespace NorthOS.Files

open Process (ProcState NPROC)
open Runs

/-- What the call has yet to give back. -/
def Doing.pending : Doing → List Use
  | .closing r _ | .exiting _ _ r => r.toList
  | _ => []

namespace Sys

/-- How many processes are about to give the use back. -/
def pending (s : Sys) (x : Use) : ℕ := ∑ p ∈ Finset.range NPROC, (s.doing p).pending.count x

/-- How many file structures are in this use. -/
def inUse (s : Sys) (x : Use) : ℕ :=
  ∑ f ∈ Finset.range NFILE, if (s.file f).type = some x.2 ∧ (s.file f).life = x.1 then 1 else 0

end Sys

/-- References are exact, and each use of a file that was given a pipe or an inode goes
on, or its last reference has been dropped and pipeclose or iput is called for it once. -/
structure Exact (s : Sys) : Prop where
  ref : ∀ f, (s.file f).ref + ∑ p ∈ Finset.range NPROC, s.owing p f =
    ∑ p ∈ Finset.range NPROC, (s.named p f + s.held p f)
  opened : (s.opened.map Prod.fst).Nodup
  once : ∀ x, s.opened.count x = s.inUse x + s.pending x + s.released.count x
  inUse : ∀ f, (s.file f).type ≠ none → 0 < (s.file f).ref

/-- The panics of filedup and fileclose are not reached. -/
def NoPanic (s : Sys) : Act → Prop
  | .go p _ => s.state p = .RUNNING → ∀ f ∈ s.touched p, 1 ≤ (s.file f).ref
  | _ => True

section Uses

/-- Whether the file structure is in this use. -/
def File.uses (y : File) (x : Use) : ℕ := if y.type = some x.2 ∧ y.life = x.1 then 1 else 0

/-- The invariant of the uses: the numbers tell them apart, and each that was given a type
is somewhere. -/
structure Uses (s : Sys) : Prop where
  free : ∀ f, (s.file f).type ≠ none → 0 < (s.file f).ref
  slots : ∀ f, 0 < (s.file f).ref → f < NFILE
  life : ∀ f, (s.file f).life ≤ s.lives
  openedLife : ∀ x ∈ s.opened, x.1 ≤ s.lives
  apart : ∀ f g, 0 < (s.file f).ref → 0 < (s.file g).ref → (s.file f).life = (s.file g).life → f = g
  fresh : ∀ f, 0 < (s.file f).ref → (s.file f).type = none → ∀ x ∈ s.opened, x.1 ≠ (s.file f).life
  opened : (s.opened.map Prod.fst).Nodup
  once : ∀ x, s.opened.count x = s.inUse x + s.pending x + s.released.count x

variable {s s' : Sys} {p f : ℕ}

theorem Uses.typeless (h : Uses s) (hf : (s.file f).ref = 0) : (s.file f).type = none := by
  by_contra htype
  have hpos := h.free f htype
  omega

theorem inUse_update (s s' : Sys) {y : File} (hf : f < NFILE)
    (h : s'.file = Function.update s.file f y) (x : Use) :
    (s'.inUse x : ℤ) = s.inUse x + (y.uses x - (s.file f).uses x) := by
  have hcast : ∀ t : Sys, (t.inUse x : ℤ) = ∑ g ∈ Finset.range NFILE, ((t.file g).uses x : ℤ) := by
    intro t
    unfold Sys.inUse File.uses
    push_cast
    rfl
  rw [hcast, hcast, h, sum_change (W := fun g => ((s.file g).uses x : ℤ)) hf]
  · rw [Function.update_self]
  · intro g hg
    rw [Function.update_of_ne hg]

theorem pending_goTo (s : Sys) (hp : p < NPROC) (d : Doing) (x : Use) :
    ((s.goTo p d).pending x : ℤ) = s.pending x +
      (d.pending.count x - (s.doing p).pending.count x) := by
  have hcast : ∀ t : Sys, (t.pending x : ℤ) = ∑ q ∈ Finset.range NPROC,
      ((t.doing q).pending.count x : ℤ) := by
    intro t
    unfold Sys.pending
    push_cast
    rfl
  have hd : (s.goTo p d).doing = Function.update s.doing p d := rfl
  rw [hcast, hcast, hd, sum_change (W := fun q => ((s.doing q).pending.count x : ℤ)) hp]
  · rw [Function.update_self]
  · intro q hq
    rw [Function.update_of_ne hq]

/-- What the process is about to give back stays the same. -/
theorem Uses.goTo (h : Uses s) (hp : p < NPROC) {d : Doing} (hd : d.pending = (s.doing p).pending) :
    Uses (s.goTo p d) := by
  refine ⟨h.free, h.slots, h.life, h.openedLife, h.apart, h.fresh, h.opened, fun x => ?_⟩
  have hpending := pending_goTo s hp d x
  rw [hd] at hpending
  have honce := h.once x
  show s.opened.count x = s.inUse x + (s.goTo p d).pending x + s.released.count x
  omega

/-- Descriptors and the states of processes have no part in it. -/
theorem Uses.same (h : Uses s) (hfile : s'.file = s.file) (hdoing : s'.doing = s.doing)
    (hlives : s'.lives = s.lives)
    (hopened : s'.opened = s.opened) (hreleased : s'.released = s.released) : Uses s' := by
  obtain ⟨file, ofile, state, doing, lives, opened, released⟩ := s
  obtain ⟨file', ofile', state', doing', lives', opened', released'⟩ := s'
  obtain rfl : file' = file := hfile
  obtain rfl : doing' = doing := hdoing
  obtain rfl : lives' = lives := hlives
  obtain rfl : opened' = opened := hopened
  obtain rfl : released' = released := hreleased
  exact ⟨h.free, h.slots, h.life, h.openedLife, h.apart, h.fresh, h.opened, h.once⟩

/-- Changes of one file that leave its use alone, where it has references before and after. -/
theorem Uses.recount (h : Uses s) {y : File} (hpos : 0 < (s.file f).ref) (hpos' : 0 < y.ref)
    (htype : y.type = (s.file f).type) (hlife : y.life = (s.file f).life) :
    Uses (s.setFile f y) := by
  have hfile : ∀ g, ((s.setFile f y).file g).type = (s.file g).type ∧
      ((s.setFile f y).file g).life = (s.file g).life ∧
      (0 < ((s.setFile f y).file g).ref ↔ 0 < (s.file g).ref) := by
    intro g
    by_cases hg : g = f
    · subst hg
      rw [show (s.setFile g y).file g = y from Function.update_self ..]
      exact ⟨htype, hlife, iff_of_true hpos' hpos⟩
    · rw [show (s.setFile f y).file g = s.file g from Function.update_of_ne hg _ _]
      exact ⟨rfl, rfl, Iff.rfl⟩
  refine ⟨fun g hg => ?_, fun g hg => ?_, fun g => ?_, h.openedLife, fun g g' hg hg' he => ?_,
    fun g hg hnone => ?_, h.opened, fun x => ?_⟩
  · rw [(hfile g).1] at hg
    exact (hfile g).2.2.mpr (h.free g hg)
  · exact h.slots g ((hfile g).2.2.mp hg)
  · rw [(hfile g).2.1]
    exact h.life g
  · rw [(hfile g).2.1, (hfile g').2.1] at he
    exact h.apart g g' ((hfile g).2.2.mp hg) ((hfile g').2.2.mp hg') he
  · rw [(hfile g).1] at hnone
    rw [(hfile g).2.1]
    exact h.fresh g ((hfile g).2.2.mp hg) hnone
  · have huses : y.uses x = (s.file f).uses x := by
      unfold File.uses
      rw [htype, hlife]
    have hin := inUse_update s (s.setFile f y) (h.slots f hpos) rfl x
    have honce := h.once x
    show s.opened.count x = (s.setFile f y).inUse x + s.pending x + s.released.count x
    rw [huses] at hin
    omega

theorem Uses.dup (h : Uses s) {t : Sys} (ht : s.filedup f = some t) : Uses t := by
  obtain ⟨hpos, rfl⟩ := filedup_some ht
  have hmore : 0 < ({ s.file f with ref := (s.file f).ref + 1 } : File).ref := Nat.succ_pos _
  exact h.recount hpos hmore rfl rfl

theorem filedup_doing {t : Sys} (ht : s.filedup f = some t) : t.doing = s.doing := by
  obtain ⟨_, rfl⟩ := filedup_some ht
  rfl

theorem filealloc_doing {t : Sys} (ht : s.filealloc = some (t, f)) : t.doing = s.doing := by
  rw [(filealloc_some ht).2.2]
  rfl

/-- A free file gets a new use without a type. -/
theorem Uses.alloc (h : Uses s) {t : Sys} (ht : s.filealloc = some (t, f)) : Uses t := by
  obtain ⟨hlt, hzero, rfl⟩ := filealloc_some ht
  have hnone : (s.file f).type = none := h.typeless hzero
  have hself : Function.update s.file f { s.file f with ref := 1, life := s.lives + 1 } f =
      { s.file f with ref := 1, life := s.lives + 1 } := Function.update_self ..
  have hother : ∀ g, g ≠ f →
      Function.update s.file f { s.file f with ref := 1, life := s.lives + 1 } g = s.file g :=
    fun g hg => Function.update_of_ne hg _ _
  have hnew : ∀ g, (s.file g).life ≠ s.lives + 1 := fun g he => by
    have hle := h.life g
    omega
  refine ⟨fun g hg => ?_, fun g hg => ?_, fun g => ?_, fun x hx => Nat.le_succ_of_le
    (h.openedLife x hx), fun g g' hg hg' he => ?_, fun g hg htype x hx => ?_, h.opened, fun x => ?_⟩
  · change (Function.update s.file f _ g).type ≠ none at hg
    show 0 < (Function.update s.file f _ g).ref
    by_cases hgf : g = f
    · rw [hgf, hself] at hg
      exact absurd hnone hg
    · rw [hother g hgf] at hg ⊢
      exact h.free g hg
  · by_cases hgf : g = f
    · rw [hgf]
      exact hlt
    · change 0 < (Function.update s.file f _ g).ref at hg
      rw [hother g hgf] at hg
      exact h.slots g hg
  · show (Function.update s.file f _ g).life ≤ s.lives + 1
    by_cases hgf : g = f
    · rw [hgf, hself]
    · rw [hother g hgf]
      exact Nat.le_succ_of_le (h.life g)
  · change 0 < (Function.update s.file f _ g).ref at hg
    change 0 < (Function.update s.file f _ g').ref at hg'
    change (Function.update s.file f _ g).life = (Function.update s.file f _ g').life at he
    by_cases hgf : g = f
    · by_cases hgf' : g' = f
      · rw [hgf, hgf']
      · rw [hgf, hself, hother g' hgf'] at he
        exact absurd he.symm (hnew g')
    · rw [hother g hgf] at hg he
      by_cases hgf' : g' = f
      · rw [hgf', hself] at he
        exact absurd he (hnew g)
      · rw [hother g' hgf'] at hg' he
        exact h.apart g g' hg hg' he
  · change 0 < (Function.update s.file f _ g).ref at hg
    change (Function.update s.file f _ g).type = none at htype
    show x.1 ≠ (Function.update s.file f _ g).life
    by_cases hgf : g = f
    · rw [hgf, hself]
      have hle := h.openedLife x hx
      exact Nat.ne_of_lt (Nat.lt_succ_of_le hle)
    · rw [hother g hgf] at hg htype ⊢
      exact h.fresh g hg htype x hx
  · have hin := inUse_update s (s.setFile f { s.file f with ref := 1, life := s.lives + 1 }) hlt rfl
        x
    have hzero : ({ s.file f with ref := 1, life := s.lives + 1 } : File).uses x = 0 ∧
        (s.file f).uses x = 0 := by
      unfold File.uses
      rw [hnone]
      exact ⟨if_neg (by simp), if_neg (by simp)⟩
    have honce := h.once x
    show s.opened.count x = (s.setFile f { s.file f with ref := 1, life := s.lives + 1 }).inUse
      x + s.pending x + s.released.count x
    rw [hzero.1, hzero.2] at hin
    omega

/-- The use of a file gets a type, for the first time. -/
theorem Uses.setType (h : Uses s) (hpos : 0 < (s.file f).ref) (hnone : (s.file f).type = none)
    (t : Target) : Uses (s.setType f t) := by
  have hself : Function.update s.file f { s.file f with type := some t } f =
      { s.file f with type := some t } :=
    Function.update_self ..
  have hother : ∀ g, g ≠ f → Function.update s.file f { s.file f with type := some t } g =
      s.file g :=
    fun g hg => Function.update_of_ne hg _ _
  have hkeep : ∀ g, (Function.update s.file f { s.file f with type := some t } g).ref =
      (s.file g).ref ∧
      (Function.update s.file f { s.file f with type := some t } g).life = (s.file g).life := by
    intro g
    by_cases hgf : g = f
    · rw [hgf, hself]
      exact ⟨rfl, rfl⟩
    · rw [hother g hgf]
      exact ⟨rfl, rfl⟩
  refine ⟨fun g hg => ?_, fun g hg => ?_, fun g => ?_, fun x hx => ?_, fun g g' hg hg' he => ?_,
    fun g hg htype x hx => ?_, ?_, fun x => ?_⟩
  · change (Function.update s.file f _ g).type ≠ none at hg
    show 0 < (Function.update s.file f _ g).ref
    by_cases hgf : g = f
    · rw [hgf, hself]
      exact hpos
    · rw [hother g hgf] at hg ⊢
      exact h.free g hg
  · exact h.slots g ((hkeep g).1 ▸ hg)
  · exact (hkeep g).2.trans_le (h.life g)
  · rcases List.mem_cons.mp hx with rfl | hx'
    · exact h.life f
    · exact h.openedLife x hx'
  · exact h.apart g g' ((hkeep g).1 ▸ hg) ((hkeep g').1 ▸ hg')
      (((hkeep g).2.symm.trans he).trans (hkeep g').2)
  · change (Function.update s.file f _ g).type = none at htype
    have hgf : g ≠ f := by
      rintro rfl
      rw [hself] at htype
      cases htype
    rw [hother g hgf] at htype
    have hg' : 0 < (s.file g).ref := (hkeep g).1 ▸ hg
    refine ne_of_ne_of_eq ?_ (hkeep g).2.symm
    rcases List.mem_cons.mp hx with rfl | hx'
    · exact fun he => hgf (h.apart f g hpos hg' he).symm
    · exact h.fresh g hg' htype x hx'
  · refine List.nodup_cons.mpr ⟨fun hmem => ?_, h.opened⟩
    obtain ⟨x, hx, he⟩ := List.mem_map.mp hmem
    exact h.fresh f hpos hnone x hx he
  · have hin := inUse_update s (s.setType f t) (h.slots f hpos) rfl x
    have huses : ({ s.file f with type := some t } : File).uses x = (if ((s.file f).life, t) = x then 1 else 0) ∧
        (s.file f).uses x = 0 := by
      unfold File.uses
      rw [hnone]
      refine ⟨if_congr ?_ rfl rfl, if_neg (by simp)⟩
      constructor
      · rintro ⟨ht, hl⟩
        exact Prod.ext hl (Option.some.inj ht)
      · rintro rfl
        exact ⟨rfl, rfl⟩
    have honce := h.once x
    show (((s.file f).life, t) :: s.opened).count x = (s.setType f t).inUse x + s.pending
      x + s.released.count x
    rw [huses.1, huses.2] at hin
    rw [List.count_cons, honce]
    simp only [beq_iff_eq]
    split at hin
    · rename_i he
      rw [if_pos he]
      push_cast at hin
      omega
    · rename_i he
      rw [if_neg he]
      push_cast at hin
      omega

/-- The last reference of a file is dropped, and its use is to be given back. -/
theorem Uses.drop (h : Uses s) (hp : p < NPROC) {t : Sys} {r : Option Use}
    (ht : s.fileclose f = some (t, r))
    {d : Doing} (hd : d.pending = r.toList) (hnone : (s.doing p).pending = []) :
    Uses (t.goTo p d) := by
  obtain ⟨hpos, y, rfl, _, hlife, ⟨hmore, htype, rfl⟩ | ⟨hzero, htype, rfl⟩⟩ := fileclose_some ht
  · exact (h.recount hpos hmore htype hlife).goTo hp (hd.trans hnone.symm)
  · have hself : Function.update s.file f y f = y := Function.update_self ..
    have hother : ∀ g, g ≠ f → Function.update s.file f y g = s.file g :=
      fun g hg => Function.update_of_ne hg _ _
    have hne : ∀ g, 0 < (Function.update s.file f y g).ref → g ≠ f := by
      rintro g hg rfl
      rw [hself, hzero] at hg
      exact absurd hg (Nat.lt_irrefl 0)
    refine ⟨fun g hg => ?_, fun g hg => ?_, fun g => ?_, h.openedLife, fun g g' hg hg' he => ?_,
      fun g hg hg' x hx => ?_, h.opened, fun x => ?_⟩
    · change (Function.update s.file f y g).type ≠ none at hg
      show 0 < (Function.update s.file f y g).ref
      by_cases hgf : g = f
      · rw [hgf, hself] at hg
        exact absurd htype hg
      · rw [hother g hgf] at hg ⊢
        exact h.free g hg
    · change 0 < (Function.update s.file f y g).ref at hg
      rw [hother g (hne g hg)] at hg
      exact h.slots g hg
    · show (Function.update s.file f y g).life ≤ s.lives
      by_cases hgf : g = f
      · rw [hgf, hself, hlife]
        exact h.life f
      · rw [hother g hgf]
        exact h.life g
    · change 0 < (Function.update s.file f y g).ref at hg
      change 0 < (Function.update s.file f y g').ref at hg'
      change (Function.update s.file f y g).life = (Function.update s.file f y g').life at he
      have hgf := hne g hg
      have hgf' := hne g' hg'
      rw [hother g hgf] at hg he
      rw [hother g' hgf'] at hg' he
      exact h.apart g g' hg hg' he
    · change 0 < (Function.update s.file f y g).ref at hg
      change (Function.update s.file f y g).type = none at hg'
      show x.1 ≠ (Function.update s.file f y g).life
      have hgf := hne g hg
      rw [hother g hgf] at hg hg' ⊢
      exact h.fresh g hg hg' x hx
    · have hin := inUse_update s (s.setFile f y) (h.slots f hpos) rfl x
      have hpending := pending_goTo (s.setFile f y) hp d x
      have huses : y.uses x = 0 := by
        unfold File.uses
        rw [htype]
        exact if_neg (by simp)
      have hold : (s.file f).uses x = d.pending.count x := by
        rw [hd]
        unfold File.uses
        cases hf : (s.file f).type with
        | none =>
          rw [if_neg (by simp)]
          rfl
        | some t =>
          rw [Option.map_some, Option.toList_some, List.count_singleton]
          refine if_congr ?_ rfl rfl
          rw [beq_iff_eq]
          constructor
          · rintro ⟨ht, hl⟩
            exact Prod.ext hl (Option.some.inj ht)
          · rintro rfl
            exact ⟨rfl, rfl⟩
      have hstay : (s.setFile f y).pending x = s.pending x := rfl
      have hmine : ((s.setFile f y).doing p).pending = [] := hnone
      have honce := h.once x
      show s.opened.count x = (s.setFile f y).inUse x + ((s.setFile f y).goTo p d).pending
        x + s.released.count x
      rw [huses] at hin
      rw [hmine, hstay, List.count_nil] at hpending
      omega

/-- pipeclose or iput is called for the use. -/
theorem Uses.give (h : Uses s) (hp : p < NPROC) {r : Use} {d : Doing}
    (hold : (s.doing p).pending = [r]) (hd : d.pending = []) : Uses ((s.release r).goTo p d) := by
  refine ⟨h.free, h.slots, h.life, h.openedLife, h.apart, h.fresh, h.opened, fun x => ?_⟩
  have hpending := pending_goTo s hp d x
  have honce := h.once x
  rw [hold, hd, List.count_nil] at hpending
  show s.opened.count x = s.inUse x + (s.goTo p d).pending x + (r :: s.released).count x
  rw [List.count_cons]
  rw [List.count_singleton] at hpending
  split at hpending
  · rename_i he
    rw [if_pos he]
    push_cast at hpending
    omega
  · rename_i he
    rw [if_neg he]
    push_cast at hpending
    omega

theorem Uses.go {k : Option ℕ} {d : Doing} (h : Uses s) (hrefs : Refs s) (hp : p < NPROC)
    (hd : s.doing p = d) (hs : s.go p k d = some s') : Uses s' := by
  have hpending : (s.doing p).pending = d.pending := by rw [hd]
  have hset : ∀ {q fd x d'}, d'.pending = d.pending → Uses ((s.setFd q fd x).goTo p d') := by
    intro q fd x d' hd'
    refine Uses.goTo ?_ hp (hd'.trans hpending.symm)
    exact h.same rfl rfl rfl rfl rfl
  have hmove : ∀ {d'}, d'.pending = d.pending → Uses (s.goTo p d') :=
    fun hd' => h.goTo hp (hd'.trans hpending.symm)
  have hraw : ∀ f ∈ d.raw, (s.file f).ref = 1 ∧ (s.file f).type = none := by
    rw [← hd]
    exact hrefs.raw p
  cases d with
  | idle => cases hs
  | opened f ip =>
    dsimp only [Sys.go] at hs
    split at hs
    · exact Option.some.inj hs ▸ hset rfl
    · exact Option.some.inj hs ▸ hmove rfl
  | typing f ip =>
    obtain rfl := Option.some.inj hs
    obtain ⟨hone, hnone⟩ := hraw f (List.mem_singleton_self f)
    exact (h.setType (by omega) hnone _).goTo hp hpending.symm
  | dup f =>
    obtain ⟨t, ht, rfl⟩ := Option.map_eq_some_iff.mp hs
    exact (h.dup ht).goTo hp (by rw [filedup_doing ht, hpending]; rfl)
  | pipe0 f0 =>
    dsimp only [Sys.go] at hs
    split at hs
    · rename_i t f1 ht
      obtain rfl := Option.some.inj hs
      exact (h.alloc ht).goTo hp (by rw [filealloc_doing ht, hpending]; rfl)
    · exact Option.some.inj hs ▸ hmove rfl
  | pipe1 f0 f1 =>
    cases k with
    | some page =>
      obtain rfl := Option.some.inj hs
      obtain ⟨hone0, hnone0⟩ := hraw f0 List.mem_cons_self
      obtain ⟨hone1, hnone1⟩ := hraw f1 (List.mem_cons_of_mem _ (List.mem_singleton_self f1))
      have hne : f1 ≠ f0 := by
        have hapart := hrefs.apart p
        rw [hd] at hapart
        rintro rfl
        exact (List.nodup_cons.mp hapart).1 (List.mem_singleton_self f1)
      have hsame : (s.setType f0 (.pipe page false)).file f1 = s.file f1 :=
        Function.update_of_ne hne _ _
      refine Uses.goTo ?_ hp hpending.symm
      refine (h.setType (by omega) hnone0 _).setType ?_ ?_ _
      · rw [hsame]
        omega
      · rw [hsame]
        exact hnone1
    | none => exact Option.some.inj hs ▸ hmove rfl
  | pipe2 f0 f1 =>
    dsimp only [Sys.go] at hs
    split at hs
    · exact Option.some.inj hs ▸ hset rfl
    · exact Option.some.inj hs ▸ hmove rfl
  | pipe3 f0 f1 fd0 =>
    dsimp only [Sys.go] at hs
    split at hs
    · exact Option.some.inj hs ▸ hset rfl
    · exact Option.some.inj hs ▸ hset rfl
  | closing r fs =>
    cases r with
    | some r => exact Option.some.inj hs ▸ h.give hp hpending rfl
    | none =>
      cases fs with
      | nil => exact Option.some.inj hs ▸ hmove rfl
      | cons f fs =>
        obtain ⟨⟨t, r⟩, ht, rfl⟩ := Option.map_eq_some_iff.mp hs
        exact h.drop hp ht rfl hpending
  | fork np i =>
    dsimp only [Sys.go] at hs
    split at hs
    · split at hs
      · obtain ⟨t, ht, rfl⟩ := Option.map_eq_some_iff.mp hs
        exact (h.dup ht).goTo hp (by rw [filedup_doing ht, hpending]; rfl)
      · exact Option.some.inj hs ▸ hmove rfl
    · obtain rfl := Option.some.inj hs
      have hidle : Uses (s.goTo p .idle) := hmove rfl
      exact hidle.same rfl rfl rfl rfl rfl
  | forkSet np i f => exact Option.some.inj hs ▸ hset rfl
  | exit fd =>
    dsimp only [Sys.go] at hs
    split at hs
    · split at hs
      · obtain ⟨⟨t, r⟩, ht, rfl⟩ := Option.map_eq_some_iff.mp hs
        exact h.drop hp ht rfl hpending
      · exact Option.some.inj hs ▸ hmove rfl
    · obtain rfl := Option.some.inj hs
      have hidle : Uses (s.goTo p .idle) := hmove rfl
      exact hidle.same rfl rfl rfl rfl rfl
  | exiting f fd r =>
    cases r with
    | some r => exact Option.some.inj hs ▸ h.give hp hpending rfl
    | none => exact Option.some.inj hs ▸ hset rfl

theorem Uses.step {a : Act} (h : Uses s) (hrefs : Refs s) (hs : s.step a = some s') : Uses s' := by
  cases a with
  | sysOpen p ip =>
    obtain ⟨⟨hrun, hd⟩, hs⟩ := Option.ite_none_right_eq_some.mp hs
    obtain rfl := Option.some.inj hs
    split
    · rename_i t f ht
      exact (h.alloc ht).goTo (hrefs.inside p hrun) (by rw [filealloc_doing ht, hd]; rfl)
    · exact h
  | sysDup p fd =>
    obtain ⟨⟨hrun, hd⟩, hs⟩ := Option.ite_none_right_eq_some.mp hs
    obtain rfl := Option.some.inj hs
    split
    · rename_i f fd' _ _
      have hset : Uses (s.setFd p fd' (some f)) := h.same rfl rfl rfl rfl rfl
      refine hset.goTo (hrefs.inside p hrun) ?_
      show _ = (s.doing p).pending
      rw [hd]
      rfl
    · exact h
  | sysPipe p =>
    obtain ⟨⟨hrun, hd⟩, hs⟩ := Option.ite_none_right_eq_some.mp hs
    obtain rfl := Option.some.inj hs
    split
    · rename_i t f ht
      exact (h.alloc ht).goTo (hrefs.inside p hrun) (by rw [filealloc_doing ht, hd]; rfl)
    · exact h
  | sysClose p fd =>
    obtain ⟨⟨hrun, hd⟩, hs⟩ := Option.ite_none_right_eq_some.mp hs
    obtain rfl := Option.some.inj hs
    split
    · have hset : Uses (s.setFd p fd none) := h.same rfl rfl rfl rfl rfl
      refine hset.goTo (hrefs.inside p hrun) ?_
      show _ = (s.doing p).pending
      rw [hd]
      rfl
    · exact h
  | fork p np =>
    obtain ⟨_, hs⟩ := Option.ite_none_right_eq_some.mp hs
    obtain ⟨⟨hrun, hd⟩, hs⟩ := Option.ite_none_right_eq_some.mp hs
    obtain rfl := Option.some.inj hs
    have hmove : Uses (s.goTo p (.fork np 0)) := h.goTo (hrefs.inside p hrun) (by rw [hd]; rfl)
    exact hmove.same rfl rfl rfl rfl rfl
  | exit p =>
    obtain ⟨⟨hrun, hd⟩, hs⟩ := Option.ite_none_right_eq_some.mp hs
    obtain rfl := Option.some.inj hs
    exact h.goTo (hrefs.inside p hrun) (by rw [hd]; rfl)
  | wait np =>
    obtain ⟨_, hs⟩ := Option.ite_none_right_eq_some.mp hs
    obtain rfl := Option.some.inj hs
    exact h.same rfl rfl rfl rfl rfl
  | go p k =>
    obtain ⟨hrun, hs⟩ := Option.ite_none_right_eq_some.mp hs
    exact h.go hrefs (hrefs.inside p hrun) rfl hs

end Uses

section Runs

theorem start_refs : Refs Sys.start := by
  have hweight : ∀ p f, weight Sys.start p f = 0 := by
    intro p f
    have hnamed : Sys.start.named p f = 0 := Finset.sum_eq_zero fun _ _ => rfl
    rw [weight_at rfl, hnamed]
    rfl
  refine ⟨fun f => ?_, fun _ => trivial, fun p hp => absurd rfl hp, fun p hp => ?_,
    fun _ _ _ _ => rfl,
    fun p np hc => ?_, fun p q np hc => ?_, fun p f hf => ?_, fun p => List.nodup_nil⟩
  · rw [Finset.sum_eq_zero fun p _ => hweight p f]
    rfl
  · change (if p = 0 then ProcState.RUNNING else .UNUSED) = .RUNNING at hp
    split at hp
    · rename_i h0
      rw [h0]
      decide
    · cases hp
  · cases hc
  · cases hc
  · cases hf

theorem start_uses : Uses Sys.start := by
  refine ⟨fun f hf => absurd rfl hf, fun f hf => absurd hf (Nat.lt_irrefl 0), fun _ => le_rfl,
    fun x hx => ?_,
    fun f g hf => absurd hf (Nat.lt_irrefl 0), fun f hf => absurd hf (Nat.lt_irrefl 0),
    List.nodup_nil, fun x => ?_⟩
  · cases hx
  · have hin : Sys.start.inUse x = 0 := Finset.sum_eq_zero fun f _ => if_neg (by simp [Sys.start])
    have hpending : Sys.start.pending x = 0 := Finset.sum_eq_zero fun p _ => rfl
    rw [hin, hpending]
    rfl

theorem exact_of {s : Sys} (hrefs : Refs s) (huses : Uses s) : Exact s where
  ref := by
    intro f
    have href := hrefs.ref f
    have hsplit : ∑ p ∈ Finset.range NPROC, weight s p f =
        ∑ p ∈ Finset.range NPROC, ((s.named p f + s.held p f : ℕ) : ℤ) -
          ∑ p ∈ Finset.range NPROC, (s.owing p f : ℤ) := by
      rw [← Finset.sum_sub_distrib]
      refine Finset.sum_congr rfl fun p _ => ?_
      unfold weight
      push_cast
      rfl
    rw [hsplit, ← Nat.cast_sum, ← Nat.cast_sum] at href
    omega
  opened := huses.opened
  once := huses.once
  inUse := huses.free

/-- In every run references to open files are exact, each use of a file is given back
once, when its last reference is dropped, and filedup and fileclose do not panic. -/
theorem always_exact (as : List Act) :
    Always Sys.step Exact .start as ∧ Along Sys.step NoPanic .start as := by
  have hkeep : ∀ s a t, Refs s ∧ Uses s → s.step a = some t → Refs t ∧ Uses t := by
    rintro s a t ⟨hrefs, huses⟩ hs
    exact ⟨hrefs.step (fun _ hzero => huses.typeless hzero) hs, huses.step hrefs hs⟩
  have hstart : Refs Sys.start ∧ Uses Sys.start := ⟨start_refs, start_uses⟩
  constructor
  · exact (always_of_invariant hkeep hstart as).mono fun _ h => exact_of h.1 h.2
  · refine along_of_invariant (fun s a h => ?_) hkeep hstart as
    cases a with
    | go p k =>
      intro hrun f hf
      exact h.1.one_le (h.1.inside p hrun) (h.1.touched_pos hf)
    | _ => trivial

end Runs

end NorthOS.Files
