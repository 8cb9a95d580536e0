import NorthOS.CString
import NorthOS.Runs
import NorthOS.TextCopies

/-!
The path of the explorer. Entering a directory puts its name behind a '/', and Back asks
`getParentPath`, which searches the path backwards for the last '/' and answers in a static
buffer. Where there is no '/' the search ends before the path: the terminator goes before the
buffer, and the buffer keeps what it has from an earlier call.
-/
namespace NorthOS.Navigation

open CString Runs
open TextCopies (MAX_SHORT_STRLEN MAX_LONG_STRLEN)

def slash : ℤ := 47

/-- The name of an entry that is shown, as the kernel and fmtname leave it. -/
structure Name where
  chars : List ℤ
  ne_nil : chars ≠ []
  short : chars.length < MAX_SHORT_STRLEN
  nonzero : 0 ∉ chars
  whole : slash ∉ chars

def Name.cells (name : Name) : Cells := fun i => name.chars.getD i 0

/-- `current_path`, and the static buffer of getParentPath. -/
structure Explorer where
  current_path : Cells
  buf : Cells

/-- The loop from the end of the path back to a '/', or before its beginning. -/
def slashBefore (path : Cells) : ℕ → ℤ
  | 0 => if path 0 = slash then 0 else -1
  | p + 1 => if path (p + 1) = slash then (p + 1 : ℕ) else slashBefore path p

/-- `buf[len] = '\0'`; a cell before the buffer is not one of its cells. -/
def endAt (len : ℤ) (buf : Cells) : Option Cells :=
  if len < 0 then some buf else store MAX_LONG_STRLEN len.toNat 0 buf

def root : Cells := fun i => if i = 0 then slash else 0

/-- The buffer after the call, and where the terminator has been written. -/
def getParentPath (path buf : Cells) : Option (Cells × ℤ) :=
  (strlen MAX_LONG_STRLEN path).bind fun n =>
    let len := slashBefore path n
    let len := if len ≥ MAX_LONG_STRLEN then (MAX_LONG_STRLEN : ℤ) - 1 else len
    ((memmove MAX_LONG_STRLEN buf MAX_LONG_STRLEN path len).bind (endAt len)).bind fun buf =>
      (strlen MAX_LONG_STRLEN buf).bind fun n =>
        if n = 0 then (strcpy MAX_LONG_STRLEN 0 buf 2 0 root).map fun buf => (buf, len)
        else some (buf, len)

def handleBack (s : Explorer) : Option Explorer :=
  (getParentPath s.current_path s.buf).bind fun parent =>
    (string MAX_LONG_STRLEN parent.1).bind fun parentPath =>
      if parentPath = [slash] then
        (store MAX_LONG_STRLEN 0 0 s.current_path).map fun path => ⟨path, parent.1⟩
      else
        (strcpy MAX_LONG_STRLEN 0 s.current_path MAX_LONG_STRLEN 0 parent.1).map fun path =>
          ⟨path, parent.1⟩

def handleHome (s : Explorer) : Option Explorer :=
  (store MAX_LONG_STRLEN 0 0 s.current_path).map fun path => { s with current_path := path }

/-- What a double click on a directory does to the path, and Enter on a selected one. -/
def enter (s : Explorer) (name : Name) : Option Explorer :=
  (strlen MAX_LONG_STRLEN s.current_path).bind fun current_path_length =>
    (strlen MAX_SHORT_STRLEN name.cells).bind fun name_length =>
      if current_path_length + name_length + 2 ≥ MAX_LONG_STRLEN then some s
      else if current_path_length > 0 then
        ((store MAX_LONG_STRLEN current_path_length slash s.current_path).bind fun path =>
          strcpy MAX_LONG_STRLEN (current_path_length + 1) path MAX_SHORT_STRLEN 0 name.cells).map
            fun path => { s with current_path := path }
      else
        (strcpy MAX_LONG_STRLEN 0 s.current_path MAX_SHORT_STRLEN 0 name.cells).map
          fun path => { s with current_path := path }

inductive Action
  | enter (name : Name)
  | back
  | home

def Explorer.step (s : Explorer) : Action → Option Explorer
  | .enter name => Navigation.enter s name
  | .back => handleBack s
  | .home => handleHome s

/-- main clears the path, and the static buffer begins as zeros. -/
def Explorer.start : Explorer := ⟨fun _ => 0, fun _ => 0⟩

section Trails

/-- The names joined by slashes; the directory entered last comes first in the list. -/
def joined : List Name → List ℤ
  | [] => []
  | [name] => name.chars
  | name :: outer => joined outer ++ slash :: name.chars

/-- The directories that have been entered and not left; one whose path would be too long is
not entered. -/
def visit (trail : List Name) : Action → List Name
  | .enter name =>
    if (joined trail).length + name.chars.length + 2 ≥ MAX_LONG_STRLEN then trail
    else name :: trail
  | .back => trail.tail
  | .home => []

/-- What is before the last '/' of a path. -/
def beforeSlash (path : List ℤ) : List ℤ :=
  ((path.reverse.dropWhile (· ≠ slash)).tail).reverse

/-- The path of the parent: what is before the last '/', or "/" where that is empty. -/
def parentOf (path : List ℤ) : List ℤ :=
  if beforeSlash path = [] then [slash] else beforeSlash path

variable {trail : List Name} {name : Name} {u v : List ℤ}

theorem joined_cons (h : trail ≠ []) :
    joined (name :: trail) = joined trail ++ slash :: name.chars := by
  cases trail with
  | nil => exact absurd rfl h
  | cons outer trail => rfl

theorem joined_ne_nil (h : trail ≠ []) : joined trail ≠ [] := by
  cases trail with
  | nil => exact absurd rfl h
  | cons name trail =>
    by_cases houter : trail = []
    · subst houter
      exact name.ne_nil
    · rw [joined_cons houter]
      exact List.append_ne_nil_of_right_ne_nil _ (List.cons_ne_nil _ _)

/-- No directory is joined to something of the form "…/". -/
theorem joined_ne_slash : joined trail ≠ [slash] := by
  cases trail with
  | nil => exact (List.cons_ne_nil _ _).symm
  | cons name trail =>
    by_cases houter : trail = []
    · subst houter
      intro h
      have hchars : name.chars = [slash] := h
      exact name.whole (hchars ▸ List.mem_singleton_self slash)
    · rw [joined_cons houter]
      intro h
      have hlen := congrArg List.length h
      have hname := List.length_pos_of_ne_nil name.ne_nil
      rw [List.length_append, List.length_cons, List.length_singleton] at hlen
      omega

theorem slash_mem_joined_iff : slash ∈ joined trail ↔ 2 ≤ trail.length := by
  match trail with
  | [] => exact iff_of_false List.not_mem_nil (Nat.not_succ_le_zero 1)
  | [name] => exact iff_of_false name.whole (Nat.lt_irrefl 1)
  | name :: outer :: trail =>
    refine iff_of_true ?_ (by rw [List.length_cons, List.length_cons]; omega)
    rw [joined_cons (List.cons_ne_nil _ _)]
    exact List.mem_append_right _ List.mem_cons_self

theorem beforeSlash_split (hv : slash ∉ v) : beforeSlash (u ++ slash :: v) = u := by
  have hskip : ∀ c ∈ v.reverse, (c ≠ slash : Bool) = true := by
    intro c hc
    exact decide_eq_true fun hslash => hv (hslash ▸ List.mem_reverse.mp hc)
  unfold beforeSlash
  rw [List.reverse_append, List.reverse_cons, List.append_assoc, List.dropWhile_append_of_pos hskip,
    List.singleton_append, List.dropWhile_cons_of_neg (by simp), List.tail_cons,
    List.reverse_reverse]

theorem exists_split (h : slash ∈ u) : ∃ v w, u = v ++ slash :: w ∧ slash ∉ w := by
  obtain ⟨w, v, hsplit, hw⟩ := List.eq_append_cons_of_mem (List.mem_reverse.mpr h)
  refine ⟨v.reverse, w.reverse, ?_, fun hmem => hw (List.mem_reverse.mp hmem)⟩
  rw [← List.reverse_reverse u, hsplit, List.reverse_append, List.reverse_cons, List.append_assoc]
  rfl

end Trails

section Parent

variable {path buf : Cells} {u v l : List ℤ} {p : ℕ}

theorem slashBefore_eq (hslash : path u.length = slash)
    (hnone : ∀ i, u.length < i → i ≤ p → path i ≠ slash) (hp : u.length ≤ p) :
    slashBefore path p = u.length := by
  induction p with
  | zero =>
    have hzero : u.length = 0 := Nat.le_zero.mp hp
    rw [hzero] at hslash ⊢
    exact if_pos hslash
  | succ p ih =>
    rcases hp.eq_or_lt with heq | hlt
    · rw [slashBefore, ← heq, if_pos hslash]
    · rw [slashBefore, if_neg (hnone _ hlt le_rfl)]
      exact ih (fun i hi hi' => hnone i hi (Nat.le_succ_of_le hi')) (Nat.le_of_lt_succ hlt)

theorem slashBefore_none (hnone : ∀ i ≤ p, path i ≠ slash) : slashBefore path p = -1 := by
  induction p with
  | zero => exact if_neg (hnone 0 le_rfl)
  | succ p ih =>
    rw [slashBefore, if_neg (hnone _ le_rfl)]
    exact ih fun i hi => hnone i (Nat.le_succ_of_le hi)

/-- What getParentPath ends with: an empty answer becomes "/". -/
theorem orRoot (h : Holds MAX_LONG_STRLEN buf l) {len : ℤ} :
    ∃ out, (strlen MAX_LONG_STRLEN buf).bind (fun n =>
        if n = 0 then (strcpy MAX_LONG_STRLEN 0 buf 2 0 root).map fun buf => (buf, len)
        else some (buf, len)) = some (out, len) ∧
      Holds MAX_LONG_STRLEN out (if l = [] then [slash] else l) := by
  rw [h.strlen, Option.bind_some]
  by_cases hl : l = []
  · have hroot : Holds 2 root [slash] := by
      refine ⟨Nat.lt_succ_self 1, by decide, fun i hi => ?_⟩
      rcases i with _ | _ | i
      · rfl
      · rfl
      · rw [List.length_singleton] at hi
        omega
    obtain ⟨out, hout, hholds⟩ := hroot.strcpy_rest (v := []) (n := MAX_LONG_STRLEN) (a := buf)
      (by decide)
    rw [List.length_nil] at hout
    rw [if_pos (hl ▸ List.length_nil), hout, if_pos hl]
    exact ⟨out, rfl, hholds⟩
  · rw [if_neg (fun hlen => hl (List.length_eq_zero_iff.mp hlen)), if_neg hl]
    exact ⟨buf, rfl, h⟩

theorem getParentPath_split (h : Holds MAX_LONG_STRLEN path (u ++ slash :: v)) (hv : slash ∉ v) :
    ∃ out, getParentPath path buf = some (out, (u.length : ℤ)) ∧
      Holds MAX_LONG_STRLEN out (if u = [] then [slash] else u) := by
  have hroom := h.room
  have hlen : (u ++ slash :: v).length = u.length + v.length + 1 := by
    rw [List.length_append, List.length_cons, Nat.add_assoc]
  have hnone : ∀ i, u.length < i → i ≤ (u ++ slash :: v).length → path i ≠ slash := by
    intro i hi hi' hslash
    rcases hi'.eq_or_lt with heq | hlt
    · rw [heq, h.zero] at hslash
      revert hslash
      decide
    · have hsplit : u ++ slash :: v = (u ++ [slash]) ++ (v ++ []) := by
        rw [List.append_nil, List.append_assoc]
        rfl
      have hmem : path i ∈ v := Holds.cell_mem (hsplit ▸ h)
        (by rw [List.length_append, List.length_singleton]; exact hi)
        (by rw [List.length_append, List.length_singleton]; omega)
      exact hv (hslash ▸ hmem)
  have hfound := slashBefore_eq h.cell_between hnone (by omega)
  obtain ⟨ended, hended, hholds⟩ := Holds.memmove_end (n := MAX_LONG_STRLEN) (a := buf) h (by omega)
  obtain ⟨out, hout, hdone⟩ := orRoot hholds
  refine ⟨out, ?_, hdone⟩
  unfold getParentPath
  rw [h.strlen, Option.bind_some]
  simp only [hfound]
  rw [if_neg (by omega)]
  have hend : endAt (u.length : ℤ) = store MAX_LONG_STRLEN u.length 0 := by
    funext buf
    unfold endAt
    rw [if_neg (by omega), Int.toNat_natCast]
  rw [hend, hended]
  exact hout

/-- Without a '/' the terminator goes before the buffer, and an old answer stays in it. -/
theorem getParentPath_none (h : Holds MAX_LONG_STRLEN path u) (hu : slash ∉ u)
    (hbuf : Holds MAX_LONG_STRLEN buf l) :
    ∃ out, getParentPath path buf = some (out, -1) ∧
      Holds MAX_LONG_STRLEN out (if l = [] then [slash] else l) := by
  have hnone : ∀ i ≤ u.length, path i ≠ slash := by
    intro i hi hslash
    rcases hi.eq_or_lt with rfl | hlt
    · rw [h.zero] at hslash
      revert hslash
      decide
    · rw [h.cell hlt] at hslash
      exact hu (hslash ▸ List.getElem_mem hlt)
  have hfound := slashBefore_none hnone
  obtain ⟨out, hout, hdone⟩ := orRoot hbuf
  refine ⟨out, ?_, hdone⟩
  unfold getParentPath
  rw [h.strlen, Option.bind_some]
  simp only [hfound]
  exact hout

end Parent

/-- The path of the explorer is that of the directories entered. -/
structure Shows (s : Explorer) (trail : List Name) : Prop where
  path : Holds MAX_LONG_STRLEN s.current_path (joined trail)
  buf : ∃ l, Holds MAX_LONG_STRLEN s.buf l

/-- `getParentPath` answers with the parent of the path and writes in its buffer only. -/
def Answers (s : Explorer) (a : Action) : Prop :=
  a = .back → ∃ out len, getParentPath s.current_path s.buf = some (out, len) ∧ 0 ≤ len ∧
    ∀ l, Holds MAX_LONG_STRLEN s.current_path l → Holds MAX_LONG_STRLEN out (parentOf l)

/-- Back is clicked where the path has a '/'. -/
def TwoLevels (s : Explorer) (a : Action) : Prop :=
  a = .back → ∀ l, Holds MAX_LONG_STRLEN s.current_path l → slash ∈ l

section Steps

variable {s t : Explorer} {trail : List Name} {name : Name} {a : Action}

theorem Name.holds (name : Name) : Holds MAX_SHORT_STRLEN name.cells name.chars where
  room := name.short
  nonzero := name.nonzero
  cells := fun _ _ => rfl

theorem store_nil (path : Cells) : ∃ out, store MAX_LONG_STRLEN 0 0 path = some out ∧
    Holds MAX_LONG_STRLEN out [] :=
  ⟨_, store_eq (by decide), holds_nil (by decide) (Function.update_self (0 : ℕ) (0 : ℤ) path)⟩

theorem handleHome_shows (h : Shows s trail) : ∃ t, handleHome s = some t ∧ Shows t [] := by
  obtain ⟨out, hout, hholds⟩ := store_nil s.current_path
  unfold handleHome
  rw [hout, Option.map_some]
  exact ⟨_, rfl, hholds, h.buf⟩

theorem visit_enter : visit trail (.enter name) =
    if (joined trail).length + name.chars.length + 2 ≥ MAX_LONG_STRLEN then trail
    else name :: trail := rfl

theorem enter_shows (h : Shows s trail) (name : Name) :
    ∃ t, enter s name = some t ∧ Shows t (visit trail (.enter name)) := by
  have hpath := h.path
  unfold enter
  rw [visit_enter, hpath.strlen, Option.bind_some, name.holds.strlen, Option.bind_some]
  by_cases hfull : (joined trail).length + name.chars.length + 2 ≥ MAX_LONG_STRLEN
  · rw [if_pos hfull, if_pos hfull]
    exact ⟨s, rfl, h⟩
  rw [if_neg hfull, if_neg hfull]
  by_cases htop : trail = []
  · subst htop
    obtain ⟨out, hout, hholds⟩ := Holds.strcpy_rest (v := []) (w := name.chars)
      (n := MAX_LONG_STRLEN) (a := s.current_path) name.holds (by omega)
    rw [List.length_nil] at hout
    rw [if_neg (show ¬(joined []).length > 0 from lt_irrefl 0), hout]
    exact ⟨_, rfl, hholds, h.buf⟩
  · have hbegins : Begins s.current_path (joined trail) :=
      Holds.begins (v := []) ((List.append_nil (joined trail)).symm ▸ hpath)
    obtain ⟨out, hout, hholds⟩ := name.holds.strcpy_whole (n := MAX_LONG_STRLEN)
      (hbegins.update (c := slash)) (by
        rw [List.mem_append, List.mem_singleton, not_or]
        exact ⟨hpath.nonzero, by decide⟩) (by
        rw [List.length_append, List.length_singleton]
        omega)
    rw [List.length_append, List.length_singleton] at hout
    rw [if_pos (List.length_pos_of_ne_nil (joined_ne_nil htop)), store_eq hpath.room,
      Option.bind_some, hout]
    refine ⟨_, rfl, ?_, h.buf⟩
    rw [joined_cons htop]
    rw [List.append_assoc] at hholds
    exact hholds

theorem parentOf_joined (h : 2 ≤ trail.length) : parentOf (joined trail) = joined trail.tail := by
  cases trail with
  | nil => exact absurd h (by decide)
  | cons name outer =>
    have houter : outer ≠ [] := by
      rintro rfl
      exact Nat.lt_irrefl 1 h
    unfold parentOf
    rw [joined_cons houter, beforeSlash_split name.whole, if_neg (joined_ne_nil houter)]
    rfl

theorem answer (h : Shows s trail) (hlevels : 2 ≤ trail.length) :
    ∃ out len, getParentPath s.current_path s.buf = some (out, len) ∧ 0 ≤ len ∧
      Holds MAX_LONG_STRLEN out (joined trail.tail) := by
  obtain ⟨u, v, hsplit, hv⟩ := exists_split (slash_mem_joined_iff.mpr hlevels)
  obtain ⟨out, hout, hholds⟩ := getParentPath_split (hsplit ▸ h.path) hv
  refine ⟨out, u.length, hout, Int.natCast_nonneg _, ?_⟩
  have hparent := parentOf_joined hlevels
  rw [hsplit] at hparent
  unfold parentOf at hparent
  rw [beforeSlash_split hv] at hparent
  exact hparent ▸ hholds

theorem handleBack_shows (h : Shows s trail) (hlevels : 2 ≤ trail.length) :
    ∃ t, handleBack s = some t ∧ Shows t trail.tail := by
  obtain ⟨out, len, hout, _, hholds⟩ := answer h hlevels
  obtain ⟨path, hpath, hdone⟩ := hholds.strcpy_rest (v := []) (n := MAX_LONG_STRLEN)
    (a := s.current_path) hholds.room
  rw [List.length_nil] at hpath
  unfold handleBack
  rw [hout, Option.bind_some, hholds.string, Option.bind_some, if_neg joined_ne_slash, hpath]
  exact ⟨_, rfl, hdone, _, hholds⟩

theorem twoLevels_back_iff (h : Shows s trail) : TwoLevels s .back ↔ 2 ≤ trail.length := by
  rw [← slash_mem_joined_iff]
  constructor
  · intro hslash
    exact hslash rfl _ h.path
  · intro hslash _ l hl
    exact hl.unique h.path ▸ hslash

theorem answers_iff (h : Shows s trail) : Answers s a ↔ TwoLevels s a := by
  cases a with
  | enter name => exact iff_of_true (fun hback => nomatch hback) fun hback => nomatch hback
  | home => exact iff_of_true (fun hback => nomatch hback) fun hback => nomatch hback
  | back =>
    constructor
    · intro hanswers
      obtain ⟨out, len, hout, hlen, _⟩ := hanswers rfl
      rw [twoLevels_back_iff h, ← slash_mem_joined_iff]
      by_contra hslash
      obtain ⟨l, hl⟩ := h.buf
      obtain ⟨out', hout', _⟩ := getParentPath_none h.path hslash hl
      cases hout.symm.trans hout'
      exact absurd hlen (by decide)
    · intro hlevels _
      have hlevels' := (twoLevels_back_iff h).mp hlevels
      obtain ⟨out, len, hout, hlen, hholds⟩ := answer h hlevels'
      refine ⟨out, len, hout, hlen, fun l hl => ?_⟩
      rw [hl.unique h.path, parentOf_joined hlevels']
      exact hholds

theorem step_shows (h : Shows s trail) (ha : TwoLevels s a) :
    ∃ t, s.step a = some t ∧ Shows t (visit trail a) := by
  cases a with
  | enter name => exact enter_shows h name
  | back => exact handleBack_shows h ((twoLevels_back_iff h).mp ha)
  | home => exact handleHome_shows h

theorem run_shows {as : List Action} (h : Shows s trail)
    (has : Along Explorer.step TwoLevels s as) :
    ∃ t, run Explorer.step s as = some t ∧ Shows t (as.foldl visit trail) := by
  induction as generalizing s trail with
  | nil => exact ⟨s, rfl, h⟩
  | cons a as ih =>
    obtain ⟨t, ht, hs⟩ := step_shows h has.1
    obtain ⟨u, hu, hus⟩ := ih hs (has.2 t ht)
    refine ⟨u, ?_, hus⟩
    rw [run, ht]
    exact hu

theorem start_shows : Shows .start [] :=
  ⟨holds_nil (by decide) rfl, [], holds_nil (by decide) rfl⟩

end Steps

/-- What makes navigation reversible: the path is that of the directories entered, Back asks
for the parent of the path alone, and Back after entering a directory gives the path back. -/
structure Reversible (as : List Action) : Prop where
  path : ∀ bs, bs <+: as → ∃ s, run Explorer.step .start bs = some s ∧
    Holds MAX_LONG_STRLEN s.current_path (joined (bs.foldl visit []))
  answers : Along Explorer.step Answers .start as
  restores : ∀ bs name s t l, bs ++ [.enter name, .back] <+: as →
    run Explorer.step .start bs = some s → Holds MAX_LONG_STRLEN s.current_path l →
      l.length + name.chars.length + 2 < MAX_LONG_STRLEN →
        run Explorer.step .start (bs ++ [.enter name, .back]) = some t →
          Holds MAX_LONG_STRLEN t.current_path l

theorem along_answers_iff (as : List Action) :
    Along Explorer.step Answers .start as ↔ Along Explorer.step TwoLevels .start as := by
  have keep {C : Explorer → Action → Prop} (hC : ∀ s a, (∃ trail, Shows s trail) → C s a →
      TwoLevels s a)
      (s : Explorer) (a : Action) (t : Explorer) (h : ∃ trail, Shows s trail) (ha : C s a)
      (ht : s.step a = some t) : ∃ trail, Shows t trail := by
    have hlevels := hC s a h ha
    obtain ⟨trail, hs⟩ := h
    obtain ⟨u, hu, hus⟩ := step_shows hs hlevels
    cases ht.symm.trans hu
    exact ⟨_, hus⟩
  have hanswers : ∀ s a, (∃ trail, Shows s trail) → Answers s a → TwoLevels s a := by
    rintro s a ⟨trail, hs⟩
    exact (answers_iff hs).mp
  constructor
  · exact along_of_along hanswers (keep hanswers) ⟨[], start_shows⟩
  · refine along_of_along ?_ (keep fun s a _ h => h) ⟨[], start_shows⟩
    rintro s a ⟨trail, hs⟩
    exact (answers_iff hs).mpr

/-- Navigation is reversible exactly in the runs in which Back is clicked only where the path
has a '/', two directories down or more. -/
theorem reversible_iff (as : List Action) :
    Reversible as ↔ Along Explorer.step TwoLevels .start as := by
  constructor
  · intro h
    exact (along_answers_iff as).mp h.answers
  · intro h
    refine ⟨fun bs hbs => ?_, (along_answers_iff as).mpr h, ?_⟩
    · obtain ⟨s, hs, hshows⟩ := run_shows start_shows (h.initial hbs)
      exact ⟨s, hs, hshows.path⟩
    · intro bs name s t l hbs hs hl hroom ht
      have hbegun : bs <+: as := (List.prefix_append bs _).trans hbs
      obtain ⟨s', hs', hshows⟩ := run_shows start_shows (h.initial hbegun)
      obtain ⟨t', ht', htshows⟩ := run_shows start_shows (h.initial hbs)
      cases hs.symm.trans hs'
      cases ht.symm.trans ht'
      have hpath := htshows.path
      rw [List.foldl_append, List.foldl_cons, List.foldl_cons, List.foldl_nil, visit_enter,
        if_neg (by rw [← hl.unique hshows.path]; omega)] at hpath
      exact hl.unique hshows.path ▸ hpath

def nameOf (c : ℤ) (hc : c ≠ 0 ∧ c ≠ slash) : Name where
  chars := [c]
  ne_nil := List.cons_ne_nil _ _
  short := show 1 < MAX_SHORT_STRLEN by decide
  nonzero := fun hmem => hc.1 (List.mem_singleton.mp hmem).symm
  whole := fun hmem => hc.2 (List.mem_singleton.mp hmem).symm

/-- Down to a/b and back twice: the answer for "a" is the old one, "a" itself. -/
theorem not_always_reversible : ¬∀ as : List Action, Reversible as := by
  intro h
  let a := nameOf 97 (by decide)
  let b := nameOf 98 (by decide)
  obtain ⟨s, hs, hpath⟩ := (h [.enter a, .enter b, .back, .back]).path _ (List.prefix_refl _)
  have hstay : (run Explorer.step .start [.enter a, .enter b, .back, .back]).bind
      (fun s => string MAX_LONG_STRLEN s.current_path) = some [97] := by decide +kernel
  rw [hs, Option.bind_some, hpath.string] at hstay
  revert hstay
  decide

end NorthOS.Navigation
