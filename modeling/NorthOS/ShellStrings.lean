import NorthOS.ShellDerivations

/-!
The strings of a parsed line. The terminators go to the ends of the words, and there the text
has no character of a word: so none falls into another word.
-/
namespace NorthOS.Shell

open CString Lexing

variable {a b : Cells} {n es i : ℕ} {ts : List (Token Kind)} {c : Cmd} {l : List ℤ} {p q : ℕ × ℕ}
  {argv : List (ℕ × ℕ)}

/-- In the text b the pointer is to a string, the word that stood there in the text a. -/
structure Points (n : ℕ) (a b : Cells) (p : ℕ × ℕ) : Prop where
  word : Lexeme a ⟨.word, p.1, p.2⟩
  holds : Holds (n - p.1) (fun k => b (p.1 + k)) (slice a p.1 p.2)

section Terminators

/-- The text with a 0 at the end of each string. -/
def cut (ps : List (ℕ × ℕ)) (a : Cells) : Cells := fun i => if i ∈ ps.map Prod.snd then 0 else a i

theorem endAt_eq (hi : i ≤ es) : endAt es i a = .ok (Function.update a i 0) := if_pos hi

theorem cut_cut (ps qs : List (ℕ × ℕ)) (a : Cells) : cut qs (cut ps a) = cut (ps ++ qs) a := by
  funext i
  simp only [cut, List.map_append, List.mem_append]
  by_cases hq : i ∈ qs.map Prod.snd
  · rw [if_pos hq, if_pos (.inr hq)]
  · by_cases hp : i ∈ ps.map Prod.snd
    · rw [if_neg hq, if_pos hp, if_pos (.inl hp)]
    · rw [if_neg hq, if_neg hp, if_neg (not_or.mpr ⟨hp, hq⟩)]

theorem update_eq_cut (p : ℕ × ℕ) (a : Cells) : Function.update a p.2 0 = cut [p] a := by
  funext i
  by_cases hi : i = p.2
  · subst hi
    rw [Function.update_self]
    exact (if_pos (List.mem_singleton_self _)).symm
  · rw [Function.update_of_ne hi]
    exact (if_neg fun hmem => hi (List.mem_singleton.mp hmem)).symm

theorem cut_perm {ps qs : List (ℕ × ℕ)} (h : ps.Perm qs) : cut ps a = cut qs a := by
  funext i
  have hmem : i ∈ ps.map Prod.snd ↔ i ∈ qs.map Prod.snd := (h.map Prod.snd).mem_iff
  simp only [cut, hmem]

theorem endAll_eq (h : ∀ p ∈ argv, p.2 ≤ es) : endAll es argv a = .ok (cut argv a) := by
  induction argv generalizing a with
  | nil => rfl
  | cons p argv ih =>
    obtain ⟨hp, hargv⟩ := List.forall_mem_cons.mp h
    rw [endAll, endAt_eq hp, ok_bind, ih hargv, update_eq_cut p, cut_cut]
    rfl

theorem nulterminate_eq (h : ∀ p ∈ c.pointers, p.2 ≤ es) :
    nulterminate es c a = .ok (cut c.pointers a) := by
  induction c generalizing a with
  | exec argv => exact endAll_eq h
  | redir c file efile mode fd ih =>
    obtain ⟨hfile, hrest⟩ := List.forall_mem_cons.mp h
    rw [nulterminate, ih hrest, ok_bind, endAt_eq hfile, update_eq_cut (file, efile), cut_cut]
    exact congrArg Except.ok (cut_perm List.perm_append_comm)
  | pipe left right ihl ihr =>
    obtain ⟨hleft, hright⟩ := List.forall_mem_append.mp h
    rw [nulterminate, ihl hleft, ok_bind, ihr hright, cut_cut]
    rfl
  | list left right ihl ihr =>
    obtain ⟨hleft, hright⟩ := List.forall_mem_append.mp h
    rw [nulterminate, ihl hleft, ok_bind, ihr hright, cut_cut]
    rfl
  | back c ih => exact ih h

/-- Cutting behind some words leaves each of them as it was. -/
theorem points_cut {ps : List (ℕ × ℕ)} (hps : ∀ p ∈ ps, Lexeme a ⟨.word, p.1, p.2⟩ ∧ p.2 < n)
    (hp : p ∈ ps) : Points n a (cut ps a) p := by
  obtain ⟨hword, hroom⟩ := hps p hp
  have hlexeme := hword
  simp only [Lexeme] at hword
  obtain ⟨hlt, hall, -⟩ := hword
  have hlength : (slice a p.1 p.2).length = p.2 - p.1 := by
    rw [slice, List.length_map, List.length_range]
  have hkept : ∀ i, p.1 ≤ i → i < p.2 → cut ps a i = a i := by
    intro i hi hlt
    refine if_neg fun hmem => ?_
    obtain ⟨q, hq, rfl⟩ := List.mem_map.mp hmem
    obtain ⟨hnonzero, hbyte⟩ := hall q.2 hi hlt
    have hend := (hps q hq).1.2.2
    rcases hend with hend | hend
    · exact hnonzero hend
    · exact hend hbyte
  refine ⟨hlexeme, ?_, ?_, ?_⟩
  · rw [hlength]
    omega
  · intro hzero
    obtain ⟨k, hk, heq⟩ := List.mem_map.mp hzero
    rw [List.mem_range] at hk
    exact (hall (p.1 + k) (by omega) (by omega)).1 heq
  · intro k hk
    rw [hlength] at hk
    rcases hk.eq_or_lt with rfl | hk
    · have hend : p.1 + (p.2 - p.1) = p.2 := by omega
      rw [hend, List.getD_eq_default _ _ hlength.le]
      exact if_pos (List.mem_map_of_mem hp)
    · rw [List.getD_eq_getElem _ _ (hlength.symm ▸ hk), hkept _ (by omega) (by omega)]
      simp only [slice, List.getElem_map, List.getElem_range]

end Terminators

section Trees

/-- The strings of the tree are words of the line. -/
def Spelled (ts : List (Token Kind)) (c : Cmd) : Prop :=
  ∀ p ∈ c.pointers, ∃ t ∈ ts, t.kind = .word ∧ p = (t.start, t.stop)

theorem Spelled.mono {us : List (Token Kind)} (h : Spelled ts c) (hsub : ts ⊆ us) :
    Spelled us c := by
  intro p hp
  obtain ⟨t, ht, hword⟩ := h p hp
  exact ⟨t, hsub ht, hword⟩

theorem pointers_back (n : ℕ) (c : Cmd) : (Cmd.back^[n] c).pointers = c.pointers := by
  induction n generalizing c with
  | zero => rfl
  | succ n ih => exact ih (.back c)

theorem Spelled.wrap {rs : List Redirection} (h : Spelled ts c)
    (hrs : rs.flatMap Redirection.tokens ⊆ ts) : Spelled ts (wrap rs c) := by
  induction rs generalizing c with
  | nil => exact h
  | cons r rs ih =>
    rw [List.flatMap_cons] at hrs
    refine ih ?_ (List.append_subset.mp hrs).2
    have hpointers : (r.around c).pointers = (r.file.start, r.file.stop) :: c.pointers := by
      unfold Redirection.around
      split <;> rfl
    intro p hp
    rw [hpointers] at hp
    rcases List.mem_cons.mp hp with rfl | hp
    · have hfile : r.file ∈ ts := (List.append_subset.mp hrs).1 (by simp [Redirection.tokens])
      exact ⟨r.file, hfile, r.file_kind, rfl⟩
    · exact h p hp

theorem spelled_words (items : List Item) :
    Spelled (items.flatMap Item.tokens) (.exec (items.flatMap Item.words)) := by
  intro p hp
  obtain ⟨item, hitem, hp⟩ := List.mem_flatMap.mp hp
  cases item with
  | word w hw =>
    refine ⟨w, List.mem_flatMap.mpr ⟨_, hitem, List.mem_singleton_self w⟩, hw, ?_⟩
    exact List.mem_singleton.mp hp
  | redir r => exact absurd hp List.not_mem_nil

theorem redirs_subset (items : List Item) :
    (items.flatMap Item.redirs).flatMap Redirection.tokens ⊆ items.flatMap Item.tokens := by
  intro t ht
  obtain ⟨r, hr, ht⟩ := List.mem_flatMap.mp ht
  obtain ⟨item, hitem, hr⟩ := List.mem_flatMap.mp hr
  cases item with
  | word w hw => exact absurd hr List.not_mem_nil
  | redir r' =>
    obtain rfl := List.mem_singleton.mp hr
    exact List.mem_flatMap.mpr ⟨_, hitem, ht⟩

theorem Spelled.append {left right : Cmd} {f : Cmd → Cmd → Cmd} {us : List (Token Kind)}
    (hf : (f left right).pointers = left.pointers ++ right.pointers)
    (hleft : Spelled us left) (hright : Spelled us right) : Spelled us (f left right) := by
  intro p hp
  rw [hf] at hp
  exact (List.mem_append.mp hp).elim (hleft p) (hright p)

mutual

theorem Line.spelled : ∀ {ts c}, Line ts c → Spelled ts c
  | _, _, @Line.last _ amps c hpipe _ => by
    have h := hpipe.spelled.mono (List.subset_append_left _ amps)
    unfold Spelled at h ⊢
    rwa [pointers_back]
  | _, _, @Line.next _ amps c semicolon us _ hpipe _ _ hline => by
    refine Spelled.append (f := Cmd.list) rfl ?_ (hline.spelled.mono fun t ht => ?_)
    · have h := hpipe.spelled.mono (List.subset_append_of_subset_left (semicolon :: us)
        (List.subset_append_left _ amps))
      unfold Spelled at h ⊢
      rwa [pointers_back]
    · exact List.mem_append_right _ (List.mem_cons_of_mem _ ht)

theorem Pipe.spelled : ∀ {ts c}, Pipe ts c → Spelled ts c
  | _, _, .last hexec => hexec.spelled
  | _, _, .next hexec _ hpipe =>
    Spelled.append (f := Cmd.pipe) rfl (hexec.spelled.mono (List.subset_append_left _ _))
      (hpipe.spelled.mono fun _ ht => List.mem_append_right _ (List.mem_cons_of_mem _ ht))

theorem Exec.spelled : ∀ {ts c}, Exec ts c → Spelled ts c
  | _, _, @Exec.block opening ts c closing rs _ hline _ => by
    refine (hline.spelled.mono fun t ht => ?_).wrap fun t ht => ?_
    · exact List.mem_cons_of_mem _ (List.mem_append_left _ ht)
    · exact List.mem_cons_of_mem _ (List.mem_append_right _ (List.mem_cons_of_mem _ ht))
  | _, _, @Exec.simple items _ => (spelled_words items).wrap (redirs_subset items)

end

end Trees

section Lines

theorem Text.of_holds (h : Holds n a l) : Text a l.length where
  zero := h.zero
  nonzero _ hi := h.cell_nonzero hi

/-- Each token takes a character, so the bound on the nesting is never reached. -/
theorem depth_enough (h : Lexed rules a es 0 ts) : 4 * ts.length + 4 ≤ depth es := by
  have hlength := h.length_le
  unfold depth
  omega

theorem Derives.word_of_pointer (hc : Derives a es c) (hp : p ∈ c.pointers) :
    Lexeme a ⟨.word, p.1, p.2⟩ ∧ p.2 ≤ es := by
  obtain ⟨ts, hlexed, hline⟩ := hc
  obtain ⟨⟨kind, start, stop⟩, ht, hkind, rfl⟩ := hline.spelled p hp
  obtain rfl : kind = .word := hkind
  exact hlexed.lexeme ht

theorem parsecmd_complete (h : Holds n a l) (hne : l ≠ []) (hc : Derives a l.length c) :
    parsecmd n a = .ok (some c, cut c.pointers a) := by
  have htext := Text.of_holds h
  have hcut : nulterminate l.length c a = .ok (cut c.pointers a) :=
    nulterminate_eq fun p hp => (hc.word_of_pointer hp).2
  obtain ⟨ts, hlexed, hline⟩ := hc
  have hs : Ahead a l.length 0 (ts ++ []) := (List.append_nil ts).symm ▸ hlexed
  have hdepth : 4 * (ts ++ []).length + 4 ≤ depth l.length :=
    (List.append_nil ts).symm ▸ depth_enough hlexed
  obtain ⟨s, hparse, hend⟩ := parseline_complete htext hline _ hs (.inl rfl) hdepth
  have hpeek := peek_skips [] htext hend (List.nil_subset _)
  rw [skipBlanks_end hend] at hpeek
  obtain ⟨k, hk⟩ := Nat.exists_eq_succ_of_ne_zero (fun h0 => hne (List.eq_nil_of_length_eq_zero h0))
  have hlen := h.strlen
  rw [hk, Nat.succ_eq_add_one] at hlen hparse hpeek hcut
  simp only [parsecmd, hlen, hparse, hpeek, ok_bind, ne_eq, not_true_eq_false, if_false, hcut]

theorem parsecmd_sound (h : Holds n a l) (hne : l ≠ []) :
    Returns (fun x => ∃ c, x = (some c, cut c.pointers a) ∧ Derives a l.length c)
      (parsecmd n a) := by
  have htext := Text.of_holds h
  obtain ⟨ts, hts⟩ := exists_tokens htext (Nat.zero_le l.length)
  have hparse := (sound htext (depth l.length)).line 0 ts hts (depth_enough hts)
  obtain ⟨k, hk⟩ := Nat.exists_eq_succ_of_ne_zero (fun h0 => hne (List.eq_nil_of_length_eq_zero h0))
  have hlen := h.strlen
  rw [hk, Nat.succ_eq_add_one] at hlen hparse htext hts ⊢
  simp only [parsecmd, hlen]
  refine hparse.bind ?_
  rintro ⟨c, s⟩ ⟨us, rest, rfl, hline, hs⟩
  dsimp only at hline hs ⊢
  rw [peek_skips [] htext hs (List.nil_subset _), ok_bind]
  dsimp only
  split
  next hleft => exact trivial
  next hend =>
    rw [not_not] at hend
    -- at the end of the text no token is left
    have hnil : rest = [] := by
      have hlength := (ahead_skipBlanks hs).length_le
      rw [hend] at hlength
      exact List.eq_nil_of_length_eq_zero (by omega)
    subst hnil
    rw [List.append_nil] at hts
    have hc : Derives a (k + 1) c := ⟨us, hts, hline⟩
    rw [nulterminate_eq fun p hp => (hc.word_of_pointer hp).2]
    exact ⟨c, rfl, hc⟩

/-- The parser returns or panics, reading and writing only the text; it returns exactly the
trees of the lines; and in the text it leaves every pointer of the tree is to its word. -/
theorem parsecmd_correct (h : Holds n a l) (hne : l ≠ []) :
    ((∃ c b, parsecmd n a = .ok (some c, b)) ∨
      ∃ message, parsecmd n a = .error (.panic message)) ∧
    (∀ c, (∃ b, parsecmd n a = .ok (some c, b)) ↔ Derives a l.length c) ∧
    ∀ c b, parsecmd n a = .ok (some c, b) → ∀ p ∈ c.pointers, Points n a b p := by
  have hsound := parsecmd_sound h hne
  have hof : ∀ {c b}, parsecmd n a = .ok (some c, b) →
      b = cut c.pointers a ∧ Derives a l.length c := by
    intro c b hok
    rw [hok] at hsound
    obtain ⟨d, heq, hd⟩ := hsound
    obtain ⟨hcd, hb⟩ := Prod.mk.inj heq
    obtain rfl := Option.some.inj hcd
    exact ⟨hb, hd⟩
  refine ⟨?_, fun c => ⟨fun ⟨b, hok⟩ => (hof hok).2, fun hc => ⟨_, parsecmd_complete h hne hc⟩⟩, ?_⟩
  · match hresult : parsecmd n a with
    | .ok x =>
      rw [hresult] at hsound
      obtain ⟨c, rfl, -⟩ := hsound
      exact .inl ⟨c, _, rfl⟩
    | .error (.panic message) => exact .inr ⟨message, rfl⟩
    | .error .wild =>
      rw [hresult] at hsound
      exact hsound.elim
    | .error .timeout =>
      rw [hresult] at hsound
      exact hsound.elim
  · intro c b hok p hp
    obtain ⟨rfl, hc⟩ := hof hok
    refine points_cut (fun q hq => ?_) hp
    obtain ⟨hword, hle⟩ := hc.word_of_pointer hq
    exact ⟨hword, lt_of_le_of_lt hle h.room⟩

/-- The line a>b -/
theorem parsecmd_correct_redirection :
    Derives (fun i => [97, 62, 98].getD i 0) 3
      (.redir (.exec [(0, 1)]) 2 3 (O_WRONLY ||| O_CREATE) 1) := by
  have hline : Holds 4 (fun i => [97, 62, 98].getD i 0) [97, 62, 98] :=
    ⟨by decide, by decide, fun _ _ => rfl⟩
  have hcmd : (parsecmd 4 (fun i => [97, 62, 98].getD i 0)).toOption.bind Prod.fst =
      some (.redir (.exec [(0, 1)]) 2 3 (O_WRONLY ||| O_CREATE) 1) := by decide +kernel
  obtain ⟨hreturns, hderives, -⟩ := parsecmd_correct hline (by decide)
  rcases hreturns with ⟨c, b, hok⟩ | ⟨message, hpanic⟩
  · rw [hok] at hcmd
    obtain rfl := Option.some.inj hcmd
    exact (hderives _).mp ⟨b, hok⟩
  · rw [hpanic] at hcmd
    exact nomatch hcmd

end Lines

end NorthOS.Shell
