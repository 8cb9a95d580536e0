import NorthOS.ShellTokens

/-!
The loops of the parser. Each takes from the tokens ahead what the grammar repeats there: the
redirections, the words among them, the ampersands.
-/
namespace NorthOS.Shell

open CString Lexing

/-- The call returns such a result or panics; it reads nothing behind the text and does not
nest too deep. -/
def Returns {α : Type} (P : α → Prop) : Except Stop α → Prop
  | .ok x => P x
  | .error (.panic _) => True
  | .error _ => False

theorem Returns.bind {α β : Type} {P : α → Prop} {Q : β → Prop} {r : Except Stop α}
    {f : α → Except Stop β} (h : Returns P r) (hf : ∀ x, P x → Returns Q (f x)) :
    Returns Q (r >>= f) := by
  match r with
  | .ok x => exact hf x h
  | .error (.panic _) => exact trivial

theorem Returns.mono {α : Type} {P Q : α → Prop} {r : Except Stop α} (h : Returns P r)
    (hPQ : ∀ x, P x → Q x) : Returns Q r := by
  match r with
  | .ok x => exact hPQ x h
  | .error (.panic _) => exact trivial

theorem ok_bind {α β : Type} (x : α) (f : α → Except Stop β) :
    ((.ok x : Except Stop α) >>= f) = f x := rfl

variable {a : Cells} {es s argc fuel gas : ℕ} {t w : Token Kind} {ts us rest : List (Token Kind)}
  {toks toks' : List ℤ} {c : Cmd} {r : Redirection} {rs : List Redirection}

/-- The text ends, or goes on with one of the signs. -/
def Follow (toks : List ℤ) (ts : List (Token Kind)) : Prop := ts = [] ∨ starts toks ts = true

theorem starts_iff : starts toks ts = true ↔
    ∃ t us, ts = t :: us ∧ chr t.kind.sign ∈ toks := by
  cases ts with
  | nil => exact ⟨fun h => absurd h Bool.false_ne_true, fun ⟨_, _, h, _⟩ => nomatch h⟩
  | cons t ts =>
    refine ⟨fun h => ⟨t, ts, rfl, of_decide_eq_true h⟩, ?_⟩
    rintro ⟨t', us, heq, hmem⟩
    obtain ⟨rfl, rfl⟩ := List.cons.inj heq
    exact decide_eq_true hmem

theorem Follow.starts_eq_false (toks' : List ℤ) (h : Follow toks ts)
    (hdisjoint : ∀ c ∈ toks, c ∉ toks') : starts toks' ts = false := by
  rcases h with rfl | h
  · rfl
  · obtain ⟨t, us, rfl, hmem⟩ := starts_iff.mp h
    exact decide_eq_false (hdisjoint _ hmem)

theorem Follow.mono (h : Follow toks ts) (hsub : toks ⊆ toks') : Follow toks' ts := by
  rcases h with rfl | h
  · exact .inl rfl
  · obtain ⟨t, us, rfl, hmem⟩ := starts_iff.mp h
    exact .inr (decide_eq_true (hsub hmem))

theorem follow_cons (h : chr t.kind.sign ∈ toks) : Follow toks (t :: ts) :=
  .inr (decide_eq_true h)

section Redirections

theorem op_iff : chr t.kind.sign ∈ ['<', '>'].map chr ↔
    t.kind = .less ∨ t.kind = .greater ∨ t.kind = .append := by
  cases t.kind <;> decide

theorem code_eq_word : t.kind.code = chr 'a' ↔ t.kind = .word := by
  cases t.kind <;> decide

/-- One turn of the loop takes one redirection. -/
theorem parseredirs_step (fuel : ℕ) (c : Cmd) (r : Redirection) (h : Text a es)
    (hs : Ahead a es s (r.tokens ++ ts)) :
    ∃ s', parseredirs a es (fuel + 1) c s = parseredirs a es fuel (r.around c) s' ∧
      Ahead a es s' ts := by
  obtain ⟨s₁, hpeek, h₁⟩ := peek_eq (['<', '>'].map chr) h hs (by decide)
  obtain ⟨s₂, hop, h₂⟩ := gettoken_cons h h₁
  obtain ⟨s₃, hfile, h₃⟩ := gettoken_cons h h₂
  refine ⟨s₃, ?_, h₃⟩
  have hstarts : starts (['<', '>'].map chr) (r.tokens ++ ts) = true :=
    decide_eq_true (op_iff.mpr r.op_kind)
  have hword : r.file.kind.code = chr 'a' := code_eq_word.mpr r.file_kind
  simp only [parseredirs, hpeek, ok_bind, hstarts, hop, hfile, hword, if_true, ne_eq,
    not_true_eq_false, if_false, Redirection.around]
  rcases r.op_kind with hkind | hkind | hkind
  · rw [hkind, if_pos (by decide), if_pos rfl]
  · rw [hkind, if_neg (by decide), if_pos (by decide), if_neg (by decide)]
  · rw [hkind, if_neg (by decide), if_neg (by decide), if_pos (by decide), if_neg (by decide)]

theorem parseredirs_done (fuel : ℕ) (c : Cmd) (h : Text a es) (hs : Ahead a es s ts)
    (hstarts : starts (['<', '>'].map chr) ts = false) :
    ∃ s', parseredirs a es (fuel + 1) c s = .ok (c, s') ∧ Ahead a es s' ts := by
  obtain ⟨s₁, hpeek, h₁⟩ := peek_eq (['<', '>'].map chr) h hs (by decide)
  refine ⟨s₁, ?_, h₁⟩
  simp only [parseredirs, hpeek, ok_bind, hstarts, Bool.false_eq_true, if_false]

/-- A sign of redirection with no word behind it. -/
theorem parseredirs_panic (h : Text a es) (hs : Ahead a es s (t :: ts))
    (hop : t.kind = .less ∨ t.kind = .greater ∨ t.kind = .append)
    (hfile : ∀ w us, ts = w :: us → w.kind ≠ .word) :
    parseredirs a es (fuel + 1) c s = .error (.panic "missing file for redirection") := by
  obtain ⟨s₁, hpeek, h₁⟩ := peek_eq (['<', '>'].map chr) h hs (by decide)
  obtain ⟨s₂, hop₂, h₂⟩ := gettoken_cons h h₁
  have hstarts : starts (['<', '>'].map chr) (t :: ts) = true :=
    decide_eq_true (op_iff.mpr hop)
  have hget : ∃ f s₃, gettoken a es s₂ = .ok (f, s₃) ∧ f.ret ≠ chr 'a' := by
    cases ts with
    | nil =>
      obtain ⟨s₃, hget, -⟩ := gettoken_nil h h₂
      exact ⟨_, s₃, hget, (by decide : (0 : ℤ) ≠ chr 'a')⟩
    | cons w us =>
      obtain ⟨s₃, hget, -⟩ := gettoken_cons h h₂
      exact ⟨_, s₃, hget, fun hcode => hfile w us rfl (code_eq_word.mp hcode)⟩
  obtain ⟨f, s₃, hget, hret⟩ := hget
  simp only [parseredirs, hpeek, ok_bind, hstarts, hop₂, hget, if_true, ne_eq, hret,
    not_false_eq_true]

theorem parseredirs_complete (fuel : ℕ) (c : Cmd) (h : Text a es)
    (hs : Ahead a es s (rs.flatMap Redirection.tokens ++ rest))
    (hrest : starts (['<', '>'].map chr) rest = false)
    (hfuel : (rs.flatMap Redirection.tokens ++ rest).length < fuel) :
    ∃ s', parseredirs a es fuel c s = .ok (wrap rs c, s') ∧ Ahead a es s' rest := by
  induction rs generalizing c s fuel with
  | nil =>
    obtain ⟨fuel, rfl⟩ := Nat.exists_eq_succ_of_ne_zero (Nat.ne_zero_of_lt hfuel)
    exact parseredirs_done fuel c h hs hrest
  | cons r rs ih =>
    obtain ⟨fuel, rfl⟩ := Nat.exists_eq_succ_of_ne_zero (Nat.ne_zero_of_lt hfuel)
    rw [List.flatMap_cons, List.append_assoc] at hs hfuel
    obtain ⟨s₁, hstep, h₁⟩ := parseredirs_step fuel c r h hs
    have hshorter : (rs.flatMap Redirection.tokens ++ rest).length < fuel := by
      rw [List.length_append] at hfuel
      simp only [Redirection.tokens, List.length_cons] at hfuel
      omega
    obtain ⟨s', heq, h'⟩ := ih fuel (r.around c) h₁ hshorter
    exact ⟨s', hstep.trans heq, h'⟩

theorem parseredirs_sound (h : Text a es) (hs : Ahead a es s ts) (hfuel : ts.length < fuel) :
    Returns (fun x => ∃ rs rest, ts = rs.flatMap Redirection.tokens ++ rest ∧ x.1 = wrap rs c ∧
      Ahead a es x.2 rest) (parseredirs a es fuel c s) := by
  induction fuel generalizing c s ts with
  | zero => exact absurd hfuel (Nat.not_lt_zero _)
  | succ fuel ih =>
    by_cases hstarts : starts (['<', '>'].map chr) ts = true
    · obtain ⟨t, us, rfl, hsign⟩ := starts_iff.mp hstarts
      have hop := op_iff.mp hsign
      by_cases hfile : ∃ w vs, us = w :: vs ∧ w.kind = .word
      · obtain ⟨w, vs, rfl, hword⟩ := hfile
        let r : Redirection := ⟨t, w, hop, hword⟩
        obtain ⟨s₁, hstep, h₁⟩ := parseredirs_step fuel c r h hs
        rw [hstep]
        have hshorter : vs.length < fuel := by
          simp only [List.length_cons] at hfuel
          omega
        refine (ih h₁ hshorter).mono ?_
        rintro x ⟨rs, rest, rfl, hwrap, hahead⟩
        exact ⟨r :: rs, rest, rfl, hwrap, hahead⟩
      · rw [parseredirs_panic h hs hop fun w vs hus hword => hfile ⟨w, vs, hus, hword⟩]
        exact trivial
    · rw [Bool.not_eq_true] at hstarts
      obtain ⟨s', hdone, h'⟩ := parseredirs_done fuel c h hs hstarts
      rw [hdone]
      exact ⟨[], ts, rfl, rfl, h'⟩

end Redirections

section Ampersands

theorem parsebacks_step (fuel : ℕ) (c : Cmd) (h : Text a es) (hs : Ahead a es s (t :: ts))
    (hkind : t.kind = .ampersand) :
    ∃ s', parsebacks a es (fuel + 1) c s = parsebacks a es fuel (.back c) s' ∧
      Ahead a es s' ts := by
  obtain ⟨s₁, hpeek, h₁⟩ := peek_eq [chr '&'] h hs (by decide)
  obtain ⟨s₂, hget, h₂⟩ := gettoken_cons h h₁
  refine ⟨s₂, ?_, h₂⟩
  have hstarts : starts [chr '&'] (t :: ts) = true := by
    refine decide_eq_true ?_
    rw [hkind]
    decide
  simp only [parsebacks, hpeek, ok_bind, hstarts, hget, if_true]

theorem parsebacks_done (fuel : ℕ) (c : Cmd) (h : Text a es) (hs : Ahead a es s ts)
    (hstarts : starts [chr '&'] ts = false) :
    ∃ s', parsebacks a es (fuel + 1) c s = .ok (c, s') ∧ Ahead a es s' ts := by
  obtain ⟨s₁, hpeek, h₁⟩ := peek_eq [chr '&'] h hs (by decide)
  refine ⟨s₁, ?_, h₁⟩
  simp only [parsebacks, hpeek, ok_bind, hstarts, Bool.false_eq_true, if_false]

theorem parsebacks_complete {amps : List (Token Kind)} (fuel : ℕ) (c : Cmd) (h : Text a es)
    (hs : Ahead a es s (amps ++ rest)) (hamps : ∀ t ∈ amps, t.kind = .ampersand)
    (hrest : starts [chr '&'] rest = false) (hfuel : (amps ++ rest).length < fuel) :
    ∃ s', parsebacks a es fuel c s = .ok (Cmd.back^[amps.length] c, s') ∧ Ahead a es s' rest := by
  induction amps generalizing c s fuel with
  | nil =>
    obtain ⟨fuel, rfl⟩ := Nat.exists_eq_succ_of_ne_zero (Nat.ne_zero_of_lt hfuel)
    exact parsebacks_done fuel c h hs hrest
  | cons t amps ih =>
    obtain ⟨fuel, rfl⟩ := Nat.exists_eq_succ_of_ne_zero (Nat.ne_zero_of_lt hfuel)
    obtain ⟨s₁, hstep, h₁⟩ := parsebacks_step fuel c h hs (hamps t List.mem_cons_self)
    obtain ⟨s', heq, h'⟩ := ih fuel (.back c) h₁
      (fun t ht => hamps t (List.mem_cons_of_mem _ ht)) (Nat.lt_of_succ_lt_succ hfuel)
    exact ⟨s', hstep.trans heq, h'⟩

theorem parsebacks_sound (h : Text a es) (hs : Ahead a es s ts) (hfuel : ts.length < fuel) :
    Returns (fun x => ∃ amps rest, ts = amps ++ rest ∧ (∀ t ∈ amps, t.kind = .ampersand) ∧
      x.1 = Cmd.back^[amps.length] c ∧ Ahead a es x.2 rest) (parsebacks a es fuel c s) := by
  induction fuel generalizing c s ts with
  | zero => exact absurd hfuel (Nat.not_lt_zero _)
  | succ fuel ih =>
    by_cases hamp : ∃ t us, ts = t :: us ∧ t.kind = .ampersand
    · obtain ⟨t, us, rfl, hkind⟩ := hamp
      obtain ⟨s₁, hstep, h₁⟩ := parsebacks_step fuel c h hs hkind
      rw [hstep]
      refine (ih h₁ (Nat.lt_of_succ_lt_succ hfuel)).mono ?_
      rintro x ⟨amps, rest, rfl, hamps, hback, hahead⟩
      exact ⟨t :: amps, rest, rfl, List.forall_mem_cons.mpr ⟨hkind, hamps⟩, hback, hahead⟩
    · have hstarts : starts [chr '&'] ts = false := by
        refine Bool.eq_false_iff.mpr fun hstarts => ?_
        obtain ⟨t, us, rfl, hsign⟩ := starts_iff.mp hstarts
        refine hamp ⟨t, us, rfl, ?_⟩
        revert hsign
        cases t.kind <;> decide
      obtain ⟨s', hdone, h'⟩ := parsebacks_done fuel c h hs hstarts
      rw [hdone]
      exact ⟨[], ts, rfl, fun t ht => absurd ht List.not_mem_nil, rfl, h'⟩

end Ampersands

section Words

/-- What an item does to the command read so far. -/
def Item.apply (c : Cmd) : Item → Cmd
  | .word w _ => setArg w.start w.stop c
  | .redir r => r.around c

theorem setArg_wrap (q eq : ℕ) (rs : List Redirection) (c : Cmd) :
    setArg q eq (wrap rs c) = wrap rs (setArg q eq c) := by
  induction rs generalizing c with
  | nil => rfl
  | cons r rs ih =>
    have haround : setArg q eq (r.around c) = r.around (setArg q eq c) := by
      unfold Redirection.around
      split <;> rfl
    exact (ih (r.around c)).trans (congrArg (wrap rs) haround)

/-- The items one by one give the command of all words in the redirections of all. -/
theorem foldl_apply (items : List Item) (rs : List Redirection) (ws : List (ℕ × ℕ)) :
    items.foldl Item.apply (wrap rs (.exec ws)) =
      wrap (rs ++ items.flatMap Item.redirs) (.exec (ws ++ items.flatMap Item.words)) := by
  induction items generalizing rs ws with
  | nil => simp only [List.foldl_nil, List.flatMap_nil, List.append_nil]
  | cons item items ih =>
    cases item with
    | word w hw =>
      have hset : Item.apply (wrap rs (.exec ws)) (.word w hw) =
          wrap rs (.exec (ws ++ [(w.start, w.stop)])) := setArg_wrap w.start w.stop rs (.exec ws)
      rw [List.foldl_cons, hset, ih, List.flatMap_cons, List.flatMap_cons, List.append_assoc]
      rfl
    | redir r =>
      have hwrap : Item.apply (wrap rs (.exec ws)) (.redir r) = wrap (rs ++ [r]) (.exec ws) := by
        unfold wrap
        rw [List.foldl_append]
        rfl
      rw [List.foldl_cons, hwrap, ih, List.flatMap_cons, List.flatMap_cons, List.append_assoc]
      rfl

theorem flatMap_words_redir (rs : List Redirection) :
    (rs.map Item.redir).flatMap Item.words = [] := by
  rw [List.flatMap_map]
  exact List.flatMap_eq_nil_iff.mpr fun r hr => rfl

/-- The signs that end a command. -/
def enders : List ℤ := ['|', ')', '&', ';'].map chr

theorem parseargs_done (fuel argc : ℕ) (c : Cmd) (h : Text a es) (hs : Ahead a es s ts)
    (hends : Follow enders ts) :
    ∃ s', parseargs a es (fuel + 1) c argc s = .ok (c, s') ∧ Ahead a es s' ts := by
  obtain ⟨s₁, hpeek, h₁⟩ := peek_eq enders h hs (by decide)
  rw [enders] at hpeek
  rcases hends with rfl | hends
  · obtain ⟨s₂, hget, h₂⟩ := gettoken_nil h h₁
    refine ⟨s₂, ?_, h₂⟩
    simp only [parseargs, hpeek, ok_bind, starts, hget, Bool.false_eq_true, if_false, if_true]
  · rw [enders] at hends
    refine ⟨s₁, ?_, h₁⟩
    simp only [parseargs, hpeek, ok_bind, hends, if_true]

theorem parseargs_step (fuel argc : ℕ) (c : Cmd) (h : Text a es) (hs : Ahead a es s (w :: ts))
    (hends : ¬Follow enders (w :: ts)) :
    ∃ s', parseargs a es (fuel + 1) c argc s =
      (if w.kind ≠ .word then .error (.panic "syntax")
      else if MAXARGS ≤ argc + 1 then .error (.panic "too many args")
      else parseredirs a es fuel (setArg w.start w.stop c) s' >>= fun x =>
        parseargs a es fuel x.1 (argc + 1) x.2) ∧ Ahead a es s' ts := by
  obtain ⟨s₁, hpeek, h₁⟩ := peek_eq enders h hs (by decide)
  obtain ⟨s₂, hget, h₂⟩ := gettoken_cons h h₁
  have hstarts : starts enders (w :: ts) = false :=
    Bool.eq_false_iff.mpr fun hstarts => hends (.inr hstarts)
  have hcode : w.kind.code ≠ 0 := by cases w.kind <;> decide
  rw [enders] at hpeek hstarts
  refine ⟨s₂, ?_, h₂⟩
  simp only [parseargs, hpeek, ok_bind, hstarts, hget, Bool.false_eq_true, if_false, hcode, ne_eq,
    code_eq_word]

theorem word_continues (hword : w.kind = .word) : ¬Follow enders (w :: ts) := by
  rintro (hnil | hstarts)
  · exact nomatch hnil
  · have hsign : chr w.kind.sign ∈ enders := of_decide_eq_true hstarts
    rw [hword] at hsign
    exact absurd hsign (by decide)

/-- The redirections and then the words with theirs, from any point between two items on. -/
theorem parseitems_complete {items : List Item} (fuel gas argc : ℕ) (c : Cmd) (h : Text a es)
    (hs : Ahead a es s (items.flatMap Item.tokens ++ rest)) (hrest : Follow enders rest)
    (hargc : argc + (items.flatMap Item.words).length ≤ MAXARGS - 1)
    (hfuel : (items.flatMap Item.tokens ++ rest).length < fuel)
    (hgas : (items.flatMap Item.tokens ++ rest).length < gas) :
    ∃ s', (parseredirs a es fuel c s >>= fun x => parseargs a es gas x.1 argc x.2) =
      .ok (items.foldl Item.apply c, s') ∧ Ahead a es s' rest := by
  induction items generalizing c s argc fuel gas with
  | nil =>
    obtain ⟨fuel, rfl⟩ := Nat.exists_eq_succ_of_ne_zero (Nat.ne_zero_of_lt hfuel)
    obtain ⟨gas, rfl⟩ := Nat.exists_eq_succ_of_ne_zero (Nat.ne_zero_of_lt hgas)
    have hstarts := hrest.starts_eq_false (['<', '>'].map chr) (by decide)
    obtain ⟨s₁, hredirs, h₁⟩ := parseredirs_done fuel c h hs hstarts
    obtain ⟨s₂, hargs, h₂⟩ := parseargs_done gas argc c h h₁ hrest
    refine ⟨s₂, ?_, h₂⟩
    rw [hredirs, ok_bind]
    exact hargs
  | cons item items ih =>
    obtain ⟨fuel, rfl⟩ := Nat.exists_eq_succ_of_ne_zero (Nat.ne_zero_of_lt hfuel)
    rw [List.flatMap_cons, List.append_assoc] at hs hfuel hgas
    rw [List.length_append] at hfuel hgas
    cases item with
    | redir r =>
      obtain ⟨s₁, hstep, h₁⟩ := parseredirs_step fuel c r h hs
      simp only [Item.tokens, Redirection.tokens, List.length_cons] at hfuel hgas
      rw [hstep]
      exact ih fuel gas argc (r.around c) h₁ hargc (by omega) (by omega)
    | word w hword =>
      obtain ⟨gas, rfl⟩ := Nat.exists_eq_succ_of_ne_zero (Nat.ne_zero_of_lt hgas)
      have hstarts : starts (['<', '>'].map chr)
          ([w] ++ (items.flatMap Item.tokens ++ rest)) = false := by
        refine decide_eq_false fun hsign => ?_
        rcases op_iff.mp hsign with hkind | hkind | hkind
        all_goals
          rw [hword] at hkind
          exact absurd hkind (by decide)
      obtain ⟨s₁, hredirs, h₁⟩ := parseredirs_done fuel c h hs hstarts
      obtain ⟨s₂, hargs, h₂⟩ := parseargs_step gas argc c h h₁ (word_continues hword)
      simp only [Item.tokens, List.length_cons, List.length_nil] at hfuel hgas
      rw [List.flatMap_cons, List.length_append] at hargc
      simp only [Item.words, List.length_cons, List.length_nil] at hargc
      have hroom : ¬MAXARGS ≤ argc + 1 := by
        unfold MAXARGS at hargc ⊢
        omega
      rw [hredirs, ok_bind, hargs, if_neg (not_not.mpr hword), if_neg hroom]
      exact ih gas gas (argc + 1) _ h₂ (by omega) (by omega) (by omega)

theorem parseargs_sound (h : Text a es) (hs : Ahead a es s ts) (hargc : argc ≤ MAXARGS - 1)
    (hfuel : ts.length < fuel) :
    Returns (fun x => ∃ (items : List Item) (rest : List (Token Kind)),
      ts = items.flatMap Item.tokens ++ rest ∧
      argc + (items.flatMap Item.words).length ≤ MAXARGS - 1 ∧ x.1 = items.foldl Item.apply c ∧
      Ahead a es x.2 rest) (parseargs a es fuel c argc s) := by
  induction fuel generalizing c s ts argc with
  | zero => exact absurd hfuel (Nat.not_lt_zero _)
  | succ fuel ih =>
    by_cases hends : Follow enders ts
    · obtain ⟨s', hdone, h'⟩ := parseargs_done fuel argc c h hs hends
      rw [hdone]
      exact ⟨[], ts, rfl, hargc, rfl, h'⟩
    · obtain ⟨w, us, rfl⟩ : ∃ w us, ts = w :: us := by
        cases ts with
        | nil => exact absurd (.inl rfl) hends
        | cons w us => exact ⟨w, us, rfl⟩
      obtain ⟨s₁, hstep, h₁⟩ := parseargs_step fuel argc c h hs hends
      rw [hstep]
      rw [List.length_cons] at hfuel
      split
      next hword => exact trivial
      next hword =>
        rw [not_not] at hword
        split
        next hmany => exact trivial
        next hroom =>
          refine (parseredirs_sound h h₁ (by omega)).bind ?_
          rintro ⟨d, s₂⟩ ⟨rs, vs, rfl, hd, h₂⟩
          dsimp only at hd h₂
          subst hd
          have hnext : argc + 1 ≤ MAXARGS - 1 := by
            unfold MAXARGS at hroom ⊢
            omega
          rw [List.length_append] at hfuel
          refine (ih h₂ hnext (by omega)).mono ?_
          rintro x ⟨items, rest, rfl, hcount, hx, h'⟩
          refine ⟨.word w hword :: (rs.map Item.redir ++ items), rest, ?_, ?_, ?_, h'⟩
          · rw [List.flatMap_cons, List.flatMap_append, List.flatMap_map, List.append_assoc,
              List.append_assoc]
            rfl
          · rw [List.flatMap_cons, List.flatMap_append, flatMap_words_redir, List.nil_append,
              List.length_append]
            simp only [Item.words, List.length_cons, List.length_nil]
            omega
          · rw [hx, List.foldl_cons, List.foldl_append, List.foldl_map]
            rfl

end Words

end NorthOS.Shell
