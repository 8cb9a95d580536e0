import NorthOS.ShellGrammar

/-!
Scanning follows the lexing of the text: at a cursor with given tokens before it, `peek` looks
at the first of them and `gettoken` takes it.
-/
namespace NorthOS.Shell

open CString Lexing

/-- The text is the string that ends at `es`. -/
structure Text (a : Cells) (es : ℕ) : Prop where
  zero : a es = 0
  nonzero : ∀ i < es, a i ≠ 0

/-- The tokens before the cursor. -/
abbrev Ahead (a : Cells) (es s : ℕ) (ts : List (Token Kind)) : Prop := Lexed rules a es s ts

/-- What `gettoken` returns for the token. -/
def Kind.code : Kind → ℤ
  | .append => chr '+'
  | k => chr k.sign

/-- The first token begins with one of the signs. -/
def starts (toks : List ℤ) : List (Token Kind) → Bool
  | [] => false
  | t :: _ => decide (chr t.kind.sign ∈ toks)

variable {a : Cells} {es s j k i : ℕ} {p : ℤ → Bool} {t : Token Kind} {ts : List (Token Kind)}
  {toks : List ℤ} {c : ℤ}

section Loops

theorem advance_spec : s ≤ advance a p k s ∧ advance a p k s ≤ s + k ∧
    (∀ m, s ≤ m → m < advance a p k s → p (a m)) ∧
    (advance a p k s = s + k ∨ ¬p (a (advance a p k s))) := by
  induction k generalizing s with
  | zero => exact ⟨le_rfl, le_rfl, fun m hs hlt => absurd hs (Nat.not_le.mpr hlt), .inl rfl⟩
  | succ k ih =>
    rw [advance]
    split
    next hp =>
      obtain ⟨hle, hbound, hall, hstop⟩ := ih (s := s + 1)
      refine ⟨by omega, by omega, fun m hs hlt => ?_, ?_⟩
      · rcases hs.eq_or_lt with rfl | hs
        · exact hp
        · exact hall m hs hlt
      · rcases hstop with hstop | hstop
        · exact .inl (by omega)
        · exact .inr hstop
    next hp => exact ⟨le_rfl, by omega, fun m hs hlt => absurd hs (by omega), .inr hp⟩

/-- The loop stops at the first character that fails the test. -/
theorem advance_eq (hs : s ≤ j) (hj : j ≤ s + k) (hall : ∀ m, s ≤ m → m < j → p (a m))
    (hstop : j = s + k ∨ ¬p (a j)) : advance a p k s = j := by
  obtain ⟨hle, hbound, hpassed, hfail⟩ := advance_spec (a := a) (p := p) (k := k) (s := s)
  rcases Nat.lt_trichotomy (advance a p k s) j with hlt | heq | hgt
  · rcases hfail with hfail | hfail
    · omega
    · exact absurd (hall _ hle hlt) hfail
  · exact heq
  · rcases hstop with hstop | hstop
    · omega
    · exact absurd (hpassed j hs hgt) hstop

theorem mem_of_strchr (h : strchr toks c = true) : c ∈ toks := of_decide_eq_true h

theorem skipBlanks_spec (hs : s ≤ es) : s ≤ skipBlanks a es s ∧ skipBlanks a es s ≤ es ∧
    BlankFrom rules a s (skipBlanks a es s) ∧
    (skipBlanks a es s = es ∨ ¬rules.Blank (a (skipBlanks a es s))) := by
  obtain ⟨hle, hbound, hall, hstop⟩ :=
    advance_spec (a := a) (p := strchr whitespace) (k := es - s) (s := s)
  have hes : s + (es - s) = es := by omega
  rw [hes] at hbound hstop
  refine ⟨hle, hbound, fun m hm hlt => mem_of_strchr (hall m hm hlt), ?_⟩
  exact hstop.imp_right fun hfail hblank => hfail (decide_eq_true hblank)

theorem fetch_eq (hs : s ≤ es) : fetch a es s = .ok (a s) := if_pos hs

end Loops

section Tokens

theorem wordByte_iff : wordByte c = true ↔ c ∉ whitespace ∧ c ∉ symbols := by
  simp only [wordByte, strchr, Bool.and_eq_true, Bool.not_eq_true', decide_eq_false_iff_not]

/-- A token begins at every character that is not blank. -/
theorem exists_lexeme (h : Text a es) (hi : i < es) (hblank : a i ∉ whitespace) :
    ∃ t : Token Kind, t.start = i ∧ t.stop ≤ es ∧ Lexeme a t := by
  by_cases hsign : a i ∈ symbols
  · have hcases : a i = chr '<' ∨ a i = chr '|' ∨ a i = chr '>' ∨ a i = chr '&' ∨ a i = chr ';' ∨
        a i = chr '(' ∨ a i = chr ')' := by simpa [symbols] using hsign
    rcases hcases with hc | hc | hc | hc | hc | hc | hc
    · exact ⟨⟨.less, i, i + 1⟩, rfl, hi, hc, rfl⟩
    · exact ⟨⟨.bar, i, i + 1⟩, rfl, hi, hc, rfl⟩
    · by_cases happend : a (i + 1) = chr '>'
      · have hlt : i + 1 < es := by
          by_contra hge
          have hes : i + 1 = es := by omega
          rw [hes, h.zero] at happend
          exact absurd happend (by decide)
        exact ⟨⟨.append, i, i + 2⟩, rfl, hlt, hc, happend, rfl⟩
      · exact ⟨⟨.greater, i, i + 1⟩, rfl, hi, hc, happend, rfl⟩
    · exact ⟨⟨.ampersand, i, i + 1⟩, rfl, hi, hc, rfl⟩
    · exact ⟨⟨.semicolon, i, i + 1⟩, rfl, hi, hc, rfl⟩
    · exact ⟨⟨.opening, i, i + 1⟩, rfl, hi, hc, rfl⟩
    · exact ⟨⟨.closing, i, i + 1⟩, rfl, hi, hc, rfl⟩
  · obtain ⟨hle, hbound, hall, hstop⟩ :=
      advance_spec (a := a) (p := wordByte) (k := es - i) (s := i)
    have hes : i + (es - i) = es := by omega
    rw [hes] at hbound hstop
    have hfirst : wordByte (a i) = true := wordByte_iff.mpr ⟨hblank, hsign⟩
    have hlt : i < advance a wordByte (es - i) i := by
      rcases hle.eq_or_lt with heq | hlt
      · rw [← heq] at hstop
        rcases hstop with hstop | hstop
        · omega
        · exact absurd hfirst hstop
      · exact hlt
    refine ⟨⟨.word, i, advance a wordByte (es - i) i⟩, rfl, hbound, hlt, fun m hm hlt => ?_, ?_⟩
    · exact ⟨h.nonzero m (lt_of_lt_of_le hlt hbound), hall m hm hlt⟩
    · rcases hstop with hstop | hstop
      · exact .inl ((congrArg a hstop).trans h.zero)
      · exact .inr hstop

theorem exists_tokens (h : Text a es) (hs : s ≤ es) : ∃ ts, Ahead a es s ts :=
  exists_lexed (fun _ hi hblank => exists_lexeme h hi hblank) hs

/-- A token ends with the last of its characters. -/
theorem scanToken_eq (h : Text a es) (ht : Lexeme a t) (hstop : t.stop ≤ es) :
    scanToken a es t.start (a t.start) = .ok (t.kind.code, t.stop) := by
  obtain ⟨kind, start, stop⟩ := t
  dsimp only at hstop ⊢
  cases kind with
  | word =>
    obtain ⟨hlt, hall, hend⟩ := ht
    dsimp only at hlt hall hend
    obtain ⟨hnonzero, hbyte⟩ := hall start le_rfl hlt
    have hsign : a start ∉ symbols := (wordByte_iff.mp hbyte).2
    have hscan : advance a wordByte (es - start) start = stop := by
      have hes : start + (es - start) = es := by omega
      refine advance_eq hlt.le (hstop.trans hes.ge) (fun m hm hlt => (hall m hm hlt).2) ?_
      rcases hend with hend | hend
      · by_contra hne
        obtain ⟨hne, -⟩ := not_or.mp hne
        rw [hes] at hne
        exact h.nonzero stop (lt_of_le_of_ne hstop hne) hend
      · exact .inr hend
    have hothers : a start ∉ ['|', '(', ')', ';', '&', '<'].map chr := by
      intro hmem
      refine hsign ?_
      simp only [symbols, List.map_cons, List.map_nil, List.mem_cons, List.not_mem_nil, or_false]
        at hmem ⊢
      tauto
    have hgreater : a start ≠ chr '>' := by
      intro heq
      exact hsign (heq ▸ by decide)
    unfold scanToken
    rw [if_neg hnonzero, if_neg hothers, if_neg hgreater, hscan]
    rfl
  | greater =>
    simp only [Lexeme] at ht
    obtain ⟨hsign, hnext, rfl⟩ := ht
    have hfetch : fetch a es (start + 1) = .ok (a (start + 1)) := fetch_eq hstop
    unfold scanToken
    rw [hsign, if_neg (by decide), if_neg (by decide), if_pos rfl, hfetch]
    exact if_neg hnext
  | append =>
    simp only [Lexeme] at ht
    obtain ⟨hsign, hnext, rfl⟩ := ht
    have hfetch : fetch a es (start + 1) = .ok (a (start + 1)) := fetch_eq (by omega)
    unfold scanToken
    rw [hsign, if_neg (by decide), if_neg (by decide), if_pos rfl, hfetch]
    exact if_pos hnext
  | _ =>
    simp only [Lexeme] at ht
    obtain ⟨hsign, rfl⟩ := ht
    unfold scanToken
    rw [hsign, if_neg (by decide), if_pos (by decide)]
    rfl

end Tokens

section Scanning

/-- Passing over the blanks leaves the tokens as they are. -/
theorem ahead_skipBlanks (h : Ahead a es s ts) : Ahead a es (skipBlanks a es s) ts := by
  obtain ⟨hle, hbound, hblank, -⟩ := skipBlanks_spec (a := a) h.le
  exact h.skip hle hbound hblank

theorem skipBlanks_end (h : Ahead a es s []) : skipBlanks a es s = es := by
  obtain ⟨hle, hbound, -, hstop⟩ := skipBlanks_spec (a := a) h.le
  exact h.eq_end hstop hle hbound

theorem skipBlanks_start (h : Ahead a es s (t :: ts)) : skipBlanks a es s = t.start := by
  obtain ⟨hle, hbound, hblank, hstop⟩ := skipBlanks_spec (a := a) h.le
  exact h.eq_start hstop hle hblank

theorem gettoken_nil (h : Text a es) (ht : Ahead a es s []) :
    ∃ s', gettoken a es s = .ok (⟨0, es, es⟩, s') ∧ Ahead a es s' [] := by
  have hend : Ahead a es es [] := by
    have hskipped := ahead_skipBlanks ht
    rwa [skipBlanks_end ht] at hskipped
  have hscan : scanToken a es es 0 = .ok (0, es) := if_pos rfl
  refine ⟨skipBlanks a es es, ?_, ahead_skipBlanks hend⟩
  simp only [gettoken, skipBlanks_end ht, fetch_eq le_rfl, h.zero, bind, Except.bind, hscan]

theorem gettoken_cons (h : Text a es) (ht : Ahead a es s (t :: ts)) :
    ∃ s', gettoken a es s = .ok (⟨t.kind.code, t.start, t.stop⟩, s') ∧ Ahead a es s' ts := by
  have hstart : skipBlanks a es s = t.start := skipBlanks_start ht
  cases ht with
  | token hle hblank hlexeme hstop htail =>
    have hbegin := rules.start_lt_stop hlexeme
    have hscan := scanToken_eq h hlexeme hstop
    have hfetch : fetch a es t.start = .ok (a t.start) := fetch_eq (by omega)
    refine ⟨skipBlanks a es t.stop, ?_, ahead_skipBlanks htail⟩
    simp only [gettoken, hstart, hfetch, bind, Except.bind, hscan]

theorem peek_skips (toks : List ℤ) (h : Text a es) (ht : Ahead a es s ts) (htoks : toks ⊆ symbols) :
    peek a es s toks = .ok (starts toks ts, skipBlanks a es s) := by
  have hfetch : fetch a es (skipBlanks a es s) = .ok (a (skipBlanks a es s)) :=
    fetch_eq (ahead_skipBlanks ht).le
  have hresult : (decide (a (skipBlanks a es s) ≠ 0) && strchr toks (a (skipBlanks a es s))) =
      starts toks ts := by
    cases ts with
    | nil =>
      rw [skipBlanks_end ht, h.zero]
      rfl
    | cons t ts =>
      rw [skipBlanks_start ht]
      have hlexeme : Lexeme a t := (ht.lexeme List.mem_cons_self).1
      by_cases hkind : t.kind = .word
      · obtain ⟨kind, start, stop⟩ := t
        obtain rfl : kind = .word := hkind
        have hbyte := wordByte_iff.mp (hlexeme.2.1 start le_rfl hlexeme.1).2
        have hmiss : a start ∉ toks := fun hmem => hbyte.2 (htoks hmem)
        have hword : chr 'a' ∉ toks := fun hmem => absurd (htoks hmem) (by decide)
        rw [strchr, decide_eq_false hmiss, Bool.and_false]
        exact (decide_eq_false hword).symm
      · rw [hlexeme.sign_eq hkind]
        have hnonzero : chr t.kind.sign ≠ 0 := by cases t.kind <;> decide
        rw [decide_eq_true hnonzero, Bool.true_and]
        rfl
  simp only [peek, hfetch, bind, Except.bind, hresult]

/-- A sign among those looked for begins the first token, or none does. -/
theorem peek_eq (toks : List ℤ) (h : Text a es) (ht : Ahead a es s ts) (htoks : toks ⊆ symbols) :
    ∃ s', peek a es s toks = .ok (starts toks ts, s') ∧ Ahead a es s' ts :=
  ⟨skipBlanks a es s, peek_skips toks h ht htoks, ahead_skipBlanks ht⟩

end Scanning

end NorthOS.Shell
