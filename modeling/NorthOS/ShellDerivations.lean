import NorthOS.ShellLoops

/-!
The parser finds the derivation of a line, and finds it wherever there is one. Both ways the
bound on the nesting is four calls for each token ahead: an exec may open a block, and the block
holds a line again only behind its parenthesis.
-/
namespace NorthOS.Shell

open CString Lexing

variable {a : Cells} {es s fuel : ℕ} {t : Token Kind} {ts us rest : List (Token Kind)} {c d : Cmd}

/-- What may follow a line, a pipe and an exec. -/
def afterLine : List ℤ := [chr ')']

def afterPipe : List ℤ := [')', '&', ';'].map chr

section Completeness

theorem starts_of_kind {k : Kind} {toks : List ℤ} (ht : t.kind = k) (hk : chr k.sign ∈ toks) :
    starts toks (t :: ts) = true := decide_eq_true (ht.symm ▸ hk)

theorem starts_eq_false_of_kind {k : Kind} {toks : List ℤ} (ht : t.kind = k)
    (hk : chr k.sign ∉ toks) : starts toks (t :: ts) = false := decide_eq_false (ht.symm ▸ hk)

/-- A sign that is there is passed over. -/
theorem peek_taken {k : Kind} (h : Text a es) (hs : Ahead a es s (t :: ts)) (ht : t.kind = k)
    (hk : [chr k.sign] ⊆ symbols) :
    ∃ s₁ x s₂, peek a es s [chr k.sign] = .ok (true, s₁) ∧ gettoken a es s₁ = .ok (x, s₂) ∧
      Ahead a es s₁ (t :: ts) ∧ Ahead a es s₂ ts := by
  obtain ⟨s₁, hpeek, h₁⟩ := peek_eq [chr k.sign] h hs hk
  obtain ⟨s₂, hget, h₂⟩ := gettoken_cons h h₁
  rw [starts_of_kind ht (List.mem_singleton_self _)] at hpeek
  exact ⟨s₁, _, s₂, hpeek, hget, h₁, h₂⟩

theorem peek_missed {toks : List ℤ} (toks' : List ℤ) (h : Text a es) (hs : Ahead a es s ts)
    (hfollow : Follow toks ts) (hdisjoint : ∀ c ∈ toks, c ∉ toks') (htoks : toks' ⊆ symbols) :
    ∃ s₁, peek a es s toks' = .ok (false, s₁) ∧ Ahead a es s₁ ts := by
  obtain ⟨s₁, hpeek, h₁⟩ := peek_eq toks' h hs htoks
  rw [hfollow.starts_eq_false toks' hdisjoint] at hpeek
  exact ⟨s₁, hpeek, h₁⟩

/-- No block is opened by the items of a simple command, or by what comes after it. -/
theorem items_not_opening {items : List Item} (hrest : Follow enders rest) :
    starts [chr '('] (items.flatMap Item.tokens ++ rest) = false := by
  cases items with
  | nil => exact hrest.starts_eq_false _ (by decide)
  | cons item items =>
    cases item with
    | word w hw => exact starts_eq_false_of_kind hw (by decide)
    | redir r =>
      rcases r.op_kind with hkind | hkind | hkind
      · exact starts_eq_false_of_kind hkind (by decide)
      · exact starts_eq_false_of_kind hkind (by decide)
      · exact starts_eq_false_of_kind hkind (by decide)

mutual

theorem parseline_complete (h : Text a es) : ∀ {ts c}, Line ts c → ∀ (fuel : ℕ) {s rest},
    Ahead a es s (ts ++ rest) → Follow afterLine rest → 4 * (ts ++ rest).length + 4 ≤ fuel →
    ∃ s', parseline a es fuel s = .ok (c, s') ∧ Ahead a es s' rest
  | _, _, @Line.last _ amps c hpipe hamps, fuel + 1, s, rest, hs, hrest, hfuel => by
    rw [List.append_assoc] at hs hfuel
    have hfollow : Follow afterPipe (amps ++ rest) := by
      cases amps with
      | nil => exact hrest.mono (by decide)
      | cons t amps => exact follow_cons (hamps t List.mem_cons_self ▸ by decide)
    obtain ⟨s₁, hpipe, h₁⟩ := parsepipe_complete h hpipe fuel hs hfollow (by omega)
    rw [List.length_append] at hfuel
    obtain ⟨s₂, hbacks, h₂⟩ := parsebacks_complete fuel c h h₁ hamps
      (hrest.starts_eq_false _ (by decide)) (by omega)
    obtain ⟨s₃, hpeek, h₃⟩ := peek_missed [chr ';'] h h₂ hrest (by decide) (by decide)
    refine ⟨s₃, ?_, h₃⟩
    simp only [parseline, hpipe, ok_bind, hbacks, hpeek, Bool.false_eq_true, if_false]
  | _, _, @Line.next _ amps c semicolon us _ hpipe hamps hsemi hline,
      fuel + 1, s, rest, hs, hrest, hfuel => by
    rw [List.append_assoc, List.append_assoc, List.cons_append] at hs hfuel
    have hfollow : Follow afterPipe (amps ++ semicolon :: (us ++ rest)) := by
      cases amps with
      | nil => exact follow_cons (hsemi ▸ by decide)
      | cons t amps => exact follow_cons (hamps t List.mem_cons_self ▸ by decide)
    obtain ⟨s₁, hpipe, h₁⟩ := parsepipe_complete h hpipe fuel hs hfollow (by omega)
    rw [List.length_append] at hfuel
    obtain ⟨s₂, hbacks, h₂⟩ := parsebacks_complete fuel c h h₁ hamps
      (starts_eq_false_of_kind hsemi (by decide)) (by omega)
    obtain ⟨s₃, x, s₄, hpeek, hget, -, h₄⟩ := peek_taken h h₂ hsemi (by decide)
    rw [List.length_append, List.length_cons] at hfuel
    obtain ⟨s₅, hright, h₅⟩ := parseline_complete h hline fuel h₄ hrest (by omega)
    refine ⟨s₅, ?_, h₅⟩
    have hpeek : peek a es s₂ [chr ';'] = .ok (true, s₃) := hpeek
    simp only [parseline, hpipe, ok_bind, hbacks, hpeek, hget, hright, if_true]

theorem parsepipe_complete (h : Text a es) : ∀ {ts c}, Pipe ts c → ∀ (fuel : ℕ) {s rest},
    Ahead a es s (ts ++ rest) → Follow afterPipe rest → 4 * (ts ++ rest).length + 3 ≤ fuel →
    ∃ s', parsepipe a es fuel s = .ok (c, s') ∧ Ahead a es s' rest
  | _, _, Pipe.last hexec, fuel + 1, s, rest, hs, hrest, hfuel => by
    obtain ⟨s₁, hexec, h₁⟩ := parseexec_complete h hexec fuel hs (hrest.mono (by decide)) (by omega)
    obtain ⟨s₂, hpeek, h₂⟩ := peek_missed [chr '|'] h h₁ hrest (by decide) (by decide)
    refine ⟨s₂, ?_, h₂⟩
    simp only [parsepipe, hexec, ok_bind, hpeek, Bool.false_eq_true, if_false]
  | _, _, @Pipe.next _ _ bar us _ hexec hbar hpipe, fuel + 1, s, rest, hs, hrest, hfuel => by
    rw [List.append_assoc, List.cons_append] at hs hfuel
    have hfollow : Follow enders (bar :: (us ++ rest)) := follow_cons (hbar ▸ by decide)
    obtain ⟨s₁, hexec, h₁⟩ := parseexec_complete h hexec fuel hs hfollow (by omega)
    obtain ⟨s₂, x, s₃, hpeek, hget, -, h₃⟩ := peek_taken h h₁ hbar (by decide)
    rw [List.length_append, List.length_cons] at hfuel
    obtain ⟨s₄, hright, h₄⟩ := parsepipe_complete h hpipe fuel h₃ hrest (by omega)
    refine ⟨s₄, ?_, h₄⟩
    have hpeek : peek a es s₁ [chr '|'] = .ok (true, s₂) := hpeek
    simp only [parsepipe, hexec, ok_bind, hpeek, hget, hright, if_true]

theorem parseexec_complete (h : Text a es) : ∀ {ts c}, Exec ts c → ∀ (fuel : ℕ) {s rest},
    Ahead a es s (ts ++ rest) → Follow enders rest → 4 * (ts ++ rest).length + 2 ≤ fuel →
    ∃ s', parseexec a es fuel s = .ok (c, s') ∧ Ahead a es s' rest
  | _, _, @Exec.block _ ts c closing rs hopening hline hclosing,
      fuel + 2, s, rest, hs, hrest, hfuel => by
    rw [List.cons_append, List.append_assoc, List.cons_append] at hs hfuel
    obtain ⟨s₀, x, -, hpeek₀, -, h₀, -⟩ := peek_taken h hs hopening (by decide)
    obtain ⟨s₁, x, s₂, hpeek₁, hget₁, -, h₂⟩ := peek_taken h h₀ hopening (by decide)
    have hfollow : Follow afterLine (closing :: (rs.flatMap Redirection.tokens ++ rest)) :=
      follow_cons (hclosing ▸ by decide)
    rw [List.length_cons] at hfuel
    obtain ⟨s₃, hline, h₃⟩ := parseline_complete h hline fuel h₂ hfollow (by omega)
    obtain ⟨s₄, y, s₅, hpeek₂, hget₂, -, h₅⟩ := peek_taken h h₃ hclosing (by decide)
    rw [List.length_append, List.length_cons] at hfuel
    obtain ⟨s₆, hredirs, h₆⟩ := parseredirs_complete fuel c h h₅
      (hrest.starts_eq_false _ (by decide)) (by omega)
    refine ⟨s₆, ?_, h₆⟩
    have hpeek₀ : peek a es s [chr '('] = .ok (true, s₀) := hpeek₀
    have hpeek₁ : peek a es s₀ [chr '('] = .ok (true, s₁) := hpeek₁
    have hpeek₂ : peek a es s₃ [chr ')'] = .ok (true, s₄) := hpeek₂
    simp only [parseexec, parseblock, hpeek₀, hpeek₁, hpeek₂, ok_bind, hget₁, hget₂, hline,
      hredirs, Bool.not_true, Bool.false_eq_true, if_true, if_false]
  | _, _, @Exec.simple items hcount, fuel + 1, s, rest, hs, hrest, hfuel => by
    obtain ⟨s₁, hpeek, h₁⟩ := peek_eq [chr '('] h hs (by decide)
    rw [items_not_opening hrest] at hpeek
    obtain ⟨s₂, hitems, h₂⟩ := parseitems_complete fuel fuel 0 (.exec []) h h₁ hrest
      ((Nat.zero_add _).trans_le hcount) (by omega) (by omega)
    refine ⟨s₂, ?_, h₂⟩
    simp only [parseexec, hpeek, ok_bind, Bool.false_eq_true, if_false]
    have htree : items.foldl Item.apply (.exec []) =
        wrap (items.flatMap Item.redirs) (.exec (items.flatMap Item.words)) :=
      foldl_apply items [] []
    rw [← htree]
    exact hitems

end

end Completeness

section Soundness

/-- The result is the tree of a first part of the tokens ahead; the rest is ahead now. -/
def Parsed (a : Cells) (es : ℕ) (D : List (Token Kind) → Cmd → Prop) (ts : List (Token Kind))
    (x : Cmd × ℕ) : Prop := ∃ us rest, ts = us ++ rest ∧ D us x.1 ∧ Ahead a es x.2 rest

/-- Only the signs for writing and appending begin alike. -/
theorem eq_of_sign_eq {j k : Kind} (hk : k ≠ .greater ∧ k ≠ .append)
    (h : chr j.sign = chr k.sign) : j = k := by
  revert h hk
  cases j <;> cases k <;> decide

/-- A sign is looked for: it is there and passed over, or something else comes first. -/
theorem peek_cases (k : Kind) (h : Text a es) (hs : Ahead a es s ts) (hk : [chr k.sign] ⊆ symbols)
    (honly : k ≠ .greater ∧ k ≠ .append) :
    (∃ s₁ x s₂ t us, ts = t :: us ∧ t.kind = k ∧ peek a es s [chr k.sign] = .ok (true, s₁) ∧
      gettoken a es s₁ = .ok (x, s₂) ∧ Ahead a es s₁ ts ∧ Ahead a es s₂ us) ∨
    ∃ s₁, peek a es s [chr k.sign] = .ok (false, s₁) ∧ Ahead a es s₁ ts := by
  by_cases hstarts : starts [chr k.sign] ts = true
  · obtain ⟨t, us, rfl, hmem⟩ := starts_iff.mp hstarts
    have hkind : t.kind = k := eq_of_sign_eq honly (List.mem_singleton.mp hmem)
    obtain ⟨s₁, x, s₂, hpeek, hget, h₁, h₂⟩ := peek_taken h hs hkind hk
    exact .inl ⟨s₁, x, s₂, t, us, rfl, hkind, hpeek, hget, h₁, h₂⟩
  · obtain ⟨s₁, hpeek, h₁⟩ := peek_eq [chr k.sign] h hs hk
    rw [Bool.eq_false_iff.mpr hstarts] at hpeek
    exact .inr ⟨s₁, hpeek, h₁⟩

/-- All four functions, with the calls they make one level deeper. -/
structure Sound (a : Cells) (es fuel : ℕ) : Prop where
  line : ∀ s ts, Ahead a es s ts → 4 * ts.length + 4 ≤ fuel →
    Returns (Parsed a es Line ts) (parseline a es fuel s)
  pipe : ∀ s ts, Ahead a es s ts → 4 * ts.length + 3 ≤ fuel →
    Returns (Parsed a es Pipe ts) (parsepipe a es fuel s)
  exec : ∀ s ts, Ahead a es s ts → 4 * ts.length + 2 ≤ fuel →
    Returns (Parsed a es Exec ts) (parseexec a es fuel s)
  block : ∀ s ts, Ahead a es s ts → 4 * ts.length + 1 ≤ fuel →
    Returns (Parsed a es Exec ts) (parseblock a es fuel s)

theorem Sound.line_succ (h : Text a es) (ih : Sound a es fuel) (hs : Ahead a es s ts)
    (hfuel : 4 * ts.length + 4 ≤ fuel + 1) :
    Returns (Parsed a es Line ts) (parseline a es (fuel + 1) s) := by
  rw [parseline]
  refine (ih.pipe s ts hs (by omega)).bind ?_
  rintro ⟨c, s₁⟩ ⟨us, vs, rfl, hpipe, h₁⟩
  rw [List.length_append] at hfuel
  refine (parsebacks_sound h h₁ (by omega)).bind ?_
  rintro ⟨d, s₂⟩ ⟨amps, ws, rfl, hamps, rfl, h₂⟩
  rw [List.length_append] at hfuel
  dsimp only at hpipe h₂ ⊢
  rcases peek_cases .semicolon h h₂ (by decide) (by decide) with
    ⟨s₃, x, s₄, t, rest, rfl, hkind, hpeek, hget, -, h₄⟩ | ⟨s₃, hpeek, h₃⟩
  · have hpeek : peek a es s₂ [chr ';'] = .ok (true, s₃) := hpeek
    rw [List.length_cons] at hfuel
    simp only [hpeek, hget, ok_bind, if_true]
    refine (ih.line s₄ rest h₄ (by omega)).bind ?_
    rintro ⟨e, s₅⟩ ⟨right, rest, rfl, hline, h₅⟩
    refine ⟨us ++ amps ++ t :: right, rest, ?_, .next hpipe hamps hkind hline, h₅⟩
    simp only [List.append_assoc, List.cons_append]
  · have hpeek : peek a es s₂ [chr ';'] = .ok (false, s₃) := hpeek
    simp only [hpeek, ok_bind, Bool.false_eq_true, if_false]
    exact ⟨us ++ amps, ws, (List.append_assoc _ _ _).symm, .last hpipe hamps, h₃⟩

theorem Sound.pipe_succ (h : Text a es) (ih : Sound a es fuel) (hs : Ahead a es s ts)
    (hfuel : 4 * ts.length + 3 ≤ fuel + 1) :
    Returns (Parsed a es Pipe ts) (parsepipe a es (fuel + 1) s) := by
  rw [parsepipe]
  refine (ih.exec s ts hs (by omega)).bind ?_
  rintro ⟨c, s₁⟩ ⟨us, vs, rfl, hexec, h₁⟩
  rw [List.length_append] at hfuel
  dsimp only at hexec h₁ ⊢
  rcases peek_cases .bar h h₁ (by decide) (by decide) with
    ⟨s₂, x, s₃, t, rest, rfl, hkind, hpeek, hget, -, h₃⟩ | ⟨s₂, hpeek, h₂⟩
  · have hpeek : peek a es s₁ [chr '|'] = .ok (true, s₂) := hpeek
    rw [List.length_cons] at hfuel
    simp only [hpeek, hget, ok_bind, if_true]
    refine (ih.pipe s₃ rest h₃ (by omega)).bind ?_
    rintro ⟨d, s₄⟩ ⟨right, rest, rfl, hpipe, h₄⟩
    refine ⟨us ++ t :: right, rest, ?_, .next hexec hkind hpipe, h₄⟩
    simp only [List.append_assoc, List.cons_append]
  · have hpeek : peek a es s₁ [chr '|'] = .ok (false, s₂) := hpeek
    simp only [hpeek, ok_bind, Bool.false_eq_true, if_false]
    exact ⟨us, vs, rfl, .last hexec, h₂⟩

theorem Sound.exec_succ (h : Text a es) (ih : Sound a es fuel) (hs : Ahead a es s ts)
    (hfuel : 4 * ts.length + 2 ≤ fuel + 1) :
    Returns (Parsed a es Exec ts) (parseexec a es (fuel + 1) s) := by
  rw [parseexec]
  rcases peek_cases .opening h hs (by decide) (by decide) with
    ⟨s₁, x, s₂, t, rest, rfl, -, hpeek, -, h₁, -⟩ | ⟨s₁, hpeek, h₁⟩
  · have hpeek : peek a es s [chr '('] = .ok (true, s₁) := hpeek
    simp only [hpeek, ok_bind, if_true]
    exact ih.block s₁ _ h₁ (by omega)
  · have hpeek : peek a es s [chr '('] = .ok (false, s₁) := hpeek
    simp only [hpeek, ok_bind, Bool.false_eq_true, if_false]
    refine (parseredirs_sound h h₁ (by omega)).bind ?_
    rintro ⟨c, s₂⟩ ⟨rs, vs, rfl, hc, h₂⟩
    rw [List.length_append] at hfuel
    refine (parseargs_sound h h₂ (Nat.zero_le _) (by omega)).mono ?_
    rintro ⟨d, s₃⟩ ⟨items, rest, rfl, hcount, hd, h₃⟩
    dsimp only at hc hd
    have htokens : (rs.map Item.redir ++ items).flatMap Item.tokens =
        rs.flatMap Redirection.tokens ++ items.flatMap Item.tokens := by
      rw [List.flatMap_append, List.flatMap_map]
      rfl
    have hwords : (rs.map Item.redir ++ items).flatMap Item.words = items.flatMap Item.words := by
      rw [List.flatMap_append, flatMap_words_redir, List.nil_append]
    have htree : d = wrap ((rs.map Item.redir ++ items).flatMap Item.redirs)
        (.exec ((rs.map Item.redir ++ items).flatMap Item.words)) := by
      rw [hd, hc, ← List.nil_append (List.flatMap Item.words _), ← List.nil_append
        (List.flatMap Item.redirs _), ← foldl_apply, List.foldl_append, List.foldl_map]
      rfl
    refine ⟨(rs.map Item.redir ++ items).flatMap Item.tokens, rest, ?_, ?_, h₃⟩
    · rw [htokens, List.append_assoc]
    · rw [htree]
      refine .simple ?_
      rw [hwords]
      omega

theorem Sound.block_succ (h : Text a es) (ih : Sound a es fuel) (hs : Ahead a es s ts)
    (hfuel : 4 * ts.length + 1 ≤ fuel + 1) :
    Returns (Parsed a es Exec ts) (parseblock a es (fuel + 1) s) := by
  rw [parseblock]
  rcases peek_cases .opening h hs (by decide) (by decide) with
    ⟨s₁, x, s₂, opening, vs, rfl, hopening, hpeek, hget, -, h₂⟩ | ⟨s₁, hpeek, -⟩
  · have hpeek : peek a es s [chr '('] = .ok (true, s₁) := hpeek
    simp only [hpeek, hget, ok_bind, Bool.not_true, Bool.false_eq_true, if_false]
    rw [List.length_cons] at hfuel
    refine (ih.line s₂ vs h₂ (by omega)).bind ?_
    rintro ⟨c, s₃⟩ ⟨us, ws, rfl, hline, h₃⟩
    rw [List.length_append] at hfuel
    dsimp only at hline h₃ ⊢
    rcases peek_cases .closing h h₃ (by decide) (by decide) with
      ⟨s₄, y, s₅, closing, rest, rfl, hclosing, hpeek₂, hget₂, -, h₅⟩ | ⟨s₄, hpeek₂, -⟩
    · have hpeek₂ : peek a es s₃ [chr ')'] = .ok (true, s₄) := hpeek₂
      simp only [hpeek₂, hget₂, ok_bind, Bool.not_true, Bool.false_eq_true, if_false]
      rw [List.length_cons] at hfuel
      refine (parseredirs_sound h h₅ (by omega)).mono ?_
      rintro ⟨d, s₆⟩ ⟨rs, rest, rfl, hd, h₆⟩
      dsimp only at hd
      refine ⟨opening :: (us ++ closing :: rs.flatMap Redirection.tokens), rest, ?_, ?_, h₆⟩
      · simp only [List.append_assoc, List.cons_append]
      · exact hd ▸ .block hopening hline hclosing
    · have hpeek₂ : peek a es s₃ [chr ')'] = .ok (false, s₄) := hpeek₂
      simp only [hpeek₂, ok_bind, Bool.not_false, if_true]
      exact trivial
  · have hpeek : peek a es s [chr '('] = .ok (false, s₁) := hpeek
    simp only [hpeek, ok_bind, Bool.not_false, if_true]
    exact trivial

theorem sound (h : Text a es) (fuel : ℕ) : Sound a es fuel := by
  induction fuel with
  | zero =>
    refine ⟨?_, ?_, ?_, ?_⟩
    all_goals exact fun s ts _ hfuel => absurd hfuel (Nat.not_le.mpr (Nat.succ_pos _))
  | succ fuel ih =>
    exact ⟨fun _ _ hs hfuel => ih.line_succ h hs hfuel, fun _ _ hs hfuel => ih.pipe_succ h hs hfuel,
      fun _ _ hs hfuel => ih.exec_succ h hs hfuel, fun _ _ hs hfuel => ih.block_succ h hs hfuel⟩

end Soundness

end NorthOS.Shell
