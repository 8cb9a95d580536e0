import NorthOS.Lexing
import NorthOS.ShellParser

/-!
The language of the command lines. A line is lexed into words, signs and blanks; the grammar is
over the tokens and gives the tree with each derivation.

  line ::= pipe {'&'} [';' line]
  pipe ::= exec ['|' pipe]
  exec ::= '(' line ')' {redir} | {redir} {word {redir}}
-/
namespace NorthOS.Shell

open CString Lexing

inductive Kind where
  | word | bar | opening | closing | semicolon | ampersand | less | greater | append
deriving DecidableEq, Repr

/-- The first character of the sign; for a word, the letter that `gettoken` returns. -/
def Kind.sign : Kind → Char
  | .word => 'a'
  | .bar => '|'
  | .opening => '('
  | .closing => ')'
  | .semicolon => ';'
  | .ampersand => '&'
  | .less => '<'
  | .greater => '>'
  | .append => '>'

/-- A word is as long as it can be, and so is the sign for appending. -/
def Lexeme (a : Cells) (t : Token Kind) : Prop :=
  match t.kind with
  | .word => t.start < t.stop ∧ (∀ i, t.start ≤ i → i < t.stop → a i ≠ 0 ∧ wordByte (a i)) ∧
      (a t.stop = 0 ∨ ¬wordByte (a t.stop))
  | .greater => a t.start = chr '>' ∧ a (t.start + 1) ≠ chr '>' ∧ t.stop = t.start + 1
  | .append => a t.start = chr '>' ∧ a (t.start + 1) = chr '>' ∧ t.stop = t.start + 2
  | k => a t.start = chr k.sign ∧ t.stop = t.start + 1

theorem Lexeme.sign_eq {a : Cells} {t : Token Kind} (h : Lexeme a t) (hkind : t.kind ≠ .word) :
    a t.start = chr t.kind.sign := by
  obtain ⟨kind, start, stop⟩ := t
  cases kind with
  | word => exact absurd rfl hkind
  | _ => exact h.1

theorem not_blank_of_wordByte {c : ℤ} (h : wordByte c = true) : c ∉ whitespace := by
  simp only [wordByte, strchr, Bool.and_eq_true, Bool.not_eq_true', decide_eq_false_iff_not] at h
  exact h.1

theorem sign_not_blank (k : Kind) : chr k.sign ∉ whitespace := by
  cases k <;> decide

def rules : Rules ℤ Kind where
  Blank c := c ∈ whitespace
  Lexeme := Lexeme
  start_lt_stop := by
    rintro a ⟨kind, start, stop⟩ h
    cases kind with
    | word => exact h.1
    | greater => exact lt_of_lt_of_eq (Nat.lt_succ_self start) h.2.2.symm
    | append => exact lt_of_lt_of_eq (by omega : start < start + 2) h.2.2.symm
    | _ => exact lt_of_lt_of_eq (Nat.lt_succ_self start) h.2.symm
  start_not_blank := by
    rintro a t h
    by_cases hkind : t.kind = .word
    · obtain ⟨kind, start, stop⟩ := t
      obtain rfl : kind = .word := hkind
      exact not_blank_of_wordByte (h.2.1 start le_rfl h.1).2
    · rw [h.sign_eq hkind]
      exact sign_not_blank t.kind

section Grammar

/-- A redirection: its sign and the word behind it. -/
structure Redirection where
  op : Token Kind
  file : Token Kind
  op_kind : op.kind = .less ∨ op.kind = .greater ∨ op.kind = .append
  file_kind : file.kind = .word

def Redirection.tokens (r : Redirection) : List (Token Kind) := [r.op, r.file]

/-- Input is read from the file, output written to it; appending is no different. -/
def Redirection.around (r : Redirection) (c : Cmd) : Cmd :=
  if r.op.kind = .less then .redir c r.file.start r.file.stop O_RDONLY 0
  else .redir c r.file.start r.file.stop (O_WRONLY ||| O_CREATE) 1

/-- The first redirection is the innermost. -/
def wrap (rs : List Redirection) (c : Cmd) : Cmd := rs.foldl (fun c r => r.around c) c

/-- A word of the command, or a redirection between the words. -/
inductive Item where
  | word (w : Token Kind) (kind : w.kind = .word)
  | redir (r : Redirection)

def Item.tokens : Item → List (Token Kind)
  | .word w _ => [w]
  | .redir r => r.tokens

def Item.words : Item → List (ℕ × ℕ)
  | .word w _ => [(w.start, w.stop)]
  | .redir _ => []

def Item.redirs : Item → List Redirection
  | .word _ _ => []
  | .redir r => [r]

mutual

/-- The tokens are a line, and this is its tree. -/
inductive Line : List (Token Kind) → Cmd → Prop
  | last {ts amps c} : Pipe ts c → (∀ t ∈ amps, t.kind = .ampersand) →
      Line (ts ++ amps) (Cmd.back^[amps.length] c)
  | next {ts amps c semicolon us d} : Pipe ts c → (∀ t ∈ amps, t.kind = .ampersand) →
      semicolon.kind = .semicolon → Line us d →
      Line (ts ++ amps ++ semicolon :: us) (.list (Cmd.back^[amps.length] c) d)

inductive Pipe : List (Token Kind) → Cmd → Prop
  | last {ts c} : Exec ts c → Pipe ts c
  | next {ts c bar us d} : Exec ts c → bar.kind = .bar → Pipe us d →
      Pipe (ts ++ bar :: us) (.pipe c d)

inductive Exec : List (Token Kind) → Cmd → Prop
  | block {opening ts c closing} {rs : List Redirection} : opening.kind = .opening → Line ts c →
      closing.kind = .closing →
      Exec (opening :: (ts ++ closing :: rs.flatMap Redirection.tokens)) (wrap rs c)
  | simple {items : List Item} : (items.flatMap Item.words).length ≤ MAXARGS - 1 →
      Exec (items.flatMap Item.tokens)
        (wrap (items.flatMap Item.redirs) (.exec (items.flatMap Item.words)))

end

/-- The text up to `es` is a line with this tree. -/
def Derives (a : Cells) (es : ℕ) (c : Cmd) : Prop := ∃ ts, Lexed rules a es 0 ts ∧ Line ts c

end Grammar

/-- The strings that the tree points to: where each begins and ends. -/
def Cmd.pointers : Cmd → List (ℕ × ℕ)
  | .exec argv => argv
  | .redir cmd file efile _ _ => (file, efile) :: cmd.pointers
  | .pipe left right => left.pointers ++ right.pointers
  | .list left right => left.pointers ++ right.pointers
  | .back cmd => cmd.pointers

/-- The characters between two positions. -/
def slice (a : Cells) (i j : ℕ) : List ℤ := (List.range (j - i)).map fun k => a (i + k)

end NorthOS.Shell
