import NorthOS.CString

/-!
The terminal's command parser. The cursor is the index of a cell of the text, and `es` is the
index of the 0 at its end. A read or a write behind that 0 is `wild`; the calls nest to a given
depth, and `timeout` is a call below it.
-/
namespace NorthOS.Shell

open CString

def chr (c : Char) : ℤ := c.toNat

def whitespace : List ℤ := [' ', '\t', '\r', '\n', '\x0b'].map chr

def symbols : List ℤ := ['<', '|', '>', '&', ';', '(', ')'].map chr

def MAXARGS : ℕ := 10

def O_RDONLY : ℕ := 0x000
def O_WRONLY : ℕ := 0x001
def O_CREATE : ℕ := 0x200

inductive Stop where
  | panic (message : String)
  | wild
  | timeout
deriving DecidableEq, Repr

/-- The pairs of an `execcmd` are `argv[i]` and `eargv[i]`, up to the null pointer. -/
inductive Cmd where
  | exec (argv : List (ℕ × ℕ))
  | redir (cmd : Cmd) (file efile mode fd : ℕ)
  | pipe (left right : Cmd)
  | list (left right : Cmd)
  | back (cmd : Cmd)
deriving DecidableEq, Repr

section Scanning

variable (a : Cells) (es : ℕ)

def fetch (s : ℕ) : Except Stop ℤ := if s ≤ es then .ok (a s) else .error .wild

/-- `strchr(s, c)`, which never finds the 0 at the end of s. -/
def strchr (s : List ℤ) (c : ℤ) : Bool := decide (c ∈ s)

/-- `while (s < es && p(*s)) s++`, with k bytes left before `es` -/
def advance (p : ℤ → Bool) : ℕ → ℕ → ℕ
  | 0, s => s
  | k + 1, s => if p (a s) then advance p k (s + 1) else s

def skipBlanks (s : ℕ) : ℕ := advance a (strchr whitespace) (es - s) s

def wordByte (c : ℤ) : Bool := !strchr whitespace c && !strchr symbols c

/-- What `gettoken` returns, with the bounds it stores in `*q` and `*eq`. -/
structure Scanned where
  ret : ℤ
  q : ℕ
  eq : ℕ
deriving DecidableEq, Repr

/-- The switch on the first character: the token and where it ends. -/
def scanToken (s : ℕ) (c : ℤ) : Except Stop (ℤ × ℕ) :=
  if c = 0 then .ok (c, s)
  else if c ∈ ['|', '(', ')', ';', '&', '<'].map chr then .ok (c, s + 1)
  else if c = chr '>' then do
    let d ← fetch a es (s + 1)
    if d = chr '>' then .ok (chr '+', s + 2) else .ok (c, s + 1)
  else .ok (chr 'a', advance a wordByte (es - s) s)

def gettoken (ps : ℕ) : Except Stop (Scanned × ℕ) := do
  let q := skipBlanks a es ps
  let c ← fetch a es q
  let (ret, eq) ← scanToken a es q c
  .ok (⟨ret, q, eq⟩, skipBlanks a es eq)

def peek (ps : ℕ) (toks : List ℤ) : Except Stop (Bool × ℕ) := do
  let s := skipBlanks a es ps
  let c ← fetch a es s
  .ok (decide (c ≠ 0) && strchr toks c, s)

end Scanning

section Parsing

variable (a : Cells) (es : ℕ)

def parseredirs : ℕ → Cmd → ℕ → Except Stop (Cmd × ℕ)
  | 0, _, _ => .error .timeout
  | fuel + 1, cmd, ps => do
    let (redirected, ps) ← peek a es ps (['<', '>'].map chr)
    if redirected then
      let (tok, ps) ← gettoken a es ps
      let (file, ps) ← gettoken a es ps
      if file.ret ≠ chr 'a' then .error (.panic "missing file for redirection")
      else if tok.ret = chr '<' then
        parseredirs fuel (.redir cmd file.q file.eq O_RDONLY 0) ps
      else if tok.ret = chr '>' then
        parseredirs fuel (.redir cmd file.q file.eq (O_WRONLY ||| O_CREATE) 1) ps
      else if tok.ret = chr '+' then
        parseredirs fuel (.redir cmd file.q file.eq (O_WRONLY ||| O_CREATE) 1) ps
      else parseredirs fuel cmd ps
    else .ok (cmd, ps)

/-- `cmd->argv[argc] = q; cmd->eargv[argc] = eq`, where `cmd` is the `execcmd` under the
redirections put around it so far -/
def setArg (q eq : ℕ) : Cmd → Cmd
  | .exec argv => .exec (argv ++ [(q, eq)])
  | .redir cmd file efile mode fd => .redir (setArg q eq cmd) file efile mode fd
  | cmd => cmd

/-- The loop of `parseexec` over the words. -/
def parseargs : ℕ → Cmd → ℕ → ℕ → Except Stop (Cmd × ℕ)
  | 0, _, _, _ => .error .timeout
  | fuel + 1, ret, argc, ps => do
    let (ended, ps) ← peek a es ps (['|', ')', '&', ';'].map chr)
    if ended then .ok (ret, ps)
    else
      let (tok, ps) ← gettoken a es ps
      if tok.ret = 0 then .ok (ret, ps)
      else if tok.ret ≠ chr 'a' then .error (.panic "syntax")
      else if MAXARGS ≤ argc + 1 then .error (.panic "too many args")
      else
        let (ret, ps) ← parseredirs a es fuel (setArg tok.q tok.eq ret) ps
        parseargs fuel ret (argc + 1) ps

/-- The loop of `parseline` over the `&`. -/
def parsebacks : ℕ → Cmd → ℕ → Except Stop (Cmd × ℕ)
  | 0, _, _ => .error .timeout
  | fuel + 1, cmd, ps => do
    let (backed, ps) ← peek a es ps [chr '&']
    if backed then
      let (_, ps) ← gettoken a es ps
      parsebacks fuel (.back cmd) ps
    else .ok (cmd, ps)

mutual

def parseline : ℕ → ℕ → Except Stop (Cmd × ℕ)
  | 0, _ => .error .timeout
  | fuel + 1, ps => do
    let (cmd, ps) ← parsepipe fuel ps
    let (cmd, ps) ← parsebacks a es fuel cmd ps
    let (listed, ps) ← peek a es ps [chr ';']
    if listed then
      let (_, ps) ← gettoken a es ps
      let (right, ps) ← parseline fuel ps
      .ok (.list cmd right, ps)
    else .ok (cmd, ps)

def parsepipe : ℕ → ℕ → Except Stop (Cmd × ℕ)
  | 0, _ => .error .timeout
  | fuel + 1, ps => do
    let (cmd, ps) ← parseexec fuel ps
    let (piped, ps) ← peek a es ps [chr '|']
    if piped then
      let (_, ps) ← gettoken a es ps
      let (right, ps) ← parsepipe fuel ps
      .ok (.pipe cmd right, ps)
    else .ok (cmd, ps)

def parseexec : ℕ → ℕ → Except Stop (Cmd × ℕ)
  | 0, _ => .error .timeout
  | fuel + 1, ps => do
    let (block, ps) ← peek a es ps [chr '(']
    if block then parseblock fuel ps
    else
      let (ret, ps) ← parseredirs a es fuel (.exec []) ps
      parseargs a es fuel ret 0 ps

def parseblock : ℕ → ℕ → Except Stop (Cmd × ℕ)
  | 0, _ => .error .timeout
  | fuel + 1, ps => do
    let (opened, ps) ← peek a es ps [chr '(']
    if !opened then .error (.panic "parseblock")
    else
      let (_, ps) ← gettoken a es ps
      let (cmd, ps) ← parseline fuel ps
      let (closed, ps) ← peek a es ps [chr ')']
      if !closed then .error (.panic "syntax - missing )")
      else
        let (_, ps) ← gettoken a es ps
        parseredirs a es fuel cmd ps

end

end Parsing

section Terminators

variable (es : ℕ)

/-- `*s = 0` -/
def endAt (s : ℕ) (a : Cells) : Except Stop Cells :=
  if s ≤ es then .ok (Function.update a s 0) else .error .wild

def endAll : List (ℕ × ℕ) → Cells → Except Stop Cells
  | [], a => .ok a
  | (_, eq) :: argv, a => endAt es eq a >>= endAll argv

def nulterminate : Cmd → Cells → Except Stop Cells
  | .exec argv, a => endAll es argv a
  | .redir cmd _ efile _ _, a => nulterminate cmd a >>= endAt es efile
  | .pipe left right, a => nulterminate left a >>= nulterminate right
  | .list left right, a => nulterminate left a >>= nulterminate right
  | .back cmd, a => nulterminate cmd a

end Terminators

/-- The depth to which the calls nest on a text of so many bytes. -/
def depth (es : ℕ) : ℕ := 4 * es + 4

/-- The text is in an array of n cells. The tree comes with the text it points into. -/
def parsecmd (n : ℕ) (a : Cells) : Except Stop (Option Cmd × Cells) :=
  match strlen n a with
  | none => .error .wild
  | some 0 => .ok (none, a)
  | some (k + 1) => do
    let es := k + 1
    let (cmd, s) ← parseline a es (depth es) 0
    let (_, s) ← peek a es s []
    if s ≠ es then .error (.panic "syntax")
    else
      let a ← nulterminate es cmd a
      .ok (some cmd, a)

end NorthOS.Shell
