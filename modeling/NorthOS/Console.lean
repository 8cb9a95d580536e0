import Mathlib.Algebra.Group.Nat.Defs
import Mathlib.Data.List.DropRight
import NorthOS.Ring
import NorthOS.Runs

/-!
The input of the console. consoleintr edits the ring between w and e and commits it up to e;
consoleread takes from the ring between r and w. Both hold cons.lock throughout, but for the
sleep in which a reader waits for input. The state also keeps every byte typed with the room
that was left for it, the bytes taken by readers in the order they were taken, and the reads
that have returned.
-/
namespace NorthOS.Console

open NorthOS.Ring

def INPUT_BUF : ℕ := 128

def newline : UInt8 := 10
def ctrlP : UInt8 := 16
def ctrlU : UInt8 := 21
def ctrlH : UInt8 := 8
def delete : UInt8 := 127
def ctrlD : UInt8 := 4
def carriageReturn : UInt8 := 13

structure Input where
  buf : ℕ → UInt8
  r : ℕ
  w : ℕ
  e : ℕ

/-- `b - a` as unsigned integers. -/
def dist (a b : ℕ) : ℕ := if a ≤ b then b - a else b + 2 ^ 32 - a

/-- `a - 1` as an unsigned integer. -/
def pred (a : ℕ) : ℕ := if a = 0 then 2 ^ 32 - 1 else a - 1

namespace Input

def last (i : Input) : UInt8 := i.buf (pred i.e % INPUT_BUF)

/-- `input.e--` -/
def back (i : Input) : Input := { i with e := pred i.e }

/-- `input.buf[input.e++ % INPUT_BUF] = c` -/
def put (i : Input) (c : UInt8) : Input :=
  { i with buf := Function.update i.buf (i.e % INPUT_BUF) c, e := (i.e + 1) % 2 ^ 32 }

/-- `input.buf[input.r++ % INPUT_BUF]` -/
def next (i : Input) : UInt8 := i.buf (i.r % INPUT_BUF)

def take (i : Input) : Input := { i with r := (i.r + 1) % 2 ^ 32 }

/-- `input.r--` -/
def untake (i : Input) : Input := { i with r := pred i.r }

/-- The loop of kill line; it gets no further than to `w`. -/
def killLine : ℕ → Input → Input
  | 0, i => i
  | fuel + 1, i => if i.e ≠ i.w ∧ i.last ≠ newline then killLine fuel i.back else i

/-- A character that consoleintr got, and whether it wakes up the readers. -/
def key (i : Input) (c : UInt8) : Input × Bool :=
  if c = ctrlP then (i, false)
  else if c = ctrlU then (killLine INPUT_BUF i, false)
  else if c = ctrlH ∨ c = delete then (if i.e ≠ i.w then i.back else i, false)
  else if c ≠ 0 ∧ dist i.r i.e < INPUT_BUF then
    let c := if c = carriageReturn then newline else c
    let i := i.put c
    if c = newline ∨ c = ctrlD ∨ i.e = (i.r + INPUT_BUF) % 2 ^ 32 then ({ i with w := i.e }, true)
    else (i, false)
  else (i, false)

/-- The room that is left in the ring. -/
def room (i : Input) : ℕ := INPUT_BUF - dist i.r i.e

def unread (i : Input) : List UInt8 := stretch INPUT_BUF i.buf i.r (dist i.r i.w)

def pending (i : Input) : List UInt8 := stretch INPUT_BUF i.buf i.w (dist i.w i.e)

end Input

/-- Why the loop of consoleread is left. -/
inductive Outcome
  | returned (result : ℤ)
  | killed
  | sleep (n : ℕ)

/-- The loop of consoleread with `n` bytes to go, up to the return or to a sleep: the ring
after it, the bytes stored at `dst`, those taken off the ring, and why it is left. -/
def readLoop (killed : Bool) (target : ℕ) :
    ℕ → Input → List UInt8 → Input × List UInt8 × List UInt8 × Outcome
  | 0, i, dst => (i, dst, [], .returned target)
  | n + 1, i, dst =>
    if i.r = i.w then (i, dst, [], if killed then .killed else .sleep (n + 1))
    else
      let c := i.next
      let i := i.take
      if c = ctrlD then
        -- mid-line it is kept for the next read
        if n + 1 < target then (i.untake, dst, [], .returned (target - (n + 1 : ℕ)))
        else (i, dst, [c], .returned (target - (n + 1 : ℕ)))
      else if c = newline then (i, dst ++ [c], [c], .returned (target - n))
      else
        let rest := readLoop killed target n i (dst ++ [c])
        (rest.1, rest.2.1, c :: rest.2.2.1, rest.2.2.2)

/-- A process inside of consoleread, waiting for input. -/
structure Reader where
  n : ℕ
  target : ℕ
  dst : List UInt8
  asleep : Bool

/-- A read that has returned: what it took off the ring, what it stored and its result. -/
structure Read where
  p : ℕ
  took : List UInt8
  bytes : List UInt8
  result : ℤ

structure Sys where
  input : Input
  readers : ℕ → Option Reader
  killed : ℕ → Bool
  typed : List (UInt8 × ℕ)
  taken : List (ℕ × UInt8)
  reads : List Read

/-- One turn of the loop of consoleintr. -/
def Sys.type (s : Sys) (c : UInt8) : Sys :=
  let r := s.input.key c
  { s with
    input := r.1
    readers := if r.2 then fun p => (s.readers p).map fun rd => { rd with asleep := false }
      else s.readers
    typed := s.typed ++ [(c, s.input.room)] }

def consoleintr (s : Sys) (cs : List UInt8) : Sys := cs.foldl Sys.type s

/-- Process `p` in the loop of consoleread. -/
def readBy (s : Sys) (p : ℕ) (rd : Reader) : Sys :=
  let res := readLoop (s.killed p) rd.target rd.n s.input rd.dst
  let s := { s with input := res.1, taken := s.taken ++ res.2.2.1.map fun c => (p, c) }
  match res.2.2.2 with
  | .sleep n =>
    { s with readers := Function.update s.readers p (some ⟨n, rd.target, res.2.1, true⟩) }
  | .returned result =>
    { s with
      readers := Function.update s.readers p none
      reads := s.reads ++ [⟨p, rd.dst ++ res.2.2.1, res.2.1, result⟩] }
  | .killed =>
    { s with
      readers := Function.update s.readers p none
      reads := s.reads ++ [⟨p, rd.dst ++ res.2.2.1, res.2.1, -1⟩] }

inductive Act
  | intr (cs : List UInt8)
  | read (p n : ℕ)
  | resume (p : ℕ)
  | kill (p : ℕ)

def step (s : Sys) : Act → Option Sys
  | .intr cs => some (consoleintr s cs)
  | .read p n => if (s.readers p).isNone then some (readBy s p ⟨n, n, [], false⟩) else none
  | .resume p =>
    match s.readers p with
    | some rd => if rd.asleep then none else some (readBy s p rd)
    | none => none
  | .kill p =>
    some { s with
      killed := Function.update s.killed p true
      readers := Function.update s.readers p
        ((s.readers p).map fun rd => { rd with asleep := false }) }

def boot : Sys := ⟨⟨fun _ => 0, 0, 0, 0⟩, fun _ => none, fun _ => false, [], [], []⟩

section Discipline

/-- The counters without the wrap. -/
structure Counts (i : Input) (R W E : ℕ) : Prop where
  order : R ≤ W ∧ W ≤ E ∧ E ≤ R + INPUT_BUF
  r : i.r = R % 2 ^ 32
  w : i.w = W % 2 ^ 32
  e : i.e = E % 2 ^ 32

/-- What has been committed, and the line that is being edited. -/
abbrev Line := List UInt8 × List UInt8

/-- The line discipline: what a typed character does when there is that much room. -/
def edit (line : Line) (typed : UInt8 × ℕ) : Line :=
  let c := typed.1
  if c = ctrlP then line
  else if c = ctrlU then (line.1, line.2.rdropWhile (· ≠ newline))
  else if c = ctrlH ∨ c = delete then (line.1, line.2.dropLast)
  else if c ≠ 0 ∧ 0 < typed.2 then
    let c := if c = carriageReturn then newline else c
    if c = newline ∨ c = ctrlD ∨ typed.2 = 1 then (line.1 ++ (line.2 ++ [c]), [])
    else (line.1, line.2 ++ [c])
  else line

def Sys.line (s : Sys) : Line := s.typed.foldl edit ([], [])

/-- Every byte committed so far. -/
def Sys.committed (s : Sys) : List UInt8 := s.line.1

/-- What the read that process `p` is in has stored so far. -/
def Sys.inHand (s : Sys) (p : ℕ) : List UInt8 := ((s.readers p).map Reader.dst).getD []

/-- A read returns what it took and stops before a ^D, or it takes a ^D alone and returns 0. -/
structure Read.Sound (s : Sys) (rd : Read) : Prop where
  took : (ctrlD ∉ rd.took ∧ rd.bytes = rd.took) ∨ (rd.took = [ctrlD] ∧ rd.bytes = [] ∧ rd.result = 0)
  result : rd.result = rd.bytes.length ∨ (rd.result = -1 ∧ s.killed rd.p = true)

/-- The counters are in order, and every committed byte is taken once, in order, by a read that
returns it, or still in the ring. -/
structure Disciplined (s : Sys) : Prop where
  counters : ∃ R W E : ℕ, Counts s.input R W E
  inOrder : s.committed = s.taken.map Prod.snd ++ s.input.unread
  pending : s.line.2 = s.input.pending
  exact : ∀ p, (s.taken.filter fun t => t.1 = p).map Prod.snd =
    ((s.reads.filter fun rd => rd.p = p).flatMap Read.took) ++ s.inHand p
  sound : ∀ rd ∈ s.reads, rd.Sound s

end Discipline

section Counters

variable {i : Input} {R W E : ℕ} {c : UInt8}

theorem dist_mod {a b : ℕ} (hab : a ≤ b) (hbound : b ≤ a + INPUT_BUF) :
    dist (a % 2 ^ 32) (b % 2 ^ 32) = b - a := by
  unfold dist INPUT_BUF at *
  split <;> omega

theorem pred_mod {a : ℕ} (ha : 0 < a) : pred (a % 2 ^ 32) = (a - 1) % 2 ^ 32 := by
  unfold pred
  split <;> omega

theorem stretch_wrap {buf : ℕ → UInt8} {lo n : ℕ} :
    stretch INPUT_BUF buf (lo % 2 ^ 32) n = stretch INPUT_BUF buf lo n :=
  stretch_mod (by decide)

theorem Counts.unread (h : Counts i R W E) : i.unread = stretch INPUT_BUF i.buf R (W - R) := by
  have horder := h.order
  unfold Input.unread
  rw [h.r, h.w, dist_mod horder.1 (by omega), stretch_wrap]

theorem Counts.pending (h : Counts i R W E) : i.pending = stretch INPUT_BUF i.buf W (E - W) := by
  have horder := h.order
  unfold Input.pending
  rw [h.w, h.e, dist_mod horder.2.1 (by omega), stretch_wrap]

theorem Counts.room (h : Counts i R W E) : i.room = R + INPUT_BUF - E := by
  have horder := h.order
  unfold Input.room
  rw [h.r, h.e, dist_mod (by omega) horder.2.2]
  omega

theorem Counts.committed_iff (h : Counts i R W E) : i.e = i.w ↔ E = W := by
  have horder := h.order
  rw [h.e, h.w]
  unfold INPUT_BUF at horder
  omega

theorem Counts.empty_iff (h : Counts i R W E) : i.r = i.w ↔ R = W := by
  have horder := h.order
  rw [h.r, h.w]
  unfold INPUT_BUF at horder
  omega

theorem cell_wrap {k : ℕ} : k % 2 ^ 32 % INPUT_BUF = k % INPUT_BUF :=
  Nat.mod_mod_of_dvd k (by decide)

theorem Counts.put (h : Counts i R W E) (hroom : E < R + INPUT_BUF) :
    Counts (i.put c) R W (E + 1) ∧ (i.put c).unread = i.unread ∧
      (i.put c).pending = i.pending ++ [c] := by
  have horder := h.order
  have hput : Counts (i.put c) R W (E + 1) := by
    refine ⟨by omega, h.r, h.w, ?_⟩
    show (i.e + 1) % 2 ^ 32 = _
    rw [h.e]
    omega
  have hcell : (i.put c).buf = Function.update i.buf (E % INPUT_BUF) c := by
    show Function.update i.buf (i.e % INPUT_BUF) c = _
    rw [h.e, cell_wrap]
  refine ⟨hput, ?_, ?_⟩
  · rw [hput.unread, h.unread, hcell, stretch_update (by omega) hroom]
  · rw [hput.pending, h.pending, hcell, show E + 1 - W = E - W + 1 by omega, stretch_succ,
      stretch_update (by omega) (by omega), show W + (E - W) = E by omega, Function.update_self]

theorem Counts.back (h : Counts i R W E) (hedit : W < E) :
    Counts i.back R W (E - 1) ∧ i.back.unread = i.unread ∧
      i.pending = i.back.pending ++ [i.last] := by
  have horder := h.order
  have hback : Counts i.back R W (E - 1) := by
    refine ⟨by omega, h.r, h.w, ?_⟩
    show pred i.e = _
    rw [h.e, pred_mod (by omega)]
  have hbuf : i.back.buf = i.buf := rfl
  refine ⟨hback, ?_, ?_⟩
  · rw [hback.unread, h.unread, hbuf]
  · have hlast : i.last = i.buf ((W + (E - 1 - W)) % INPUT_BUF) := by
      have he : pred i.e = (E - 1) % 2 ^ 32 := hback.e
      unfold Input.last
      rw [he, cell_wrap, show W + (E - 1 - W) = E - 1 by omega]
    rw [h.pending, hback.pending, hlast, show E - W = E - 1 - W + 1 by omega, stretch_succ, hbuf]

theorem Counts.commit (h : Counts i R W E) :
    Counts { i with w := i.e } R E E ∧ Input.unread { i with w := i.e } = i.unread ++ i.pending ∧
      Input.pending { i with w := i.e } = [] := by
  have horder := h.order
  have hcommit : Counts { i with w := i.e } R E E := ⟨by omega, h.r, h.e, h.e⟩
  refine ⟨hcommit, ?_, ?_⟩
  · rw [hcommit.unread, h.unread, h.pending, show E - R = W - R + (E - W) by omega, stretch_append,
      show R + (W - R) = W by omega]
  · rw [hcommit.pending, Nat.sub_self, stretch_zero]

theorem Counts.take (h : Counts i R W E) (hinput : R < W) :
    Counts i.take (R + 1) W E ∧ i.unread = i.next :: i.take.unread ∧
      i.take.pending = i.pending := by
  have horder := h.order
  have htake : Counts i.take (R + 1) W E := by
    refine ⟨by omega, ?_, h.w, h.e⟩
    show (i.r + 1) % 2 ^ 32 = _
    rw [h.r]
    omega
  refine ⟨htake, ?_, ?_⟩
  · have hnext : i.next = i.buf (R % INPUT_BUF) := by
      unfold Input.next
      rw [h.r, cell_wrap]
    rw [h.unread, htake.unread, hnext, show W - R = W - (R + 1) + 1 by omega, stretch_cons]
    rfl
  · rw [htake.pending, h.pending]
    rfl

theorem Counts.untake_take (h : Counts i R W E) : i.take.untake = i := by
  have hr : pred ((i.r + 1) % 2 ^ 32) = i.r := by
    have hlt : i.r < 2 ^ 32 := h.r ▸ Nat.mod_lt _ (by decide)
    rw [pred_mod (Nat.succ_pos _), Nat.succ_sub_one, Nat.mod_eq_of_lt hlt]
  unfold Input.take Input.untake
  simp only [hr]

/-- The loop stops at the last commit point, or behind a newline. -/
theorem Counts.killLine {fuel : ℕ} (hfuel : E ≤ W + fuel) (h : Counts i R W E) :
    ∃ E', Counts (Input.killLine fuel i) R W E' ∧ (Input.killLine fuel i).unread = i.unread ∧
      (Input.killLine fuel i).pending = i.pending.rdropWhile (· ≠ newline) := by
  induction fuel generalizing i E with
  | zero =>
    have horder := h.order
    refine ⟨E, h, rfl, ?_⟩
    show i.pending = _
    rw [h.pending, show E - W = 0 by omega, stretch_zero, List.rdropWhile_nil]
  | succ fuel ih =>
    have horder := h.order
    unfold Input.killLine
    by_cases hend : i.e = i.w
    · rw [if_neg fun hc => hc.1 hend]
      have hEW := h.committed_iff.mp hend
      refine ⟨E, h, rfl, ?_⟩
      rw [h.pending, show E - W = 0 by omega, stretch_zero, List.rdropWhile_nil]
    · have hedit : W < E := lt_of_le_of_ne horder.2.1 fun heq => hend (h.committed_iff.mpr heq.symm)
      obtain ⟨hback, hunread, hpending⟩ := h.back hedit
      by_cases hlast : i.last = newline
      · rw [if_neg fun hc => hc.2 hlast]
        refine ⟨E, h, rfl, ?_⟩
        rw [hpending, List.rdropWhile_concat_neg _ _ _ (by simpa using hlast)]
      · rw [if_pos ⟨hend, hlast⟩]
        obtain ⟨E', hkill, hkunread, hkpending⟩ := ih (by omega) hback
        refine ⟨E', hkill, hkunread.trans hunread, ?_⟩
        rw [hkpending, hpending, List.rdropWhile_concat_pos _ _ _ (by simpa using hlast)]

/-- consoleintr follows the line discipline, behind what has been taken already. -/
theorem Counts.key (h : Counts i R W E) (done : List UInt8) :
    ∃ W' E', Counts (i.key c).1 R W' E' ∧
      edit (done ++ i.unread, i.pending) (c, i.room) =
        (done ++ (i.key c).1.unread, (i.key c).1.pending) := by
  have horder := h.order
  unfold Input.key edit
  simp only
  by_cases hP : c = ctrlP
  · rw [if_pos hP, if_pos hP]
    exact ⟨W, E, h, rfl⟩
  rw [if_neg hP, if_neg hP]
  by_cases hU : c = ctrlU
  · rw [if_pos hU, if_pos hU]
    obtain ⟨E', hkill, hunread, hpending⟩ := Counts.killLine (show E ≤ W + INPUT_BUF by omega) h
    exact ⟨W, E', hkill, by rw [hunread, hpending]⟩
  rw [if_neg hU, if_neg hU]
  by_cases hH : c = ctrlH ∨ c = delete
  · rw [if_pos hH, if_pos hH]
    by_cases hend : i.e = i.w
    · have hEW := h.committed_iff.mp hend
      have hnone : i.pending = [] := by
        rw [h.pending, show E - W = 0 by omega, stretch_zero]
      rw [if_neg (not_not.mpr hend)]
      exact ⟨W, E, h, by rw [hnone]; rfl⟩
    · have hedit : W < E := lt_of_le_of_ne horder.2.1 fun heq => hend (h.committed_iff.mpr heq.symm)
      obtain ⟨hback, hunread, hpending⟩ := h.back hedit
      rw [if_pos hend]
      exact ⟨W, E - 1, hback, by rw [hunread, hpending, List.dropLast_concat]⟩
  rw [if_neg hH, if_neg hH]
  have hroom : i.room = R + INPUT_BUF - E := h.room
  have hdist : dist i.r i.e = E - R := by
    rw [h.r, h.e, dist_mod (by omega) horder.2.2]
  by_cases hput : c ≠ 0 ∧ dist i.r i.e < INPUT_BUF
  · have hspec : c ≠ 0 ∧ 0 < i.room := ⟨hput.1, by omega⟩
    rw [if_pos hput, if_pos hspec]
    generalize (if c = carriageReturn then newline else c) = ch
    obtain ⟨hC, hunread, hpending⟩ := h.put (c := ch) (by omega)
    have hfull : (i.put ch).e = ((i.put ch).r + INPUT_BUF) % 2 ^ 32 ↔ i.room = 1 := by
      rw [hC.e, hC.r, hroom]
      unfold INPUT_BUF at *
      omega
    by_cases hcommit : ch = newline ∨ ch = ctrlD ∨ i.room = 1
    · rw [if_pos hcommit, if_pos (by rwa [hfull])]
      obtain ⟨hD, hDunread, hDpending⟩ := hC.commit
      refine ⟨E + 1, E + 1, hD, ?_⟩
      rw [hDunread, hDpending, hunread, hpending, List.append_assoc]
    · rw [if_neg hcommit, if_neg (by rwa [hfull])]
      exact ⟨W, E + 1, hC, by rw [hunread, hpending]⟩
  · have hspec : ¬(c ≠ 0 ∧ 0 < i.room) := fun hc => hput ⟨hc.1, by omega⟩
    rw [if_neg hput, if_neg hspec]
    exact ⟨W, E, h, rfl⟩

end Counters

section Reading

variable {i : Input} {R W E target n : ℕ} {killed : Bool} {dst : List UInt8}

/-- How the loop of consoleread is left with the bytes that it has stored. -/
def Ends (killed : Bool) (target : ℕ) (dst : List UInt8) : Outcome → Prop
  | .returned result => result = dst.length
  | .killed => killed = true
  | .sleep n => n + dst.length = target

/-- The loop takes what it stores and nothing else, unless it begins at a ^D, which it takes
alone. -/
structure Reads (killed : Bool) (target : ℕ) (dst : List UInt8) (i : Input) (W E : ℕ)
    (res : Input × List UInt8 × List UInt8 × Outcome) : Prop where
  counts : ∃ R', Counts res.1 R' W E
  unread : i.unread = res.2.2.1 ++ res.1.unread
  pending : res.1.pending = i.pending
  took : (ctrlD ∉ res.2.2.1 ∧ res.2.1 = dst ++ res.2.2.1 ∧ Ends killed target res.2.1 res.2.2.2) ∨
    (dst = [] ∧ res.2.1 = [] ∧ res.2.2.1 = [ctrlD] ∧ res.2.2.2 = .returned 0)

/-- The loop is left without another byte. -/
theorem reads_nothing (h : Counts i R W E) {outcome : Outcome}
    (hends : Ends killed target dst outcome) :
    Reads killed target dst i W E (i, dst, [], outcome) where
  counts := ⟨R, h⟩
  unread := (List.nil_append _).symm
  pending := rfl
  took := .inl ⟨List.not_mem_nil, (List.append_nil dst).symm, hends⟩

theorem readLoop_reads (h : Counts i R W E) (hn : n + dst.length = target) :
    Reads killed target dst i W E (readLoop killed target n i dst) := by
  induction n generalizing i R dst with
  | zero =>
    refine reads_nothing h ?_
    show (target : ℤ) = _
    rw [← hn, Nat.zero_add]
  | succ n ih =>
    have horder := h.order
    unfold readLoop
    by_cases hempty : i.r = i.w
    · rw [if_pos hempty]
      refine reads_nothing h ?_
      cases killed with
      | true => rfl
      | false => exact hn
    rw [if_neg hempty]
    have hinput : R < W := lt_of_le_of_ne horder.1 fun heq => hempty (h.empty_iff.mpr heq)
    obtain ⟨htake, hunread, hpending⟩ := h.take hinput
    simp only
    by_cases hD : i.next = ctrlD
    · rw [if_pos hD]
      by_cases hmid : n + 1 < target
      · rw [if_pos hmid, h.untake_take]
        refine reads_nothing h ?_
        show (target : ℤ) - (n + 1 : ℕ) = _
        omega
      · have hdst : dst = [] := List.length_eq_zero_iff.mp (by omega)
        rw [if_neg hmid]
        refine ⟨⟨R + 1, htake⟩, hunread, hpending, .inr ⟨hdst, hdst, by rw [hD], ?_⟩⟩
        rw [← hn, hdst]
        simp
    rw [if_neg hD]
    have hsingle : ctrlD ∉ [i.next] := fun hmem => hD (List.mem_singleton.mp hmem).symm
    have hn' : n + (dst ++ [i.next]).length = target := by
      rw [List.length_append, List.length_singleton]
      omega
    by_cases hnl : i.next = newline
    · rw [if_pos hnl]
      refine ⟨⟨R + 1, htake⟩, hunread, hpending, .inl ⟨hsingle, rfl, ?_⟩⟩
      show (target : ℤ) - n = (dst ++ [i.next]).length
      omega
    · rw [if_neg hnl]
      have hrest := ih htake hn'
      refine ⟨hrest.counts, ?_, hrest.pending.trans hpending, ?_⟩
      · rw [hunread, hrest.unread]
        rfl
      · rcases hrest.took with ⟨hnone, hdst, hends⟩ | ⟨hnil, _⟩
        · refine .inl ⟨?_, by rw [hdst]; simp, hends⟩
          rw [List.mem_cons, not_or]
          exact ⟨fun heq => hD heq.symm, hnone⟩
        · exact absurd hnil (by simp)

end Reading

section Runs

variable {s : Sys} {c : UInt8} {p q : ℕ} {rd : Reader}

/-- A reader that waits has room for the bytes it still asks for, and no ^D among its bytes. -/
structure Tidy (s : Sys) : Prop where
  disciplined : Disciplined s
  waiting : ∀ p rd, s.readers p = some rd → rd.n + rd.dst.length = rd.target ∧ ctrlD ∉ rd.dst

theorem inHand_awake {b : Bool} {f : ℕ → Option Reader} {p : ℕ} :
    (((if b then fun q => (f q).map fun rd : Reader => { rd with asleep := false } else f) p).map
      Reader.dst) = (f p).map Reader.dst := by
  cases b with
  | true =>
    show ((f p).map _).map Reader.dst = _
    rw [Option.map_map]
    rfl
  | false => rfl

theorem Tidy.type (h : Tidy s) (c : UInt8) : Tidy (s.type c) := by
  obtain ⟨R, W, E, hC⟩ := h.disciplined.counters
  obtain ⟨W', E', hkey, hedit⟩ := hC.key (c := c) (s.taken.map Prod.snd)
  have hline : (s.type c).line = (s.taken.map Prod.snd ++ (s.input.key c).1.unread,
      (s.input.key c).1.pending) := by
    rw [← hedit]
    show (s.typed ++ [(c, s.input.room)]).foldl edit ([], []) = _
    rw [List.foldl_append]
    show edit s.line (c, s.input.room) = _
    congr 1
    exact Prod.ext h.disciplined.inOrder h.disciplined.pending
  refine ⟨⟨⟨R, W', E', hkey⟩, congrArg Prod.fst hline, congrArg Prod.snd hline, fun p => ?_,
    fun rd hrd => ⟨(h.disciplined.sound rd hrd).took, (h.disciplined.sound rd hrd).result⟩⟩,
    fun p rd hrd => ?_⟩
  · have hhand : (s.type c).inHand p = s.inHand p := congrArg (·.getD []) inHand_awake
    rw [hhand]
    exact h.disciplined.exact p
  · change (if (s.input.key c).2 then _ else s.readers) p = some rd at hrd
    split at hrd
    · obtain ⟨rd', hrd', rfl⟩ := Option.map_eq_some_iff.mp hrd
      exact h.waiting p rd' hrd'
    · exact h.waiting p rd hrd

/-- What a reader takes belongs to it. -/
theorem taken_by {took : List UInt8} {taken : List (ℕ × UInt8)} :
    ((taken ++ took.map fun c => (p, c)).filter fun t => t.1 = q).map Prod.snd =
      ((taken.filter fun t => t.1 = q).map Prod.snd) ++ if p = q then took else [] := by
  rw [List.filter_append, List.map_append]
  congr 1
  rw [List.filter_map]
  split
  · rename_i hpq
    subst hpq
    rw [List.filter_eq_self.mpr fun _ _ => by simp, List.map_map]
    exact List.map_id took
  · rename_i hpq
    rw [List.filter_eq_nil_iff.mpr fun _ _ => by simpa using hpq]
    rfl

theorem inHand_update {x : Option Reader} :
    ((((Function.update s.readers p x) q).map Reader.dst).getD [] : List UInt8) =
      if p = q then (x.map Reader.dst).getD [] else s.inHand q := by
  split
  · rename_i hpq
    rw [← hpq, Function.update_self]
  · rename_i hpq
    rw [Function.update_of_ne fun h => hpq h.symm]
    rfl

/-- What belongs to a process when a read of its own has returned. -/
theorem reads_by {reads : List Read} {rd : Read} :
    ((reads ++ [rd]).filter fun r => r.p = q).flatMap Read.took =
      ((reads.filter fun r => r.p = q).flatMap Read.took) ++ if rd.p = q then rd.took else [] := by
  rw [List.filter_append, List.flatMap_append]
  congr 1
  split
  · rename_i hpq
    rw [List.filter_singleton, decide_eq_true hpq]
    exact List.flatMap_singleton ..
  · rename_i hpq
    rw [List.filter_singleton, decide_eq_false hpq]
    rfl

/-- The part of the state that a turn of a reader leaves, when it gives back the lock. -/
theorem Tidy.readBy (h : Tidy s) (hhand : s.inHand p = rd.dst)
    (hrd : rd.n + rd.dst.length = rd.target) (hfree : ctrlD ∉ rd.dst) : Tidy (readBy s p rd) := by
  obtain ⟨R, W, E, hC⟩ := h.disciplined.counters
  have hreads : Reads (s.killed p) rd.target rd.dst s.input W E
      (readLoop (s.killed p) rd.target rd.n s.input rd.dst) := readLoop_reads hC hrd
  unfold Console.readBy
  generalize readLoop (s.killed p) rd.target rd.n s.input rd.dst = res at hreads
  obtain ⟨i, dst, took, outcome⟩ := res
  obtain ⟨⟨R', hC'⟩, hunread, hpending, htook⟩ := hreads
  simp only at hC' hunread hpending htook ⊢
  have hin : s.committed = (s.taken ++ took.map fun c => (p, c)).map Prod.snd ++ i.unread := by
    rw [h.disciplined.inOrder, hunread, List.map_append, List.map_map, List.append_assoc]
    congr 2
    exact (List.map_id took).symm
  -- whatever the process has got so far is what it has taken
  have hmine : ∀ q, ((s.taken ++ took.map fun c => (p, c)).filter fun t => t.1 = q).map Prod.snd =
      ((s.reads.filter fun r => r.p = q).flatMap Read.took) ++
        if p = q then rd.dst ++ took else s.inHand q := by
    intro q
    rw [taken_by, h.disciplined.exact q]
    split
    · rename_i hpq
      rw [← hpq, hhand, List.append_assoc]
    · rw [List.append_nil]
  have hdone : ∀ result : ℤ,
      (dst ≠ rd.dst ++ took → rd.dst ++ took = [ctrlD] ∧ dst = [] ∧ result = 0) →
      (dst = rd.dst ++ took → ctrlD ∉ took) →
      (result = dst.length ∨ (result = -1 ∧ s.killed p = true)) →
      Tidy { s with
        input := i
        taken := s.taken ++ took.map fun c => (p, c)
        readers := Function.update s.readers p none
        reads := s.reads ++ [⟨p, rd.dst ++ took, dst, result⟩] } := by
    intro result heof hplain hresult
    refine ⟨⟨⟨R', W, E, hC'⟩, hin, h.disciplined.pending.trans hpending.symm, fun q => ?_,
      fun r hr => ?_⟩, fun q rq hq => ?_⟩
    · rw [reads_by]
      refine (hmine q).trans ?_
      show _ = _ ++ (((Function.update s.readers p none) q).map Reader.dst).getD []
      rw [inHand_update, List.append_assoc]
      congr 1
      split
      · exact (List.append_nil _).symm
      · exact (List.nil_append _).symm
    · rcases List.mem_append.mp hr with hr | hr
      · exact ⟨(h.disciplined.sound r hr).took, (h.disciplined.sound r hr).result⟩
      · obtain rfl := List.mem_singleton.mp hr
        refine ⟨?_, hresult⟩
        by_cases hdst : dst = rd.dst ++ took
        · refine .inl ⟨?_, hdst⟩
          show ctrlD ∉ rd.dst ++ took
          rw [List.mem_append, not_or]
          exact ⟨hfree, hplain hdst⟩
        · exact .inr (heof hdst)
    · change Function.update s.readers p none q = some rq at hq
      by_cases hpq : q = p
      · rw [hpq, Function.update_self] at hq
        cases hq
      · rw [Function.update_of_ne hpq] at hq
        exact h.waiting q rq hq
  rcases htook with ⟨hnone, hdst, hends⟩ | ⟨hnil, hdst, htook, hres⟩
  · cases outcome with
    | returned result => exact hdone result (absurd hdst) (fun _ => hnone) (.inl hends)
    | killed => exact hdone (-1) (absurd hdst) (fun _ => hnone) (.inr ⟨rfl, hends⟩)
    | sleep n =>
      refine ⟨⟨⟨R', W, E, hC'⟩, hin, h.disciplined.pending.trans hpending.symm, fun q => ?_,
        fun r hr => ⟨(h.disciplined.sound r hr).took, (h.disciplined.sound r hr).result⟩⟩,
        fun q rq hq => ?_⟩
      · refine (hmine q).trans ?_
        show _ = _ ++ (((Function.update s.readers p _) q).map Reader.dst).getD []
        rw [inHand_update, hdst]
        rfl
      · change Function.update s.readers p _ q = some rq at hq
        by_cases hpq : q = p
        · rw [hpq, Function.update_self] at hq
          obtain rfl := Option.some.inj hq
          refine ⟨hends, ?_⟩
          show ctrlD ∉ dst
          rw [hdst, List.mem_append, not_or]
          exact ⟨hfree, hnone⟩
        · rw [Function.update_of_ne hpq] at hq
          exact h.waiting q rq hq
  · subst hres
    have hlone : rd.dst ++ took = [ctrlD] := by rw [hnil, htook]; rfl
    refine hdone 0 (fun _ => ⟨hlone, hdst, rfl⟩) (fun heq => ?_) (.inl (by rw [hdst]; rfl))
    rw [hdst, hlone] at heq
    cases heq

theorem Tidy.kill (h : Tidy s) : Tidy
    { s with
      killed := Function.update s.killed p true
      readers := Function.update s.readers p
        ((s.readers p).map fun rd => { rd with asleep := false }) } := by
  refine ⟨⟨h.disciplined.counters, h.disciplined.inOrder, h.disciplined.pending, fun q => ?_,
    fun rd hrd => ⟨(h.disciplined.sound rd hrd).took, ?_⟩⟩, fun q rq hq => ?_⟩
  · refine (h.disciplined.exact q).trans ?_
    show _ = _ ++ (((Function.update s.readers p _) q).map Reader.dst).getD []
    rw [inHand_update]
    congr 1
    split
    · rename_i hpq
      rw [Option.map_map, ← hpq]
      rfl
    · rfl
  · refine (h.disciplined.sound rd hrd).result.imp_right fun hk => ⟨hk.1, ?_⟩
    show Function.update s.killed p true rd.p = true
    by_cases hpq : rd.p = p
    · rw [hpq, Function.update_self]
    · rw [Function.update_of_ne hpq, hk.2]
  · change Function.update s.readers p _ q = some rq at hq
    by_cases hpq : q = p
    · rw [hpq, Function.update_self] at hq
      obtain ⟨rd, hrd, rfl⟩ := Option.map_eq_some_iff.mp hq
      exact h.waiting p rd hrd
    · rw [Function.update_of_ne hpq] at hq
      exact h.waiting q rq hq

theorem Tidy.intr (h : Tidy s) (cs : List UInt8) : Tidy (consoleintr s cs) := by
  induction cs generalizing s with
  | nil => exact h
  | cons c cs ih => exact ih (h.type c)

theorem Tidy.step (h : Tidy s) {a : Act} {t : Sys} (ht : step s a = some t) : Tidy t := by
  cases a with
  | intr cs =>
    cases ht
    exact h.intr cs
  | read p n =>
    change (if (s.readers p).isNone then _ else none) = some t at ht
    split at ht
    · rename_i hnone
      cases ht
      refine h.readBy ?_ rfl List.not_mem_nil
      unfold Sys.inHand
      rw [Option.isNone_iff_eq_none.mp hnone]
      rfl
    · cases ht
  | resume p =>
    unfold Console.step at ht
    simp only at ht
    split at ht
    · rename_i rd hrd
      split at ht
      · cases ht
      · cases ht
        refine h.readBy ?_ (h.waiting p rd hrd).1 (h.waiting p rd hrd).2
        unfold Sys.inHand
        rw [hrd]
        rfl
    · cases ht
  | kill p =>
    cases ht
    exact h.kill

theorem boot_tidy : Tidy boot where
  disciplined := ⟨⟨0, 0, 0, ⟨by decide, rfl, rfl, rfl⟩⟩, rfl, rfl, fun _ => rfl,
    fun _ h => nomatch h⟩
  waiting := fun _ _ h => nomatch h

end Runs

section Sequence

variable {s : Sys} {p : ℕ} {rd : Reader}

/-- A read begins when no other is waiting. -/
def Alone (s : Sys) : Act → Prop
  | .read _ _ => ∀ q, s.readers q = none
  | _ => True

/-- When no read is waiting, the reads in the order of their returns give what was taken. -/
def InSequence (s : Sys) : Prop :=
  (∀ p, s.readers p = none) → s.taken.map Prod.snd = s.reads.flatMap Read.took

/-- There is one reader at most, and its bytes are the last that were taken. -/
structure OneReader (s : Sys) (hand : List UInt8) : Prop where
  taken : s.taken.map Prod.snd = s.reads.flatMap Read.took ++ hand
  waiting : ∀ p rd, s.readers p = some rd → rd.dst = hand ∧ ∀ q, q ≠ p → s.readers q = none
  idle : (∀ p, s.readers p = none) → hand = []

theorem OneReader.readBy (hs : Tidy s) (h : OneReader s rd.dst)
    (hrd : rd.n + rd.dst.length = rd.target)
    (hothers : ∀ q, q ≠ p → s.readers q = none) : ∃ hand, OneReader (readBy s p rd) hand := by
  obtain ⟨R, W, E, hC⟩ := hs.disciplined.counters
  have hreads : Reads (s.killed p) rd.target rd.dst s.input W E
      (readLoop (s.killed p) rd.target rd.n s.input rd.dst) := readLoop_reads hC hrd
  unfold Console.readBy
  generalize readLoop (s.killed p) rd.target rd.n s.input rd.dst = res at hreads
  obtain ⟨i, dst, took, outcome⟩ := res
  have htook := hreads.took
  simp only at htook ⊢
  have htaken : (s.taken ++ took.map fun c => (p, c)).map Prod.snd =
      s.reads.flatMap Read.took ++ (rd.dst ++ took) := by
    rw [List.map_append, h.taken, List.map_map, List.append_assoc]
    congr 2
    exact List.map_id took
  have hnone : ∀ {x : Option Reader} (q : ℕ), q ≠ p → Function.update s.readers p x q = none := by
    intro x q hq
    rw [Function.update_of_ne hq, hothers q hq]
  have hdone : ∀ result : ℤ, OneReader { s with
        input := i
        taken := s.taken ++ took.map fun c => (p, c)
        readers := Function.update s.readers p none
        reads := s.reads ++ [⟨p, rd.dst ++ took, dst, result⟩] } [] := by
    intro result
    refine ⟨?_, fun q rq hq => ?_, fun _ => rfl⟩
    · refine htaken.trans ?_
      rw [List.flatMap_append, List.append_nil, List.flatMap_singleton]
    · change Function.update s.readers p none q = some rq at hq
      by_cases hpq : q = p
      · rw [hpq, Function.update_self] at hq
        cases hq
      · rw [hnone q hpq] at hq
        cases hq
  cases outcome with
  | returned result => exact ⟨[], hdone result⟩
  | killed => exact ⟨[], hdone (-1)⟩
  | sleep n =>
    have hdst : dst = rd.dst ++ took := by
      rcases htook with ⟨_, hdst, _⟩ | ⟨_, _, _, hres⟩
      · exact hdst
      · cases hres
    refine ⟨dst, ?_, fun q rq hq => ?_, fun hall => ?_⟩
    · rw [hdst]
      exact htaken
    · change Function.update s.readers p _ q = some rq at hq
      by_cases hpq : q = p
      · rw [hpq, Function.update_self] at hq
        obtain rfl := Option.some.inj hq
        exact ⟨rfl, fun q' hq' => hnone q' (by rwa [← hpq])⟩
      · rw [hnone q hpq] at hq
        cases hq
    · have hp : Function.update s.readers p (some ⟨n, rd.target, dst, true⟩) p = none := hall p
      rw [Function.update_self] at hp
      cases hp

/-- Waking readers up changes nothing in what they have. -/
theorem OneReader.awake {hand : List UInt8} {t : Sys} (h : OneReader s hand)
    (htaken : t.taken = s.taken) (hreads : t.reads = s.reads)
    (hreaders : ∀ q, (t.readers q).map Reader.dst = (s.readers q).map Reader.dst) :
    OneReader t hand := by
  have hnone : ∀ q, t.readers q = none ↔ s.readers q = none := by
    intro q
    rw [← Option.map_eq_none_iff (f := Reader.dst), hreaders, Option.map_eq_none_iff]
  refine ⟨by rw [htaken, hreads]; exact h.taken, fun p rd hp => ?_, fun hall =>
    h.idle fun q => (hnone q).mp (hall q)⟩
  have hdst : (s.readers p).map Reader.dst = some rd.dst := by rw [← hreaders, hp]; rfl
  obtain ⟨rd', hrd', heq⟩ := Option.map_eq_some_iff.mp hdst
  obtain ⟨hhand, hothers⟩ := h.waiting p rd' hrd'
  exact ⟨heq ▸ hhand, fun q hq => (hnone q).mpr (hothers q hq)⟩

theorem OneReader.intr {hand : List UInt8} (h : OneReader s hand) (cs : List UInt8) :
    OneReader (consoleintr s cs) hand := by
  induction cs generalizing s with
  | nil => exact h
  | cons c cs ih => exact ih (h.awake rfl rfl fun _ => inHand_awake)

theorem oneReader_step (hs : Tidy s) {a : Act} {t : Sys} (ha : Alone s a)
    (h : ∃ hand, OneReader s hand) (ht : step s a = some t) : ∃ hand, OneReader t hand := by
  obtain ⟨hand, h⟩ := h
  cases a with
  | intr cs =>
    cases ht
    exact ⟨hand, h.intr cs⟩
  | read p n =>
    change (if (s.readers p).isNone then _ else none) = some t at ht
    split at ht
    · cases ht
      obtain rfl := h.idle ha
      exact OneReader.readBy hs h rfl fun q _ => ha q
    · cases ht
  | resume p =>
    unfold Console.step at ht
    simp only at ht
    split at ht
    · rename_i rd hrd
      split at ht
      · cases ht
      · cases ht
        obtain ⟨rfl, hothers⟩ := h.waiting p rd hrd
        exact OneReader.readBy hs h (hs.waiting p rd hrd).1 hothers
    · cases ht
  | kill p =>
    cases ht
    refine ⟨hand, h.awake rfl rfl fun q => ?_⟩
    show (Function.update s.readers p _ q).map Reader.dst = _
    by_cases hpq : q = p
    · rw [hpq, Function.update_self, Option.map_map]
      rfl
    · rw [Function.update_of_ne hpq]

end Sequence

open Runs in
/-- In every run the counters stay in order and every committed byte is taken exactly once, in
order; where reads do not overlap, what they return is the committed input. -/
theorem console_disciplined (as : List Act) :
    Always step Disciplined boot as ∧
      (Meets step Alone boot as → Always step InSequence boot as) := by
  constructor
  · refine Always.mono (fun s h => Tidy.disciplined h) ?_
    exact always_of_invariant (fun s a t hs ht => Tidy.step hs ht) boot_tidy as
  · intro halone
    refine Always.mono (P := fun s => Tidy s ∧ ∃ hand, OneReader s hand) (fun s h hnone => ?_) ?_
    · obtain ⟨hand, h⟩ := h.2
      rw [h.taken, h.idle hnone, List.append_nil]
    · refine always_of_meets (C := Alone) ?_ ⟨boot_tidy, [], rfl, fun _ _ h => (nomatch h),
        fun _ => rfl⟩ halone
      intro s a t hs ha ht
      exact ⟨hs.1.step ht, oneReader_step hs.1 ha hs.2 ht⟩

/-- A read that begins before its line is typed. -/
theorem console_disciplined_line : Runs.Always step Disciplined boot
      [.read 1 10, .intr [97, newline], .resume 1] ∧
    Runs.Always step InSequence boot [.read 1 10, .intr [97, newline], .resume 1] :=
  ⟨(console_disciplined _).1, (console_disciplined _).2 fun _ _ =>
    ⟨fun _ => rfl, fun _ _ => ⟨trivial, fun _ _ => ⟨trivial, trivial⟩⟩⟩⟩

/-- What a read gives to its caller. -/
def Read.returned (rd : Read) : List UInt8 := if rd.result = -1 then [] else rd.bytes

/-- Once every process that took something has returned, the results of the reads are the
committed input, as far as it has been read. -/
def Concatenates (s : Sys) : Prop :=
  (∀ p ∈ s.taken.map Prod.fst, (s.readers p).isNone) →
    s.reads.flatMap Read.returned ++ s.input.unread.filter (· ≠ ctrlD) =
      s.committed.filter (· ≠ ctrlD)

instance (s : Sys) : Decidable (Concatenates s) := by
  unfold Concatenates
  infer_instance

/-- A read of 200 bytes sleeps with the 128 of a full ring; another reads a line meanwhile. -/
def overlapping : List Act :=
  [.read 1 200, .intr (List.replicate 128 97), .resume 1, .read 2 10, .intr [98, newline],
    .resume 2, .intr [99, newline], .resume 1]

open Runs in
theorem not_always_concatenates : ¬∀ as : List Act, Always step Concatenates boot as := by
  intro h
  have hrun := (always_iff_run boot overlapping).mp (h overlapping) overlapping
  have hbad : (run step boot overlapping).any (fun s => !decide (Concatenates s)) = true := by
    decide +kernel
  cases hend : run step boot overlapping with
  | none =>
    rw [hend] at hbad
    cases hbad
  | some t =>
    have hgood : Concatenates t := hrun t (List.prefix_refl _) hend
    rw [hend] at hbad
    exact absurd hgood (of_decide_eq_false (Bool.not_eq_true' _ ▸ hbad))

end NorthOS.Console
