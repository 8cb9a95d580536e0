import Mathlib.Algebra.Group.Nat.Defs
import NorthOS.ExitWait

/-!
Pipes. pipewrite, piperead and pipeclose move in small steps between the points where
they take or give back p->lock and ptable.lock; sleep gives p->lock back before the
process is asleep. The bytes in the ring are read off from nread, and the pipe is the
queue of them: what writes stored is what reads took followed by the contents.
-/
namespace NorthOS.Pipes

open Process Runs

def PIPESIZE : ℕ := 512

structure Pipe where
  data : ℕ → UInt8
  nread : ℕ
  nwrite : ℕ
  readopen : Bool
  writeopen : Bool

namespace Pipe

def full (p : Pipe) : Prop := p.nwrite = (p.nread + PIPESIZE) % 2 ^ 32

def empty (p : Pipe) : Prop := p.nread = p.nwrite

instance (p : Pipe) : Decidable p.full := inferInstanceAs (Decidable (_ = _))

instance (p : Pipe) : Decidable p.empty := inferInstanceAs (Decidable (_ = _))

def put (p : Pipe) (b : UInt8) : Pipe :=
  { p with data := Function.update p.data (p.nwrite % PIPESIZE) b, nwrite := (p.nwrite + 1) % 2 ^ 32 }

def next (p : Pipe) : UInt8 := p.data (p.nread % PIPESIZE)

def take (p : Pipe) : Pipe := { p with nread := (p.nread + 1) % 2 ^ 32 }

/-- nwrite - nread, as the code computes it. -/
def count (p : Pipe) : ℕ := (p.nwrite + 2 ^ 32 - p.nread) % 2 ^ 32

def contents (p : Pipe) : List UInt8 := (List.range p.count).map fun k => p.data ((p.nread + k) % PIPESIZE)

structure Bounded (p : Pipe) : Prop where
  nread : p.nread < 2 ^ 32
  nwrite : p.nwrite < 2 ^ 32
  count : p.count ≤ PIPESIZE

variable {p : Pipe}

theorem full_iff (h : p.Bounded) : p.full ↔ p.count = PIPESIZE := by
  have hr := h.nread
  have hw := h.nwrite
  unfold full count PIPESIZE
  omega

theorem empty_iff (h : p.Bounded) : p.empty ↔ p.count = 0 := by
  have hr := h.nread
  have hw := h.nwrite
  unfold empty count
  omega

theorem contents_empty (h : p.Bounded) (he : p.empty) : p.contents = [] := by
  unfold contents
  rw [(empty_iff h).mp he]
  rfl

theorem count_put (h : p.Bounded) (b : UInt8) : (p.put b).count = p.count + 1 := by
  have hr := h.nread
  have hw := h.nwrite
  have hc := h.count
  unfold count put PIPESIZE at *
  dsimp only
  omega

theorem Bounded.put (h : p.Bounded) (hfull : ¬ p.full) (b : UInt8) : (p.put b).Bounded := by
  refine ⟨h.nread, Nat.mod_lt _ (by decide), ?_⟩
  rw [count_put h b]
  rw [full_iff h] at hfull
  have hc := h.count
  omega

theorem contents_put (h : p.Bounded) (hfull : ¬ p.full) (b : UInt8) :
    (p.put b).contents = p.contents ++ [b] := by
  have hr := h.nread
  have hw := h.nwrite
  have hc := h.count
  rw [full_iff h] at hfull
  have hlast : (p.nread + p.count) % PIPESIZE = p.nwrite % PIPESIZE := by
    unfold count PIPESIZE
    omega
  unfold contents
  rw [count_put h b, List.range_succ, List.map_append, List.map_singleton]
  congr 1
  · refine List.map_congr_left fun k hk => Function.update_of_ne ?_ ..
    have hlt := List.mem_range.mp hk
    rw [← hlast]
    unfold PIPESIZE at hc hfull ⊢
    show (p.nread + k) % 512 ≠ _
    omega
  · refine congrArg (fun x => [x]) ?_
    show Function.update p.data (p.nwrite % PIPESIZE) b ((p.nread + p.count) % PIPESIZE) = b
    rw [hlast, Function.update_self]

theorem count_take (h : p.Bounded) (hempty : ¬ p.empty) : p.count = p.take.count + 1 := by
  have hr := h.nread
  have hw := h.nwrite
  have hc := h.count
  rw [empty_iff h] at hempty
  unfold count take PIPESIZE at *
  dsimp only
  omega

theorem Bounded.take (h : p.Bounded) (hempty : ¬ p.empty) : p.take.Bounded := by
  refine ⟨Nat.mod_lt _ (by decide), h.nwrite, ?_⟩
  have hc := h.count
  rw [count_take h hempty] at hc
  exact Nat.le_of_succ_le hc

theorem contents_take (h : p.Bounded) (hempty : ¬ p.empty) :
    p.contents = p.next :: p.take.contents := by
  have hr := h.nread
  unfold contents
  rw [count_take h hempty, List.range_succ_eq_map, List.map_cons, List.map_map]
  congr 1
  refine List.map_congr_left fun k _ => congrArg p.data ?_
  show (p.nread + (k + 1)) % PIPESIZE = ((p.nread + 1) % 2 ^ 32 + k) % PIPESIZE
  unfold PIPESIZE
  omega

end Pipe

/-- The call that a process is in: pipewrite before byte `i`, piperead while it waits and
with the bytes that it has copied, and pipeclose. -/
inductive Call
  | write (addr : List UInt8) (i : ℕ)
  | read (n : ℕ)
  | copy (n : ℕ) (addr : List UInt8)
  | close (writable : Bool)

/-- Where in the call: at acquire(&p->lock), in the body, at the wakeup of a full pipe, in
sleep (before ptable.lock, before p->lock is released, before the process is asleep, and
after), at the last wakeup, and at the last release. -/
inductive Stage
  | lock
  | body
  | wake
  | sleep
  | handover
  | fall
  | asleep
  | finish
  | leave
  deriving DecidableEq

/-- The process holds p->lock. -/
def Stage.holds : Stage → Bool
  | .body | .wake | .sleep | .handover | .finish | .leave => true
  | .lock | .fall | .asleep => false

/-- Where the process can be once it copies. -/
def Stage.copies : Stage → Bool
  | .body | .finish | .leave => true
  | _ => false

/-- &p->nread and &p->nwrite. -/
def nreadChan : Chan := .addr 0

def nwriteChan : Chan := .addr 1

/-- Where the call sleeps. -/
def Call.chan : Call → Chan
  | .write _ _ => nwriteChan
  | .read _ | .copy _ _ | .close _ => nreadChan

/-- Whom the call wakes before it returns. -/
def Call.wakes : Call → Chan
  | .write _ _ | .close true => nreadChan
  | .read _ | .copy _ _ | .close false => nwriteChan

/-- One pipe and the processes that use it, with the bytes that writes stored and that
reads took, and what the reads returned that are over. -/
structure Sys where
  table : Ptable
  pipe : Pipe
  lock : Option ℕ
  ptlock : Option ℕ
  doing : ℕ → Option (Call × Stage)
  stored : List UInt8
  taken : List UInt8
  returned : List (List UInt8)

inductive Act
  | write (p : ℕ) (addr : List UInt8)
  | read (p : ℕ) (n : ℕ)
  | close (p : ℕ) (writable : Bool)
  | go (p : ℕ)
  | kill (p : ℕ) (pid : ℤ)
  | fault (p : ℕ)
  | schedule (p : ℕ)
  | yield (p : ℕ)
  | sleep (p : ℕ) (a : ℕ)
  | wakeup (chan : Chan)

namespace Sys

def killed (s : Sys) (p : ℕ) : Bool := (s.table.proc p).killed

def running (s : Sys) (p : ℕ) : Prop := (s.table.proc p).state = .RUNNING

instance (s : Sys) (p : ℕ) : Decidable (s.running p) := inferInstanceAs (Decidable (_ = _))

/-- Both ends are closed and the page has been freed. -/
def freed (s : Sys) : Prop := s.pipe.readopen = false ∧ s.pipe.writeopen = false ∧ s.lock = none

instance (s : Sys) : Decidable s.freed := inferInstanceAs (Decidable (_ ∧ _))

def moveTo (s : Sys) (p : ℕ) (c : Call) (st : Stage) : Sys :=
  { s with doing := Function.update s.doing p (some (c, st)) }

/-- The release of p->lock and the return. -/
def release (s : Sys) (p : ℕ) : Sys := { s with lock := none, doing := Function.update s.doing p none }

/-- One round of the loop that the process is in, under p->lock. -/
def body (s : Sys) (p : ℕ) : Call → Sys
  | .write addr i =>
    if h : i < addr.length then
      if s.pipe.full then
        if s.pipe.readopen = false ∨ s.killed p then s.release p
        else s.moveTo p (.write addr i) .wake
      else
        { s.moveTo p (.write addr (i + 1)) .body with
          pipe := s.pipe.put addr[i]
          stored := s.stored ++ [addr[i]] }
    else s.moveTo p (.write addr i) .finish
  | .read n =>
    if s.pipe.empty ∧ s.pipe.writeopen then
      if s.killed p then s.release p else s.moveTo p (.read n) .sleep
    else s.moveTo p (.copy n []) .body
  | .copy n addr =>
    if addr.length < n ∧ ¬ s.pipe.empty then
      { s.moveTo p (.copy n (addr ++ [s.pipe.next])) .body with
        pipe := s.pipe.take
        taken := s.taken ++ [s.pipe.next] }
    else s.moveTo p (.copy n addr) .finish
  | .close writable =>
    { s.moveTo p (.close writable) .finish with
      pipe := if writable then { s.pipe with writeopen := false } else { s.pipe with readopen := false } }

/-- The next small step of a process in a call. -/
def go (s : Sys) (p : ℕ) (c : Call) : Stage → Option Sys
  | .lock => if s.lock = none then some { s.moveTo p c .body with lock := some p } else none
  | .body => some (s.body p c)
  | .wake =>
    if s.ptlock = none then some { s.moveTo p c .sleep with table := s.table.wakeup1 (some nreadChan) } else none
  | .sleep => if s.ptlock = none then some { s.moveTo p c .handover with ptlock := some p } else none
  | .handover => some { s.moveTo p c .fall with lock := none }
  | .fall => some { s.moveTo p c .asleep with ptlock := none, table := s.table.sleep p c.chan }
  | .asleep => if s.ptlock = none then some { s.moveTo p c .lock with table := s.table.tidy p } else none
  | .finish =>
    if s.ptlock = none then some { s.moveTo p c .leave with table := s.table.wakeup1 (some c.wakes) } else none
  | .leave =>
    some { s.release p with
      returned := match c with
        | .copy _ addr => s.returned ++ [addr]
        | _ => s.returned }

def enter (s : Sys) (p : ℕ) (c : Call) : Option Sys :=
  if s.running p ∧ s.doing p = none ∧ ¬ s.freed then some (s.moveTo p c .lock) else none

/-- What the kernel does beside the calls, under ptable.lock. -/
def withTable (s : Sys) (t : Ptable) : Option Sys :=
  if s.ptlock = none then some { s with table := t } else none

def step (s : Sys) : Act → Option Sys
  | .write p addr => s.enter p (.write addr 0)
  | .read p n => s.enter p (.read n)
  | .close p writable => s.enter p (.close writable)
  | .go p =>
    match s.doing p with
    | some (c, st) => if s.running p ∧ ¬ s.freed then s.go p c st else none
    | none => none
  | .kill p pid => if s.running p ∧ s.doing p = none then s.withTable (s.table.killPid pid).1 else none
  | .fault p =>
    if s.running p ∧ s.doing p = none then s.withTable (s.table.set p fun q => { q with killed := true })
    else none
  | .schedule p => (s.table.schedule p).bind s.withTable
  | .yield p =>
    if s.running p ∧ (s.doing p).all (fun d => d.2 = .lock) then s.withTable (s.table.yield p) else none
  | .sleep p a =>
    if s.running p ∧ s.doing p = none then s.withTable (s.table.sleep p (.addr (a + 2))) else none
  | .wakeup chan => s.withTable (s.table.wakeup1 (some chan))

/-- pipealloc: both ends are open and nothing has been written. -/
def fresh (t : Ptable) (data : ℕ → UInt8) : Sys := ⟨t, ⟨data, 0, 0, true, true⟩, none, none, fun _ => none, [], [], []⟩

end Sys

/-- The bytes that a call has copied and not returned. -/
def Call.hand : Call → List UInt8
  | .copy _ addr => addr
  | _ => []

def handOf (x : Option (Call × Stage)) : List UInt8 := (x.map fun d => d.1.hand).getD []

def Sys.inHand (s : Sys) : List UInt8 :=
  match s.lock with
  | some p => handOf (s.doing p)
  | none => []

section Fifo

theorem Stage.holds_of_copies {st : Stage} (h : st.copies = true) : st.holds = true := by
  cases st <;> first | rfl | cases h

/-- A read that has copied nothing has not looked yet, or was not to copy anything, or
has found the pipe empty and closed. -/
def Justified (pipe : Pipe) (n : ℕ) (addr : List UInt8) (st : Stage) : Prop :=
  addr = [] → (st = .body ∧ ¬ (pipe.empty ∧ pipe.writeopen)) ∨ n = 0 ∨ pipe.empty ∧ pipe.writeopen = false

/-- The invariant: the pipe is a queue, and only the process that holds the lock has
bytes in hand. -/
structure Fifo (s : Sys) : Prop where
  bounded : s.pipe.Bounded
  stored : s.stored = s.taken ++ s.pipe.contents
  taken : s.taken = s.returned.flatten ++ s.inHand
  exclusive : ∀ p c st, s.doing p = some (c, st) → st.holds = true → s.lock = some p
  copying : ∀ p n addr st, s.doing p = some (.copy n addr, st) →
    st.copies = true ∧ Justified s.pipe n addr st

variable {s s' : Sys} {p : ℕ} {x : Option (Call × Stage)}

/-- A step of the process that holds the lock. -/
theorem Fifo.held (h : Fifo s) (hlock : s.lock = some p)
    (hdoing : s'.doing = Function.update s.doing p x)
    (hbounded : s'.pipe.Bounded) (hstored : s'.stored = s'.taken ++ s'.pipe.contents)
    (hcopy : ∀ n addr st, x = some (.copy n addr, st) → st.copies = true ∧
      Justified s'.pipe n addr st)
    (hkeep : s'.lock = some p ∧ s'.taken = s'.returned.flatten ++ handOf x ∨
      s'.lock = none ∧ s'.taken = s'.returned.flatten ∧ ∀ c st, x = some (c, st) →
      st.holds = false) :
    Fifo s' := by
  have hself : s'.doing p = x := by
    rw [hdoing, Function.update_self]
  have hother : ∀ q, q ≠ p → s'.doing q = s.doing q := by
    intro q hq
    rw [hdoing, Function.update_of_ne hq]
  have halone : ∀ q c st, q ≠ p → s'.doing q = some (c, st) → st.holds = false := by
    intro q c st hq hs
    rw [hother q hq] at hs
    rw [← Bool.not_eq_true]
    intro hholds
    have hl := h.exclusive q c st hs hholds
    rw [hlock] at hl
    exact hq (Option.some.inj hl).symm
  refine ⟨hbounded, hstored, ?_, fun q c st hs hholds => ?_, fun q n addr st hs => ?_⟩
  · unfold Sys.inHand
    rcases hkeep with ⟨hl, ht⟩ | ⟨hl, ht, _⟩
    · rw [hl]
      dsimp only
      rw [hself]
      exact ht
    · rw [hl, ht]
      exact (List.append_nil _).symm
  · by_cases hq : q = p
    · subst hq
      rcases hkeep with ⟨hl, _⟩ | ⟨_, _, hno⟩
      · exact hl
      · rw [hno c st (hself.symm.trans hs)] at hholds
        cases hholds
    · rw [halone q c st hq hs] at hholds
      cases hholds
  · by_cases hq : q = p
    · subst hq
      exact hcopy n addr st (hself.symm.trans hs)
    · have hs' := hs
      rw [hother q hq] at hs'
      have hholds := Stage.holds_of_copies (h.copying q n addr st hs').1
      rw [halone q _ st hq hs] at hholds
      cases hholds

/-- A step of a process that does not hold the lock, which it may take. -/
theorem Fifo.outside (h : Fifo s) (hout : ∀ c st, s.doing p = some (c, st) → st.holds = false)
    {c : Call} {st : Stage}
    (hdoing : s'.doing = Function.update s.doing p (some (c, st))) (hpipe : s'.pipe = s.pipe)
    (hbytes : s'.stored = s.stored ∧ s'.taken = s.taken ∧ s'.returned = s.returned)
    (hcall : handOf (some (c, st)) = [] ∧ ∀ n addr, c ≠ .copy n addr)
    (hlock : s'.lock = s.lock ∧ st.holds = false ∨ s.lock = none ∧ s'.lock = some p) : Fifo s' := by
  obtain ⟨hs, ht, hr⟩ := hbytes
  have hself : s'.doing p = some (c, st) := by
    rw [hdoing, Function.update_self]
  have hother : ∀ q, q ≠ p → s'.doing q = s.doing q := by
    intro q hq
    rw [hdoing, Function.update_of_ne hq]
  have hhand : s'.inHand = s.inHand := by
    have hold : handOf (s.doing p) = [] := by
      cases hd : s.doing p with
      | none => rfl
      | some d =>
        obtain ⟨c', st'⟩ := d
        cases c' with
        | copy n addr =>
          have hholds := Stage.holds_of_copies (h.copying p n addr st' hd).1
          rw [hout _ _ hd] at hholds
          cases hholds
        | _ => rfl
    unfold Sys.inHand
    rcases hlock with ⟨hl, _⟩ | ⟨hl, hl'⟩
    · rw [hl]
      cases s.lock with
      | none => rfl
      | some q =>
        dsimp only
        by_cases hq : q = p
        · rw [hq, hself, hcall.1, hold]
        · rw [hother q hq]
    · rw [hl, hl']
      dsimp only
      rw [hself, hcall.1]
  refine ⟨hpipe ▸ h.bounded, ?_, ?_, fun q c' st' hd hholds => ?_, fun q n addr st' hd => ?_⟩
  · rw [hs, ht, hpipe]
    exact h.stored
  · rw [ht, hr, hhand]
    exact h.taken
  · by_cases hq : q = p
    · subst hq
      obtain ⟨rfl, rfl⟩ := Prod.mk.inj (Option.some.inj (hself.symm.trans hd))
      rcases hlock with ⟨_, hno⟩ | ⟨_, hl⟩
      · rw [hno] at hholds
        cases hholds
      · exact hl
    · rw [hother q hq] at hd
      have hl := h.exclusive q c' st' hd hholds
      rcases hlock with ⟨hl', _⟩ | ⟨hnone, _⟩
      · rw [hl', hl]
      · rw [hnone] at hl
        cases hl
  · by_cases hq : q = p
    · subst hq
      obtain ⟨rfl, _⟩ := Prod.mk.inj (Option.some.inj (hself.symm.trans hd))
      exact absurd rfl (hcall.2 n addr)
    · rw [hother q hq] at hd
      rw [hpipe]
      exact h.copying q n addr st' hd

theorem Fifo.body (h : Fifo s) {c : Call} (hdoing : s.doing p = some (c, .body)) :
    Fifo (s.body p c) := by
  have hlock : s.lock = some p := h.exclusive p c .body hdoing rfl
  have htaken : s.taken = s.returned.flatten ++ handOf (s.doing p) := by
    have ht := h.taken
    unfold Sys.inHand at ht
    rwa [hlock] at ht
  rw [hdoing] at htaken
  cases c with
  | write addr i =>
    have hnone : s.taken = s.returned.flatten := htaken.trans (List.append_nil _)
    dsimp only [Sys.body]
    split
    · rename_i hi
      split
      · split
        · exact h.held hlock rfl h.bounded h.stored (fun _ _ _ hx => by cases hx)
            (Or.inr ⟨rfl, hnone, fun _ _ hx => by cases hx⟩)
        · exact h.held hlock rfl h.bounded h.stored (fun _ _ _ hx => by cases hx)
            (Or.inl ⟨hlock, htaken⟩)
      · rename_i hfull
        refine h.held hlock rfl (h.bounded.put hfull _) ?_ (fun _ _ _ hx => by cases hx)
          (Or.inl ⟨hlock, htaken⟩)
        show s.stored ++ [addr[i]] = s.taken ++ (s.pipe.put addr[i]).contents
        rw [Pipe.contents_put h.bounded hfull, h.stored, List.append_assoc]
    · exact h.held hlock rfl h.bounded h.stored (fun _ _ _ hx => by cases hx)
        (Or.inl ⟨hlock, htaken⟩)
  | read n =>
    have hnone : s.taken = s.returned.flatten := htaken.trans (List.append_nil _)
    dsimp only [Sys.body]
    split
    · split
      · exact h.held hlock rfl h.bounded h.stored (fun _ _ _ hx => by cases hx)
          (Or.inr ⟨rfl, hnone, fun _ _ hx => by cases hx⟩)
      · exact h.held hlock rfl h.bounded h.stored (fun _ _ _ hx => by cases hx)
          (Or.inl ⟨hlock, htaken⟩)
    · rename_i hready
      refine h.held hlock rfl h.bounded h.stored (fun n' addr st hx => ?_) (Or.inl ⟨hlock, htaken⟩)
      cases hx
      exact ⟨rfl, fun _ => Or.inl ⟨rfl, hready⟩⟩
  | copy n addr =>
    have hjust := (h.copying p n addr .body hdoing).2
    dsimp only [Sys.body]
    split
    · rename_i hmore
      refine h.held hlock rfl (h.bounded.take hmore.2) ?_ (fun n' addr' st hx => ?_)
        (Or.inl ⟨hlock, ?_⟩)
      · show s.stored = s.taken ++ [s.pipe.next] ++ s.pipe.take.contents
        rw [h.stored, Pipe.contents_take h.bounded hmore.2, List.append_assoc]
        rfl
      · cases hx
        exact ⟨rfl, fun hnil => by simp at hnil⟩
      · show s.taken ++ [s.pipe.next] = s.returned.flatten ++ (addr ++ [s.pipe.next])
        rw [htaken, List.append_assoc]
        rfl
    · rename_i hstop
      refine h.held hlock rfl h.bounded h.stored (fun n' addr' st hx => ?_) (Or.inl ⟨hlock, htaken⟩)
      cases hx
      refine ⟨rfl, fun hnil => Or.inr ?_⟩
      by_cases hn : n = 0
      · exact Or.inl hn
      · have hempty : s.pipe.empty := by
          by_contra hne
          refine hstop ⟨?_, hne⟩
          rw [hnil]
          exact Nat.pos_of_ne_zero hn
        rcases hjust hnil with ⟨_, hready⟩ | hn' | hclosed
        · exact Or.inr ⟨hempty, Bool.eq_false_iff.mpr fun hw => hready ⟨hempty, hw⟩⟩
        · exact absurd hn' hn
        · exact Or.inr hclosed
  | close writable =>
    cases writable with
    | true =>
      exact h.held hlock rfl ⟨h.bounded.nread, h.bounded.nwrite, h.bounded.count⟩ h.stored
        (fun _ _ _ hx => by cases hx) (Or.inl ⟨hlock, htaken⟩)
    | false =>
      exact h.held hlock rfl ⟨h.bounded.nread, h.bounded.nwrite, h.bounded.count⟩ h.stored
        (fun _ _ _ hx => by cases hx) (Or.inl ⟨hlock, htaken⟩)

theorem Fifo.go (h : Fifo s) {c : Call} {st : Stage} (hdoing : s.doing p = some (c, st))
    (hs : s.go p c st = some s') : Fifo s' := by
  have hlocked : st.holds = true → s.lock = some p := h.exclusive p c st hdoing
  have hcopy : ∀ n addr, c = .copy n addr → st.copies = true := by
    rintro n addr rfl
    exact (h.copying p n addr st hdoing).1
  have hout : st.holds = false → ∀ c' st', s.doing p = some (c', st') → st'.holds = false := by
    intro hno c' st' hd
    obtain ⟨_, rfl⟩ := Prod.mk.inj (Option.some.inj (hdoing.symm.trans hd))
    exact hno
  have hcall : st.holds = false → ∀ st', handOf (some (c, st')) = [] ∧ ∀ n addr,
      c ≠ .copy n addr := by
    intro hno st'
    cases c with
    | copy n addr =>
      rw [Stage.holds_of_copies (hcopy n addr rfl)] at hno
      cases hno
    | _ => exact ⟨rfl, fun _ _ hc => by cases hc⟩
  have htaken : st.holds = true → s.taken = s.returned.flatten ++ handOf (some (c, st)) := by
    intro hholds
    have ht := h.taken
    unfold Sys.inHand at ht
    rw [hlocked hholds] at ht
    rw [← hdoing]
    exact ht
  cases st with
  | body =>
    obtain rfl := Option.some.inj hs
    exact h.body hdoing
  | lock =>
    obtain ⟨hfree, hs⟩ := Option.ite_none_right_eq_some.mp hs
    obtain rfl := Option.some.inj hs
    exact h.outside (hout rfl) rfl rfl ⟨rfl, rfl, rfl⟩ (hcall rfl _) (Or.inr ⟨hfree, rfl⟩)
  | fall =>
    obtain rfl := Option.some.inj hs
    exact h.outside (hout rfl) rfl rfl ⟨rfl, rfl, rfl⟩ (hcall rfl _) (Or.inl ⟨rfl, rfl⟩)
  | asleep =>
    obtain ⟨_, hs⟩ := Option.ite_none_right_eq_some.mp hs
    obtain rfl := Option.some.inj hs
    exact h.outside (hout rfl) rfl rfl ⟨rfl, rfl, rfl⟩ (hcall rfl _) (Or.inl ⟨rfl, rfl⟩)
  | wake =>
    obtain ⟨_, hs⟩ := Option.ite_none_right_eq_some.mp hs
    obtain rfl := Option.some.inj hs
    refine h.held (hlocked rfl) rfl h.bounded h.stored (fun n addr st hx => ?_)
      (Or.inl ⟨hlocked rfl, htaken rfl⟩)
    cases hx
    cases hcopy n addr rfl
  | sleep =>
    obtain ⟨_, hs⟩ := Option.ite_none_right_eq_some.mp hs
    obtain rfl := Option.some.inj hs
    refine h.held (hlocked rfl) rfl h.bounded h.stored (fun n addr st hx => ?_)
      (Or.inl ⟨hlocked rfl, htaken rfl⟩)
    cases hx
    cases hcopy n addr rfl
  | handover =>
    obtain rfl := Option.some.inj hs
    have hno : ∀ n addr, c ≠ .copy n addr := by
      rintro n addr rfl
      cases hcopy n addr rfl
    refine h.held (hlocked rfl) rfl h.bounded h.stored (fun n addr st hx => ?_)
      (Or.inr ⟨rfl, ?_, fun _ _ hx => ?_⟩)
    · cases hx
      exact absurd rfl (hno n addr)
    · refine (htaken rfl).trans ?_
      cases c with
      | copy n addr => exact absurd rfl (hno n addr)
      | _ => exact List.append_nil _
    · cases hx
      rfl
  | finish =>
    obtain ⟨_, hs⟩ := Option.ite_none_right_eq_some.mp hs
    obtain rfl := Option.some.inj hs
    refine h.held (hlocked rfl) rfl h.bounded h.stored (fun n addr st hx => ?_)
      (Or.inl ⟨hlocked rfl, htaken rfl⟩)
    cases hx
    refine ⟨rfl, fun hnil => Or.inr ?_⟩
    exact ((h.copying p n addr .finish hdoing).2 hnil).resolve_left fun hb => by cases hb.1
  | leave =>
    obtain rfl := Option.some.inj hs
    refine h.held (hlocked rfl) rfl h.bounded h.stored (fun _ _ _ hx => by cases hx)
      (Or.inr ⟨rfl, ?_, fun _ _ hx => by cases hx⟩)
    refine (htaken rfl).trans ?_
    cases c with
    | copy n addr =>
      show s.returned.flatten ++ addr = (s.returned ++ [addr]).flatten
      rw [List.flatten_append, List.flatten_singleton]
    | _ => exact List.append_nil _

/-- What happens to the table alone does not concern the queue. -/
theorem Fifo.withTable (h : Fifo s) {t : Ptable} (hs : s.withTable t = some s') : Fifo s' := by
  obtain ⟨_, hs⟩ := Option.ite_none_right_eq_some.mp hs
  obtain rfl := Option.some.inj hs
  exact ⟨h.bounded, h.stored, h.taken, h.exclusive, h.copying⟩

theorem Fifo.enter (h : Fifo s) {c : Call}
    (hc : handOf (some (c, .lock)) = [] ∧ ∀ n addr, c ≠ .copy n addr)
    (hs : s.enter p c = some s') : Fifo s' := by
  obtain ⟨⟨_, hidle, _⟩, hs⟩ := Option.ite_none_right_eq_some.mp hs
  obtain rfl := Option.some.inj hs
  refine h.outside (fun c' st' hd => ?_) rfl rfl ⟨rfl, rfl, rfl⟩ hc (Or.inl ⟨rfl, rfl⟩)
  rw [hidle] at hd
  cases hd

theorem Fifo.step (h : Fifo s) {a : Act} (hs : s.step a = some s') : Fifo s' := by
  cases a with
  | write p addr => exact h.enter ⟨rfl, fun _ _ hc => by cases hc⟩ hs
  | read p n => exact h.enter ⟨rfl, fun _ _ hc => by cases hc⟩ hs
  | close p writable => exact h.enter ⟨rfl, fun _ _ hc => by cases hc⟩ hs
  | go p =>
    dsimp only [Sys.step] at hs
    split at hs
    · rename_i c st hdoing
      obtain ⟨_, hs⟩ := Option.ite_none_right_eq_some.mp hs
      exact h.go hdoing hs
    · cases hs
  | kill p pid =>
    obtain ⟨_, hs⟩ := Option.ite_none_right_eq_some.mp hs
    exact h.withTable hs
  | fault p =>
    obtain ⟨_, hs⟩ := Option.ite_none_right_eq_some.mp hs
    exact h.withTable hs
  | schedule p =>
    obtain ⟨t, _, hs⟩ := Option.bind_eq_some_iff.mp hs
    exact h.withTable hs
  | yield p =>
    obtain ⟨_, hs⟩ := Option.ite_none_right_eq_some.mp hs
    exact h.withTable hs
  | sleep p a =>
    obtain ⟨_, hs⟩ := Option.ite_none_right_eq_some.mp hs
    exact h.withTable hs
  | wakeup chan => exact h.withTable hs

theorem fresh_fifo (t : Ptable) (data : ℕ → UInt8) : Fifo (.fresh t data) := by
  have hcount : (Sys.fresh t data).pipe.count = 0 := by
    simp [Sys.fresh, Pipe.count]
  have hbounded : (Sys.fresh t data).pipe.Bounded :=
    ⟨Nat.two_pow_pos 32, Nat.two_pow_pos 32, hcount.trans_le (Nat.zero_le _)⟩
  refine ⟨hbounded, ?_, rfl, fun p c st hd => ?_, fun p n addr st hd => ?_⟩
  · rw [Pipe.contents_empty hbounded ((Pipe.empty_iff hbounded).mpr hcount)]
    rfl
  · cases hd
  · cases hd

end Fifo

/-- A bounded queue: the reads that are over returned, in order, the first of the bytes
that were stored, and nothing is lost in between. -/
structure InOrder (s : Sys) : Prop where
  bounded : s.pipe.count ≤ PIPESIZE
  taken : s.taken <+: s.stored
  returned : s.returned.flatten <+: s.taken
  whole : s.lock = none → s.returned.flatten = s.taken

/-- A read returns 0 only where it was to read nothing, or the pipe is empty and its
writers have closed it. -/
def EndOfFile (s : Sys) : Act → Prop
  | .go p => ∀ n, s.doing p = some (.copy n [], .leave) →
    n = 0 ∨ s.pipe.empty ∧ s.pipe.writeopen = false
  | _ => True

theorem Fifo.inOrder {s : Sys} (h : Fifo s) : InOrder s where
  bounded := h.bounded.count
  taken := ⟨_, h.stored.symm⟩
  returned := ⟨_, h.taken.symm⟩
  whole := by
    intro hlock
    have ht := h.taken
    unfold Sys.inHand at ht
    rw [hlock] at ht
    exact (ht.trans (List.append_nil _)).symm

/-- Pipes are bounded queues, in every run and also when the counters wrap. -/
theorem always_inOrder (t : Ptable) (data : ℕ → UInt8) (as : List Act) :
    Always Sys.step InOrder (.fresh t data) as ∧ Along Sys.step EndOfFile (.fresh t data) as := by
  have hkeep : ∀ s a s', Fifo s → s.step a = some s' → Fifo s' := fun _ _ _ h hs => h.step hs
  constructor
  · exact (always_of_invariant hkeep (fresh_fifo t data) as).mono fun _ h => h.inOrder
  · refine along_of_invariant (fun s a h => ?_) hkeep (fresh_fifo t data) as
    cases a with
    | go p =>
      intro n hdoing
      exact ((h.copying p n [] .leave hdoing).2 rfl).resolve_left fun hb => by cases hb.1
    | _ => trivial

end NorthOS.Pipes
