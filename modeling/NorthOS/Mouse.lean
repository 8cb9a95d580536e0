import Mathlib.Algebra.Group.Nat.Defs
import NorthOS.WindowManager

/-!
The mouse driver of mouse.c. A call of mouseintr handles the bytes that the controller
has ready, with the tick of its interrupt. The state also lists what genMouseMessage was
called for and what it handed to handleMessage.
-/
namespace NorthOS.Mouse

open WindowManager (Message MsgType)

/-- The bits and movements of `packet`. -/
structure Motion where
  x_sgn : ℕ
  y_sgn : ℕ
  x_mov : ℤ
  y_mov : ℤ
  l_btn : ℕ
  r_btn : ℕ
  m_btn : ℕ
  x_overflow : ℕ
  y_overflow : ℕ
  deriving DecidableEq, Repr

/-- Ticks are words, also where they are kept in an int. -/
structure State where
  packet : Motion
  tick : ℕ
  count : ℕ
  recovery : ℤ
  lastbtn : ℕ
  lastdowntick : ℕ
  lastclicktick : ℕ
  generated : List Motion
  handled : List Message

section Driver

def handleMessage (msg : Message) (s : State) : State := { s with handled := s.handled ++ [msg] }

def genMouseUpMessage (btns : ℕ) (s : State) : State :=
  handleMessage ⟨.M_MOUSE_UP, fun i => if i = 0 then btns else 0⟩ s

/-- `0xffffff00 | (mov & 0xff)` where the sign is set. -/
def movement (sgn : ℕ) (mov : ℤ) : ℤ := if sgn ≠ 0 then mov % 256 - 256 else mov % 256

/-- `-1000` -/
def longAgo : ℕ := 2 ^ 32 - 1000

/-- `a - b` for words. -/
def since (a b : ℕ) : ℕ := (a + 2 ^ 32 - b) % 2 ^ 32

/-- `junk` is what the message holds that is handed on without being set. -/
def genMouseMessage (junk : State → Message) (s : State) : State :=
  let s := { s with generated := s.generated ++ [s.packet] }
  if s.packet.x_overflow ≠ 0 ∨ s.packet.y_overflow ≠ 0 then s
  else
    let x := movement s.packet.x_sgn s.packet.x_mov
    let y := movement s.packet.y_sgn s.packet.y_mov
    let s := { s with packet := { s.packet with x_mov := x, y_mov := y } }
    let btns := s.packet.l_btn ||| (s.packet.r_btn <<< 1) ||| (s.packet.m_btn <<< 2)
    if x ≠ 0 ∨ y ≠ 0 then
      let msg : Message :=
        ⟨.M_MOUSE_MOVE, fun i => if i = 0 then x else if i = 1 then y else if i = 2 then btns else 0⟩
      let s := { s with lastdowntick := longAgo, lastclicktick := longAgo }
      let s := if btns ≠ s.lastbtn then genMouseUpMessage btns s else s
      handleMessage msg { s with lastbtn := btns }
    else if btns ≠ 0 then
      let msg : Message := ⟨.M_MOUSE_DOWN, fun i => if i = 0 then btns else 0⟩
      handleMessage msg { s with lastdowntick := s.tick, lastbtn := btns }
    else if since s.tick s.lastdowntick < 30 then
      let type := if s.lastbtn % 2 = 1 then MsgType.M_MOUSE_LEFT_CLICK else .M_MOUSE_RIGHT_CLICK
      if since s.tick s.lastclicktick < 60 then
        handleMessage (.plain .M_MOUSE_DBCLICK) { s with lastclicktick := longAgo, lastbtn := btns }
      else handleMessage (.plain type) { s with lastclicktick := s.tick, lastbtn := btns }
    else
      let s := genMouseUpMessage btns s
      handleMessage (junk s) { s with lastbtn := btns }

/-- `(data >> k) & 0x1` -/
def bit (data : UInt8) (k : ℕ) : ℕ := data.toNat / 2 ^ k % 2

def recover (recovery : ℤ) (data : UInt8) : ℤ :=
  if recovery = 0 ∧ data = 0 then 1
  else if recovery = 1 ∧ data = 0 then 2
  else if data = 12 then 0
  else -1

/-- `switch (count)` -/
def store (tick : ℕ) (data : UInt8) (s : State) : State :=
  match s.count with
  | 1 =>
    if bit data 3 ≠ 0 then
      { s with packet := { s.packet with
        y_overflow := bit data 7
        x_overflow := bit data 6
        y_sgn := bit data 5
        x_sgn := bit data 4
        m_btn := bit data 2
        r_btn := bit data 1
        l_btn := bit data 0 } }
    else { s with count := 0 }
  | 2 => { s with packet := { s.packet with x_mov := data.toNat } }
  | 3 => { s with packet := { s.packet with y_mov := data.toNat }, tick := tick }
  | _ => { s with count := 0 }

/-- One turn of the loop of mouseintr. -/
def turn (junk : State → Message) (tick : ℕ) (s : State) (data : UInt8) : State :=
  let s := store tick data { s with count := s.count + 1, recovery := recover s.recovery data }
  if s.recovery = 2 then { s with count := 0, recovery := -1 }
  else if s.count = 3 then genMouseMessage junk { s with count := 0 }
  else s

def mouseintr (junk : State → Message) (s : State) (tick : ℕ) (ready : List UInt8) : State :=
  ready.foldl (turn junk tick) s

/-- Calls of mouseintr with their ticks and bytes. -/
def mouseintrs (junk : State → Message) (s : State) (calls : List (ℕ × List UInt8)) : State :=
  calls.foldl (fun s call => mouseintr junk s call.1 call.2) s

end Driver

section Packets

/-- The three bytes that a mouse sends at a time. -/
structure Packet where
  head : UInt8
  x : UInt8
  y : UInt8
  deriving DecidableEq, Repr

def Packet.bytes (p : Packet) : List UInt8 := [p.head, p.x, p.y]

/-- What the packet says. -/
def Packet.motion (p : Packet) : Motion where
  x_sgn := bit p.head 4
  y_sgn := bit p.head 5
  x_mov := p.x.toNat
  y_mov := p.y.toNat
  l_btn := bit p.head 0
  r_btn := bit p.head 1
  m_btn := bit p.head 2
  x_overflow := bit p.head 6
  y_overflow := bit p.head 7

/-- The bytes after which mouseintr starts a new packet: the middle button, without any
movement. -/
def resync : Packet := ⟨12, 0, 0⟩

/-- The bytes in the order in which they arrive, each with the tick of its call. -/
def arrivals (calls : List (ℕ × List UInt8)) : List (ℕ × UInt8) :=
  calls.flatMap fun call => call.2.map fun data => (call.1, data)

def feed (junk : State → Message) (s : State) (as : List (ℕ × UInt8)) : State :=
  as.foldl (fun s a => turn junk a.1 s a.2) s

variable {junk : State → Message} {s : State} {tick : ℕ} {data : UInt8}

/-- It does not matter how the bytes are split over the calls. -/
theorem mouseintrs_eq (calls : List (ℕ × List UInt8)) :
    mouseintrs junk s calls = feed junk s (arrivals calls) := by
  induction calls generalizing s with
  | nil => rfl
  | cons call calls ih =>
    show mouseintrs junk (mouseintr junk s call.1 call.2) calls = _
    rw [ih]
    unfold feed arrivals mouseintr
    rw [List.flatMap_cons, List.foldl_append, List.foldl_map]

theorem arrivals_bytes (calls : List (ℕ × List UInt8)) :
    (arrivals calls).map Prod.snd = calls.flatMap Prod.snd := by
  unfold arrivals
  rw [List.map_flatMap]
  congr 1
  funext call
  rw [List.map_map]
  exact List.map_id call.2

theorem head_ne_zero (h : bit data 3 ≠ 0) : data ≠ 0 := by
  rintro rfl
  exact h rfl

theorem recover_eq_two {r : ℤ} : recover r data = 2 ↔ r = 1 ∧ data = 0 := by
  unfold recover
  split_ifs <;> grind

theorem recover_eq_one {r : ℤ} : recover r data = 1 ↔ r = 0 ∧ data = 0 := by
  unfold recover
  split_ifs <;> grind

/-- The first byte of a packet. -/
theorem turn_head (hcount : s.count = 0) (hbit : bit data 3 ≠ 0) :
    turn junk tick s data = { s with
      count := 1
      recovery := if data = 12 then 0 else -1
      packet := { s.packet with
        y_overflow := bit data 7
        x_overflow := bit data 6
        y_sgn := bit data 5
        x_sgn := bit data 4
        m_btn := bit data 2
        r_btn := bit data 1
        l_btn := bit data 0 } } := by
  have hne := head_ne_zero hbit
  have hrecover : recover s.recovery data = if data = 12 then 0 else -1 := by
    simp [recover, hne]
  have hsmall : recover s.recovery data ≠ 2 := by
    rw [hrecover]
    split <;> decide
  unfold turn store
  simp only [hcount, Nat.zero_add, if_pos hbit]
  rw [if_neg hsmall, hrecover]
  rfl

/-- The second byte. -/
theorem turn_x (hcount : s.count = 1) (hrec : s.recovery ≠ 1) :
    turn junk tick s data = { s with
      count := 2
      recovery := recover s.recovery data
      packet := { s.packet with x_mov := data.toNat } } := by
  have hsmall : recover s.recovery data ≠ 2 := fun h => hrec (recover_eq_two.mp h).1
  unfold turn store
  simp only [hcount]
  rw [if_neg hsmall]
  rfl

/-- The third byte hands the packet on, unless it ends the bytes of `resync`. -/
theorem turn_y (hcount : s.count = 2) :
    turn junk tick s data =
      if recover s.recovery data = 2 then { s with
        count := 0
        recovery := -1
        packet := { s.packet with y_mov := data.toNat }
        tick := tick }
      else genMouseMessage junk { s with
        count := 0
        recovery := recover s.recovery data
        packet := { s.packet with y_mov := data.toNat }
        tick := tick } := by
  unfold turn store
  simp only [hcount]
  rfl

theorem genMouseMessage_frame : (genMouseMessage junk s).count = s.count ∧
    (genMouseMessage junk s).generated = s.generated ++ [s.packet] := by
  unfold genMouseMessage genMouseUpMessage handleMessage
  dsimp only
  split_ifs <;> exact ⟨rfl, rfl⟩

/-- One packet from a boundary to the next. -/
theorem feed_packet {p : Packet} {t₁ t₂ t₃ : ℕ} (hcount : s.count = 0) (hbit : bit p.head 3 ≠ 0) :
    (feed junk s [(t₁, p.head), (t₂, p.x), (t₃, p.y)]).count = 0 ∧
      (feed junk s [(t₁, p.head), (t₂, p.x), (t₃, p.y)]).generated =
        s.generated ++ if p = resync then [] else [p.motion] := by
  show (turn junk t₃ (turn junk t₂ (turn junk t₁ s p.head) p.x) p.y).count = 0 ∧
    (turn junk t₃ (turn junk t₂ (turn junk t₁ s p.head) p.x) p.y).generated = _
  have hrec : (if p.head = 12 then (0 : ℤ) else -1) ≠ 1 := by
    split <;> decide
  have h₁ := @turn_head junk s t₁ p.head hcount hbit
  have h₂ := @turn_x junk (turn junk t₁ s p.head) t₂ p.x (by rw [h₁]) (by rw [h₁]; exact hrec)
  have h₃ := @turn_y junk (turn junk t₂ (turn junk t₁ s p.head) p.x) t₃ p.y (by rw [h₂])
  rw [h₃, h₂, h₁]
  have htwo : recover (recover (if p.head = 12 then 0 else -1) p.x) p.y = 2 ↔ p = resync := by
    have hzero : (if p.head = 12 then (0 : ℤ) else -1) = 0 ↔ p.head = 12 := by
      split <;> simp_all
    rw [recover_eq_two, recover_eq_one, hzero]
    obtain ⟨head, x, y⟩ := p
    simp only [resync, Packet.mk.injEq, and_assoc]
  by_cases hp : p = resync
  · rw [if_pos (htwo.mpr hp), if_pos hp, List.append_nil]
    exact ⟨rfl, rfl⟩
  · rw [if_neg (mt htwo.mp hp), if_neg hp]
    exact genMouseMessage_frame

theorem take_packets {ps : List Packet} {k : ℕ} (hk : k ≤ ps.length) :
    (ps.flatMap Packet.bytes).take (3 * k) = (ps.take k).flatMap Packet.bytes := by
  induction ps generalizing k with
  | nil => simp
  | cons p ps ih =>
    cases k with
    | zero => rfl
    | succ k =>
      have hrest := ih (Nat.le_of_succ_le_succ hk)
      show p.head :: p.x :: p.y :: (ps.flatMap Packet.bytes).take (3 * k) = _
      rw [hrest]
      rfl

/-- Packets one after the other, with any ticks. -/
theorem feed_packets {ps : List Packet} {as : List (ℕ × UInt8)} (hcount : s.count = 0)
    (hbit : ∀ p ∈ ps, bit p.head 3 ≠ 0) (has : as.map Prod.snd = ps.flatMap Packet.bytes) :
    (feed junk s as).count = 0 ∧ (feed junk s as).generated =
      s.generated ++ (ps.filter (· ≠ resync)).map Packet.motion := by
  induction ps generalizing s as with
  | nil =>
    obtain rfl := List.map_eq_nil_iff.mp has
    exact ⟨hcount, (List.append_nil _).symm⟩
  | cons p ps ih =>
    have hlist : as.map Prod.snd = p.head :: p.x :: p.y :: ps.flatMap Packet.bytes := has
    obtain ⟨⟨t₁, _⟩, as₁, rfl, rfl, hlist₁⟩ := List.map_eq_cons_iff.mp hlist
    obtain ⟨⟨t₂, _⟩, as₂, rfl, rfl, hlist₂⟩ := List.map_eq_cons_iff.mp hlist₁
    obtain ⟨⟨t₃, _⟩, as₃, rfl, rfl, hlist₃⟩ := List.map_eq_cons_iff.mp hlist₂
    have hone := @feed_packet junk s p t₁ t₂ t₃ hcount (hbit p (List.mem_cons_self ..))
    obtain ⟨hzero, hgen⟩ := hone
    obtain ⟨hlast, hrest⟩ := ih hzero (fun q hq => hbit q (List.mem_cons_of_mem _ hq)) hlist₃
    refine ⟨hlast, ?_⟩
    refine hrest.trans ?_
    rw [hgen]
    by_cases hp : p = resync
    · rw [if_pos hp, List.filter_cons_of_neg (by simpa using hp), List.append_nil]
    · rw [if_neg hp, List.filter_cons_of_pos (by simpa using hp), List.map_cons, List.append_assoc]
      rfl

/-- At every boundary between packets the count is 0, and genMouseMessage has run once for
each packet so far but those of `resync`. -/
theorem mouseintrs_decode {calls : List (ℕ × List UInt8)} {ps : List Packet} (hcount : s.count = 0)
    (hbit : ∀ p ∈ ps, bit p.head 3 ≠ 0)
    (hbytes : calls.flatMap Prod.snd = ps.flatMap Packet.bytes) :
    mouseintrs junk s calls = feed junk s (arrivals calls) ∧ ∀ k ≤ ps.length,
      (feed junk s ((arrivals calls).take (3 * k))).count = 0 ∧
        (feed junk s ((arrivals calls).take (3 * k))).generated =
          s.generated ++ ((ps.take k).filter (· ≠ resync)).map Packet.motion := by
  refine ⟨mouseintrs_eq calls, fun k hk => ?_⟩
  refine feed_packets hcount (fun p hp => hbit p (List.mem_of_mem_take hp)) ?_
  rw [List.map_take, arrivals_bytes, hbytes]
  exact take_packets hk

/-- What the static variables are before the first byte. -/
def start : State where
  packet := ⟨0, 0, 0, 0, 0, 0, 0, 0, 0⟩
  tick := 0
  count := 0
  recovery := 0
  lastbtn := 0
  lastdowntick := longAgo
  lastclicktick := longAgo
  generated := []
  handled := []

/-- A move of 5 to the right, split over two calls. -/
theorem mouseintrs_decode_move :
    (feed (fun _ => .plain .M_MOUSE_UP) start (arrivals [(7, [8]), (8, [5, 0])])).count = 0 ∧
    (feed (fun _ => .plain .M_MOUSE_UP) start (arrivals [(7, [8]), (8, [5, 0])])).generated =
      ([⟨8, 5, 0⟩] : List Packet).map Packet.motion :=
  (@mouseintrs_decode (fun _ => .plain .M_MOUSE_UP) start [(7, [8]), (8, [5, 0])] [⟨8, 5, 0⟩]
    rfl (by decide) rfl).2 1 (Nat.le_refl 1)

/-- The middle button, pressed without a movement, is not handed on. -/
theorem middle_lost : bit resync.head 3 ≠ 0 ∧
    (mouseintrs (fun _ => .plain .M_MOUSE_UP) start [(7, resync.bytes)]).generated = [] :=
  ⟨by decide, rfl⟩

end Packets

end NorthOS.Mouse
