import NorthOS.Mouse
import NorthOS.Runs

/-!
What the mouse driver hands to the window manager. The message of genMouseMessage is a local
variable, of which each path assigns some fields only. A draft tells which: a field that was
not assigned is open, and whatever the stack holds is handed on for it.
-/
namespace NorthOS.Mouse

open WindowManager (Message MsgType)

/-- A message with the fields that have been assigned. -/
structure Draft where
  msg_type : Option MsgType
  params : ℕ → Option ℤ

namespace Draft

/-- `message msg;` -/
def fresh : Draft := ⟨none, fun _ => none⟩

def setType (d : Draft) (t : MsgType) : Draft := { d with msg_type := some t }

def setParam (d : Draft) (i : ℕ) (v : ℤ) : Draft :=
  { d with params := Function.update d.params i (some v) }

/-- What is handed on; without a type it is what the stack held. -/
def fill (stack : Message) (d : Draft) : Message :=
  match d.msg_type with
  | some t => ⟨t, fun i => (d.params i).getD 0⟩
  | none => stack

end Draft

section Driver

def mouseUpDraft (btns : ℕ) : Draft := (Draft.fresh.setType .M_MOUSE_UP).setParam 0 btns

/-- genMouseMessage: the driver afterwards and what it called handleMessage with. -/
def genMouseDrafts (s : State) : State × List Draft :=
  if s.packet.x_overflow ≠ 0 ∨ s.packet.y_overflow ≠ 0 then (s, [])
  else
    let x := movement s.packet.x_sgn s.packet.x_mov
    let y := movement s.packet.y_sgn s.packet.y_mov
    let s := { s with packet := { s.packet with x_mov := x, y_mov := y } }
    let btns := s.packet.l_btn ||| (s.packet.r_btn <<< 1) ||| (s.packet.m_btn <<< 2)
    let msg := Draft.fresh
    if x ≠ 0 ∨ y ≠ 0 then
      let msg := (((msg.setType .M_MOUSE_MOVE).setParam 0 x).setParam 1 y).setParam 2 btns
      let ups := if btns ≠ s.lastbtn then [mouseUpDraft btns] else []
      ({ s with lastdowntick := longAgo, lastclicktick := longAgo, lastbtn := btns }, ups ++ [msg])
    else if btns ≠ 0 then
      let msg := (msg.setType .M_MOUSE_DOWN).setParam 0 btns
      ({ s with lastdowntick := s.tick, lastbtn := btns }, [msg])
    else if since s.tick s.lastdowntick < 30 then
      let msg := msg.setType (if s.lastbtn % 2 = 1 then .M_MOUSE_LEFT_CLICK else .M_MOUSE_RIGHT_CLICK)
      if since s.tick s.lastclicktick < 60 then
        ({ s with lastclicktick := longAgo, lastbtn := btns }, [msg.setType .M_MOUSE_DBCLICK])
      else ({ s with lastclicktick := s.tick, lastbtn := btns }, [msg])
    else ({ s with lastbtn := btns }, [mouseUpDraft btns, msg])

/-- A packet has been decoded, with the tick of its last byte. -/
def receive (s : State) (a : Motion × ℕ) : State := { s with packet := a.1, tick := a.2 }

def packetStep (s : State) (a : Motion × ℕ) : Option State := some (genMouseDrafts (receive s a)).1

end Driver

section Properties

/-- The parameters that wmHandleMessage reads for a type; those of keys are passed on whole. -/
def Reads : MsgType → ℕ → Prop
  | .M_MOUSE_MOVE, i => i < 2
  | .M_KEY_DOWN, _ => True
  | .M_KEY_UP, _ => True
  | _, _ => False

/-- The type, and all that is read for it. -/
def Draft.Assigned (d : Draft) : Prop :=
  ∃ t, d.msg_type = some t ∧ ∀ i, Reads t i → (d.params i).isSome

/-- The messages of a packet: at most one M_MOUSE_UP, then at most one other. -/
structure Proper (ds : List Draft) : Prop where
  assigned : ∀ d ∈ ds, d.Assigned
  shape : ∃ ups others : List Draft, ds = ups ++ others ∧ ups.length ≤ 1 ∧ others.length ≤ 1 ∧
    (∀ d ∈ ups, d.msg_type = some .M_MOUSE_UP) ∧ ∀ d ∈ others, d.msg_type ≠ some .M_MOUSE_UP

/-- What handleMessage is called with for this packet is proper. -/
def Sends (s : State) (a : Motion × ℕ) : Prop := Proper (genMouseDrafts (receive s a)).2

/-- The packet has something to say: it is lost, moves the pointer, holds a button, or follows
a press within 30 ticks. -/
def Eventful (s : State) (a : Motion × ℕ) : Prop :=
  (a.1.x_overflow ≠ 0 ∨ a.1.y_overflow ≠ 0) ∨
    (movement a.1.x_sgn a.1.x_mov ≠ 0 ∨ movement a.1.y_sgn a.1.y_mov ≠ 0) ∨
    a.1.l_btn ||| (a.1.r_btn <<< 1) ||| (a.1.m_btn <<< 2) ≠ 0 ∨
    since a.2 s.lastdowntick < 30

end Properties

variable {s : State} {a : Motion × ℕ} {d : Draft} {t : MsgType} {i : ℕ} {v : ℤ}

section Drafts

@[simp] theorem fill_typed (stack : Message) (p : ℕ → Option ℤ) :
    Draft.fill stack ⟨some t, p⟩ = ⟨t, fun i => (p i).getD 0⟩ := rfl

@[simp] theorem fill_fresh (stack : Message) : Draft.fresh.fill stack = stack := rfl

theorem fill_one (stack : Message) (t : MsgType) (v : ℤ) :
    ((Draft.fresh.setType t).setParam 0 v).fill stack = ⟨t, fun i => if i = 0 then v else 0⟩ := by
  unfold Draft.setParam Draft.setType Draft.fresh
  rw [fill_typed]
  congr 1
  funext i
  rw [Function.update_apply]
  split <;> rfl

theorem fill_up (stack : Message) (btns : ℕ) :
    (mouseUpDraft btns).fill stack = ⟨.M_MOUSE_UP, fun i => if i = 0 then btns else 0⟩ :=
  fill_one stack .M_MOUSE_UP btns

theorem fill_type (stack : Message) (t : MsgType) :
    (Draft.fresh.setType t).fill stack = .plain t := rfl

theorem fill_move (stack : Message) (x y : ℤ) (btns : ℕ) :
    ((((Draft.fresh.setType .M_MOUSE_MOVE).setParam 0 x).setParam 1 y).setParam 2 btns).fill stack =
      ⟨.M_MOUSE_MOVE, fun i => if i = 0 then x else if i = 1 then y else if i = 2 then btns else 0⟩ := by
  unfold Draft.setParam Draft.setType Draft.fresh
  rw [fill_typed]
  congr 1
  funext i
  simp only [Function.update_apply]
  split_ifs <;> first | rfl | omega

/-- The drafts, filled in, are what the driver handles. -/
theorem genMouseMessage_drafts (stack : Message) (s : State) :
    genMouseMessage (fun _ => stack) s = { (genMouseDrafts s).1 with
      generated := s.generated ++ [s.packet]
      handled := s.handled ++ (genMouseDrafts s).2.map (Draft.fill stack) } := by
  unfold genMouseMessage genMouseDrafts
  dsimp only
  by_cases hover : s.packet.x_overflow ≠ 0 ∨ s.packet.y_overflow ≠ 0
  · rw [if_pos hover, if_pos hover, List.map_nil, List.append_nil]
  rw [if_neg hover, if_neg hover]
  generalize movement s.packet.x_sgn s.packet.x_mov = x
  generalize movement s.packet.y_sgn s.packet.y_mov = y
  generalize s.packet.l_btn ||| (s.packet.r_btn <<< 1) ||| (s.packet.m_btn <<< 2) = btns
  by_cases hmove : x ≠ 0 ∨ y ≠ 0
  · rw [if_pos hmove, if_pos hmove, List.map_append, List.map_singleton, fill_move]
    by_cases hbtn : btns ≠ s.lastbtn
    · rw [if_pos hbtn, if_pos hbtn, List.map_singleton, fill_up, ← List.append_assoc]
      rfl
    · rw [if_neg hbtn, if_neg hbtn, List.map_nil, List.nil_append]
      rfl
  rw [if_neg hmove, if_neg hmove]
  by_cases hdown : btns ≠ 0
  · rw [if_pos hdown, if_pos hdown, List.map_singleton, fill_one]
    rfl
  rw [if_neg hdown, if_neg hdown]
  by_cases hclick : since s.tick s.lastdowntick < 30
  · rw [if_pos hclick, if_pos hclick]
    by_cases hdouble : since s.tick s.lastclicktick < 60
    · rw [if_pos hdouble, if_pos hdouble]
      rfl
    · rw [if_neg hdouble, if_neg hdouble, List.map_singleton, fill_type]
      rfl
  · rw [if_neg hclick, if_neg hclick, List.map_cons, List.map_singleton, fill_up]
    unfold genMouseUpMessage handleMessage
    dsimp only
    rw [List.append_assoc]
    rfl

end Drafts

section Reading

/-- wmHandleMessage reads no other parameters. -/
theorem wmHandleMessage_reads {w : WindowManager.State} {msg msg' : Message}
    (htype : msg'.msg_type = msg.msg_type)
    (hparams : ∀ i, Reads msg.msg_type i → msg'.params i = msg.params i) :
    w.wmHandleMessage msg' = w.wmHandleMessage msg := by
  obtain ⟨t, params⟩ := msg
  obtain ⟨t', params'⟩ := msg'
  obtain rfl : t' = t := htype
  have hkey : (∀ i, Reads t' i) → (⟨t', params'⟩ : Message) = ⟨t', params⟩ := by
    intro hall
    congr 1
    funext i
    exact hparams i (hall i)
  cases t' with
  | M_KEY_UP => rw [hkey fun _ => trivial]
  | M_KEY_DOWN => rw [hkey fun _ => trivial]
  | M_MOUSE_MOVE =>
    have hx : params' 0 = params 0 := hparams 0 (show 0 < 2 by decide)
    have hy : params' 1 = params 1 := hparams 1 (show 1 < 2 by decide)
    have hmove : w.movePointer ⟨.M_MOUSE_MOVE, params'⟩ = w.movePointer ⟨.M_MOUSE_MOVE,
        params⟩ := by
      unfold WindowManager.State.movePointer
      simp only [hx, hy]
    show WindowManager.State.mouseMove w _ = WindowManager.State.mouseMove w _
    unfold WindowManager.State.mouseMove
    rw [hmove]
  | _ => rfl

end Reading

section Packets

theorem assigned_up (btns : ℕ) : (mouseUpDraft btns).Assigned := ⟨.M_MOUSE_UP, rfl, nofun⟩

/-- One message that is no M_MOUSE_UP. -/
theorem proper_one (hassigned : d.Assigned) (hup : d.msg_type ≠ some .M_MOUSE_UP) : Proper [d] where
  assigned := by
    intro e he
    rw [List.mem_singleton.mp he]
    exact hassigned
  shape := by
    refine ⟨[], [d], rfl, Nat.zero_le 1, le_rfl, nofun, fun e he => ?_⟩
    rw [List.mem_singleton.mp he]
    exact hup

theorem proper_two (btns : ℕ) (hassigned : d.Assigned) (hup : d.msg_type ≠ some .M_MOUSE_UP) :
    Proper [mouseUpDraft btns, d] where
  assigned := by
    intro e he
    rcases List.mem_cons.mp he with rfl | he
    · exact assigned_up btns
    · exact (proper_one hassigned hup).assigned e he
  shape := by
    refine ⟨[mouseUpDraft btns], [d], rfl, le_rfl, le_rfl, fun e he => ?_, fun e he => ?_⟩
    · rw [List.mem_singleton.mp he]
      rfl
    · rw [List.mem_singleton.mp he]
      exact hup

/-- Types of which nothing more is read. -/
theorem assigned_type (hread : ∀ i, ¬ Reads t i) : (Draft.fresh.setType t).Assigned :=
  ⟨t, rfl, fun i hi => absurd hi (hread i)⟩

theorem assigned_move (x y : ℤ) (btns : ℕ) : Draft.Assigned
    ((((Draft.fresh.setType .M_MOUSE_MOVE).setParam 0 x).setParam 1 y).setParam 2 btns) := by
  refine ⟨.M_MOUSE_MOVE, rfl, fun i hi => ?_⟩
  have hi : i < 2 := hi
  obtain rfl | rfl : i = 0 ∨ i = 1 := by omega
  · rfl
  · rfl

/-- The messages of a packet are proper exactly if it has something to say: otherwise the
button is reported up and the fresh message is handed on as well. -/
theorem sends_iff : Sends s a ↔ Eventful s a := by
  obtain ⟨p, tick⟩ := a
  unfold Sends Eventful genMouseDrafts receive
  dsimp only
  by_cases hover : p.x_overflow ≠ 0 ∨ p.y_overflow ≠ 0
  · rw [if_pos hover]
    exact iff_of_true ⟨nofun, [], [], rfl, Nat.zero_le 1, Nat.zero_le 1, nofun, nofun⟩
      (Or.inl hover)
  rw [if_neg hover]
  generalize movement p.x_sgn p.x_mov = x
  generalize movement p.y_sgn p.y_mov = y
  generalize p.l_btn ||| (p.r_btn <<< 1) ||| (p.m_btn <<< 2) = btns
  by_cases hmove : x ≠ 0 ∨ y ≠ 0
  · rw [if_pos hmove]
    refine iff_of_true ?_ (Or.inr (Or.inl hmove))
    have hassigned := assigned_move x y btns
    split
    · exact proper_two btns hassigned nofun
    · exact proper_one hassigned nofun
  rw [if_neg hmove]
  by_cases hdown : btns ≠ 0
  · rw [if_pos hdown]
    exact iff_of_true (proper_one ⟨_, rfl, nofun⟩ nofun) (Or.inr (Or.inr (Or.inl hdown)))
  rw [if_neg hdown]
  by_cases hclick : since tick s.lastdowntick < 30
  · rw [if_pos hclick]
    refine iff_of_true ?_ (Or.inr (Or.inr (Or.inr hclick)))
    split
    · exact proper_one ⟨_, rfl, nofun⟩ nofun
    · split
      · exact proper_one (assigned_type nofun) nofun
      · exact proper_one (assigned_type nofun) nofun
  · rw [if_neg hclick]
    refine iff_of_false (fun h => ?_) (by tauto)
    obtain ⟨t, ht, _⟩ := h.assigned Draft.fresh (by simp)
    cases ht

/-- In a run every packet's messages are proper exactly if every packet has something to say. -/
theorem along_sends_iff (as : List (Motion × ℕ)) :
    Runs.Along packetStep Sends start as ↔ Runs.Along packetStep Eventful start as := by
  constructor
  · exact Runs.along_of_along (I := fun _ => True) (fun _ _ _ h => sends_iff.mp h)
      (fun _ _ _ _ _ _ => trivial) trivial
  · exact Runs.along_of_along (I := fun _ => True) (fun _ _ _ h => sends_iff.mpr h)
      (fun _ _ _ _ _ _ => trivial) trivial

/-- The left button is pressed, and comes up 40 ticks later. -/
def longPress : List (Motion × ℕ) :=
  [(⟨0, 0, 0, 0, 1, 0, 0, 0, 0⟩, 100), (⟨0, 0, 0, 0, 0, 0, 0, 0, 0⟩, 140)]

theorem not_along_sends : ¬ ∀ as, Runs.Along packetStep Sends start as := by
  intro h
  obtain ⟨_, hrest⟩ := h longPress
  obtain ⟨hup, _⟩ := hrest _ rfl
  obtain ⟨t, ht, _⟩ := hup.assigned Draft.fresh
    (List.mem_cons_of_mem _ (List.mem_singleton.mpr rfl))
  cases ht

end Packets

end NorthOS.Mouse
