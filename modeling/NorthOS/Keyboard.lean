import Mathlib.Data.Finset.Basic
import NorthOS.Runs
import NorthOS.WindowManager

/-!
The keyboard driver of kbd.c. A key sends its code when it goes down and the code with the top
bit when it comes up, in both cases behind 0xE0 for some keys. Left and right keys of a
modifier share one bit of `shift`, which goes out when one of them comes up.
-/
namespace NorthOS.Keyboard

open WindowManager (MsgType)

def SHIFT : BitVec 32 := 1 <<< 0
def CTL : BitVec 32 := 1 <<< 1
def ALT : BitVec 32 := 1 <<< 2
def CAPSLOCK : BitVec 32 := 1 <<< 3
def NUMLOCK : BitVec 32 := 1 <<< 4
def SCROLLLOCK : BitVec 32 := 1 <<< 5
def E0ESC : BitVec 32 := 1 <<< 6

section Tables

def shiftcode (data : BitVec 8) : BitVec 32 :=
  if data = 0x1D then CTL
  else if data = 0x2A then SHIFT
  else if data = 0x36 then SHIFT
  else if data = 0x38 then ALT
  else if data = 0x9D then CTL
  else if data = 0xB8 then ALT
  else 0

def togglecode (data : BitVec 8) : BitVec 32 :=
  if data = 0x3A then CAPSLOCK
  else if data = 0x45 then NUMLOCK
  else if data = 0x46 then SCROLLLOCK
  else 0

def chars (s : String) : List ℕ := s.toList.map Char.toNat

/-- `C(x)`, stored in a byte. -/
def control (s : String) : List ℕ := s.toList.map fun c => (c.toNat + 256 - 64) % 256

/-- The arrows and the keys around them. -/
def arrows : List (ℕ × ℕ) :=
  [(0xC8, 0xE2), (0xD0, 0xE3), (0xC9, 0xE6), (0xD1, 0xE7), (0xCB, 0xE4), (0xCD, 0xE5), (0xCF, 0xE1),
    (0xD2, 0xE8), (0xD3, 0xE9)]

/-- An array with designated initializers. -/
def table (row : List ℕ) (entries : List (ℕ × ℕ)) (data : BitVec 8) : ℕ :=
  (entries.lookup data.toNat).getD (row.getD data.toNat 0)

def normalmap : BitVec 8 → ℕ :=
  table
    (chars "\x00\x1b1234567890-=\x08\tqwertyuiop[]\n\x00asdfghjkl;'`\x00\\zxcvbnm,./\x00*\x00 " ++
      List.replicate 14 0 ++ chars "789-456+1230.")
    ([(0x9C, 10), (0xB5, 47), (0xC7, 0xE0)] ++ arrows)

def shiftmap : BitVec 8 → ℕ :=
  table
    (chars "\x00\x1b!@#$%^&*()_+\x08\tQWERTYUIOP\x7b\x7d\n\x00ASDFGHJKL:\"~\x00|ZXCVBNM<>?\x00*\x00 " ++
      List.replicate 14 0 ++ chars "789-456+1230.")
    ([(0x9C, 10), (0xB5, 47), (0xC7, 0xE0)] ++ arrows)

/-- KEY_HOME is at 0x47 here. -/
def ctlmap : BitVec 8 → ℕ :=
  table
    (List.replicate 16 0 ++ control "QWERTYUIOP" ++ [0, 0, 13, 0] ++ control "ASDFGHJKL" ++ [0, 0, 0, 0] ++
      control "\\ZXCVBNM" ++ [0, 0] ++ control "/")
    ([(0x9C, 13), (0xB5, 239), (0x47, 0xE0)] ++ arrows)

def charcode (shift : BitVec 32) : BitVec 8 → ℕ :=
  if shift &&& (CTL ||| SHIFT) = 0 then normalmap
  else if shift &&& (CTL ||| SHIFT) = 1 then shiftmap
  else ctlmap

end Tables

section Driver

/-- `params[0]` is the key, `params[1]` is `shift`. -/
structure Message where
  msg_type : MsgType
  key : ℕ
  shift : BitVec 32
  deriving DecidableEq

/-- The state also lists the messages that handleMessage was called with. -/
structure State where
  shift : BitVec 32
  handled : List Message

def handleMessage (msg : Message) (s : State) : State := { s with handled := s.handled ++ [msg] }

/-- Letters change their case. -/
def capslock (c : ℕ) : ℕ :=
  if 97 ≤ c ∧ c ≤ 122 then c - 32 else if 65 ≤ c ∧ c ≤ 90 then c + 32 else c

/-- `port` is the byte that the controller has ready. -/
def kbdgetc (s : State) (port : Option (BitVec 8)) : State × ℤ :=
  match port with
  | none => (s, -1)
  | some data =>
    if data = 0xE0 then ({ s with shift := s.shift ||| E0ESC }, 0)
    else if data &&& 0x80 ≠ 0 then
      let data := if s.shift &&& E0ESC ≠ 0 then data else data &&& 0x7F
      let shift := s.shift &&& ~~~(shiftcode data ||| E0ESC)
      (handleMessage ⟨.M_KEY_UP, normalmap data, shift⟩ { s with shift := shift }, 0)
    else
      let escaped := s.shift &&& E0ESC ≠ 0
      let data := if escaped then data ||| 0x80 else data
      let shift := if escaped then s.shift &&& ~~~E0ESC else s.shift
      let shift := (shift ||| shiftcode data) ^^^ togglecode data
      let s := handleMessage ⟨.M_KEY_DOWN, normalmap data, shift⟩ { s with shift := shift }
      let c := charcode shift data
      (s, if shift &&& CAPSLOCK ≠ 0 then capslock c else c)

end Driver

section Keys

/-- A key: its code, and whether the code comes behind 0xE0. No key has 0xE0 itself for the
code of its release. -/
structure Key where
  extended : Bool
  code : BitVec 8
  small : code &&& 0x80 = 0
  distinct : code ||| 0x80 ≠ 0xE0
  deriving DecidableEq

/-- Where the tables have the key. -/
def Key.index (k : Key) : BitVec 8 := if k.extended then k.code ||| 0x80 else k.code

def Key.escape (k : Key) : List (BitVec 8) := if k.extended then [0xE0] else []

inductive Stroke
  | press (k : Key)
  | release (k : Key)

/-- The bytes of a complete code. -/
def Stroke.bytes : Stroke → List (BitVec 8)
  | .press k => k.escape ++ [k.code]
  | .release k => k.escape ++ [k.code ||| 0x80]

def feed (s : State) (bytes : List (BitVec 8)) : State :=
  bytes.foldl (fun s data => (kbdgetc s (some data)).1) s

/-- The driver and the keys that are held. -/
structure Desk where
  driver : State
  held : Finset Key

/-- A key that is held may send its code again; only such a key can come up. -/
def step (d : Desk) (a : Stroke) : Option Desk :=
  match a with
  | .press k => some ⟨feed d.driver a.bytes, insert k d.held⟩
  | .release k => if k ∈ d.held then some ⟨feed d.driver a.bytes, d.held.erase k⟩ else none

def start : Desk := ⟨⟨0, []⟩, ∅⟩

/-- A modifier bit is set exactly if one of its keys is held. -/
def Shows (shift : BitVec 32) (held : Finset Key) : Prop :=
  ∀ m ∈ [SHIFT, CTL, ALT], shift &&& m ≠ 0 ↔ ∃ k ∈ held, shiftcode k.index = m

/-- The last message tells the modifiers, and no 0xE0 is pending. -/
structure Faithful (d : Desk) : Prop where
  told : ∀ msg ∈ d.driver.handled.getLast?, Shows msg.shift d.held
  clear : d.driver.shift &&& E0ESC = 0

/-- A modifier key comes up only while no other key of that modifier is held. -/
def Alone (d : Desk) : Stroke → Prop
  | .press _ => True
  | .release k => shiftcode k.index ≠ 0 → ∀ j ∈ d.held, shiftcode j.index = shiftcode k.index → j = k

/-- What is so after every complete code. -/
structure Inv (d : Desk) : Prop where
  shows : Shows d.driver.shift d.held
  clear : d.driver.shift &&& E0ESC = 0
  last : ∀ msg ∈ d.driver.handled.getLast?, msg.shift = d.driver.shift

end Keys

variable {s : State} {d d' : Desk} {k j : Key} {a : Stroke} {x y m : BitVec 32}

section Bytes

theorem code_ne (k : Key) : k.code ≠ 0xE0 := by
  intro h
  have hsmall := k.small
  rw [h] at hsmall
  exact absurd hsmall (by decide)

theorem up_top (c : BitVec 8) : (c ||| 0x80) &&& 0x80 ≠ 0 := by
  revert c
  decide

theorem up_low (c : BitVec 8) (h : c &&& 0x80 = 0) : (c ||| 0x80) &&& 0x7F = c := by
  revert c
  decide

theorem escape_set (x : BitVec 32) : (x ||| E0ESC) &&& E0ESC ≠ 0 := by
  intro h
  have hbit := congrArg (BitVec.getLsbD · 6) h
  simp [E0ESC] at hbit

theorem escape_clear (x : BitVec 32) (h : x &&& E0ESC = 0) : (x ||| E0ESC) &&& ~~~E0ESC = x := by
  refine BitVec.eq_of_getLsbD_eq fun i hi => ?_
  have hbit := congrArg (BitVec.getLsbD · i) h
  simp only [BitVec.getLsbD_and, BitVec.getLsbD_or, BitVec.getLsbD_not] at hbit ⊢
  cases hx : x.getLsbD i <;> cases he : E0ESC.getLsbD i <;> simp_all

theorem getc_escape (s : State) :
    (kbdgetc s (some 0xE0)).1 = { s with shift := s.shift ||| E0ESC } := rfl

/-- A press sets the bit of a modifier. -/
theorem feed_press (h : s.shift &&& E0ESC = 0) (k : Key) :
    feed s (Stroke.press k).bytes = handleMessage
      ⟨.M_KEY_DOWN, normalmap k.index, (s.shift ||| shiftcode k.index) ^^^ togglecode k.index⟩
      { s with shift := (s.shift ||| shiftcode k.index) ^^^ togglecode k.index } := by
  have hsmall : ¬ k.code &&& 0x80 ≠ 0 := not_not.mpr k.small
  unfold Stroke.bytes Key.escape Key.index feed
  by_cases hext : k.extended
  · have hset := escape_set s.shift
    simp only [if_pos hext, List.singleton_append, List.foldl_cons, List.foldl_nil, getc_escape]
    unfold kbdgetc
    simp only [if_neg (code_ne k), if_neg hsmall, if_pos hset, escape_clear s.shift h]
  · have hset : ¬ s.shift &&& E0ESC ≠ 0 := not_not.mpr h
    simp only [if_neg hext, List.nil_append, List.foldl_cons, List.foldl_nil]
    unfold kbdgetc
    simp only [if_neg (code_ne k), if_neg hsmall, if_neg hset]

theorem escape_mask (x e : BitVec 32) :
    (x ||| E0ESC) &&& ~~~(e ||| E0ESC) = x &&& ~~~(e ||| E0ESC) := by
  refine BitVec.eq_of_getLsbD_eq fun i hi => ?_
  simp only [BitVec.getLsbD_and, BitVec.getLsbD_or, BitVec.getLsbD_not]
  cases x.getLsbD i <;> cases E0ESC.getLsbD i <;> simp

/-- A release takes it away. -/
theorem feed_release (h : s.shift &&& E0ESC = 0) (k : Key) :
    feed s (Stroke.release k).bytes = handleMessage
      ⟨.M_KEY_UP, normalmap k.index, s.shift &&& ~~~(shiftcode k.index ||| E0ESC)⟩
      { s with shift := s.shift &&& ~~~(shiftcode k.index ||| E0ESC) } := by
  have htop := up_top k.code
  unfold Stroke.bytes Key.escape Key.index feed
  by_cases hext : k.extended
  · have hset := escape_set s.shift
    simp only [if_pos hext, List.singleton_append, List.foldl_cons, List.foldl_nil, getc_escape]
    unfold kbdgetc
    simp only [if_neg k.distinct, if_pos htop, if_pos hset, escape_mask]
  · have hset : ¬ s.shift &&& E0ESC ≠ 0 := not_not.mpr h
    simp only [if_neg hext, List.nil_append, List.foldl_cons, List.foldl_nil]
    unfold kbdgetc
    simp only [if_neg k.distinct, if_pos htop, if_neg hset, up_low k.code k.small]

end Bytes

section Modifiers

theorem shiftcode_cases (i : BitVec 8) : shiftcode i = 0 ∨ shiftcode i ∈ [SHIFT, CTL, ALT] := by
  unfold shiftcode
  split_ifs <;> simp

/-- A modifier is one of the low bits. -/
theorem modifier_bit (hm : m ∈ [SHIFT, CTL, ALT]) :
    ∃ b < 3, m = BitVec.twoPow 32 b := by
  simp only [List.mem_cons, List.not_mem_nil, or_false] at hm
  rcases hm with rfl | rfl | rfl
  · exact ⟨0, by decide, by decide⟩
  · exact ⟨1, by decide, by decide⟩
  · exact ⟨2, by decide, by decide⟩

theorem and_bit (x : BitVec 32) {b : ℕ} (hb : b < 32) :
    x &&& BitVec.twoPow 32 b ≠ 0 ↔ x.getLsbD b = true := by
  rw [BitVec.and_twoPow]
  have hne : BitVec.twoPow 32 b ≠ 0#32 := by
    intro h
    have hbit := congrArg (BitVec.getLsbD · b) h
    simp [hb] at hbit
  cases x.getLsbD b <;> simp [hne]

theorem shiftcode_bit (hm : m ∈ [SHIFT, CTL, ALT]) (i : BitVec 8) :
    shiftcode i &&& m ≠ 0 ↔ shiftcode i = m := by
  simp only [List.mem_cons, List.not_mem_nil, or_false] at hm
  unfold shiftcode
  rcases hm with rfl | rfl | rfl
  all_goals split_ifs <;> decide

/-- The locks are other bits. -/
theorem togglecode_bit (hm : m ∈ [SHIFT, CTL, ALT]) (i : BitVec 8) : togglecode i &&& m = 0 := by
  simp only [List.mem_cons, List.not_mem_nil, or_false] at hm
  unfold togglecode
  rcases hm with rfl | rfl | rfl
  all_goals split_ifs <;> decide

/-- What a press does to a modifier. -/
theorem press_bit (hm : m ∈ [SHIFT, CTL, ALT]) (x : BitVec 32) (i : BitVec 8) :
    ((x ||| shiftcode i) ^^^ togglecode i) &&& m ≠ 0 ↔ x &&& m ≠ 0 ∨ shiftcode i = m := by
  have htoggle := togglecode_bit hm i
  rw [← shiftcode_bit hm]
  obtain ⟨b, hb, rfl⟩ := modifier_bit hm
  rw [and_bit _ (by omega), and_bit _ (by omega), and_bit _ (by omega)]
  have hoff : (togglecode i).getLsbD b = false := by
    rw [← Bool.not_eq_true, ← and_bit _ (by omega), not_not]
    exact htoggle
  rw [BitVec.getLsbD_xor, BitVec.getLsbD_or, hoff, Bool.xor_false, Bool.or_eq_true]

/-- What a release does to it. -/
theorem release_bit (hm : m ∈ [SHIFT, CTL, ALT]) (x : BitVec 32) (i : BitVec 8) :
    x &&& ~~~(shiftcode i ||| E0ESC) &&& m ≠ 0 ↔ x &&& m ≠ 0 ∧ shiftcode i ≠ m := by
  have hcode := not_congr (shiftcode_bit hm i)
  obtain ⟨b, hb, rfl⟩ := modifier_bit hm
  have hoff : E0ESC.getLsbD b = false := by
    obtain rfl | rfl | rfl : b = 0 ∨ b = 1 ∨ b = 2 := by omega
    all_goals decide
  have hlt : b < 32 := by omega
  rw [and_bit _ hlt] at hcode
  rw [and_bit _ hlt, and_bit _ hlt, ne_eq (shiftcode i), ← hcode, BitVec.getLsbD_and,
    BitVec.getLsbD_not, BitVec.getLsbD_or, hoff]
  simp [hlt]

theorem press_clear (h : x &&& E0ESC = 0) (i : BitVec 8) :
    ((x ||| shiftcode i) ^^^ togglecode i) &&& E0ESC = 0 := by
  have hshift : shiftcode i &&& E0ESC = 0 := by
    unfold shiftcode
    split_ifs <;> decide
  have htoggle : togglecode i &&& E0ESC = 0 := by
    unfold togglecode
    split_ifs <;> decide
  have hlaw : ((x ||| shiftcode i) ^^^ togglecode i) &&& E0ESC =
      ((x &&& E0ESC) ||| (shiftcode i &&& E0ESC)) ^^^ (togglecode i &&& E0ESC) := by
    refine BitVec.eq_of_getLsbD_eq fun b hb => ?_
    simp only [BitVec.getLsbD_and, BitVec.getLsbD_or, BitVec.getLsbD_xor]
    cases E0ESC.getLsbD b <;> simp
  rw [hlaw, h, hshift, htoggle]
  rfl

theorem release_clear (x y : BitVec 32) : x &&& ~~~(y ||| E0ESC) &&& E0ESC = 0 := by
  refine BitVec.eq_of_getLsbD_eq fun b hb => ?_
  simp only [BitVec.getLsbD_and, BitVec.getLsbD_or, BitVec.getLsbD_not]
  cases E0ESC.getLsbD b <;> simp

end Modifiers

section Strokes

theorem last_handled (msg : Message) (s : State) :
    (handleMessage msg s).handled.getLast? = some msg := List.getLast?_concat

theorem Inv.press (h : Inv d) (k : Key) :
    Inv ⟨feed d.driver (Stroke.press k).bytes, insert k d.held⟩ := by
  rw [feed_press h.clear]
  refine ⟨fun m hm => ?_, press_clear h.clear _, fun msg hmsg => ?_⟩
  · show ((d.driver.shift ||| shiftcode k.index) ^^^ togglecode k.index) &&& m ≠ 0 ↔ _
    rw [press_bit hm, h.shows m hm]
    constructor
    · rintro (⟨j, hj, hjm⟩ | hk)
      · exact ⟨j, Finset.mem_insert_of_mem hj, hjm⟩
      · exact ⟨k, Finset.mem_insert_self _ _, hk⟩
    · rintro ⟨j, hj, hjm⟩
      rcases Finset.mem_insert.mp hj with rfl | hj
      · exact Or.inr hjm
      · exact Or.inl ⟨j, hj, hjm⟩
  · rw [last_handled] at hmsg
    obtain rfl := Option.some.inj hmsg
    rfl

/-- The bits after a release are right exactly if the key was the only one of its modifier. -/
theorem Inv.release_iff (h : Inv d) (k : Key) :
    Shows (d.driver.shift &&& ~~~(shiftcode k.index ||| E0ESC)) (d.held.erase k) ↔
      Alone d (.release k) := by
  constructor
  · intro hshows hmod j hj hjk
    by_contra hne
    have hm := (shiftcode_cases k.index).resolve_left hmod
    have hset := (hshows _ hm).mpr ⟨j, Finset.mem_erase.mpr ⟨hne, hj⟩, hjk⟩
    exact ((release_bit hm _ _).mp hset).2 rfl
  · intro halone m hm
    rw [release_bit hm, h.shows m hm]
    constructor
    · rintro ⟨⟨j, hj, hjm⟩, hk⟩
      refine ⟨j, Finset.mem_erase.mpr ⟨?_, hj⟩, hjm⟩
      rintro rfl
      exact hk hjm
    · rintro ⟨j, hj, hjm⟩
      obtain ⟨hne, hj⟩ := Finset.mem_erase.mp hj
      refine ⟨⟨j, hj, hjm⟩, fun hk => hne (halone ?_ j hj (hjm.trans hk.symm))⟩
      rw [hk]
      intro h0
      rw [h0] at hm
      exact absurd hm (by decide)

theorem step_release (hk : k ∈ d.held) :
    step d (.release k) = some ⟨feed d.driver (Stroke.release k).bytes, d.held.erase k⟩ := if_pos hk

theorem Inv.next (h : Inv d) (halone : Alone d a) (hstep : step d a = some d') : Inv d' := by
  cases a with
  | press k =>
    obtain rfl := Option.some.inj hstep
    exact h.press k
  | release k =>
    obtain ⟨hk, hd⟩ := Option.ite_none_right_eq_some.mp hstep
    obtain rfl := Option.some.inj hd
    have hshows := (h.release_iff k).mpr halone
    rw [feed_release h.clear]
    refine ⟨hshows, release_clear _ _, fun msg hmsg => ?_⟩
    rw [last_handled] at hmsg
    obtain rfl := Option.some.inj hmsg
    rfl

theorem Inv.faithful (h : Inv d) : Faithful d where
  told := by
    intro msg hmsg
    rw [h.last msg hmsg]
    exact h.shows
  clear := h.clear

/-- A release beside another key of the modifier shows in its message. -/
theorem Inv.seen (h : Inv d) (hstep : step d a = some d') (hfaithful : Faithful d') :
    Alone d a := by
  cases a with
  | press k => trivial
  | release k =>
    obtain ⟨hk, hd⟩ := Option.ite_none_right_eq_some.mp hstep
    obtain rfl := Option.some.inj hd
    have htold := hfaithful.told
    rw [feed_release h.clear] at htold
    exact (h.release_iff k).mp (htold _ (last_handled _ _))

end Strokes

theorem inv_start : Inv start where
  shows := by
    intro m _
    refine iff_of_false (not_not.mpr (BitVec.zero_and)) ?_
    rintro ⟨k, hk, _⟩
    cases hk
  clear := rfl
  last := nofun

/-- The modifiers are told right after every code exactly if no key of a modifier comes up
while the other one is held. -/
theorem always_faithful_iff (as : List Stroke) :
    Runs.Always step Faithful start as ↔ Runs.Meets step Alone start as :=
  Runs.always_iff_meets (fun _ h => h.faithful) (fun _ _ _ h halone hstep => h.next halone hstep)
    (fun _ _ _ h hstep hf => h.seen hstep hf) inv_start as

def leftShift : Key := ⟨false, 0x2A, by decide, by decide⟩

def rightShift : Key := ⟨false, 0x36, by decide, by decide⟩

/-- Both shift keys go down, and one comes up: the bit is gone. -/
theorem not_always_faithful : ¬ ∀ as, Runs.Always step Faithful start as := by
  intro h
  obtain ⟨_, h₁⟩ := h [.press leftShift, .press rightShift, .release leftShift]
  obtain ⟨_, h₂⟩ := h₁ _ rfl
  have hheld : leftShift ∈ insert rightShift (insert leftShift (∅ : Finset Key)) := by decide
  obtain ⟨_, h₃⟩ := h₂ _ rfl
  have hinv := (inv_start.press leftShift).press rightShift
  have halone := hinv.seen (step_release hheld) (h₃ _ (step_release hheld))
  exact absurd (halone (by decide) rightShift (by decide) rfl) (by decide)

end NorthOS.Keyboard
