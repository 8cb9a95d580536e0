import Mathlib.Data.List.Flatten
import NorthOS.HeapRuns
import NorthOS.WidgetList

/-!
The heap blocks of the widgets. An add function allocates its widget's blocks, and
removeWidget frees only the block that the widget itself points to. The state remembers the
blocks that each widget was given. A null pointer from malloc is not followed, nor is a text
that is longer than its field.
-/
namespace NorthOS.Widgets

open Runs

def MAX_SHORT_STRLEN : ℕ := 50
def MAX_LONG_STRLEN : ℕ := 1000

def sizeofShape : UInt32 := 56
def sizeofColorFill : UInt32 := 4
def sizeofButton : UInt32 := 58
def sizeofText : UInt32 := 1004
def sizeofInputField : UInt32 := 1008

/-- What a call passes, where sbrk gets more memory during the call, and what the call
writes to the units of each of its blocks. -/
structure Args where
  x : ℤ
  y : ℤ
  w : ℤ
  h : ℤ
  scrollable : Bool
  granted : ℕ → Bool
  contents : ℕ → ℕ → ℕ × ℕ

def Args.position (a : Args) : WindowManager.WinRect := ⟨a.x, a.x + a.w, a.y, a.y + a.h⟩

/-- `owned` tells the blocks that the widget's add function has allocated. -/
structure Program where
  win : Window
  memory : Umalloc.State
  owned : ℤ → List (ℕ × ℕ)

section Blocks

def malloc (granted : ℕ → Bool) (nbytes : UInt32) (m : Umalloc.State) : Option (ℕ × Umalloc.State) :=
  match m.heap.malloc granted nbytes.toNat with
  | some (some ap, heap) => some (ap, ⟨heap, (ap, nbytes.toNat) :: m.live⟩)
  | _ => none

/-- The first `n` units of the `i`th block are written. -/
def fill (i : ℕ) (contents : ℕ → ℕ × ℕ) : ℕ → Umalloc.State → Option Umalloc.State
  | 0, m => some m
  | n + 1, m => (fill i contents n m).bind fun m =>
      Umalloc.step m (.store i n (contents n).1 (contents n).2)

/-- The pointer must be one that malloc returned. -/
def free (ap : ℕ) (m : Umalloc.State) : Option Umalloc.State :=
  (m.live.findIdx? fun b => b.1 = ap).bind fun i => Umalloc.step m (.free i)

end Blocks

namespace Program

section Adding

def place (p : Program) (win : Window) (m : Umalloc.State) (widgetId : ℤ) (type : WidgetType)
    (context : ℕ) (blocks : List (ℕ × ℕ)) (a : Args) : Program :=
  let widget : Widget := ⟨context, type, a.position, a.scrollable⟩
  { win := { win with widgets := Function.update win.widgets widgetId widget }
    memory := m
    owned := Function.update p.owned widgetId blocks }

/-- What the functions that add a widget with one block have in common. -/
def addContext (p : Program) (type : WidgetType) (size : UInt32) (fits : Bool) (a : Args) :
    Option (Program × ℤ) :=
  let r := p.win.addWidget
  if r.2 = -1 then some (p, -1)
  else if fits then do
    let (t, m) ← malloc a.granted size p.memory
    let m ← fill 0 (a.contents 0) (size.toNat / 8) m
    some (p.place r.1 m r.2 type t [(t, size.toNat)] a, r.2)
  else none

def addRectangleWidget (p : Program) (a : Args) : Option (Program × ℤ) :=
  p.addContext .SHAPE sizeofShape true a

/-- The number of bytes is one that malloc can round up. -/
def addColorFillWidget (p : Program) (a : Args) : Option (Program × ℤ) :=
  let r := p.win.addWidget
  if r.2 = -1 then some (p, -1)
  else if 0 ≤ a.w ∧ 0 ≤ a.h ∧ a.w * a.h * 3 ≤ 2 ^ 31 - 16 then do
    let (b, m) ← malloc a.granted sizeofColorFill p.memory
    let nbytes := UInt32.ofNat (a.w * a.h * 3).toNat
    let (buf, m) ← malloc a.granted nbytes m
    let m ← fill 1 (a.contents 0) 1 m
    let m ← fill 0 (a.contents 1) ((nbytes.toNat + 7) / 8) m
    some (p.place r.1 m r.2 .COLORFILL b [(b, sizeofColorFill.toNat), (buf, nbytes.toNat)] a, r.2)
  else none

def addButtonWidget (p : Program) (text : List UInt8) (a : Args) : Option (Program × ℤ) :=
  p.addContext .BUTTON sizeofButton (decide (text.length < MAX_SHORT_STRLEN)) a

def addTextWidget (p : Program) (text : List UInt8) (a : Args) : Option (Program × ℤ) :=
  p.addContext .TEXT sizeofText (decide (text.length < MAX_LONG_STRLEN)) a

def addInputFieldWidget (p : Program) (text : List UInt8) (a : Args) : Option (Program × ℤ) :=
  (p.addContext .INPUTFIELD sizeofInputField (decide (text.length < MAX_LONG_STRLEN)) a).map fun r =>
    if r.2 = -1 then r else ({ r.1 with win := { r.1.win with keyfocus := r.2 } }, r.2)

end Adding

section Removing

def freeWidget (p : Program) (index : ℤ) : Option Program :=
  match (p.win.widgets index).type with
  | .COLORFILL | .BUTTON | .TEXT | .INPUTFIELD =>
    (free (p.win.widgets index).context p.memory).map fun m => { p with memory := m }
  | _ => some p

def removeWidget (p : Program) (index : ℤ) : Option Program :=
  if p.win.prev index = index ∧ p.win.next index = index then some p
  else (p.freeWidget index).map fun p => { p with win := p.win.removeFromWidgetList index }

end Removing

end Program

/-- A call of a function that adds a widget. -/
inductive Request
  | rectangle
  | colorFill
  | button (text : List UInt8)
  | text (text : List UInt8)
  | inputField (text : List UInt8)

def Request.type : Request → WidgetType
  | .rectangle => .SHAPE
  | .colorFill => .COLORFILL
  | .button _ => .BUTTON
  | .text _ => .TEXT
  | .inputField _ => .INPUTFIELD

/-- A widget is added or removed, or the program writes to one of its blocks. -/
inductive Program.Action
  | add (r : Request) (a : Args)
  | remove (index : ℤ)
  | store (i j ptr size : ℕ)

namespace Program

def add (p : Program) : Request → Args → Option (Program × ℤ)
  | .rectangle, a => p.addRectangleWidget a
  | .colorFill, a => p.addColorFillWidget a
  | .button text, a => p.addButtonWidget text a
  | .text text, a => p.addTextWidget text a
  | .inputField text, a => p.addInputFieldWidget text a

def step (p : Program) : Program.Action → Option Program
  | .add r a => (p.add r a).map Prod.fst
  | .remove index => if InTable index then p.removeWidget index else none
  | .store i j ptr size => (Umalloc.step p.memory (.store i j ptr size)).map fun m =>
      { p with memory := m }

end Program

section Properties

/-- Every block in use was in use at the start or belongs to a widget in the list. -/
def Owned (base : List (ℕ × ℕ)) (p : Program) : Prop :=
  p.memory.live.Perm (base ++ p.win.live.flatMap p.owned)

/-- The kinds of widgets all of whose blocks removeWidget frees. -/
def Released (type : WidgetType) : Prop := type = .TEXT ∨ type = .BUTTON ∨ type = .INPUTFIELD

instance : DecidablePred Released := fun _ => inferInstanceAs (Decidable (_ ∨ _ ∨ _))

/-- A widget that is removed is of such a kind. -/
def RemovesReleased (p : Program) : Program.Action → Prop
  | .remove index => index ∈ p.win.live → Released (p.win.widgets index).type
  | _ => True

/-- The widget's context is its first block; a colour fill has one more, its pixels. -/
def Holds (w : Widget) (blocks : List (ℕ × ℕ)) : Prop :=
  ∃ n others, blocks = (w.context, n) :: others ∧
    others.length = if w.type = .COLORFILL then 1 else 0

/-- The state of a program that has added and removed widgets: its heap and its list are
in order, and each block in use is accounted for. -/
structure Ready (lo : ℕ) (base : List (ℕ × ℕ)) (p : Program) : Prop where
  sound : Umalloc.Sound lo p.memory
  chained : Chained p.win
  owned : Owned base p
  holds : ∀ i ∈ p.win.live, Holds (p.win.widgets i) (p.owned i)

end Properties

variable {lo ap i n : ℕ} {base : List (ℕ × ℕ)} {p q : Program} {m m' : Umalloc.State}
  {granted : ℕ → Bool} {nbytes : UInt32} {index : ℤ} {a : Args}

section Blocks

theorem malloc_sound (h : Umalloc.Sound lo m) (hn : nbytes.toNat ≤ 2 ^ 31 - 16)
    (hm : malloc granted nbytes m = some (ap, m')) :
    Umalloc.Sound lo m' ∧ m'.live = (ap, nbytes.toNat) :: m.live := by
  obtain ⟨t, ht, hsound⟩ := h.step_returns (a := .malloc nbytes granted) hn
  unfold malloc at hm
  unfold Umalloc.step at ht
  dsimp only at ht
  split at hm
  · rename_i ap' heap hheap
    rw [hheap] at ht
    obtain ⟨rfl, rfl⟩ := Prod.mk.inj (Option.some.inj hm)
    rw [← Option.some.inj ht] at hsound
    exact ⟨hsound, rfl⟩
  · exact absurd hm (by simp)

theorem store_live {j ptr size : ℕ} (hm : Umalloc.step m (.store i j ptr size) = some m') :
    m'.live = m.live := by
  unfold Umalloc.step at hm
  dsimp only at hm
  split at hm
  · rw [← Option.some.inj hm]
  · split at hm <;> rw [← Option.some.inj hm]

/-- What is written to a block stays inside of it. -/
theorem fill_sound {contents : ℕ → ℕ × ℕ} (h : Umalloc.Sound lo m)
    (hm : fill i contents n m = some m') : Umalloc.Sound lo m' ∧ m'.live = m.live := by
  induction n generalizing m' with
  | zero =>
    obtain rfl := Option.some.inj hm
    exact ⟨h, rfl⟩
  | succ n ih =>
    obtain ⟨u, hu, hstore⟩ := Option.bind_eq_some_iff.mp hm
    obtain ⟨hsound, hlive⟩ := ih hu
    obtain ⟨t, ht, htsound⟩ := hsound.step_returns
      (a := .store i n (contents n).1 (contents n).2) trivial
    obtain rfl := Option.some.inj (ht.symm.trans hstore)
    exact ⟨htsound, (store_live hstore).trans hlive⟩

/-- Two blocks in use do not begin at the same place. -/
theorem block_unique (h : Umalloc.Sound lo m) {b c : ℕ × ℕ} (hb : b ∈ m.live) (hc : c ∈ m.live)
    (heq : b.1 = c.1) : b = c := by
  by_contra hne
  have : Std.Symm HeapBlocks.Apart := ⟨fun _ _ => Or.symm⟩
  have hapart : HeapBlocks.Apart b c := h.apart.forall hb hc hne
  have hpos := (h.inside b hb).1
  unfold HeapBlocks.Apart at hapart
  omega

/-- A block in use can be freed, and then only it is gone. -/
theorem free_sound (h : Umalloc.Sound lo m) {b : ℕ × ℕ} (hb : b ∈ m.live) :
    ∃ m', free b.1 m = some m' ∧ Umalloc.Sound lo m' ∧ (b :: m'.live).Perm m.live := by
  have hfound : ∃ i, m.live.findIdx? (fun c => c.1 = b.1) = some i := by
    refine Option.isSome_iff_exists.mp ?_
    rw [List.findIdx?_isSome, List.any_eq_true]
    exact ⟨b, hb, decide_eq_true rfl⟩
  obtain ⟨i, hi⟩ := hfound
  obtain ⟨hlt, hfirst, _⟩ := List.findIdx?_eq_some_iff_getElem.mp hi
  obtain ⟨t, ht, hsound⟩ := h.step_returns (a := .free i) trivial
  refine ⟨t, ?_, hsound, ?_⟩
  · unfold free
    rw [hi]
    exact ht
  · have hblock : m.live[i] = b :=
      block_unique h (List.getElem_mem hlt) hb (of_decide_eq_true hfirst)
    have hstep : t.live = m.live.eraseIdx i := by
      unfold Umalloc.step at ht
      dsimp only at ht
      rw [List.getElem?_eq_getElem hlt] at ht
      obtain ⟨heap, _, rfl⟩ := Option.map_eq_some_iff.mp ht
      rfl
    rw [hstep]
    conv_lhs => rw [← hblock]
    exact List.getElem_cons_eraseIdx_perm hlt

end Blocks

section Adding

/-- What an add function does to a program that is ready. -/
structure Added (lo : ℕ) (base : List (ℕ × ℕ)) (p q : Program) (index : ℤ) (type : WidgetType) :
    Prop where
  ready : Ready lo base q
  inTable : InTable index
  new : index ∉ p.win.live
  live : q.win.live = p.win.live ++ [index]
  others : ∀ i ∈ p.win.live, q.owned i = p.owned i
  type : (q.win.widgets index).type = type

/-- A slot that addWidget has found is new, and the widget in it is the last of the list. -/
theorem Chained.addWidget_new {win : Window} (h : Chained win) (hfound : win.addWidget.2 ≠ -1) :
    InTable win.addWidget.2 ∧ win.addWidget.2 ∉ win.live ∧
      win.addWidget.1.live = win.live ++ [win.addWidget.2] ∧
      win.addWidget.1.widgets = win.widgets := by
  rcases addWidget_cases win with ⟨_, hadd⟩ | ⟨hne, hadd⟩
  · rw [hadd] at hfound
    exact absurd rfl hfound
  · obtain ⟨hin, hnew⟩ := h.available hne
    rw [hadd]
    exact ⟨hin, hnew, rfl, rfl⟩

theorem Ready.place (h : Ready lo base p) {type : WidgetType} {context : ℕ}
    {others : List (ℕ × ℕ)} (hfound : p.win.addWidget.2 ≠ -1) (hm : Umalloc.Sound lo m)
    (hlive : m.live.Perm ((context, n) :: others ++ p.memory.live))
    (hothers : others.length = if type = .COLORFILL then 1 else 0) :
    Added lo base p (p.place p.win.addWidget.1 m p.win.addWidget.2 type context
      ((context, n) :: others) a) p.win.addWidget.2 type := by
  have hchained := h.chained.addWidget
  obtain ⟨hin, hnew, hlist, hwidgets⟩ := h.chained.addWidget_new hfound
  generalize p.win.addWidget.1 = win at hchained hlist hwidgets ⊢
  generalize p.win.addWidget.2 = index at hin hnew hlist ⊢
  have hne : ∀ i ∈ p.win.live, i ≠ index := fun i hi e => hnew (e ▸ hi)
  unfold Program.place
  dsimp only
  rw [hwidgets]
  have howned : ∀ i ∈ p.win.live,
      Function.update p.owned index ((context, n) :: others) i = p.owned i :=
    fun i hi => Function.update_of_ne (hne i hi) ..
  refine ⟨⟨hm, hchained.congr rfl rfl rfl rfl, ?_, fun i hi => ?_⟩, hin, hnew, hlist, howned, ?_⟩
  · show m.live.Perm (base ++ win.live.flatMap
      (Function.update p.owned index ((context, n) :: others)))
    rw [hlist, List.flatMap_append, List.flatMap_singleton, Function.update_self,
      List.flatMap_congr howned, ← List.append_assoc]
    exact hlive.trans ((h.owned.append_left _).trans List.perm_append_comm)
  · dsimp only at hi ⊢
    rw [hlist, List.mem_append, List.mem_singleton] at hi
    rcases hi with hi | rfl
    · rw [Function.update_of_ne (hne i hi), Function.update_of_ne (hne i hi)]
      exact h.holds i hi
    · rw [Function.update_self, Function.update_self]
      exact ⟨n, others, rfl, hothers⟩
  · dsimp only
    rw [Function.update_self]

theorem Ready.addContext (h : Ready lo base p) {type : WidgetType} {size : UInt32} {fits : Bool}
    (hsize : size.toNat ≤ 2 ^ 31 - 16) (htype : type ≠ .COLORFILL)
    (hadd : p.addContext type size fits a = some (q, index)) :
    (q = p ∧ index = -1) ∨ (index ≠ -1 ∧ Added lo base p q index type) := by
  unfold Program.addContext at hadd
  dsimp only at hadd
  split at hadd
  · obtain ⟨rfl, rfl⟩ := Prod.mk.inj (Option.some.inj hadd)
    exact .inl ⟨rfl, rfl⟩
  rename_i hfound
  split at hadd
  swap
  · exact absurd hadd (by simp)
  obtain ⟨⟨t, m⟩, hmalloc, hadd⟩ := Option.bind_eq_some_iff.mp hadd
  obtain ⟨m', hfill, hadd⟩ := Option.bind_eq_some_iff.mp hadd
  obtain ⟨rfl, rfl⟩ := Prod.mk.inj (Option.some.inj hadd)
  obtain ⟨hm, hlive⟩ := malloc_sound h.sound hsize hmalloc
  obtain ⟨hm', hlive'⟩ := fill_sound hm hfill
  refine .inr ⟨hfound, h.place hfound hm' ?_ (if_neg htype).symm⟩
  rw [hlive', hlive]
  exact List.Perm.refl _

theorem Ready.addColorFill (h : Ready lo base p)
    (hadd : p.addColorFillWidget a = some (q, index)) :
    (q = p ∧ index = -1) ∨ (index ≠ -1 ∧ Added lo base p q index .COLORFILL) := by
  unfold Program.addColorFillWidget at hadd
  dsimp only at hadd
  split at hadd
  · obtain ⟨rfl, rfl⟩ := Prod.mk.inj (Option.some.inj hadd)
    exact .inl ⟨rfl, rfl⟩
  rename_i hfound
  split at hadd
  swap
  · exact absurd hadd (by simp)
  rename_i hbytes
  obtain ⟨⟨b, m⟩, hmalloc, hadd⟩ := Option.bind_eq_some_iff.mp hadd
  obtain ⟨⟨buf, m₁⟩, hmalloc₁, hadd⟩ := Option.bind_eq_some_iff.mp hadd
  obtain ⟨m₂, hfill, hadd⟩ := Option.bind_eq_some_iff.mp hadd
  obtain ⟨m₃, hfill₁, hadd⟩ := Option.bind_eq_some_iff.mp hadd
  obtain ⟨rfl, rfl⟩ := Prod.mk.inj (Option.some.inj hadd)
  obtain ⟨hm, hlive⟩ := malloc_sound h.sound (by decide) hmalloc
  have hsmall : (UInt32.ofNat (a.w * a.h * 3).toNat).toNat ≤ 2 ^ 31 - 16 := by
    rw [UInt32.toNat_ofNat']
    have hle := hbytes.2.2
    exact (Nat.mod_le _ _).trans (by omega)
  obtain ⟨hm₁, hlive₁⟩ := malloc_sound hm hsmall hmalloc₁
  obtain ⟨hm₂, hlive₂⟩ := fill_sound hm₁ hfill
  obtain ⟨hm₃, hlive₃⟩ := fill_sound hm₂ hfill₁
  refine .inr ⟨hfound, h.place hfound hm₃ ?_ rfl⟩
  rw [hlive₃, hlive₂, hlive₁, hlive]
  exact List.Perm.swap ..

theorem Ready.focus (h : Ready lo base q) :
    Ready lo base { q with win := { q.win with keyfocus := index } } where
  sound := h.sound
  chained := h.chained.congr rfl rfl rfl rfl
  owned := h.owned
  holds := h.holds

theorem Ready.add (h : Ready lo base p) {r : Request} (hadd : p.add r a = some (q, index)) :
    (q = p ∧ index = -1) ∨ (index ≠ -1 ∧ Added lo base p q index r.type) := by
  cases r with
  | rectangle => exact h.addContext (by decide) (by decide) hadd
  | colorFill => exact h.addColorFill hadd
  | button text => exact h.addContext (by decide) (fun hc => by cases hc) hadd
  | text text => exact h.addContext (by decide) (fun hc => by cases hc) hadd
  | inputField text =>
    obtain ⟨⟨u, i⟩, hu, hfocus⟩ := Option.map_eq_some_iff.mp hadd
    rcases h.addContext (by decide) (by decide) hu with ⟨rfl, rfl⟩ | ⟨hne, hadded⟩
    · obtain ⟨rfl, rfl⟩ := Prod.mk.inj hfocus
      exact .inl ⟨rfl, rfl⟩
    · rw [if_neg hne] at hfocus
      obtain ⟨rfl, rfl⟩ := Prod.mk.inj hfocus
      exact .inr ⟨hne, { hadded with ready := hadded.ready.focus }⟩

end Adding

section Removing

/-- What freeWidget leaves of the blocks of a widget. -/
def unreleased (w : Widget) (blocks : List (ℕ × ℕ)) : List (ℕ × ℕ) :=
  match w.type with
  | .COLORFILL | .BUTTON | .TEXT | .INPUTFIELD => blocks.tail
  | _ => blocks

theorem Holds.unreleased {w : Widget} {blocks : List (ℕ × ℕ)} (h : Holds w blocks) :
    (unreleased w blocks).length = if Released w.type then 0 else 1 := by
  obtain ⟨n, others, rfl, hothers⟩ := h
  unfold Widgets.unreleased
  cases htype : w.type <;> rw [htype] at hothers <;> simpa [Released] using hothers

theorem Ready.freeWidget (h : Ready lo base p) (hlisted : index ∈ p.win.live) :
    ∃ m, p.freeWidget index = some { p with memory := m } ∧ Umalloc.Sound lo m ∧
      (p.owned index ++ m.live).Perm
        (unreleased (p.win.widgets index) (p.owned index) ++ p.memory.live) := by
  obtain ⟨n, others, hblocks, _⟩ := h.holds index hlisted
  have hmem : ((p.win.widgets index).context, n) ∈ p.memory.live := by
    refine h.owned.mem_iff.mpr (List.mem_append_right _ (List.mem_flatMap.mpr ⟨index, hlisted, ?_⟩))
    rw [hblocks]
    exact List.mem_cons_self
  obtain ⟨m, hm, hsound, hperm⟩ := free_sound h.sound hmem
  have hfreed : (p.owned index ++ m.live).Perm (others ++ p.memory.live) := by
    rw [hblocks]
    exact List.perm_middle.symm.trans (hperm.append_left others)
  unfold Program.freeWidget Widgets.unreleased
  cases (p.win.widgets index).type with
  | TEXT | BUTTON | INPUTFIELD | COLORFILL =>
    rw [hm, hblocks]
    rw [hblocks] at hfreed
    exact ⟨m, rfl, hsound, hfreed⟩
  | SHAPE | ICON | IMAGE => exact ⟨p.memory, rfl, h.sound, List.Perm.refl _⟩

/-- A widget is removed, and what freeWidget leaves of its blocks stays in use. -/
theorem Ready.remove (h : Ready lo base p) (hlisted : index ∈ p.win.live) :
    ∃ q, p.removeWidget index = some q ∧
      Ready lo (unreleased (p.win.widgets index) (p.owned index) ++ base) q ∧
      q.win.live = p.win.live.erase index ∧ q.owned = p.owned := by
  obtain ⟨m, hm, hsound, hperm⟩ := h.freeWidget hlisted
  have hremoved := h.chained.remove hlisted
  have hbusy : ¬ (p.win.prev index = index ∧ p.win.next index = index) :=
    fun hc => h.chained.next_ne hlisted hc.2
  unfold Program.removeWidget
  rw [if_neg hbusy, hm]
  refine ⟨_, rfl, ⟨hsound, hremoved, ?_, fun i hi => ?_⟩, rfl, rfl⟩
  · show m.live.Perm (_ ++ (p.win.live.erase index).flatMap p.owned)
    have hlive := (List.perm_cons_erase hlisted).flatMap_right p.owned
    rw [List.flatMap_cons] at hlive
    have hall := hperm.trans ((h.owned.trans (hlive.append_left base)).append_left _)
    refine (List.perm_append_left_iff (p.owned index)).mp (hall.trans ?_)
    rw [← List.append_assoc]
    exact List.perm_append_comm_assoc ..
  · exact h.holds i (List.mem_of_mem_erase hi)

theorem Ready.owned_iff {leaked : List (ℕ × ℕ)} (h : Ready lo (leaked ++ base) p) :
    Owned base p ↔ leaked = [] := by
  constructor
  · intro howned
    have hlength := (howned.symm.trans h.owned).length_eq
    simp only [List.length_append] at hlength
    exact List.length_eq_zero_iff.mp (by omega)
  · rintro rfl
    exact h.owned

theorem Ready.removed_iff (h : Ready lo base p) (hlisted : index ∈ p.win.live)
    (hq : Ready lo (unreleased (p.win.widgets index) (p.owned index) ++ base) q) :
    Owned base q ↔ Released (p.win.widgets index).type := by
  rw [hq.owned_iff, ← List.length_eq_zero_iff, (h.holds index hlisted).unreleased]
  split
  · rename_i hreleased
    exact iff_of_true rfl hreleased
  · rename_i hkept
    exact iff_of_false Nat.one_ne_zero hkept

/-- After a widget has been added and removed, the blocks in use are the same again exactly for
the kinds all of whose blocks are freed. -/
theorem Added.remove (hp : Ready lo base p) {type : WidgetType}
    (h : Added lo base p q index type) :
    ∃ q', q.removeWidget index = some q' ∧
      (q'.memory.live.Perm p.memory.live ↔ Released type) := by
  have hlisted : index ∈ q.win.live := by
    rw [h.live]
    exact List.mem_append_right _ List.mem_cons_self
  obtain ⟨q', hq', hready, hlive, howned⟩ := h.ready.remove hlisted
  have hrest : base ++ q'.win.live.flatMap q'.owned = base ++ p.win.live.flatMap p.owned := by
    rw [hlive, howned, h.live, List.erase_append_right _ h.new, List.erase_cons_head,
      List.append_nil, List.flatMap_congr h.others]
  have hiff := h.ready.removed_iff hlisted hready
  rw [h.type] at hiff
  unfold Owned at hiff
  rw [hrest] at hiff
  exact ⟨q', hq', hp.owned.congr_right _ |>.trans hiff⟩

end Removing

section Runs

/-- removeWidget leaves a free slot alone. -/
theorem Ready.step_remove (h : Ready lo base p) (hq : p.step (.remove index) = some q) :
    (index ∉ p.win.live ∧ q = p) ∨ (index ∈ p.win.live ∧
      Ready lo (unreleased (p.win.widgets index) (p.owned index) ++ base) q) := by
  unfold Program.step at hq
  dsimp only at hq
  split at hq
  swap
  · exact absurd hq (by simp)
  rename_i hin
  by_cases hlisted : index ∈ p.win.live
  · obtain ⟨u, hu, hready, _⟩ := h.remove hlisted
    obtain rfl := Option.some.inj (hu.symm.trans hq)
    exact .inr ⟨hlisted, hready⟩
  · obtain ⟨hn, hp⟩ := h.chained.free index hin hlisted
    unfold Program.removeWidget at hq
    rw [if_pos ⟨hp, hn⟩] at hq
    exact .inl ⟨hlisted, (Option.some.inj hq).symm⟩

theorem Ready.step (h : Ready lo base p) {act : Program.Action} (hact : RemovesReleased p act)
    (hq : p.step act = some q) : Ready lo base q := by
  cases act with
  | add r a =>
    obtain ⟨⟨u, i⟩, hu, rfl⟩ := Option.map_eq_some_iff.mp hq
    rcases h.add hu with ⟨rfl, _⟩ | ⟨_, hadded⟩
    · exact h
    · exact hadded.ready
  | remove index =>
    rcases h.step_remove hq with ⟨_, rfl⟩ | ⟨hlisted, hready⟩
    · exact h
    · have hnone := hready.owned_iff.mp ((h.removed_iff hlisted hready).mpr (hact hlisted))
      rw [hnone, List.nil_append] at hready
      exact hready
  | store i j ptr size =>
    obtain ⟨m, hm, rfl⟩ := Option.map_eq_some_iff.mp hq
    obtain ⟨t, ht, hsound⟩ := h.sound.step_returns (a := .store i j ptr size) trivial
    obtain rfl := Option.some.inj (ht.symm.trans hm)
    refine ⟨hsound, h.chained, ?_, h.holds⟩
    unfold Owned
    rw [store_live hm]
    exact h.owned

/-- A step that leaves only the blocks of widgets removes no other kind. -/
theorem Ready.step_seen (h : Ready lo base p) {act : Program.Action} (hq : p.step act = some q)
    (howned : Owned base q) : RemovesReleased p act := by
  cases act with
  | add r a => trivial
  | store i j ptr size => trivial
  | remove index =>
    intro hlisted
    rcases h.step_remove hq with ⟨hnot, _⟩ | ⟨_, hready⟩
    · exact absurd hlisted hnot
    · exact (h.removed_iff hlisted hready).mp howned

/-- Only so many blocks belong to widgets. -/
theorem Ready.bounded (h : Ready lo base p) :
    p.memory.live.length ≤ base.length + 2 * MAX_WIDGET_SIZE := by
  have hwidgets : ∀ l : List ℤ, (∀ i ∈ l, i ∈ p.win.live) →
      (l.flatMap p.owned).length ≤ 2 * l.length := by
    intro l
    induction l with
    | nil => exact fun _ => Nat.le_refl 0
    | cons i l ih =>
      intro hl
      obtain ⟨n, others, hblocks, hothers⟩ := h.holds i (hl i List.mem_cons_self)
      have hrest := ih fun j hj => hl j (List.mem_cons_of_mem i hj)
      have hone : others.length ≤ 1 := by
        rw [hothers]
        split <;> decide
      rw [List.flatMap_cons, List.length_append, hblocks, List.length_cons, List.length_cons]
      omega
  have hlive := hwidgets p.win.live fun _ hi => hi
  have hslots := length_lt_fuel h.chained.nodup h.chained.range
  rw [h.owned.length_eq, List.length_append]
  unfold loopFuel at hslots
  omega

/-- A widget that is added and removed leaves the blocks in use as they were exactly for the
kinds all of whose blocks are freed. In a run, every block in use belongs to a widget exactly
as long as only widgets of those kinds are removed, and then there are never more blocks
than the widgets of one window can have. -/
theorem removes_balanced_iff (h : Ready lo base p) :
    (∀ r a q index, p.add r a = some (q, index) → index ≠ -1 → ∃ q',
      q.removeWidget index = some q' ∧ (q'.memory.live.Perm p.memory.live ↔ Released r.type)) ∧
    (∀ acts, Always Program.step (Owned base) p acts ↔
      Meets Program.step RemovesReleased p acts) ∧
    ∀ acts, Meets Program.step RemovesReleased p acts →
      Always Program.step
        (fun q => q.memory.live.length ≤ base.length + 2 * MAX_WIDGET_SIZE) p acts := by
  have hkeep : ∀ u act v, Ready lo base u → RemovesReleased u act →
      Program.step u act = some v → Ready lo base v := fun _ _ _ hu => hu.step
  refine ⟨fun r a q index hadd hne => ?_, fun acts => ?_, fun acts hacts => ?_⟩
  · rcases h.add hadd with ⟨_, hnone⟩ | ⟨_, hadded⟩
    · exact absurd hnone hne
    · exact hadded.remove h
  · exact always_iff_meets (fun _ => Ready.owned) hkeep (fun _ _ _ hu => hu.step_seen) h acts
  · exact (always_of_meets hkeep h hacts).mono fun _ => Ready.bounded

/-- A window without widgets and a heap without blocks. -/
def fresh : Program := ⟨blank.createPopupWindow, .initial 512 1024 id id, fun _ => []⟩

theorem fresh_ready : Ready 1024 [] fresh where
  sound := Umalloc.initial_sound (by decide) (by decide)
  chained := emptyList_linked.toChained
  owned := List.Perm.refl _
  holds := fun _ hi => absurd hi List.not_mem_nil

def corner : Args := ⟨0, 0, 80, 25, false, fun _ => true, fun _ _ => (0, 0)⟩

/-- A button is added and removed. -/
theorem removes_balanced_button : ∃ q q', fresh.add (.button []) corner = some (q, 0) ∧
    q.removeWidget 0 = some q' ∧ q'.memory.live.Perm fresh.memory.live := by
  have hadd : (fresh.add (.button []) corner).map Prod.snd = some 0 := by decide +kernel
  obtain ⟨⟨q, index⟩, hq, rfl⟩ := Option.map_eq_some_iff.mp hadd
  obtain ⟨q', hq', hiff⟩ := (removes_balanced_iff fresh_ready).1 _ _ q 0 hq (by decide)
  exact ⟨q, q', hq, hq', hiff.mpr (.inr (.inl rfl))⟩

/-- The context of a rectangle is never freed. -/
theorem not_removes_balanced : ¬ ∀ r a q index q', fresh.add r a = some (q, index) → index ≠ -1 →
    q.removeWidget index = some q' → q'.memory.live.Perm fresh.memory.live := by
  intro hall
  have hrun : ((fresh.add .rectangle corner).bind fun r => (r.1.removeWidget r.2).map fun q' =>
      (r.2, q'.memory.live)) = some (0, [(5113, 56)]) := by decide +kernel
  obtain ⟨⟨q, index⟩, hq, hrun⟩ := Option.bind_eq_some_iff.mp hrun
  obtain ⟨q', hq', hlive⟩ := Option.map_eq_some_iff.mp hrun
  obtain ⟨hindex, hblocks⟩ := Prod.mk.inj hlive
  obtain rfl : index = 0 := hindex
  have hperm := hall _ _ q 0 q' hq (by decide) hq'
  rw [hblocks] at hperm
  exact absurd hperm.length_eq (by decide)

end Runs

end NorthOS.Widgets
