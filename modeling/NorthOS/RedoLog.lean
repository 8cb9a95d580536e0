import Mathlib.Data.List.Basic
import Mathlib.Logic.Function.Basic
import Mathlib.Tactic.Common

/-!
A physical redo log on a disk of atomically written blocks: a header block, slots
behind it, and home blocks outside both. A commit fills the slots, writes the
header, copies the slots home and clears the header; recovery copies the slots home
that the header names and clears it. Cutting either short after any number of
writes and recovering leaves the home blocks as before the commit or as after it.
-/
namespace NorthOS.RedoLog

variable {B : Type*}

/-- The disk after a list of block writes. -/
def apply (d : ℕ → B) : List (ℕ × B) → ℕ → B
  | [] => d
  | w :: ws => apply (Function.update d w.1 w.2) ws

theorem apply_append (d : ℕ → B) (ws vs : List (ℕ × B)) :
    apply d (ws ++ vs) = apply (apply d ws) vs := by
  induction ws generalizing d with
  | nil => rfl
  | cons w ws ih => exact ih _

theorem apply_of_notMem {d : ℕ → B} {ws : List (ℕ × B)} {b : ℕ} (h : ∀ w ∈ ws, w.1 ≠ b) :
    apply d ws b = d b := by
  induction ws generalizing d with
  | nil => rfl
  | cons w ws ih =>
    have hrest := ih (d := Function.update d w.1 w.2)
      fun v hv => h v (List.mem_cons_of_mem w hv)
    rw [apply, hrest]
    exact Function.update_of_ne (h w List.mem_cons_self).symm _ _

/-- Disks that differ only where the list writes are made equal by it. -/
theorem apply_congr {d e : ℕ → B} {ws : List (ℕ × B)}
    (h : ∀ b, (∀ w ∈ ws, w.1 ≠ b) → d b = e b) : apply d ws = apply e ws := by
  induction ws generalizing d e with
  | nil =>
    funext b
    exact h b fun w hw => absurd hw List.not_mem_nil
  | cons w ws ih =>
    apply ih
    intro b hb
    by_cases hwb : b = w.1
    · rw [hwb, Function.update_self, Function.update_self]
    · rw [Function.update_of_ne hwb, Function.update_of_ne hwb]
      apply h
      intro v hv
      rcases List.mem_cons.mp hv with rfl | hv
      · exact fun e => hwb e.symm
      · exact hb v hv

/-- A list of writes that was cut short is completed by repeating all of it. -/
theorem apply_take (d : ℕ → B) (ws : List (ℕ × B)) (k : ℕ) :
    apply (apply d (ws.take k)) ws = apply d ws := by
  apply apply_congr
  intro b hb
  exact apply_of_notMem fun w hw => hb w (List.mem_of_mem_take hw)

theorem apply_map (d : ℕ → B) (f : ℕ → B) (bs : List ℕ) (b : ℕ) :
    apply d (bs.map fun b => (b, f b)) b = if b ∈ bs then f b else d b := by
  induction bs generalizing d with
  | nil => rfl
  | cons c bs ih =>
    rw [List.map_cons, apply, ih]
    by_cases hbs : b ∈ bs
    · simp [hbs]
    · by_cases hbc : b = c
      · subst hbc
        simp
      · simp [hbs, hbc]

/-- The log lies in blocks `start` to `start + size - 1`; `targets` reads the home
block numbers from a header and `store` writes them into one. -/
structure Format (B : Type*) where
  start : ℕ
  size : ℕ
  targets : B → List ℕ
  store : List ℕ → B → B
  /-- the lists that a header can hold -/
  fits : List ℕ → Prop
  fits_nil : fits []
  targets_store : ∀ bs h, fits bs → targets (store bs h) = bs
  store_nil : ∀ h, store [] (store [] h) = store [] h

namespace Format

variable (F : Format B)

def Home (b : ℕ) : Prop := b < F.start ∨ F.start + F.size ≤ b

/-- A transaction the log has room for, of home blocks only. -/
structure Valid (bs : List ℕ) : Prop where
  fits : F.fits bs
  home : ∀ b ∈ bs, F.Home b
  room : bs.length < F.size

def slots (f : ℕ → B) : ℕ → List ℕ → List (ℕ × B)
  | _, [] => []
  | i, b :: bs => (F.start + i + 1, f b) :: slots f (i + 1) bs

/-- Copying the slots of `d` to the blocks `bs`. -/
def installs (d : ℕ → B) : ℕ → List ℕ → List (ℕ × B)
  | _, [] => []
  | i, b :: bs => (b, d (F.start + i + 1)) :: installs d (i + 1) bs

/-- Slot `i` of `d` and those behind it hold the contents `f` of the blocks `bs`. -/
def Holds (d : ℕ → B) (f : ℕ → B) : ℕ → List ℕ → Prop
  | _, [] => True
  | i, b :: bs => d (F.start + i + 1) = f b ∧ Holds d f (i + 1) bs

def commitWrites (d : ℕ → B) (f : ℕ → B) (bs : List ℕ) : List (ℕ × B) :=
  F.slots f 0 bs ++ (F.start, F.store bs (d F.start)) ::
    ((bs.map fun b => (b, f b)) ++ [(F.start, F.store [] (F.store bs (d F.start)))])

def recoverWrites (d : ℕ → B) : List (ℕ × B) :=
  F.installs d 0 (F.targets (d F.start)) ++ [(F.start, F.store [] (d F.start))]

def recover (d : ℕ → B) : ℕ → B := apply d (F.recoverWrites d)

/-- Recovery cut short after each of the given numbers of writes in turn. -/
def interrupted (d : ℕ → B) : List ℕ → ℕ → B
  | [] => d
  | j :: js => interrupted (apply d ((F.recoverWrites d).take j)) js

variable {F} {d e : ℕ → B} {f : ℕ → B} {bs : List ℕ}

theorem slots_key {i : ℕ} : ∀ w ∈ F.slots f i bs,
    F.start + i < w.1 ∧ w.1 ≤ F.start + i + bs.length := by
  induction bs generalizing i with
  | nil => simp [slots]
  | cons b bs ih =>
    intro w hw
    rcases List.mem_cons.mp hw with rfl | hw
    · simp only [List.length_cons]
      omega
    · have := ih w hw
      simp only [List.length_cons]
      omega

theorem slots_length {i : ℕ} : (F.slots f i bs).length = bs.length := by
  induction bs generalizing i with
  | nil => rfl
  | cons b bs ih => rw [slots, List.length_cons, ih, List.length_cons]

theorem slots_congr {g : ℕ → B} {i : ℕ} (h : ∀ b ∈ bs, g b = f b) :
    F.slots g i bs = F.slots f i bs := by
  induction bs generalizing i with
  | nil => rfl
  | cons b bs ih =>
    rw [slots, slots, h b List.mem_cons_self,
      ih fun c hc => h c (List.mem_cons_of_mem b hc)]

theorem Holds.congr {i : ℕ} (h : F.Holds d f i bs)
    (he : ∀ x, F.start + i < x → x ≤ F.start + i + bs.length → e x = d x) :
    F.Holds e f i bs := by
  induction bs generalizing i with
  | nil => trivial
  | cons b bs ih =>
    simp only [List.length_cons] at he
    refine ⟨?_, ih h.2 fun x hlo hhi => he x (by omega) (by omega)⟩
    rw [he _ (by omega) (by omega)]
    exact h.1

theorem holds_slots (d : ℕ → B) (i : ℕ) : F.Holds (apply d (F.slots f i bs)) f i bs := by
  induction bs generalizing d i with
  | nil => trivial
  | cons b bs ih =>
    refine ⟨?_, ih _ (i + 1)⟩
    rw [slots, apply, apply_of_notMem, Function.update_self]
    intro w hw
    have := (slots_key w hw).1
    omega

theorem installs_of_holds {i : ℕ} (h : F.Holds d f i bs) :
    F.installs d i bs = bs.map fun b => (b, f b) := by
  induction bs generalizing i with
  | nil => rfl
  | cons b bs ih => rw [installs, List.map_cons, ih h.2, h.1]

theorem installs_congr {i : ℕ}
    (he : ∀ x, F.start + i < x → x ≤ F.start + i + bs.length → e x = d x) :
    F.installs e i bs = F.installs d i bs := by
  induction bs generalizing i with
  | nil => rfl
  | cons b bs ih =>
    simp only [List.length_cons] at he
    rw [installs, installs, ih fun x hlo hhi => he x (by omega) (by omega),
      he _ (by omega) (by omega)]

theorem installs_length {i : ℕ} : (F.installs d i bs).length = bs.length := by
  induction bs generalizing i with
  | nil => rfl
  | cons b bs ih => rw [installs, List.length_cons, ih, List.length_cons]

theorem installs_key {i : ℕ} : ∀ w ∈ F.installs d i bs, w.1 ∈ bs := by
  induction bs generalizing i with
  | nil => simp [installs]
  | cons b bs ih =>
    intro w hw
    rcases List.mem_cons.mp hw with rfl | hw
    · exact List.mem_cons_self
    · exact List.mem_cons_of_mem b (ih w hw)

/-- A home block is neither the header nor a slot of a valid transaction. -/
theorem Home.ne {b : ℕ} (h : F.Home b) {x : ℕ} (hlo : F.start ≤ x)
    (hhi : x < F.start + F.size) : b ≠ x := by
  rcases h with h | h <;> omega

theorem Valid.nil (hs : 0 < F.size) : F.Valid [] :=
  ⟨F.fits_nil, fun _ hb => absurd hb List.not_mem_nil, hs⟩

theorem targets_clear (h : B) : F.targets (F.store [] h) = [] :=
  F.targets_store [] h F.fits_nil

theorem recover_header (d : ℕ → B) : F.recover d F.start = F.store [] (d F.start) := by
  unfold recover recoverWrites
  rw [apply_append]
  exact Function.update_self _ _ _

theorem recover_other {b : ℕ} (hb : b ∉ F.targets (d F.start)) (hs : b ≠ F.start) :
    F.recover d b = d b := by
  apply apply_of_notMem
  intro w hw
  rcases List.mem_append.mp hw with hw | hw
  · exact fun e => hb (e ▸ installs_key w hw)
  · rw [List.mem_singleton.mp hw]
    exact hs.symm

/-- Recovering a disk whose header is clear writes the header once more. -/
theorem recover_of_clear {h : B} (hd : d F.start = F.store [] h) :
    F.recover d = d := by
  have hnone : F.targets (d F.start) = [] := by rw [hd, targets_clear]
  funext b
  rw [recover, recoverWrites, hnone, hd, F.store_nil]
  show Function.update d F.start (F.store [] h) b = d b
  by_cases hb : b = F.start
  · rw [hb, Function.update_self, hd]
  · rw [Function.update_of_ne hb]

/-- Recovering a recovered disk changes no block. -/
theorem recover_recover (d : ℕ → B) : F.recover (F.recover d) = F.recover d :=
  recover_of_clear (recover_header d)

theorem recoverWrites_congr (hhead : e F.start = d F.start)
    (hslots : ∀ x, F.start < x → x ≤ F.start + (F.targets (d F.start)).length → e x = d x) :
    F.recoverWrites e = F.recoverWrites d := by
  rw [recoverWrites, recoverWrites, hhead, installs_congr]
  intro x hlo hhi
  exact hslots x (by omega) (by omega)

/-- Cut short after any number of writes, recovery ends with the same disk. -/
theorem recover_cut (hv : F.Valid (F.targets (d F.start))) (j : ℕ) :
    F.recover (apply d ((F.recoverWrites d).take j)) = F.recover d ∧
      F.Valid (F.targets (apply d ((F.recoverWrites d).take j) F.start)) := by
  have hroom := hv.room
  by_cases hj : j ≤ (F.targets (d F.start)).length
  · -- the header and the slots are as before, so the same writes are repeated
    have htake : (F.recoverWrites d).take j =
        (F.installs d 0 (F.targets (d F.start))).take j := by
      unfold recoverWrites
      rw [List.take_append_of_le_length (by rw [installs_length]; exact hj)]
    have hsame : ∀ x, F.start ≤ x → x < F.start + F.size →
        apply d ((F.recoverWrites d).take j) x = d x := by
      intro x hlo hhi
      rw [htake]
      apply apply_of_notMem
      intro w hw
      exact (hv.home w.1 (installs_key w (List.mem_of_mem_take hw))).ne hlo hhi
    have hhead := hsame F.start (by omega) (by omega)
    have hwrites := recoverWrites_congr hhead fun x hlo hhi => hsame x (by omega) (by omega)
    refine ⟨?_, by rw [hhead]; exact hv⟩
    rw [recover, hwrites]
    exact apply_take d (F.recoverWrites d) j
  · -- all of recovery was carried out
    have hlen : (F.recoverWrites d).length = (F.targets (d F.start)).length + 1 := by
      rw [recoverWrites, List.length_append, installs_length]
      rfl
    rw [List.take_of_length_le (by omega)]
    refine ⟨recover_recover d, ?_⟩
    show F.Valid (F.targets (F.recover d F.start))
    rw [recover_header, targets_clear]
    exact .nil (by omega)

/-- However often recovery is cut short, it ends with the same disk. -/
theorem recover_interrupted (hv : F.Valid (F.targets (d F.start))) (js : List ℕ) :
    F.recover (F.interrupted d js) = F.recover d := by
  induction js generalizing d with
  | nil => rfl
  | cons j js ih =>
    obtain ⟨hcut, hv'⟩ := recover_cut hv j
    exact (ih hv').trans hcut

theorem recover_home (hhold : F.Holds d f 0 bs) (hhead : F.targets (d F.start) = bs)
    {b : ℕ} (hb : b ≠ F.start) : F.recover d b = if b ∈ bs then f b else d b := by
  unfold recover recoverWrites
  rw [hhead, installs_of_holds hhold, apply_append]
  show Function.update _ F.start _ b = _
  rw [Function.update_of_ne hb, apply_map]

/-- A commit that was cut before its header was written is not seen by recovery. -/
theorem recover_commit_early (hclear : F.targets (d F.start) = [])
    (hv : F.Valid bs) {k : ℕ} (hk : k ≤ bs.length) :
    F.targets (apply d ((F.commitWrites d f bs).take k) F.start) = [] ∧
      ∀ b, F.Home b → F.recover (apply d ((F.commitWrites d f bs).take k)) b = d b := by
  have htake : (F.commitWrites d f bs).take k = (F.slots f 0 bs).take k := by
    unfold commitWrites
    rw [List.take_append_of_le_length (by rw [slots_length]; exact hk)]
  have hroom := hv.room
  have hslots : ∀ w ∈ (F.slots f 0 bs).take k, F.start < w.1 ∧ w.1 < F.start + F.size := by
    intro w hw
    have := slots_key w (List.mem_of_mem_take hw)
    omega
  have hhead : apply d ((F.commitWrites d f bs).take k) F.start = d F.start := by
    rw [htake]
    apply apply_of_notMem
    intro w hw
    have := (hslots w hw).1
    omega
  refine ⟨by rw [hhead, hclear], fun b hb => ?_⟩
  have hne : b ≠ F.start := hb.ne (by omega) (by omega)
  rw [recover_other (by rw [hhead, hclear]; exact List.not_mem_nil) hne, htake]
  apply apply_of_notMem
  intro w hw
  exact (hb.ne (Nat.le_of_lt (hslots w hw).1) (hslots w hw).2).symm

/-- A commit that was cut behind its header is completed by recovery. -/
theorem recover_commit_late (hv : F.Valid bs) {k : ℕ} (hk : bs.length < k) :
    F.Valid (F.targets (apply d ((F.commitWrites d f bs).take k) F.start)) ∧
      ∀ b, F.Home b → F.recover (apply d ((F.commitWrites d f bs).take k)) b =
        if b ∈ bs then f b else d b := by
  have hroom := hv.room
  set h := F.store bs (d F.start) with hh
  have htargets : F.targets h = bs := F.targets_store bs _ hv.fits
  -- the disk when the header has just been written
  set c := apply d (F.slots f 0 bs ++ [(F.start, h)]) with hc
  have hchead : c F.start = h := by
    rw [hc, apply_append]
    exact Function.update_self _ _ _
  have hchold : F.Holds c f 0 bs := by
    apply (holds_slots (f := f) d 0).congr
    intro x hlo hhi
    rw [hc, apply_append]
    exact Function.update_of_ne (by omega) _ _
  have hchome : ∀ b, F.Home b → c b = d b := by
    intro b hb
    apply apply_of_notMem
    intro w hw
    rcases List.mem_append.mp hw with hw | hw
    · have := slots_key w hw
      exact (hb.ne (by omega) (by omega)).symm
    · rw [List.mem_singleton.mp hw]
      exact (hb.ne (by omega) (by omega)).symm
  have htarget : F.targets (c F.start) = bs := by rw [hchead, htargets]
  -- what follows is a recovery of that disk, cut short
  have hrest : F.recoverWrites c =
      (bs.map fun b => (b, f b)) ++ [(F.start, F.store [] h)] := by
    rw [recoverWrites, htarget, installs_of_holds hchold, hchead]
  have hcut : apply d ((F.commitWrites d f bs).take k) =
      apply c ((F.recoverWrites c).take (k - (bs.length + 1))) := by
    have hsplit : F.commitWrites d f bs =
        (F.slots f 0 bs ++ [(F.start, h)]) ++ F.recoverWrites c := by
      rw [hrest, commitWrites, List.append_assoc]
      rfl
    have hlen : (F.slots f 0 bs ++ [(F.start, h)]).length = bs.length + 1 := by
      rw [List.length_append, slots_length]
      rfl
    rw [hsplit, List.take_append, hlen, List.take_of_length_le (by omega), apply_append]
  have hvalid : F.Valid (F.targets (c F.start)) := by rw [htarget]; exact hv
  obtain ⟨hrec, hvalid'⟩ := recover_cut hvalid (k - (bs.length + 1))
  rw [hcut, hrec]
  refine ⟨hvalid', fun b hb => ?_⟩
  have hne : b ≠ F.start := hb.ne (by omega) (by omega)
  rw [recover_home hchold htarget hne, hchome b hb]

/-- A whole commit clears the header and leaves its transaction on the home blocks. -/
theorem commit_home (hv : F.Valid bs) {b : ℕ} (hb : F.Home b) :
    apply d (F.commitWrites d f bs) b = if b ∈ bs then f b else d b := by
  have hroom := hv.room
  have hne : b ≠ F.start := hb.ne (by omega) (by omega)
  have hslot : apply d (F.slots f 0 bs) b = d b := by
    apply apply_of_notMem
    intro w hw
    have := slots_key w hw
    exact (hb.ne (by omega) (by omega)).symm
  rw [commitWrites, apply_append, apply, apply_append, apply, apply,
    Function.update_of_ne hne, apply_map, Function.update_of_ne hne, hslot]

theorem commit_header : apply d (F.commitWrites d f bs) F.start =
    F.store [] (F.store bs (d F.start)) := by
  rw [commitWrites, apply_append, apply, apply_append]
  exact Function.update_self _ _ _

end Format

end NorthOS.RedoLog
