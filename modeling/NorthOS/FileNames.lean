import Mathlib.Data.List.TakeWhile
import NorthOS.ExplorerWindow

/-!
How the explorer tells documents from programs by their names. getFileExtension looks for the
last '.' from the end of the name. Where there is none its pointer ends up at the front, and the
whole name counts as the extension; so names without '.' never come to the branches that are
meant for them.
-/
namespace NorthOS.FileNames

open Explorer (dot chars hasCapital isExecutable)

/-- `for (p = ...; p >= filename && *p != '.'; p--) ;` with the number of characters up to p,
so that 0 stands for the pointer before the first. -/
def scanBack (filename : List ℤ) : ℕ → ℕ
  | 0 => 0
  | k + 1 => if filename.getD k 0 ≠ dot then scanBack filename k else k + 1

/-- The string at p, which was moved past the '.'; a short one is copied to the buffer. -/
def getFileExtension (filename : List ℤ) : List ℤ :=
  if filename.length = 0 then []
  else
    let p := filename.drop (scanBack filename (filename.length + 1))
    if Explorer.DIRSIZ ≤ p.length then p else p.take p.length ++ []

def canOpenWithEditor (filename : List ℤ) : Bool :=
  if isExecutable filename then false
  else if getFileExtension filename ∈ ["txt", "md", "c", "h", "asm", "s"].map chars then true
  else if hasCapital filename then true
  else if (getFileExtension filename).length = 0 && !isExecutable filename then true
  else false

/-- What the helper and the comments in the two classifiers say about a name. -/
structure AsDescribed (filename : List ℤ) : Prop where
  behind_dot : ∀ front ext, filename = front ++ dot :: ext → dot ∉ ext →
    getFileExtension filename = ext
  no_dot : dot ∉ filename → getFileExtension filename = []
  executable : dot ∉ filename → isExecutable filename = !hasCapital filename
  editor : dot ∉ filename → hasCapital filename → canOpenWithEditor filename

variable {filename front ext : List ℤ} {k : ℕ}

section Scan

theorem scanBack_spec (filename : List ℤ) (k : ℕ) : scanBack filename k ≤ k ∧
    (∀ i, scanBack filename k ≤ i → i < k → filename.getD i 0 ≠ dot) ∧
    (scanBack filename k = 0 ∨ filename.getD (scanBack filename k - 1) 0 = dot) := by
  induction k with
  | zero => exact ⟨le_rfl, fun i _ hi => absurd hi (Nat.not_lt_zero i), .inl rfl⟩
  | succ k ih =>
    rw [scanBack]
    split
    next hk =>
      obtain ⟨hle, hall, hstop⟩ := ih
      refine ⟨by omega, fun i hlo hi => ?_, hstop⟩
      by_cases hik : i = k
      · exact hik ▸ hk
      · exact hall i hlo (by omega)
    next hk =>
      refine ⟨le_rfl, fun i hlo hi => by omega, .inr ?_⟩
      simpa using hk

theorem getFileExtension_eq_drop :
    getFileExtension filename = filename.drop (scanBack filename (filename.length + 1)) := by
  unfold getFileExtension
  split
  next h =>
    rw [List.eq_nil_of_length_eq_zero h]
    rfl
  next =>
    simp only [List.take_length, List.append_nil, ite_self]

theorem exists_last_dot (h : dot ∈ filename) :
    ∃ front ext, filename = front ++ dot :: ext ∧ dot ∉ ext := by
  obtain ⟨ext, front, heq, hext⟩ := List.eq_append_cons_of_mem (List.mem_reverse.mpr h)
  refine ⟨front.reverse, ext.reverse, ?_, by simpa using hext⟩
  rw [← List.reverse_reverse filename, heq]
  simp

/-- Behind a last '.' the scan finds what follows it. -/
theorem getFileExtension_behind_dot (hext : dot ∉ ext) :
    getFileExtension (front ++ dot :: ext) = ext := by
  obtain ⟨hle, hnone, hstop⟩ :=
    scanBack_spec (front ++ dot :: ext) ((front ++ dot :: ext).length + 1)
  rw [getFileExtension_eq_drop]
  generalize scanBack (front ++ dot :: ext) ((front ++ dot :: ext).length + 1) = s at *
  simp only [List.length_append, List.length_cons] at hle hnone
  have hlast : front.length < s := by
    by_contra hs
    exact hnone front.length (by omega) (by omega) (by simp)
  have hs : s = front.length + 1 := by
    by_contra hne
    obtain ⟨j, hj⟩ : ∃ j, s = front.length + (j + 2) := ⟨s - front.length - 2, by omega⟩
    have hat : ext.getD j 0 = dot := by
      rcases hstop with hzero | hat
      · omega
      · rw [hj, List.getD_append_right _ _ _ _ (by omega),
          show front.length + (j + 2) - 1 - front.length = j + 1 by omega] at hat
        exact hat
    by_cases hlt : j < ext.length
    · rw [List.getD_eq_getElem _ _ hlt] at hat
      exact hext (hat ▸ List.getElem_mem hlt)
    · rw [List.getD_eq_default _ _ (by omega)] at hat
      exact absurd hat (by decide)
  rw [hs]
  simp

/-- Without a '.' the scan runs over the front, and all of the name is left. -/
theorem getFileExtension_of_not_mem (h : dot ∉ filename) :
    getFileExtension filename = filename := by
  obtain ⟨-, -, hstop⟩ := scanBack_spec filename (filename.length + 1)
  rw [getFileExtension_eq_drop]
  rcases hstop with hzero | hat
  · rw [hzero, List.drop_zero]
  · generalize scanBack filename (filename.length + 1) - 1 = i at hat
    by_cases hi : i < filename.length
    · rw [List.getD_eq_getElem _ _ hi] at hat
      exact absurd (hat ▸ List.getElem_mem hi) h
    · rw [List.getD_eq_default _ _ (by omega)] at hat
      exact absurd hat (by decide)

/-- The scan computes what the explorer's model says. -/
theorem getFileExtension_eq : getFileExtension filename = Explorer.getFileExtension filename := by
  by_cases h : dot ∈ filename
  · obtain ⟨front, ext, rfl, hext⟩ := exists_last_dot h
    rw [getFileExtension_behind_dot hext, Explorer.getFileExtension, List.reverse_append,
      List.reverse_cons, List.append_assoc, List.takeWhile_append_of_pos]
    · simp
    · intro c hc
      simpa using fun heq : c = dot => hext (heq ▸ List.mem_reverse.mp hc)
  · rw [getFileExtension_of_not_mem h, Explorer.getFileExtension, List.takeWhile_eq_self_iff.mpr,
      List.reverse_reverse]
    intro c hc
    simpa using fun heq : c = dot => h (heq ▸ List.mem_reverse.mp hc)

end Scan

section Classifiers

theorem not_capital_of_mem {names : List String} (h : filename ∈ names.map chars)
    (hnames : (names.map chars).all fun name => !hasCapital name) : ¬ hasCapital filename := by
  simpa using List.all_eq_true.mp hnames filename h

/-- The extensions that are looked up have no upper-case letter, so a name without '.' that has one
counts as a program. -/
theorem isExecutable_of_capital (h : dot ∉ filename) (hcapital : hasCapital filename) :
    isExecutable filename := by
  have hne : filename ≠ [] := by
    rintro rfl
    simp [hasCapital] at hcapital
  unfold Explorer.isExecutable
  rw [← getFileExtension_eq, getFileExtension_of_not_mem h]
  split
  · rfl
  · rw [decide_eq_true_eq]
    exact fun hmem => not_capital_of_mem hmem (by decide) hcapital

theorem canOpenWithEditor_of_capital (h : dot ∉ filename) (hcapital : hasCapital filename) :
    canOpenWithEditor filename = false :=
  if_pos (isExecutable_of_capital h hcapital)

end Classifiers

/-- A name is treated as described if and only if it has a '.' or is empty. -/
theorem asDescribed_iff (filename : List ℤ) :
    AsDescribed filename ↔ dot ∈ filename ∨ filename = [] := by
  constructor
  · intro h
    by_cases hdot : dot ∈ filename
    · exact .inl hdot
    · right
      rw [← getFileExtension_of_not_mem hdot]
      exact h.no_dot hdot
  · rintro (hdot | rfl)
    · refine ⟨?_, fun h => absurd hdot h, fun h => absurd hdot h, fun h => absurd hdot h⟩
      rintro front ext rfl hext
      exact getFileExtension_behind_dot hext
    · refine ⟨fun front ext h => absurd h (by simp), fun _ => rfl, fun _ => by decide, ?_⟩
      exact fun _ hcapital => absurd hcapital (by decide)

/-- README counts as a program, and is not opened with the editor. -/
theorem not_asDescribed_readme : ¬ ∀ filename : List ℤ, AsDescribed filename := by
  intro h
  have hreadme := (h (chars "README")).executable (by decide)
  exact absurd hreadme (by decide)

end NorthOS.FileNames
