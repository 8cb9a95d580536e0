import NorthOS.Directory

/-!
The elements of a path. skipelem cuts one element after the other from the front of a path;
together they are the pieces between its slashes, as far as these are not empty.
-/
namespace NorthOS.Fs

/-- The pieces of a path between slashes that are not empty, each cut to the length of a name. -/
def components (path : Name) : List Name :=
  ((path.splitOn slash).filter (· ≠ [])).map (·.take DIRSIZ)

variable {path rest elem : Name}

theorem components_slash (path : Name) : components (slash :: path) = components path := by
  unfold components
  rw [List.splitOn_cons_eq_if_modifyHead, if_pos (by decide), List.filter_cons_of_neg (by simp)]

/-- Slashes in front count for nothing. -/
theorem components_dropWhile (path : Name) :
    components (path.dropWhile (· == slash)) = components path := by
  induction path with
  | nil => rfl
  | cons c path ih =>
    by_cases hc : c = slash
    · rw [hc, List.dropWhile_cons_of_pos (by decide), ih, components_slash]
    · rw [List.dropWhile_cons_of_neg (by simpa using hc)]

theorem slash_notMem_takeWhile (path : Name) : slash ∉ path.takeWhile (· ≠ slash) := by
  intro h
  have hall : (path.takeWhile (· ≠ slash)).all (· ≠ slash) = true := List.all_takeWhile
  have hne := List.all_eq_true.mp hall slash h
  simp at hne

theorem components_append (hne : elem ≠ []) (hslash : slash ∉ elem) (rest : Name) :
    components (elem ++ slash :: rest) = elem.take DIRSIZ :: components rest := by
  unfold components
  rw [List.splitOn_append_cons_self_of_not_mem hslash, List.filter_cons_of_pos (by simpa using hne),
    List.map_cons]

theorem components_single (hne : elem ≠ []) (hslash : slash ∉ elem) :
    components elem = [elem.take DIRSIZ] := by
  unfold components
  rw [List.splitOn_eq_singleton hslash, List.filter_cons_of_pos (by simpa using hne)]
  rfl

theorem components_nil : components [] = [] := by
  decide

/-- Up to the next slash there is one element. -/
theorem components_first (hne : path ≠ []) (hhead : path.head? ≠ some slash) :
    components path = (path.takeWhile (· ≠ slash)).take DIRSIZ ::
      components (path.dropWhile (· ≠ slash)) := by
  have hsplit := List.takeWhile_append_dropWhile (p := (· ≠ slash)) (l := path)
  have hslash := slash_notMem_takeWhile path
  have htake : path.takeWhile (· ≠ slash) ≠ [] := by
    cases path with
    | nil => exact absurd rfl hne
    | cons c path =>
      have hc : c ≠ slash := fun h => hhead (congrArg some h)
      rw [List.takeWhile_cons_of_pos (by simpa using hc)]
      exact List.cons_ne_nil _ _
  cases hdrop : path.dropWhile (· ≠ slash) with
  | nil =>
    rw [hdrop, List.append_nil] at hsplit
    rw [components_nil]
    conv_lhs => rw [← hsplit]
    exact components_single htake hslash
  | cons c rest =>
    have hc : c = slash := by
      have hstop := List.head_dropWhile_not (p := (· ≠ slash)) (l := path) (by rw [hdrop]; simp)
      simp only [hdrop, List.head_cons] at hstop
      simpa using hstop
    rw [hdrop, hc] at hsplit
    rw [hc, components_slash]
    conv_lhs => rw [← hsplit]
    exact components_append htake hslash rest

theorem head_dropWhile_slash (path : Name) : (path.dropWhile (· == slash)).head? ≠ some slash := by
  intro h
  have hne : path.dropWhile (· == slash) ≠ [] := by
    intro hnil
    rw [hnil] at h
    cases h
  have hstop := List.head_dropWhile_not (p := (· == slash)) (l := path) hne
  rw [List.head?_eq_some_head hne] at h
  rw [Option.some.inj h] at hstop
  cases hstop

/-- skipelem cuts off the first element, and only when there is none it fails. -/
theorem components_skipelem (path : Name) :
    components path = match skipelem path with
      | none => []
      | some (elem, rest) => elem :: components rest := by
  rw [← components_dropWhile]
  unfold skipelem
  dsimp only
  by_cases hne : path.dropWhile (· == slash) = []
  · rw [if_pos hne, hne]
    exact components_nil
  · rw [if_neg hne, components_first hne (head_dropWhile_slash path)]
    exact congrArg _ (components_dropWhile _).symm

theorem skipelem_lt (h : skipelem path = some (elem, rest)) :
    rest.length < path.length := by
  unfold skipelem at h
  dsimp only at h
  split at h
  · cases h
  · rename_i hne
    obtain ⟨_, rfl⟩ := Prod.mk.inj (Option.some.inj h)
    -- the element has a first byte
    have hfirst : ((path.dropWhile (· == slash)).dropWhile (· ≠ slash)).length <
        (path.dropWhile (· == slash)).length := by
      cases hpath : path.dropWhile (· == slash) with
      | nil => exact absurd hpath hne
      | cons c rest =>
        have hc : (c == slash) = false := by
          have hhead := List.head_dropWhile_not (p := (· == slash)) (l := path) hne
          simp only [hpath, List.head_cons] at hhead
          exact hhead
        have hc' : c ≠ slash := by simpa using hc
        rw [List.dropWhile_cons_of_pos (by simpa using hc'), List.length_cons]
        exact Nat.lt_succ_of_le (List.dropWhile_sublist _).length_le
    calc _ ≤ ((path.dropWhile (· == slash)).dropWhile (· ≠ slash)).length :=
          (List.dropWhile_sublist _).length_le
      _ < (path.dropWhile (· == slash)).length := hfirst
      _ ≤ path.length := (List.dropWhile_sublist _).length_le

/-- Behind the last element nothing is left of a path, slashes neither. -/
theorem skipelem_rest (h : skipelem path = some (elem, rest)) :
    components rest = [] ↔ rest = [] := by
  constructor
  · intro hnil
    by_contra hne
    have hhead : rest.head? ≠ some slash := by
      unfold skipelem at h
      dsimp only at h
      split at h
      · cases h
      · obtain ⟨_, rfl⟩ := Prod.mk.inj (Option.some.inj h)
        exact head_dropWhile_slash _
    rw [components_first hne hhead] at hnil
    cases hnil
  · rintro rfl
    exact components_nil

end NorthOS.Fs
