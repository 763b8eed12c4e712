import Xv6Monitor.FileSystem.Format
import Mathlib.Data.List.TakeWhile

/-! The components of a path, and how `skipelem` takes them off one after the other. -/

namespace Xv6Monitor.FileSystem.Components
open Format

/-- The parts of a path between its slashes that are not empty, each as far as a directory entry has room for it. -/
def components (path : Path) : List Name := ((path.splitOnP (· == slash)).filter (· ≠ [])).map (List.take DIRSIZ)

theorem components_slash (path : Path) : components (slash :: path) = components path := by
  rfl

theorem components_dropWhile (path : Path) : components (path.dropWhile (· = slash)) = components path := by
  induction path with
  | nil => rfl
  | cons c path ih =>
    by_cases same : c = slash
    · subst same
      rw [List.dropWhile_cons_of_pos (by simp), ih, components_slash]
    · rw [List.dropWhile_cons_of_neg (by simpa using same)]

theorem components_part {part : Path} (some : part ≠ []) (clean : ∀ c ∈ part, (c == slash) = false) (rest : Path) :
    components (part ++ slash :: rest) = part.take DIRSIZ :: components rest := by
  rw [components, List.splitOnP_append_cons_of_forall_mem clean slash rfl, List.filter_cons_of_pos (by simpa using some)]
  rfl

theorem components_last {part : Path} (some : part ≠ []) (clean : ∀ c ∈ part, (c == slash) = false) :
    components part = [part.take DIRSIZ] := by
  rw [components, List.splitOnP_eq_singleton clean, List.filter_cons_of_pos (by simpa using some)]
  rfl

theorem components_head {c : UInt8} (other : c ≠ slash) (path : Path) :
    components (c :: path) = ((c :: path).takeWhile (· ≠ slash)).take DIRSIZ ::
      components ((c :: path).dropWhile (· ≠ slash)) := by
  have some : (c :: path).takeWhile (· ≠ slash) ≠ [] := by
    rw [List.takeWhile_cons_of_pos (by simpa using other)]
    exact List.cons_ne_nil c _
  have clean : ∀ d ∈ (c :: path).takeWhile (· ≠ slash), (d == slash) = false := by
    intro d mem
    have holds := List.mem_takeWhile_imp mem
    simpa using holds
  have whole : (c :: path).takeWhile (· ≠ slash) ++ (c :: path).dropWhile (· ≠ slash) = c :: path := List.takeWhile_append_dropWhile
  cases behind : (c :: path).dropWhile (· ≠ slash) with
  | nil =>
    rw [behind, List.append_nil] at whole
    calc
      components (c :: path) = components ((c :: path).takeWhile (· ≠ slash)) := by rw [whole]
      _ = [((c :: path).takeWhile (· ≠ slash)).take DIRSIZ] := components_last some clean
  | cons d rest =>
    have separator : d = slash := by
      have fails := List.head?_dropWhile_not (fun c : UInt8 => decide (c ≠ slash)) (c :: path)
      rw [behind] at fails
      simpa using fails
    subst separator
    rw [behind] at whole
    calc
      components (c :: path) = components ((c :: path).takeWhile (· ≠ slash) ++ slash :: rest) := by rw [whole]
      _ = ((c :: path).takeWhile (· ≠ slash)).take DIRSIZ :: components rest := components_part some clean rest
      _ = _ := by rw [components_slash]

/-- One call of `skipelem`: it returns nothing exactly if there is no component, and otherwise the first one with a rest
that is empty exactly if this was the last. -/
theorem skipelem_spec (path : Path) :
    (skipelem path = none ↔ components path = []) ∧
      ∀ rest name, skipelem path = some (rest, name) →
        components path = name :: components rest ∧ (rest = [] ↔ components rest = []) ∧ rest.length < path.length := by
  have same := components_dropWhile path
  have shorter : (path.dropWhile (· = slash)).length ≤ path.length := (List.dropWhile_suffix _).length_le
  unfold skipelem
  rcases start : path.dropWhile (· = slash) with _ | ⟨c, tail⟩
  · rw [start] at same
    exact ⟨iff_of_true rfl same.symm, nofun⟩
  have other : c ≠ slash := by
    have fails := List.head?_dropWhile_not (fun c : UInt8 => decide (c = slash)) path
    rw [start] at fails
    simpa using fails
  have first := components_head other tail
  rw [start, first] at same
  refine ⟨iff_of_false nofun fun none => (nomatch same.trans none), fun rest name skipped => ?_⟩
  obtain ⟨rfl, rfl⟩ := Prod.mk.inj (Option.some.inj skipped)
  refine ⟨?_, ?_, ?_⟩
  · rw [← same, components_dropWhile]
  · constructor
    · intro none
      rw [none]
      rfl
    intro none
    rcases rest : ((c :: tail).dropWhile (· ≠ slash)).dropWhile (· = slash) with _ | ⟨d, more⟩
    · rfl
    have different : d ≠ slash := by
      have fails := List.head?_dropWhile_not (fun c : UInt8 => decide (c = slash)) ((c :: tail).dropWhile (· ≠ slash))
      rw [rest] at fails
      simpa using fails
    rw [rest, components_head different more] at none
    exact nomatch none
  · have least : ((c :: tail).dropWhile (· ≠ slash)).length ≤ tail.length := by
      rw [List.dropWhile_cons_of_pos (by simpa using other)]
      exact (List.dropWhile_suffix _).length_le
    have less : (((c :: tail).dropWhile (· ≠ slash)).dropWhile (· = slash)).length ≤ ((c :: tail).dropWhile (· ≠ slash)).length :=
      (List.dropWhile_suffix _).length_le
    rw [start, List.length_cons] at shorter
    omega

theorem elements_eq {calls : Nat} {path : Path} (enough : path.length ≤ calls) : elements calls path = components path := by
  induction calls generalizing path with
  | zero =>
    obtain rfl : path = [] := List.length_eq_zero_iff.mp (Nat.le_zero.mp enough)
    rfl
  | succ calls ih =>
    obtain ⟨none_iff, each⟩ := skipelem_spec path
    unfold elements
    cases skipped : skipelem path with
    | none => exact (none_iff.mp skipped).symm
    | some result =>
      obtain ⟨rest, name⟩ := result
      obtain ⟨first, -, shorter⟩ := each rest name skipped
      rw [first]
      exact congrArg (name :: ·) (ih (by omega))

theorem path_elements (path : Path) : path.elements = components path := elements_eq (Nat.le_refl _)

theorem skipelem_mem {path rest : Path} {name : Name} (skipped : skipelem path = some (rest, name)) {c : UInt8}
    (mem : c ∈ rest ∨ c ∈ name) : c ∈ path := by
  unfold skipelem at skipped
  split at skipped
  · exact nomatch skipped
  cases skipped
  have inside : ∀ c ∈ path.dropWhile (· = slash), c ∈ path := fun c mem => (List.dropWhile_sublist _).mem mem
  rcases mem with behind | part
  · exact inside c ((List.dropWhile_sublist _).mem ((List.dropWhile_sublist _).mem behind))
  · exact inside c ((List.takeWhile_sublist _).mem (List.mem_of_mem_take part))

theorem mem_of_component {path : Path} {name : Name} {c : UInt8} (mem : name ∈ components path) (char : c ∈ name) : c ∈ path := by
  rw [← path_elements, Path.elements] at mem
  generalize path.length = calls at mem
  induction calls generalizing path with
  | zero => exact nomatch mem
  | succ calls ih =>
    unfold elements at mem
    split at mem
    · exact nomatch mem
    next skipped =>
      rcases List.mem_cons.mp mem with rfl | later
      · exact skipelem_mem skipped (.inr char)
      · exact skipelem_mem skipped (.inl (ih later))

end Xv6Monitor.FileSystem.Components
