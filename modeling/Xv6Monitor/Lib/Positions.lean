import Mathlib.Data.List.Basic

/-! How far a process that goes from position to position comes: up to the first position that fails. -/

namespace Xv6Monitor.Lib.Positions

variable {P Q : Nat → Prop} {len k n : Nat}

/-- Of `len` positions the first `k` pass, and that is all of them or the next one fails. -/
structure Reach (P : Nat → Prop) (len k : Nat) : Prop where
  le : k ≤ len
  passes : ∀ i < k, P i
  fails : k < len → ¬P k

theorem Reach.none (P : Nat → Prop) : Reach P 0 0 := ⟨Nat.le_refl 0, nofun, nofun⟩

theorem Reach.blocked (fails : ¬P 0) : Reach P len 0 := ⟨Nat.zero_le len, nofun, fun _ => fails⟩

theorem Reach.all_iff (reach : Reach P len k) : k = len ↔ ∀ i < len, P i := by
  constructor
  · rintro rfl
    exact reach.passes
  · intro all
    by_contra short
    have less : k < len := Nat.lt_of_le_of_ne reach.le short
    exact reach.fails less (all k less)

theorem passes_after (before : ∀ i < n, P i) (behind : ∀ i < k, P (n + i)) (i : Nat) (less : i < n + k) : P i := by
  by_cases early : i < n
  · exact before i early
  · have late := behind (i - n) (by omega)
    rwa [Nat.add_sub_cancel' (Nat.le_of_not_lt early)] at late

theorem Reach.after (le : n ≤ len) (passes : ∀ i < n, P i) (reach : Reach (fun i => P (n + i)) (len - n) k) :
    Reach P len (n + k) := by
  have bound := reach.le
  exact ⟨by omega, passes_after passes reach.passes, fun short => reach.fails (by omega)⟩

theorem Reach.widen (reach : Reach P n k) (short : k < n) (le : n ≤ len) : Reach P len k :=
  ⟨by omega, reach.passes, fun _ => reach.fails short⟩

theorem Reach.congr (reach : Reach P len k) (same : ∀ i < len, P i ↔ Q i) : Reach Q len k := by
  have le := reach.le
  refine ⟨reach.le, fun i less => (same i (by omega)).mp (reach.passes i less), fun short => ?_⟩
  rw [← same k short]
  exact reach.fails short

theorem reach_takeWhile (p : Nat → Bool) (len : Nat) :
    Reach (fun i => p i = true) len ((List.range len).takeWhile p).length := by
  induction len generalizing p with
  | zero => exact Reach.none _
  | succ len ih =>
    rw [List.range_succ_eq_map, List.takeWhile_cons]
    by_cases first : p 0 = true
    · rw [if_pos first, List.length_cons, List.takeWhile_map, List.length_map, Nat.add_comm (List.length _)]
      refine Reach.after (Nat.le_add_left 1 len) (fun i less => ?_) ?_
      · rw [Nat.lt_one_iff.mp less]
        exact first
      · refine (ih (p ∘ Nat.succ)).congr fun i _ => ?_
        rw [Nat.add_comm 1 i]
        rfl
    · rw [if_neg first]
      exact Reach.blocked first

end Xv6Monitor.Lib.Positions
