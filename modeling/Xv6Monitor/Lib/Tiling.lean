import Mathlib.Data.List.Pairwise
import Mathlib.Data.List.Perm.Basic
import Mathlib.Order.Basic

/-! Blocks of a stretch of memory. A block is the address where it begins, and a function gives the sizes;
blocks tile the stretch when every unit of it lies in exactly one of them. -/

namespace Xv6Monitor.Lib.Tiling
open Function

variable {size : Nat → Nat} {l r : List Nat} {lo hi a b n : Nat}

def Apart (size : Nat → Nat) (a b : Nat) : Prop := a + size a ≤ b ∨ b + size b ≤ a

theorem Apart.symm (apart : Apart size a b) : Apart size b a := Or.symm apart

/-- The blocks do not overlap, and cover the units from `lo` to `hi`. -/
structure Tiles (size : Nat → Nat) (l : List Nat) (lo hi : Nat) : Prop where
  some : ∀ a ∈ l, 0 < size a
  apart : l.Pairwise (Apart size)
  cover : ∀ u, (∃ a ∈ l, a ≤ u ∧ u < a + size a) ↔ lo ≤ u ∧ u < hi

theorem tiles_nil (size : Nat → Nat) (lo : Nat) : Tiles size [] lo lo := by
  refine ⟨fun _ mem => absurd mem List.not_mem_nil, List.Pairwise.nil, fun u => ?_⟩
  simp only [List.not_mem_nil, false_and, exists_false, false_iff]
  omega

namespace Tiles

variable (tiles : Tiles size l lo hi)
include tiles

theorem perm (same : l.Perm r) : Tiles size r lo hi := by
  refine ⟨fun a mem => tiles.some a (same.mem_iff.mpr mem), (same.pairwise_iff Apart.symm).mp tiles.apart, fun u => ?_⟩
  rw [← tiles.cover]
  simp only [same.mem_iff]

theorem congr {size' : Nat → Nat} (same : ∀ a ∈ l, size' a = size a) : Tiles size' l lo hi := by
  refine ⟨fun a mem => ?_, tiles.apart.imp_of_mem fun memA memB apart => ?_, fun u => ?_⟩
  · rw [same a mem]
    exact tiles.some a mem
  · unfold Apart at apart ⊢
    rw [same _ memA, same _ memB]
    exact apart
  · rw [← tiles.cover]
    refine exists_congr fun a => and_congr_right fun mem => ?_
    rw [same a mem]

theorem first (mem : a ∈ l) : lo ≤ a :=
  ((tiles.cover a).mp ⟨a, mem, Nat.le_refl a, Nat.lt_add_of_pos_right (tiles.some a mem)⟩).1

theorem last (mem : a ∈ l) : a + size a ≤ hi := by
  have some := tiles.some a mem
  have inside := (tiles.cover (a + size a - 1)).mp ⟨a, mem, by omega, by omega⟩
  omega

theorem nodup : l.Nodup := by
  refine tiles.apart.imp_of_mem fun {a b} memA _ apart same => ?_
  have some := tiles.some a memA
  subst same
  rcases apart with apart | apart <;> omega

theorem extend (more : 0 < n) (order : lo ≤ hi) : Tiles (update size hi n) (hi :: l) lo (hi + n) := by
  have same : ∀ a ∈ l, update size hi n a = size a := by
    intro a mem
    have some := tiles.some a mem
    have last := tiles.last mem
    exact update_of_ne (by omega) ..
  have old := tiles.congr same
  refine ⟨List.forall_mem_cons.mpr ⟨?_, old.some⟩, List.pairwise_cons.mpr ⟨fun a mem => Or.inr (old.last mem), old.apart⟩,
    fun u => ?_⟩
  · rw [update_self]
    exact more
  · rw [List.exists_mem_cons_iff, old.cover, update_self]
    omega

omit tiles

theorem join (tiles : Tiles size (a :: b :: l) lo hi) (meet : a + size a = b) :
    Tiles (update size a (size a + size b)) (a :: l) lo hi := by
  obtain ⟨apartA, apart⟩ := List.pairwise_cons.mp tiles.apart
  obtain ⟨apartB, rest⟩ := List.pairwise_cons.mp apart
  obtain ⟨someA, some⟩ := List.forall_mem_cons.mp tiles.some
  obtain ⟨someB, someL⟩ := List.forall_mem_cons.mp some
  have same : ∀ c ∈ l, update size a (size a + size b) c = size c := by
    intro c mem
    refine update_of_ne ?_ ..
    rintro rfl
    rcases apartA c (List.mem_cons_of_mem _ mem) with wrong | wrong <;> omega
  refine ⟨List.forall_mem_cons.mpr ⟨?_, fun c mem => ?_⟩,
    List.pairwise_cons.mpr ⟨fun c mem => ?_, rest.imp_of_mem fun memC memD apart => ?_⟩, fun u => ?_⟩
  · rw [update_self]
    omega
  · rw [same c mem]
    exact someL c mem
  · have first := apartA c (List.mem_cons_of_mem _ mem)
    have second := apartB c mem
    have some := someL c mem
    unfold Apart at first second ⊢
    rw [update_self, same c mem]
    omega
  · unfold Apart at apart ⊢
    rw [same _ memC, same _ memD]
    exact apart
  · have others : (∃ c ∈ l, c ≤ u ∧ u < c + update size a (size a + size b) c) ↔ ∃ c ∈ l, c ≤ u ∧ u < c + size c :=
      exists_congr fun c => and_congr_right fun mem => by rw [same c mem]
    rw [← tiles.cover, List.exists_mem_cons_iff, List.exists_mem_cons_iff, List.exists_mem_cons_iff, update_self,
      others, ← or_assoc]
    refine or_congr_left ?_
    omega

theorem split (tiles : Tiles size (a :: l) lo hi) (part : 0 < n) (less : n < size a) :
    Tiles (update (update size a (size a - n)) (a + (size a - n)) n) (a :: (a + (size a - n)) :: l) lo hi := by
  obtain ⟨apartA, rest⟩ := List.pairwise_cons.mp tiles.apart
  obtain ⟨someA, someL⟩ := List.forall_mem_cons.mp tiles.some
  have same : ∀ c ∈ l, update (update size a (size a - n)) (a + (size a - n)) n c = size c := by
    intro c mem
    have apart := apartA c mem
    have some := someL c mem
    unfold Apart at apart
    rw [update_of_ne (by omega), update_of_ne (by omega)]
  have sizeA : update (update size a (size a - n)) (a + (size a - n)) n a = size a - n := by
    rw [update_of_ne (by omega), update_self]
  have sizeB : update (update size a (size a - n)) (a + (size a - n)) n (a + (size a - n)) = n :=
    update_self ..
  refine ⟨List.forall_mem_cons.mpr ⟨?_, List.forall_mem_cons.mpr ⟨?_, fun c mem => ?_⟩⟩,
    List.pairwise_cons.mpr ⟨List.forall_mem_cons.mpr ⟨?_, fun c mem => ?_⟩,
      List.pairwise_cons.mpr ⟨fun c mem => ?_, rest.imp_of_mem fun memC memD apart => ?_⟩⟩, fun u => ?_⟩
  · rw [sizeA]
    omega
  · rw [sizeB]
    exact part
  · rw [same c mem]
    exact someL c mem
  · left
    exact Nat.le_of_eq (congrArg _ sizeA)
  · have apart := apartA c mem
    unfold Apart at apart ⊢
    rw [same c mem]
    omega
  · have apart := apartA c mem
    unfold Apart at apart ⊢
    rw [same c mem]
    omega
  · unfold Apart at apart ⊢
    rw [same _ memC, same _ memD]
    exact apart
  have others : (∃ c ∈ l, c ≤ u ∧ u < c + update (update size a (size a - n)) (a + (size a - n)) n c) ↔
      ∃ c ∈ l, c ≤ u ∧ u < c + size c :=
    exists_congr fun c => and_congr_right fun mem => by rw [same c mem]
  rw [← tiles.cover, List.exists_mem_cons_iff, List.exists_mem_cons_iff, List.exists_mem_cons_iff, sizeA, sizeB, others,
    ← or_assoc]
  refine or_congr_left ?_
  clear others
  omega

end Tiles

end Xv6Monitor.Lib.Tiling
