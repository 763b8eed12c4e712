import Mathlib.Data.BitVec
import Mathlib.Data.List.Range
import Mathlib.Tactic.Abel

/-! Ring buffers with free-running counters. A counter of `w` bits is reduced to an index of the buffer's
`N` cells only where it is used, and it wraps around at `2 ^ w`; the buffer's cells follow the counter
through the wrap because `N` divides `2 ^ w`. -/

namespace Xv6Monitor.Lib.Ring
open Function

variable {α : Type} {w N : Nat}

def slot (N : Nat) (a : BitVec w) : Nat := a.toNat % N

def run (N : Nat) (cell : Nat → α) (a : BitVec w) (n : Nat) : List α :=
  (List.range n).map fun j => cell (slot N (a + BitVec.ofNat w j))

def between (N : Nat) (cell : Nat → α) (a b : BitVec w) : List α := run N cell a (b - a).toNat

theorem slot_add (dvd : N ∣ 2 ^ w) (a : BitVec w) (j : Nat) : slot N (a + BitVec.ofNat w j) = (a.toNat + j) % N := by
  rw [slot, BitVec.toNat_add, BitVec.toNat_ofNat, Nat.add_mod_mod, Nat.mod_mod_of_dvd _ dvd]

theorem slot_ne (dvd : N ∣ 2 ^ w) (a : BitVec w) {i j : Nat} (less : i < j) (near : j < N) :
    slot N (a + BitVec.ofNat w i) ≠ slot N (a + BitVec.ofNat w j) := by
  rw [slot_add dvd, slot_add dvd]
  intro same
  have congruent : i ≡ j [MOD N] := Nat.ModEq.add_left_cancel' a.toNat same
  rw [Nat.ModEq, Nat.mod_eq_of_lt near, Nat.mod_eq_of_lt (less.trans near)] at congruent
  omega

theorem run_length (cell : Nat → α) (a : BitVec w) (n : Nat) : (run N cell a n).length = n := by
  rw [run, List.length_map, List.length_range]

theorem run_add (cell : Nat → α) (a : BitVec w) (m n : Nat) :
    run N cell a (m + n) = run N cell a m ++ run N cell (a + BitVec.ofNat w m) n := by
  unfold run
  rw [List.range_add, List.map_append, List.map_map]
  refine congrArg _ (List.map_congr_left fun j _ => ?_)
  rw [Function.comp_apply, BitVec.ofNat_add, BitVec.add_assoc]

theorem run_one (cell : Nat → α) (a : BitVec w) : run N cell a 1 = [cell (slot N a)] := by
  simp [run]

theorem run_update (dvd : N ∣ 2 ^ w) (cell : Nat → α) (a : BitVec w) {m n : Nat} (beyond : m ≤ n) (room : n < N) (x : α) :
    run N (update cell (slot N (a + BitVec.ofNat w n)) x) a m = run N cell a m := by
  refine List.map_congr_left fun j mem => ?_
  rw [update_of_ne (slot_ne dvd a (lt_of_lt_of_le (List.mem_range.mp mem) beyond) room)]

section Between

variable {cell : Nat → α} {a b c : BitVec w}

theorem offset (a b : BitVec w) : a + BitVec.ofNat w (b - a).toNat = b := by
  rw [BitVec.ofNat_toNat, BitVec.setWidth_eq]
  exact add_sub_cancel a b

theorem between_self (cell : Nat → α) (a : BitVec w) : between N cell a a = [] := by
  rw [between, BitVec.sub_self]
  rfl

theorem between_length (cell : Nat → α) (a b : BitVec w) : (between N cell a b).length = (b - a).toNat := run_length ..

theorem distance_add (inOrder : (b - a).toNat ≤ (c - a).toNat) :
    (c - a).toNat = (b - a).toNat + (c - b).toNat := by
  have sum : c - a = (b - a) + (c - b) := by abel
  have whole : (c - a).toNat = ((b - a).toNat + (c - b).toNat) % 2 ^ w := by rw [sum, BitVec.toNat_add]
  by_cases wraps : (b - a).toNat + (c - b).toNat < 2 ^ w
  · rw [whole, Nat.mod_eq_of_lt wraps]
  · -- The distance would be less than that of the first part.
    rw [Nat.mod_eq_sub_mod (not_lt.mp wraps), Nat.mod_eq_of_lt (by omega)] at whole
    omega

theorem between_append (inOrder : (b - a).toNat ≤ (c - a).toNat) :
    between N cell a c = between N cell a b ++ between N cell b c := by
  unfold between
  rw [distance_add inOrder, run_add, offset]

theorem toNat_one (wide : 1 < 2 ^ w) : (1 : BitVec w).toNat = 1 := by
  show (BitVec.ofNat w 1).toNat = 1
  rw [BitVec.toNat_ofNat, Nat.mod_eq_of_lt wide]

theorem distance_succ (room : (b - a).toNat + 1 < 2 ^ w) : (b + 1 - a).toNat = (b - a).toNat + 1 := by
  have sum : b + 1 - a = (b - a) + 1 := by abel
  have one := toNat_one (w := w) (by omega)
  rw [sum, BitVec.toNat_add, one, Nat.mod_eq_of_lt room]

theorem distance_pred (apart : a ≠ b) : (b - (a + 1)).toNat + 1 = (b - a).toNat := by
  have sum : b - (a + 1) = (b - a) - 1 := by abel
  have some : (b - a).toNat ≠ 0 := fun zero => apart (sub_eq_zero.mp (BitVec.eq_of_toNat_eq zero)).symm
  have one := toNat_one (w := w) (by omega)
  rw [sum, BitVec.toNat_sub_of_le (by rw [BitVec.le_def, one]; omega), one]
  omega

theorem distance_back (apart : a ≠ b) : (b - 1 - a).toNat + 1 = (b - a).toNat := by
  have same : b - 1 - a = b - (a + 1) := by abel
  rw [same, distance_pred apart]

theorem between_update (dvd : N ∣ 2 ^ w) (beyond : (b - a).toNat ≤ (c - a).toNat) (room : (c - a).toNat < N) (x : α) :
    between N (update cell (slot N c) x) a b = between N cell a b := by
  have same := run_update dvd cell a beyond room x
  rw [offset] at same
  exact same

theorem between_succ (room : (b - a).toNat + 1 < 2 ^ w) :
    between N cell a (b + 1) = between N cell a b ++ [cell (slot N b)] := by
  rw [between, distance_succ room, run_add, offset, run_one, between]

theorem between_push (dvd : N ∣ 2 ^ w) (small : N < 2 ^ w) (room : (b - a).toNat < N) (x : α) :
    between N (update cell (slot N b) x) a (b + 1) = between N cell a b ++ [x] := by
  rw [between_succ (by omega), between_update dvd (le_refl _) room x, update_self]

theorem between_pop (apart : a ≠ b) : between N cell a b = cell (slot N a) :: between N cell (a + 1) b := by
  rw [between, ← distance_pred apart, Nat.add_comm, run_add, run_one]
  rfl

theorem between_back (apart : a ≠ b) : between N cell a b = between N cell a (b - 1) ++ [cell (slot N (b - 1))] := by
  rw [between, ← distance_back apart, run_add, offset, run_one, between]

theorem distance_zero : (b - a).toNat = 0 ↔ a = b := by
  constructor
  · exact fun zero => (sub_eq_zero.mp (BitVec.eq_of_toNat_eq zero)).symm
  · rintro rfl
    rw [BitVec.sub_self]
    rfl

end Between

end Xv6Monitor.Lib.Ring
