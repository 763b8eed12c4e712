import Xv6Monitor.Memory.Tables

/-! The words of page tables: a page number above ten bits of flags. -/

namespace Xv6Monitor.Memory.Words
open Process.Table Frames Tables

def word (pa flags : Nat) : Nat := PA2PTE pa ||| flags ||| PTE_V

theorem word_eq {pa flags : Nat} (bound : flags < 1024) : word pa flags = 1024 * (pa / 4096) + (flags ||| 1) := by
  have low : flags ||| 1 < 2 ^ 10 := Nat.or_lt_two_pow bound (by decide)
  rw [word, PA2PTE, PTE_V, Nat.or_assoc, Nat.shiftLeft_eq, Nat.shiftRight_eq_div_pow, Nat.mul_comm,
    ← Nat.two_pow_add_eq_or_of_lt low]

theorem and_low {w mask : Nat} (bound : mask < 1024) : w &&& mask = w % 1024 &&& mask := by
  have all : mask &&& 1023 = mask := by
    rw [show (1023 : Nat) = 2 ^ 10 - 1 from rfl, Nat.and_two_pow_sub_one_eq_mod]
    exact Nat.mod_eq_of_lt bound
  conv_lhs => rw [← all, Nat.and_comm mask, ← Nat.and_assoc]
  rw [show (1023 : Nat) = 2 ^ 10 - 1 from rfl, Nat.and_two_pow_sub_one_eq_mod]

theorem word_and {pa flags mask : Nat} (bound : flags < 1024) (low : mask < 1024) :
    word pa flags &&& mask = (flags ||| 1) &&& mask := by
  have small : flags ||| 1 < 1024 := Nat.or_lt_two_pow (n := 10) bound (by decide)
  rw [and_low low, word_eq bound, Nat.mul_add_mod, Nat.mod_eq_of_lt small]

theorem word_valid {pa flags : Nat} (bound : flags < 1024) : Valid (word pa flags) := by
  rw [Valid, PTE_V, word_and bound (by decide), Nat.and_one_is_mod]
  intro clear
  have odd : (flags ||| 1).testBit 0 = true := by simp
  rw [Nat.testBit_zero, clear] at odd
  simp at odd

theorem PTE2PA_word {pa flags : Nat} (aligned : pa % PGSIZE = 0) (low : pa < 2 ^ 64) (bound : flags < 1024) :
    PTE2PA (word pa flags) = pa := by
  have small : flags ||| 1 < 1024 := Nat.or_lt_two_pow (n := 10) bound (by decide)
  rw [PTE2PA, uint64, word_eq bound]
  simp only [PGSIZE] at aligned
  omega

theorem word_lt {pa flags : Nat} (low : pa < 2 ^ 64) (bound : flags < 1024) : word pa flags < 256 ^ 8 := by
  have small : flags ||| 1 < 1024 := Nat.or_lt_two_pow (n := 10) bound (by decide)
  rw [word_eq bound]
  omega

theorem PTE_FLAGS_eq (w : Nat) : PTE_FLAGS w = w % 1024 := Nat.and_two_pow_sub_one_eq_mod w 10

theorem PTE_FLAGS_lt (w : Nat) : PTE_FLAGS w < 1024 := by
  rw [PTE_FLAGS_eq]
  exact Nat.mod_lt _ (by decide)

theorem PTE_FLAGS_and {w mask : Nat} (low : mask < 1024) : PTE_FLAGS w &&& mask = w &&& mask := by
  rw [PTE_FLAGS_eq, ← and_low low]

theorem not_valid_zero : ¬Valid 0 := by decide

/-- A page of the user's memory, or one of the two pages above it: valid and readable. -/
structure Leaf (w : Nat) : Prop where
  valid : Valid w
  readable : w &&& PTE_R ≠ 0

theorem leaf_word {pa flags : Nat} (bound : flags < 1024) (readable : flags &&& PTE_R ≠ 0) : Leaf (word pa flags) := by
  refine ⟨word_valid bound, ?_⟩
  rw [word_and bound (by decide), Nat.and_or_distrib_right]
  intro clear
  exact readable (Nat.or_eq_zero_iff.mp clear).1

structure UserLeaf (w : Nat) : Prop extends Leaf w where
  user : w &&& PTE_U ≠ 0

theorem userLeaf_word {pa xperm : Nat} (bound : xperm < 1024) : UserLeaf (word pa (PTE_R ||| PTE_U ||| xperm)) := by
  have perm : PTE_R ||| PTE_U ||| xperm < 1024 := Nat.or_lt_two_pow (n := 10) (by decide) bound
  have has : ∀ flag, (PTE_R ||| PTE_U) &&& flag ≠ 0 → (PTE_R ||| PTE_U ||| xperm) &&& flag ≠ 0 := by
    intro flag set clear
    rw [Nat.and_or_distrib_right] at clear
    exact set (Nat.or_eq_zero_iff.mp clear).1
  refine ⟨leaf_word perm (has PTE_R (by decide)), ?_⟩
  rw [word_and perm (by decide), Nat.and_or_distrib_right]
  intro clear
  exact has PTE_U (by decide) (Nat.or_eq_zero_iff.mp clear).1

theorem Leaf.flags {w : Nat} (leaf : Leaf w) : PTE_FLAGS w ≠ PTE_V := by
  intro only
  apply leaf.readable
  rw [← PTE_FLAGS_and (by decide), only]
  rfl

theorem Leaf.copied {w pa : Nat} (leaf : Leaf w) : Leaf (word pa (PTE_FLAGS w)) := by
  refine leaf_word (PTE_FLAGS_lt w) ?_
  rw [PTE_FLAGS_and (by decide)]
  exact leaf.readable

end Xv6Monitor.Memory.Words
