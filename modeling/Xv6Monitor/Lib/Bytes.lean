import Mathlib.Algebra.Group.Int.Defs
import Mathlib.Algebra.GroupWithZero.Nat
import Mathlib.Data.Nat.Basic

/-! Little-endian fields of a byte buffer. -/

namespace Xv6Monitor.Lib.Bytes

abbrev Data : Type := Nat → UInt8

def load : (n : Nat) → Data → (o : Nat) → Nat
  | 0, _, _ => 0
  | n + 1, b, o => (b o).toNat + 256 * load n b (o + 1)

def store (n : Nat) (b : Data) (o v : Nat) : Data := fun i =>
  if o ≤ i ∧ i < o + n then UInt8.ofNat (v / 256 ^ (i - o)) else b i

/-- The buffer with `n` bytes of `src` from offset `o` on. -/
def splice (b : Data) (o n : Nat) (src : Data) : Data := fun i =>
  if o ≤ i ∧ i < o + n then src (i - o) else b i

/-- The `int` in the last 32 bits of a number. -/
def toInt (n : Nat) : Int := (BitVec.ofNat 32 n).toInt

theorem toInt_eq (n : Nat) : toInt n = if n % 2 ^ 32 < 2 ^ 31 then (n % 2 ^ 32 : Int) else n % 2 ^ 32 - 2 ^ 32 := by
  rw [toInt, BitVec.toInt_eq_toNat_cond, BitVec.toNat_ofNat]
  split <;> split <;> omega

theorem toInt_range (n : Nat) : -2 ^ 31 ≤ toInt n ∧ toInt n < 2 ^ 31 := by
  rw [toInt_eq]
  split <;> omega

theorem load_congr {n o : Nat} {b c : Data} (same : ∀ i, o ≤ i → i < o + n → b i = c i) :
    load n b o = load n c o := by
  induction n generalizing o with
  | zero => rfl
  | succ n ih =>
    have head := same o (Nat.le_refl o) (by omega)
    have tail := ih (o := o + 1) fun i low high => same i (by omega) (by omega)
    rw [load, load, head, tail]

theorem load_lt (n : Nat) (b : Data) (o : Nat) : load n b o < 256 ^ n := by
  induction n generalizing o with
  | zero => simp [load]
  | succ n ih =>
    have head : (b o).toNat < 256 := (b o).toNat_lt
    have tail := ih (o + 1)
    rw [load]
    omega

theorem load_digits {n o v : Nat} {b : Data} (digits : ∀ k < n, b (o + k) = UInt8.ofNat (v / 256 ^ k)) :
    load n b o = v % 256 ^ n := by
  induction n generalizing o v with
  | zero => simp [load, Nat.mod_one]
  | succ n ih =>
    have head : b o = UInt8.ofNat v := by simpa using digits 0 (Nat.succ_pos n)
    have tail : load n b (o + 1) = v / 256 % 256 ^ n := by
      refine ih fun k below => ?_
      have digit := digits (k + 1) (by omega)
      rw [show o + 1 + k = o + (k + 1) by omega, digit, Nat.div_div_eq_div_mul, Nat.pow_succ, Nat.mul_comm]
    have byte : (UInt8.ofNat v).toNat = v % 256 := by simp
    rw [load, head, tail, byte, Nat.pow_succ, Nat.mul_comm (256 ^ n) 256, Nat.mod_mul]

theorem load_store (n : Nat) (b : Data) (o v : Nat) : load n (store n b o v) o = v % 256 ^ n := by
  refine load_digits fun k below => ?_
  rw [store, if_pos (by omega), Nat.add_sub_cancel_left]

theorem load_store_other {n m o p v : Nat} {b : Data} (apart : o + n ≤ p ∨ p + m ≤ o) :
    load m (store n b o v) p = load m b p :=
  load_congr fun i low high => if_neg (by omega)

theorem load_splice_other {n m o p : Nat} {b src : Data} (apart : o + n ≤ p ∨ p + m ≤ o) :
    load m (splice b o n src) p = load m b p :=
  load_congr fun i low high => if_neg (by omega)

def load16 (b : Data) (o : Nat) : UInt16 := UInt16.ofNat (load 2 b o)

def load32 (b : Data) (o : Nat) : UInt32 := UInt32.ofNat (load 4 b o)

def store32 (b : Data) (o : Nat) (v : UInt32) : Data := store 4 b o v.toNat

@[simp] theorem load32_store32 (b : Data) (o : Nat) (v : UInt32) : load32 (store32 b o v) o = v := by
  have bound : v.toNat < 256 ^ 4 := v.toNat_lt
  rw [load32, store32, load_store, Nat.mod_eq_of_lt bound, UInt32.ofNat_toNat]

def slice (b : Data) (o : Nat) : (n : Nat) → List UInt8
  | 0 => []
  | n + 1 => b o :: slice b (o + 1) n

theorem slice_eq {b : Data} {o : Nat} {l : List UInt8} (same : ∀ i (inside : i < l.length), b (o + i) = l[i]) :
    slice b o l.length = l := by
  induction l generalizing o with
  | nil => rfl
  | cons _ l ih =>
    have head := same 0 (Nat.succ_pos _)
    have tail := ih (o := o + 1) fun i inside => by
      have next := same (i + 1) (Nat.succ_lt_succ inside)
      rwa [Nat.add_right_comm]
    rw [List.length_cons, slice, tail]
    exact congrArg (· :: l) head

end Xv6Monitor.Lib.Bytes
