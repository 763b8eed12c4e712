import Xv6Monitor.Util.Strings

/-! `user/add.c`, with `atoi` of `user/ulib.c`. -/

namespace Xv6Monitor.Util.Add
open Strings

def isSign (c : UInt8) : Bool := c = 45 ∨ c = 43

def isDigit (c : UInt8) : Bool := 48 ≤ c ∧ c ≤ 57

def unsigned (s : Str) : Str := if s.head?.any isSign then s.tail else s

def isnumber (s : Str) : Bool := unsigned s ≠ [] ∧ (unsigned s).all isDigit

def atoiFrom (n : Int32) : Str → Int32
  | [] => n
  | c :: s => if isDigit c then atoiFrom (n * 10 + .ofNat c.toNat - 48) s else n

def atoi (s : Str) : Int32 := atoiFrom 0 s

inductive Message where
  | usage
  | help
  | invalid
  /-- `%d + %d = %d` -/
  | sum (num1 num2 result : Int32)
  deriving DecidableEq

def add : List Str → Message
  | [a, b] =>
    if a.head? = some 63 then .help
    else if ¬isnumber a ∨ ¬isnumber b then .invalid
    else .sum (atoi a) (atoi b) (atoi a + atoi b)
  | _ => .usage

/-! ### The numbers that the arguments stand for -/

def magnitude (s : Str) : Nat := (unsigned s).foldl (fun n c => n * 10 + (c.toNat - 48)) 0

def value (s : Str) : Int := if s.head? = some 45 then -magnitude s else magnitude s

/-- What is lost: `atoi` stops at a sign. -/
def ignored (s : Str) : Int := if s.head?.any isSign then value s else 0

variable {s : Str}

theorem atoiFrom_digits (n : Nat) (digits : s.all isDigit) :
    atoiFrom (.ofNat n) s = Int32.ofNat (s.foldl (fun n c => n * 10 + (c.toNat - 48)) n) := by
  induction s generalizing n with
  | nil => rfl
  | cons c s ih =>
    rw [List.all_cons, Bool.and_eq_true] at digits
    have low : 48 ≤ c.toNat := by
      have digit := digits.1
      simp only [isDigit, decide_eq_true_eq] at digit
      exact digit.1
    have next : Int32.ofNat n * 10 + .ofNat c.toNat - 48 = .ofNat (n * 10 + (c.toNat - 48)) := by
      rw [← Nat.sub_add_cancel low, Nat.add_sub_cancel, Int32.ofNat_add, Int32.ofNat_add, Int32.ofNat_mul, ← Int32.add_assoc]
      exact Int32.add_sub_cancel _ _
    rw [atoiFrom, if_pos digits.1, next, List.foldl_cons]
    exact ih _ digits.2

/-- `atoi` gives the number without the part that is lost. -/
theorem atoi_eq (number : isnumber s) : ∃ n : Nat, atoi s = .ofNat n ∧ (n : Int) = value s - ignored s := by
  simp only [isnumber, decide_eq_true_eq] at number
  rw [atoi, ignored]
  by_cases signed : s.head?.any isSign
  · refine ⟨0, ?_, by rw [if_pos signed, Int.sub_self]; rfl⟩
    cases s with
    | nil => rfl
    | cons c s =>
      have sign : isSign c = true := signed
      rw [atoiFrom, if_neg]
      · rfl
      · rcases (of_decide_eq_true sign) with rfl | rfl <;> decide
  · have whole : unsigned s = s := if_neg signed
    have positive : s.head? ≠ some 45 := fun here => signed (by rw [here]; rfl)
    rw [whole] at number
    refine ⟨magnitude s, ?_, by rw [if_neg signed, Int.sub_zero, value, if_neg positive]⟩
    rw [magnitude, whole]
    exact atoiFrom_digits 0 number.2

/-- The sum is right exactly if what is lost adds up to nothing. -/
theorem add_right_iff (a b : Str) (number1 : isnumber a) (number2 : isnumber b) (fits1 : -2 ^ 31 ≤ value a ∧ value a < 2 ^ 31)
    (fits2 : -2 ^ 31 ≤ value b ∧ value b < 2 ^ 31) (fits : -2 ^ 31 ≤ value a + value b ∧ value a + value b < 2 ^ 31) :
    ∃ num1 num2 result, add [a, b] = .sum num1 num2 result ∧
      (result.toInt = value a + value b ↔ ignored a + ignored b = 0) := by
  obtain ⟨m, first, less⟩ := atoi_eq number1
  obtain ⟨n, second, less'⟩ := atoi_eq number2
  have ask : a.head? ≠ some 63 := by
    intro here
    cases a with
    | nil => exact nomatch here
    | cons _ s =>
      cases here
      exact absurd number1 (by simp [isnumber, unsigned, isSign, isDigit])
  refine ⟨atoi a, atoi b, atoi a + atoi b, by rw [add, if_neg ask, if_neg (by simp [number1, number2])], ?_⟩
  -- A number that has lost nothing is not negative, and one that has lost its sign is lost as a whole.
  have whole : ∀ {s : Str}, ignored s = value s ∨ ignored s = 0 := by
    intro s
    unfold ignored
    split
    · exact .inl rfl
    · exact .inr rfl
  have small : m + n < 2 ^ 31 := by
    have left := whole (s := a)
    have right := whole (s := b)
    omega
  rw [first, second, ← Int32.ofNat_add, Int32.toInt_ofNat_of_lt small]
  omega

/-- `add 12 +0` -/
theorem add_right_twelve : ∃ num1 num2 result, add [[49, 50], [43, 48]] = .sum num1 num2 result ∧
    (result.toInt = value [49, 50] + value [43, 48] ↔ ignored [49, 50] + ignored [43, 48] = 0) :=
  add_right_iff [49, 50] [43, 48] (by decide) (by decide) (by decide) (by decide) (by decide)

/-- `add -3 5` prints `0 + 5 = 5`. -/
theorem add_loses_sign : add [[45, 51], [53]] = .sum 0 5 5 ∧ value [45, 51] + value [53] = 2 := by
  decide

end Xv6Monitor.Util.Add
