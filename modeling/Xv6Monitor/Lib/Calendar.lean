import Mathlib.Logic.Function.Iterate

/-! The Gregorian calendar as a succession of days. A date is known by how many days it comes after
another one, and later dates are larger. -/

namespace Xv6Monitor.Lib.Calendar

/-- The Gregorian leap rule. -/
def Leap (y : Nat) : Prop := (y % 4 = 0 ∧ y % 100 ≠ 0) ∨ y % 400 = 0

instance (y : Nat) : Decidable (Leap y) := inferInstanceAs (Decidable (_ ∨ _))

def monthLength (y : Nat) : (m : Nat) → Nat
  | 2 => if Leap y then 29 else 28
  | 4 | 6 | 9 | 11 => 30
  | _ => 31

def yearLength (y : Nat) : Nat := if Leap y then 366 else 365

theorem monthLength_pos (y m : Nat) : 0 < monthLength y m := by
  unfold monthLength
  split
  · split <;> decide
  all_goals decide

structure Date where
  year : Nat
  month : Nat
  day : Nat
  deriving DecidableEq

namespace Date

variable {y m d k n : Nat}

structure Valid (d : Date) : Prop where
  month_pos : 1 ≤ d.month
  month_le : d.month ≤ 12
  day_pos : 1 ≤ d.day
  day_le : d.day ≤ monthLength d.year d.month

def next (d : Date) : Date :=
  if d.day < monthLength d.year d.month then ⟨d.year, d.month, d.day + 1⟩
  else if d.month < 12 then ⟨d.year, d.month + 1, 1⟩
  else ⟨d.year + 1, 1, 1⟩

theorem next_inside (inside : d < monthLength y m) : next ⟨y, m, d⟩ = ⟨y, m, d + 1⟩ := if_pos inside

theorem next_first (ended : monthLength y m ≤ d) (earlier : m < 12) : next ⟨y, m, d⟩ = ⟨y, m + 1, 1⟩ :=
  (if_neg (Nat.not_lt.mpr ended)).trans (if_pos earlier)

theorem next_january (ended : monthLength y m ≤ d) (last : 12 ≤ m) : next ⟨y, m, d⟩ = ⟨y + 1, 1, 1⟩ :=
  (if_neg (Nat.not_lt.mpr ended)).trans (if_neg (Nat.not_lt.mpr last))

def fields (d : Date) : List Nat := [d.year, d.month, d.day]

theorem next_larger (a : Date) : a.fields < a.next.fields := by
  simp only [fields, next]
  split
  · simp [List.cons_lt_cons_iff]
  · split <;> simp [List.cons_lt_cons_iff]

theorem iterate_larger (a : Date) (n : Nat) : a.fields < (next^[n + 1] a).fields := by
  induction n with
  | zero => exact next_larger a
  | succ n ih =>
    rw [Function.iterate_succ_apply']
    exact List.lt_trans ih (next_larger _)

theorem iterate_lt (a : Date) (later : k < n) : (next^[k] a).fields < (next^[n] a).fields := by
  have split : n = n - k - 1 + 1 + k := by omega
  rw [split, Function.iterate_add_apply]
  exact iterate_larger _ _

theorem within_month (inside : d + k ≤ monthLength y m) : next^[k] ⟨y, m, d⟩ = ⟨y, m, d + k⟩ := by
  induction k with
  | zero => rfl
  | succ k ih =>
    rw [Function.iterate_succ_apply', ih (by omega), next_inside (by omega), Nat.add_assoc]

theorem last_day (y m : Nat) : next^[monthLength y m] ⟨y, m, 1⟩ = next ⟨y, m, monthLength y m⟩ := by
  have positive := monthLength_pos y m
  calc next^[monthLength y m] ⟨y, m, 1⟩ = next^[monthLength y m - 1 + 1] ⟨y, m, 1⟩ := by rw [Nat.sub_add_cancel positive]
    _ = next ⟨y, m, 1 + (monthLength y m - 1)⟩ := by rw [Function.iterate_succ_apply', within_month (by omega)]
    _ = next ⟨y, m, monthLength y m⟩ := by rw [Nat.add_sub_cancel' positive]

theorem next_month (earlier : m < 12) : next^[monthLength y m] ⟨y, m, 1⟩ = ⟨y, m + 1, 1⟩ := by
  rw [last_day, next_first (Nat.le_refl _) earlier]

theorem new_year (y : Nat) : next^[monthLength y 12] ⟨y, 12, 1⟩ = ⟨y + 1, 1, 1⟩ := by
  rw [last_day, next_january (Nat.le_refl _) (Nat.le_refl 12)]

def daysFrom (y : Nat) : (n m : Nat) → Nat
  | 0, _ => 0
  | n + 1, m => monthLength y m + daysFrom y n (m + 1)

theorem months (n : Nat) (inside : m + n ≤ 12) : next^[daysFrom y n m] ⟨y, m, 1⟩ = ⟨y, m + n, 1⟩ := by
  induction n generalizing m with
  | zero => rfl
  | succ n ih =>
    rw [daysFrom, Nat.add_comm, Function.iterate_add_apply, next_month (by omega), ih (by omega), Nat.add_assoc,
      Nat.add_comm 1 n]

theorem daysFrom_last (y n m : Nat) : daysFrom y (n + 1) m = monthLength y (m + n) + daysFrom y n m := by
  induction n generalizing m with
  | zero => rfl
  | succ n ih =>
    rw [daysFrom, ih, daysFrom, Nat.add_left_comm, Nat.add_assoc m 1 n, Nat.add_comm 1 n]

theorem daysFrom_year (y : Nat) : daysFrom y 12 1 = yearLength y := by
  unfold yearLength
  simp only [daysFrom, monthLength]
  split <;> rfl

theorem next_year (y : Nat) : next^[yearLength y] ⟨y, 1, 1⟩ = ⟨y + 1, 1, 1⟩ := by
  rw [← daysFrom_year, daysFrom_last, Function.iterate_add_apply, months 11 (by decide)]
  exact new_year y

end Date

end Xv6Monitor.Lib.Calendar
