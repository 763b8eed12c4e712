import Xv6Monitor.Lib.Bytes
import Mathlib.Data.List.GetD
import Mathlib.Data.List.TakeWhile

/-! Strings and memory of user programs, `user/ulib.c`, and reading from a file. An array is its bytes, and a
pointer into it an offset. -/

namespace Xv6Monitor.Util.Strings
open Function Lib.Bytes

/-- A string, without its null byte. -/
abbrev Str : Type := List UInt8

def newline : UInt8 := 10

def stringAt (b : Data) : (left p : Nat) → Option Str
  | 0, _ => none
  | left + 1, p => if b p = 0 then some [] else (stringAt b left (p + 1)).map (b p :: ·)

def cut (bytes : List UInt8) : Str := bytes.takeWhile (· ≠ 0)

theorem cut_free {bytes : List UInt8} (free : 0 ∉ bytes) : cut bytes = bytes := by
  refine List.takeWhile_eq_self_iff.mpr fun x mem => ?_
  exact decide_eq_true fun zero => free (zero ▸ mem)

def strchr (c : UInt8) : Str → Option Nat
  | [] => none
  | s :: rest => if s = c then some 0 else (strchr c rest).map (· + 1)

def strcmp : Str → Str → Int
  | [], [] => 0
  | [], q :: _ => -q.toNat
  | p :: _, [] => p.toNat
  | p :: ps, q :: qs => if p = q then strcmp ps qs else p.toNat - q.toNat

def moveUp : Data → (dst src n : Nat) → Data
  | b, _, _, 0 => b
  | b, dst, src, n + 1 => moveUp (update b dst (b src)) (dst + 1) (src + 1) n

def moveDown : Data → (dst src n : Nat) → Data
  | b, _, _, 0 => b
  | b, dst, src, n + 1 => moveDown (update b (dst + n) (b (src + n))) dst src n

def memmove (b : Data) (dst src n : Nat) : Data := if dst < src then moveUp b dst src n else moveDown b dst src n

variable {b : Data} {c : UInt8} {s t : Str} {p n left dst src : Nat}

def Spells (b : Data) (p : Nat) (s : Str) : Prop := ∀ i ≤ s.length, b (p + i) = s.getD i 0

theorem stringAt_spells (spells : Spells b p s) (inside : s.length < left) (free : 0 ∉ s) : stringAt b left p = some s := by
  induction s generalizing left p with
  | nil =>
    obtain ⟨left, rfl⟩ := Nat.exists_eq_succ_of_ne_zero (Nat.ne_of_gt inside)
    have ends : b p = 0 := spells 0 (Nat.le_refl 0)
    rw [stringAt, if_pos ends]
  | cons x s ih =>
    obtain ⟨left, rfl⟩ := Nat.exists_eq_succ_of_ne_zero (Nat.ne_of_gt (Nat.zero_lt_of_lt inside))
    rw [List.mem_cons, not_or] at free
    have first : b p = x := spells 0 (Nat.zero_le _)
    have next : Spells b (p + 1) s := by
      intro i le
      have later := spells (i + 1) (Nat.succ_le_succ le)
      rwa [Nat.add_right_comm, Nat.add_assoc]
    rw [stringAt, first, if_neg (Ne.symm free.1), ih next (Nat.lt_of_succ_lt_succ inside) free.2, Option.map_some]

theorem Spells.drop (spells : Spells b p (s ++ t)) : Spells b (p + s.length) t := by
  intro i le
  have there := spells (s.length + i) (by rw [List.length_append]; omega)
  rw [Nat.add_assoc, there, List.getD_append_right _ _ _ _ (Nat.le_add_right ..), Nat.add_sub_cancel_left]

theorem Spells.slice (spells : Spells b p (s ++ t)) : slice b p s.length = s := by
  refine slice_eq fun i inside => ?_
  rw [spells i (by rw [List.length_append]; omega), List.getD_append _ _ _ _ inside, List.getD_eq_getElem _ _ inside]

theorem Spells.congr {b' : Data} (spells : Spells b p s) (same : ∀ i, p ≤ i → b' i = b i) : Spells b' p s := by
  intro i le
  rw [same _ (Nat.le_add_right ..)]
  exact spells i le

theorem Spells.cut (spells : Spells b p (s ++ t)) : Spells (update b (p + s.length) 0) p s := by
  intro i le
  by_cases last : i = s.length
  · rw [last, update_self, List.getD_eq_default _ _ (Nat.le_refl _)]
  · have inside : i < s.length := by omega
    rw [update_of_ne (by omega), spells i (by rw [List.length_append]; omega), List.getD_append _ _ _ _ inside]

theorem strchr_free (free : c ∉ s) : strchr c s = none := by
  induction s with
  | nil => rfl
  | cons _ s ih =>
    rw [List.mem_cons, not_or] at free
    rw [strchr, if_neg (Ne.symm free.1), ih free.2, Option.map_none]

theorem strchr_found (free : c ∉ s) : strchr c (s ++ c :: t) = some s.length := by
  induction s with
  | nil => rw [List.nil_append, strchr, if_pos rfl, List.length_nil]
  | cons _ s ih =>
    rw [List.mem_cons, not_or] at free
    rw [List.cons_append, strchr, if_neg (Ne.symm free.1), ih free.2, Option.map_some, List.length_cons]

theorem toNat_ne_zero (free : 0 ∉ c :: s) : c.toNat ≠ 0 := by
  intro zero
  have null : c = 0 := UInt8.toNat_inj.mp zero
  exact free (null ▸ List.mem_cons_self ..)

theorem strcmp_eq_zero (left : 0 ∉ s) (right : 0 ∉ t) : strcmp s t = 0 ↔ s = t := by
  induction s generalizing t with
  | nil =>
    cases t with
    | nil => exact iff_of_true rfl rfl
    | cons q t =>
      have some : q.toNat ≠ 0 := toNat_ne_zero right
      simp [strcmp, some]
  | cons p s ih =>
    have some : p.toNat ≠ 0 := toNat_ne_zero left
    rcases t with _ | ⟨q, t⟩
    · simp [strcmp, some]
    rw [List.mem_cons, not_or] at left right
    by_cases same : p = q
    · rw [strcmp, if_pos same, ih left.2 right.2, same, List.cons_inj_right]
    · have apart : p.toNat ≠ q.toNat := fun equal => same (UInt8.toNat_inj.mp equal)
      rw [strcmp, if_neg same]
      refine iff_of_false (by omega) fun equal => same (List.cons.inj equal).1

theorem moveUp_eq (order : dst < src) : moveUp b dst src n = splice b dst n fun i => b (src + i) := by
  induction n generalizing b dst src with
  | zero =>
    funext i
    rw [moveUp, splice, if_neg (by omega)]
  | succ n ih =>
    funext i
    rw [moveUp, ih (Nat.succ_lt_succ order)]
    unfold splice
    dsimp only
    by_cases first : i = dst
    · rw [if_neg (by omega), if_pos (by omega), first, update_self, Nat.sub_self, Nat.add_zero]
    by_cases inside : dst ≤ i ∧ i < dst + (n + 1)
    · rw [if_pos (by omega), if_pos inside, update_of_ne (by omega)]
      congr 1
      omega
    · rw [if_neg (by omega), if_neg inside, update_of_ne first]

theorem moveDown_eq (order : src ≤ dst) : moveDown b dst src n = splice b dst n fun i => b (src + i) := by
  induction n generalizing b with
  | zero =>
    funext i
    rw [moveDown, splice, if_neg (by omega)]
  | succ n ih =>
    funext i
    rw [moveDown, ih]
    unfold splice
    dsimp only
    by_cases last : i = dst + n
    · rw [if_neg (by omega), if_pos (by omega), last, update_self, Nat.add_sub_cancel_left]
    · by_cases inside : dst ≤ i ∧ i < dst + (n + 1)
      · rw [if_pos (by omega), if_pos inside, update_of_ne (by omega)]
      · rw [if_neg (by omega), if_neg inside, update_of_ne last]

/-- The bytes are moved as if they were all read first. -/
theorem memmove_eq (b : Data) (dst src n : Nat) : memmove b dst src n = splice b dst n fun i => b (src + i) := by
  unfold memmove
  split
  next order => exact moveUp_eq order
  next order => exact moveDown_eq (Nat.le_of_not_lt order)

/-! ### Input -/

/-- What is left to read, and how much each `read` delivers of it if it can. -/
structure Input where
  bytes : List UInt8
  sizes : List Nat

/-- How many bytes a `read` with room for `size` bytes returns: some, unless nothing is left or there is no room. -/
def Input.count (input : Input) (size : Nat) : Nat := min (min (max 1 (input.sizes.headD size)) size) input.bytes.length

def Input.after (input : Input) (n : Nat) : Input := ⟨input.bytes.drop n, input.sizes.tail⟩

theorem Input.count_le (input : Input) (size : Nat) : input.count size ≤ size ∧ input.count size ≤ input.bytes.length := by
  unfold Input.count
  omega

theorem Input.count_eq_zero {input : Input} {size : Nat} (room : 0 < size) : input.count size = 0 ↔ input.bytes = [] := by
  rw [← List.length_eq_zero_iff]
  unfold Input.count
  omega

end Xv6Monitor.Util.Strings
