import Mathlib.Data.Nat.Digits.Lemmas
import Xv6Monitor.Util.Strings

/-! Formatted output: `printint` of the kernel and of user programs, and `vprintf` of `user/printf.c`. A number is printed
by way of a buffer of 16 bytes. -/

namespace Xv6Monitor.Util.Printf
open Lib.Bytes Strings

def minus : UInt8 := 45

/-- `digits` of `kernel/printf.c` -/
def lower (d : Nat) : UInt8 := if d < 10 then .ofNat (48 + d) else .ofNat (87 + d)

/-- `digits` of `user/printf.c` -/
def upper (d : Nat) : UInt8 := if d < 10 then .ofNat (48 + d) else .ofNat (55 + d)

/-- The loop `do buf[i++] = digits[x % base]; while((x /= base) != 0)` in a buffer that has `room` bytes left. There is
no result if it stores beyond the buffer. -/
def fill (base : Nat) : (room x : Nat) → Option (List Nat)
  | 0, _ => none
  | room + 1, x => if x / base = 0 then some [x % base] else (fill base room (x / base)).map (x % base :: ·)

def emit (digit : Nat → UInt8) (base : Nat) (neg : Bool) (x : Nat) : Option Str :=
  (fill base 16 x).bind fun places =>
    if neg then if places.length < 16 then some (minus :: places.reverse.map digit) else none
    else some (places.reverse.map digit)

/-- `printint` of `kernel/printf.c`, where `xx` is a `long long` -/
def kernelPrintint (xx : Int) (base : Nat) (sign : Bool) : Option Str :=
  if sign ∧ xx < 0 then emit lower base true (-xx % 2 ^ 64).toNat else emit lower base false (xx % 2 ^ 64).toNat

/-- `printint` of `user/printf.c`, where `xx` is an `int` -/
def printint (xx : Int) (base : Nat) (sgn : Bool) : Option Str :=
  if sgn ∧ xx < 0 then emit upper base true (-xx % 2 ^ 32).toNat else emit upper base false (xx % 2 ^ 32).toNat

def toLong (v : UInt64) : Int := if v.toNat < 2 ^ 63 then v.toNat else v.toNat - 2 ^ 64

def printptr (x : UInt64) : Str :=
  [48, 120] ++ (List.range 16).map fun i => upper (x.toNat / 16 ^ (15 - i) % 16)

inductive Conversion where
  | number (base : Nat) (sgn : Bool)
  | pointer
  | string
  | percent

/-- The conversion that follows a `%`, and how many characters it has after the first. -/
def conversion (c0 c1 c2 : Char) : Option (Conversion × Nat) :=
  if c0 = 'd' then some (.number 10 true, 0)
  else if c0 = 'l' ∧ c1 = 'd' then some (.number 10 true, 1)
  else if c0 = 'l' ∧ c1 = 'l' ∧ c2 = 'd' then some (.number 10 true, 2)
  else if c0 = 'u' then some (.number 10 false, 0)
  else if c0 = 'l' ∧ c1 = 'u' then some (.number 10 false, 1)
  else if c0 = 'l' ∧ c1 = 'l' ∧ c2 = 'u' then some (.number 10 false, 2)
  else if c0 = 'x' then some (.number 16 false, 0)
  else if c0 = 'l' ∧ c1 = 'x' then some (.number 16 false, 1)
  else if c0 = 'l' ∧ c1 = 'l' ∧ c2 = 'x' then some (.number 16 false, 2)
  else if c0 = 'p' then some (.pointer, 0)
  else if c0 = 's' then some (.string, 0)
  else if c0 = '%' then some (.percent, 0)
  else none

structure Env where
  arg : Nat → UInt64
  string : UInt64 → Str

/-- What a conversion prints for an argument. A number of any type goes through the parameter `int xx`. -/
def Env.shown (e : Env) (v : UInt64) : Conversion → Option Str
  | .number base sgn => printint (toInt v.toNat) base sgn
  | .pointer => some (printptr v)
  | .string => some (if v = 0 then [40, 110, 117, 108, 108, 41] else e.string v)
  | .percent => some [37]

/-- The loop of `vprintf` over the rest of the format: `skip` characters were taken by a conversion, `percent` tells its
`state`, and `k` arguments were used. -/
def vprintf (e : Env) : (skip : Nat) → (percent : Bool) → (k : Nat) → (fmt : Str) → Option Str
  | _, _, _, [] => some []
  | skip + 1, percent, k, _ :: fmt => vprintf e skip percent k fmt
  | 0, false, k, c0 :: fmt => if c0 = 37 then vprintf e 0 true k fmt else (vprintf e 0 false k fmt).map (c0 :: ·)
  | 0, true, k, c0 :: fmt =>
    match conversion (.ofUInt8 c0) (.ofUInt8 (fmt.headD 0)) (.ofUInt8 (fmt.tail.headD 0)) with
    | none => (vprintf e 0 false k fmt).map ([37, c0] ++ ·)
    | some (.percent, _) => (vprintf e 0 false k fmt).map (37 :: ·)
    | some (c, skip) => (e.shown (e.arg k) c).bind fun out => (vprintf e skip false (k + 1) fmt).map (out ++ ·)

def printf (e : Env) (fmt : Str) : Option Str := vprintf e 0 false 0 fmt

/-! ### Numerals -/

def places (base n : Nat) : List Nat := if n = 0 then [0] else Nat.digits base n

def numeral (digit : Nat → UInt8) (base n : Nat) : Str := (places base n).reverse.map digit

/-- How a number is written in a base. -/
def written (digit : Nat → UInt8) (base : Nat) (v : Int) : Str :=
  if v < 0 then minus :: numeral digit base v.natAbs else numeral digit base v.natAbs

variable {base room x : Nat} {digit : Nat → UInt8}

theorem places_small (less : x < base) : places base x = [x % base] := by
  rw [places, Nat.mod_eq_of_lt less]
  split
  next zero => rw [zero]
  next some => exact Nat.digits_of_lt base x some less

theorem places_step (two : 1 < base) (more : x / base ≠ 0) : places base x = x % base :: places base (x / base) := by
  have some : x ≠ 0 := fun zero => more (by rw [zero, Nat.zero_div])
  rw [places, places, if_neg some, if_neg more, Nat.digits_def' two (Nat.pos_of_ne_zero some)]

theorem fill_eq (two : 1 < base) : fill base (room + 1) x = if x < base ^ (room + 1) then some (places base x) else none := by
  have positive := Nat.zero_lt_of_lt two
  induction room generalizing x with
  | zero =>
    rw [fill, Nat.zero_add, Nat.pow_one]
    by_cases less : x < base
    · rw [if_pos (Nat.div_eq_of_lt less), if_pos less, places_small less]
    · rw [if_neg fun zero => less ((Nat.div_eq_zero_iff_lt positive).mp zero), if_neg less]
      rfl
  | succ room ih =>
    rw [fill, ih]
    by_cases less : x < base
    · have below : x < base ^ (room + 1 + 1) := Nat.lt_of_lt_of_le less (Nat.le_self_pow (Nat.succ_ne_zero _) base)
      rw [if_pos (Nat.div_eq_of_lt less), if_pos below, places_small less]
    · have more : x / base ≠ 0 := fun zero => less ((Nat.div_eq_zero_iff_lt positive).mp zero)
      have bound : x / base < base ^ (room + 1) ↔ x < base ^ (room + 1 + 1) := Nat.div_lt_iff_lt_mul positive
      rw [if_neg more, places_step two more, if_congr bound rfl rfl]
      split <;> rfl

theorem length_places (two : 1 < base) (k : Nat) : (places base x).length ≤ k + 1 ↔ x < base ^ (k + 1) := by
  rw [places]
  split
  next zero =>
    rw [zero]
    exact iff_of_true (Nat.le_add_left 1 k) (Nat.pow_pos (Nat.zero_lt_of_lt two))
  next => exact Nat.digits_length_le_iff two x

/-- The buffer is long enough for 16 digits, or for 15 and a sign. -/
theorem emit_eq (two : 1 < base) (neg : Bool) : emit digit base neg x =
    if x < base ^ (if neg then 15 else 16) then some ((if neg then [minus] else []) ++ numeral digit base x) else none := by
  have length := length_places (x := x) two 14
  unfold emit
  rw [fill_eq two]
  cases neg with
  | false =>
    rw [if_neg Bool.false_ne_true, if_neg Bool.false_ne_true]
    split <;> rfl
  | true =>
    rw [if_pos rfl, if_pos rfl]
    by_cases fits : x < base ^ 15
    · have more : x < base ^ 16 := Nat.lt_of_lt_of_le fits (Nat.pow_le_pow_right (Nat.zero_lt_of_lt two) (by decide))
      rw [if_pos more, if_pos fits, Option.bind_some, if_pos rfl, if_pos (Nat.lt_succ_of_le (length.mpr fits))]
      rfl
    · rw [if_neg fits]
      split
      · rw [Option.bind_some, if_pos rfl, if_neg fun less => fits (length.mp (Nat.le_of_lt_succ less))]
      · rfl

theorem base_cases (known : base = 10 ∨ base = 16) : 1 < base ∧ base ≤ 16 ∧ 2 ^ 32 ≤ base ^ 15 ∧ base ^ 15 ≤ base ^ 16 := by
  rcases known with rfl | rfl <;> decide

/-- The function of the kernel stays in its buffer, and prints the number, exactly if the digits and the sign fit. -/
theorem kernel_printint_iff (v : UInt64) (base : Nat) (sign : Bool) (known : base = 10 ∨ base = 16) :
    kernelPrintint (toLong v) base sign = some (written lower base (if sign then toLong v else v.toNat)) ↔
      if sign = true ∧ toLong v < 0 then -toLong v < base ^ 15 else v.toNat < base ^ 16 := by
  have two := (base_cases known).1
  have small := v.toNat_lt
  have fits : ∀ (n m : Nat) (text : Str), (if n < m then some text else none) = some text ↔ n < m := by simp
  unfold kernelPrintint
  by_cases negative : sign = true ∧ toLong v < 0
  · have size : (-toLong v % 2 ^ 64).toNat = (toLong v).natAbs := by
      unfold toLong at negative ⊢
      omega
    rw [if_pos negative, if_pos negative, if_pos negative.1, emit_eq two, written, if_pos negative.2, size, if_pos rfl, if_pos rfl]
    refine (fits ..).trans ?_
    rw [← Int.ofNat_natAbs_of_nonpos (Int.le_of_lt negative.2), ← Int.natCast_pow, Int.ofNat_lt]
  · have size : (toLong v % 2 ^ 64).toNat = v.toNat := by
      unfold toLong
      omega
    have value : (if sign = true then toLong v else (v.toNat : Int)) = v.toNat := by
      split
      next signed =>
        have nonnegative : ¬toLong v < 0 := fun less => negative ⟨signed, less⟩
        unfold toLong at nonnegative ⊢
        omega
      next => rfl
    rw [if_neg negative, if_neg negative, emit_eq two, size, value, written, if_neg (Int.not_lt.mpr (Int.natCast_nonneg _)),
      if_neg Bool.false_ne_true, if_neg Bool.false_ne_true]
    exact fits ..

/-- `printf("%ld", -1000)` -/
theorem kernel_printint_thousand :
    kernelPrintint (toLong (-1000)) 10 true = some (written lower 10 (toLong (-1000))) ∧ toLong (-1000) = -1000 :=
  ⟨(kernel_printint_iff (-1000) 10 true (.inl rfl)).mpr (by decide), by decide⟩

/-- A number of 17 digits. -/
theorem kernel_printint_overruns : kernelPrintint (toLong 10000000000000000) 10 true = none := by
  decide

/-! ### The conversions of `vprintf` -/

def digitValue (c : UInt8) : Nat := if c < 58 then c.toNat - 48 else c.toNat - 55

def value (base : Nat) (text : Str) : Nat := Nat.ofDigits base (text.reverse.map digitValue)

theorem mem_places (two : 1 < base) {d n : Nat} (mem : d ∈ places base n) : d < base := by
  rw [places] at mem
  split at mem
  · rw [List.mem_singleton.mp mem]
    exact Nat.zero_lt_of_lt two
  · exact Nat.digits_lt_base two mem

theorem value_numeral (two : 1 < base) (most : base ≤ 16) (n : Nat) : value base (numeral upper base n) = n := by
  have back : ∀ d ∈ places base n, digitValue (upper d) = d := by
    intro d mem
    have each : ∀ d < 16, digitValue (upper d) = d := by decide
    exact each d (Nat.lt_of_lt_of_le (mem_places two mem) most)
  rw [value, numeral, ← List.map_reverse, List.reverse_reverse, List.map_map, List.map_congr_left (f := digitValue ∘ upper) (g := id) back,
    List.map_id, places]
  split
  next zero => rw [zero]; rfl
  next => exact Nat.ofDigits_digits base n

theorem written_injective (two : 1 < base) (most : base ≤ 16) {a b : Int} (same : written upper base a = written upper base b) :
    a = b := by
  have back : ∀ m n, numeral upper base m = numeral upper base n → m = n := by
    intro m n same
    rw [← value_numeral two most m, same, value_numeral two most]
  have unsigned : ∀ n text, minus :: text ≠ numeral upper base n := by
    intro n text same
    obtain ⟨d, mem, sign⟩ := List.mem_map.mp (show minus ∈ numeral upper base n from same ▸ List.mem_cons_self)
    have each : ∀ d < 16, upper d ≠ minus := by decide
    exact each d (Nat.lt_of_lt_of_le (mem_places two (List.mem_reverse.mp mem)) most) sign
  unfold written at same
  split at same <;> split at same
  · have size := back _ _ (List.cons.inj same).2
    omega
  · exact absurd same (unsigned _ _)
  · exact absurd same.symm (unsigned _ _)
  · have size := back _ _ same
    omega

/-- The function of user programs stays in its buffer, and prints the last 32 bits of its argument. -/
theorem printint_eq (known : base = 10 ∨ base = 16) (v : UInt64) (sgn : Bool) :
    printint (toInt v.toNat) base sgn = some (written upper base (if sgn then toInt v.toNat else v.toNat % 2 ^ 32)) := by
  obtain ⟨two, -, low, high⟩ := base_cases known
  unfold printint
  by_cases negative : sgn = true ∧ toInt v.toNat < 0
  · have size : (-toInt v.toNat % 2 ^ 32).toNat = (toInt v.toNat).natAbs := by
      rw [toInt_eq] at negative ⊢
      omega
    have fits : (toInt v.toNat).natAbs < base ^ 15 := by
      rw [toInt_eq] at negative ⊢
      omega
    rw [if_pos negative, emit_eq two, size, if_pos rfl, if_pos fits, if_pos negative.1, written, if_pos negative.2]
    rfl
  · have size : (toInt v.toNat % 2 ^ 32).toNat = v.toNat % 2 ^ 32 := by
      rw [toInt_eq]
      omega
    have shown : (if sgn = true then toInt v.toNat else (v.toNat : Int) % 2 ^ 32) = (v.toNat % 2 ^ 32 : Nat) := by
      split
      next signed =>
        have nonnegative : ¬toInt v.toNat < 0 := fun less => negative ⟨signed, less⟩
        rw [toInt_eq] at nonnegative ⊢
        omega
      next => rfl
    have fits : v.toNat % 2 ^ 32 < base ^ 16 := by omega
    rw [if_neg negative, emit_eq two, size, shown, if_neg Bool.false_ne_true, if_pos fits, if_neg Bool.false_ne_true, written,
      if_neg (Int.not_lt.mpr (Int.natCast_nonneg _))]
    rfl

theorem vprintf_skipped (e : Env) {skip : Nat} {fmt : Str} (k : Nat) (all : fmt.length = skip) :
    vprintf e skip false k fmt = some [] := by
  induction fmt generalizing skip with
  | nil => rw [vprintf]
  | cons _ fmt ih =>
    subst all
    exact ih rfl

theorem printf_number_iff (e : Env) (sgn : Bool) {c0 : UInt8} {fmt : Str} {w : Int} (known : base = 10 ∨ base = 16)
    (here : conversion (.ofUInt8 c0) (.ofUInt8 (fmt.headD 0)) (.ofUInt8 (fmt.tail.headD 0)) = some (.number base sgn, fmt.length)) :
    printf e (37 :: c0 :: fmt) = some (written upper base w) ↔
      (if sgn then toInt (e.arg 0).toNat else (e.arg 0).toNat % 2 ^ 32) = w := by
  obtain ⟨two, most, -⟩ := base_cases known
  rw [printf, vprintf, if_pos rfl, vprintf, here]
  dsimp only [Env.shown]
  rw [printint_eq known, Option.bind_some, vprintf_skipped e 1 rfl, Option.map_some, List.append_nil, Option.some_inj]
  exact ⟨written_injective two most, fun same => by rw [same]⟩

/-- The conversions of a `long` print the number exactly if an `int` holds it, and none overruns the buffer. -/
theorem long_conversions_iff (e : Env) :
    (∀ fmt ∈ [[37, 108, 117], [37, 108, 108, 117]],
      printf e fmt = some (written upper 10 (e.arg 0).toNat) ↔ (e.arg 0).toNat < 2 ^ 32) ∧
    (∀ fmt ∈ [[37, 108, 100], [37, 108, 108, 100]],
      printf e fmt = some (written upper 10 (toLong (e.arg 0))) ↔ -2 ^ 31 ≤ toLong (e.arg 0) ∧ toLong (e.arg 0) < 2 ^ 31) ∧
    (∀ fmt ∈ [[37, 108, 120], [37, 108, 108, 120]],
      printf e fmt = some (written upper 16 (e.arg 0).toNat) ↔ (e.arg 0).toNat < 2 ^ 32) ∧
    ∀ (v : UInt64) sgn, (printint (toInt v.toNat) 10 sgn).isSome ∧ (printint (toInt v.toNat) 16 sgn).isSome := by
  have small := (e.arg 0).toNat_lt
  have unsigned : (((e.arg 0).toNat : Int) % 2 ^ 32 = (e.arg 0).toNat) ↔ (e.arg 0).toNat < 2 ^ 32 := by omega
  have signed : toInt (e.arg 0).toNat = toLong (e.arg 0) ↔ -2 ^ 31 ≤ toLong (e.arg 0) ∧ toLong (e.arg 0) < 2 ^ 31 := by
    rw [toInt_eq, toLong]
    omega
  refine ⟨List.forall_mem_cons.mpr ⟨?_, List.forall_mem_singleton.mpr ?_⟩,
    List.forall_mem_cons.mpr ⟨?_, List.forall_mem_singleton.mpr ?_⟩,
    List.forall_mem_cons.mpr ⟨?_, List.forall_mem_singleton.mpr ?_⟩, fun v sgn => ⟨?_, ?_⟩⟩
  · exact (printf_number_iff e false (.inl rfl) rfl).trans unsigned
  · exact (printf_number_iff e false (.inl rfl) rfl).trans unsigned
  · exact (printf_number_iff e true (.inl rfl) rfl).trans signed
  · exact (printf_number_iff e true (.inl rfl) rfl).trans signed
  · exact (printf_number_iff e false (.inr rfl) rfl).trans unsigned
  · exact (printf_number_iff e false (.inr rfl) rfl).trans unsigned
  · rw [printint_eq (.inl rfl)]
    rfl
  · rw [printint_eq (.inr rfl)]
    rfl

/-- `printf("%lu", 4294967296)` -/
theorem long_prints_zero : printf ⟨fun _ => 4294967296, fun _ => []⟩ [37, 108, 117] = some [48] := by
  decide

end Xv6Monitor.Util.Printf
