import Mathlib.Data.List.Range

/-! A table of slots, some of them free, in which no key stands twice: a finite map. -/

namespace Xv6Monitor.Lib.Slots
open Function

variable {κ υ : Type} [DecidableEq κ] {slot slot' : Nat → Option (κ × υ)} {len len' k : Nat} {key a : κ} {v : υ}

def Distinct (len : Nat) (slot : Nat → Option (κ × υ)) : Prop :=
  ∀ j < len, ∀ k < len, ∀ key v w, slot j = some (key, v) → slot k = some (key, w) → j = k

def find (len : Nat) (slot : Nat → Option (κ × υ)) (key : κ) : Option Nat :=
  (List.range len).find? fun k => (slot k).any fun entry => entry.1 = key

def answer (len : Nat) (slot : Nat → Option (κ × υ)) (key : κ) : Option υ :=
  (find len slot key).bind fun k => (slot k).map Prod.snd

theorem find_some (found : find len slot key = some k) : k < len ∧ ∃ v, slot k = some (key, v) := by
  have below : k < len := List.mem_range.mp (List.mem_of_find?_eq_some found)
  have holds := List.find?_some found
  refine ⟨below, ?_⟩
  cases entry : slot k with
  | none =>
    rw [entry] at holds
    exact nomatch holds
  | some pair =>
    rw [entry] at holds
    have same : pair.1 = key := by simpa using holds
    exact ⟨pair.2, by rw [← same]⟩

theorem find_none : find len slot key = none ↔ ∀ k < len, ∀ v, slot k ≠ some (key, v) := by
  rw [find, List.find?_eq_none]
  constructor
  · intro none k below v entry
    have no := none k (List.mem_range.mpr below)
    rw [entry] at no
    exact no (by simp)
  intro none k mem holds
  cases entry : slot k with
  | none =>
    rw [entry] at holds
    exact nomatch holds
  | some pair =>
    rw [entry] at holds
    have same : pair.1 = key := by simpa using holds
    exact none k (List.mem_range.mp mem) pair.2 (by rw [entry, ← same])

theorem answer_some (distinct : Distinct len slot) : answer len slot key = some v ↔ ∃ k < len, slot k = some (key, v) := by
  constructor
  · intro answered
    obtain ⟨k, found, value⟩ := Option.bind_eq_some_iff.mp answered
    obtain ⟨below, w, entry⟩ := find_some found
    rw [entry] at value
    obtain rfl : w = v := by simpa using value
    exact ⟨k, below, entry⟩
  · rintro ⟨k, below, entry⟩
    cases found : find len slot key with
    | none => exact absurd entry (find_none.mp found k below v)
    | some j =>
      obtain ⟨low, w, other⟩ := find_some found
      obtain rfl := distinct j low k below key w v other entry
      rw [answer, found, Option.bind_some, entry]
      rfl

theorem answer_none : answer len slot key = none ↔ find len slot key = none := by
  constructor
  · intro none
    cases found : find len slot key with
    | none => rfl
    | some k =>
      obtain ⟨-, v, entry⟩ := find_some found
      rw [answer, found, Option.bind_some, entry] at none
      exact nomatch none
  · intro none
    rw [answer, none, Option.bind_none]

theorem answer_ext {f : κ → Option υ} (distinct : Distinct len slot)
    (same : ∀ key v, f key = some v ↔ ∃ k < len, slot k = some (key, v)) : answer len slot = f := by
  funext key
  apply Option.ext
  intro v
  rw [answer_some distinct, same]

omit [DecidableEq κ] in
theorem Distinct.congr (distinct : Distinct len slot) (same : ∀ j < len, slot' j = slot j) : Distinct len slot' := by
  intro i low j high key x y left right
  rw [same i low] at left
  rw [same j high] at right
  exact distinct i low j high key x y left right

theorem answer_congr (distinct : Distinct len slot) (same : ∀ j < len, slot' j = slot j) : answer len slot' = answer len slot := by
  apply answer_ext (distinct.congr same)
  intro key w
  rw [answer_some distinct]
  constructor
  · rintro ⟨j, below, entry⟩
    exact ⟨j, below, (same j below).trans entry⟩
  · rintro ⟨j, below, entry⟩
    exact ⟨j, below, (same j below).symm.trans entry⟩

section Put

variable (distinct : Distinct len slot) (absent : find len slot a = none) (free : k < len → slot k = none) (le : k ≤ len)
  (after : len' = max len (k + 1)) (here : slot' k = some (a, v)) (others : ∀ j, j < len → j ≠ k → slot' j = slot j)

include absent le after here others

theorem distinct_put (distinct : Distinct len slot) : Distinct len' slot' := by
  have old : ∀ j < len', j ≠ k → j < len := by omega
  intro i low j high key x y left right
  by_cases first : i = k <;> by_cases second : j = k
  · rw [first, second]
  · rw [first, here] at left
    rw [others j (old j high second) second] at right
    cases left
    exact absurd right (find_none.mp absent j (old j high second) y)
  · rw [second, here] at right
    rw [others i (old i low first) first] at left
    cases right
    exact absurd left (find_none.mp absent i (old i low first) x)
  · rw [others i (old i low first) first] at left
    rw [others j (old j high second) second] at right
    exact distinct i (old i low first) j (old j high second) key x y left right

include distinct free

theorem answer_put : answer len' slot' = update (answer len slot) a (some v) := by
  apply answer_ext (distinct_put absent le after here others distinct)
  intro key w
  by_cases same : key = a
  · subst same
    rw [update_self]
    constructor
    · intro equal
      cases equal
      exact ⟨k, by omega, here⟩
    rintro ⟨j, below, entry⟩
    by_cases this : j = k
    · rw [this, here] at entry
      cases entry
      rfl
    · rw [others j (by omega) this] at entry
      exact absurd entry (find_none.mp absent j (by omega) w)
  · rw [update_of_ne same, answer_some distinct]
    constructor
    · rintro ⟨j, below, entry⟩
      have other : j ≠ k := by
        rintro rfl
        exact nomatch (free below).symm.trans entry
      exact ⟨j, by omega, by rw [others j below other, entry]⟩
    rintro ⟨j, below, entry⟩
    have other : j ≠ k := by
      rintro rfl
      rw [here] at entry
      cases entry
      exact same rfl
    rw [others j (by omega) other] at entry
    exact ⟨j, by omega, entry⟩

end Put

section Clear

variable (distinct : Distinct len slot) (below : k < len) (entry : slot k = some (a, v)) (here : slot' k = none)
  (others : ∀ j < len, j ≠ k → slot' j = slot j)

include distinct here others

omit [DecidableEq κ] in
theorem distinct_clear : Distinct len slot' := by
  intro i low j high key x y left right
  have first : i ≠ k := by
    rintro rfl
    exact nomatch here.symm.trans left
  have second : j ≠ k := by
    rintro rfl
    exact nomatch here.symm.trans right
  rw [others i low first] at left
  rw [others j high second] at right
  exact distinct i low j high key x y left right

include below entry

theorem answer_clear : answer len slot' = update (answer len slot) a none := by
  apply answer_ext (distinct_clear distinct here others)
  intro key w
  by_cases same : key = a
  · subst same
    rw [update_self]
    refine ⟨nofun, fun ⟨j, low, found⟩ => ?_⟩
    have other : j ≠ k := by
      rintro rfl
      exact nomatch here.symm.trans found
    rw [others j low other] at found
    exact absurd (distinct j low k below key w v found entry) other
  · rw [update_of_ne same, answer_some distinct]
    constructor
    · rintro ⟨j, low, found⟩
      have other : j ≠ k := by
        rintro rfl
        rw [entry] at found
        cases found
        exact same rfl
      exact ⟨j, low, by rw [others j low other, found]⟩
    · rintro ⟨j, low, found⟩
      have other : j ≠ k := by
        rintro rfl
        exact nomatch here.symm.trans found
      exact ⟨j, low, by rw [← others j low other, found]⟩

end Clear

end Xv6Monitor.Lib.Slots
