import Xv6Monitor.Util.Strings

/-! The matcher of `user/grep.c` and the regular expressions that it implements. -/

namespace Xv6Monitor.Util.Matching
open Strings

def star : UInt8 := 42

def dot : UInt8 := 46

def caret : UInt8 := 94

def dollar : UInt8 := 36

/-- The last two lines of `matchhere`; `next` is `matchhere(re+1, ·)`. -/
def matchone (c : UInt8) (next : Str → Bool) : Str → Bool
  | [] => false
  | t :: text => (c == dot || c == t) && next text

/-- `matchstar(c, re, text)`; `here` is `matchhere(re, ·)`. -/
def matchstar (c : UInt8) (here : Str → Bool) : Str → Bool
  | [] => here []
  | t :: text => here (t :: text) || ((t == c || c == dot) && matchstar c here text)

def matchhere : (re : Str) → (text : Str) → Bool
  | [], _ => true
  | [c], text => if c = dollar then text.isEmpty else matchone c (matchhere []) text
  | c :: d :: re, text => if d = star then matchstar c (matchhere re) text else matchone c (matchhere (d :: re)) text

/-- The loop of `match`, which looks at the empty string too. -/
def matchFrom (re : Str) : (text : Str) → Bool
  | [] => matchhere re []
  | t :: text => matchhere re (t :: text) || matchFrom re text

def matchRe (re text : Str) : Bool := if re.head? = some caret then matchhere re.tail text else matchFrom re text

/-! ### Regular expressions -/

inductive Item where
  /-- Any number of such characters. -/
  | starred (c : UInt8)
  | one (c : UInt8)
  /-- The end of the text. -/
  | finish
  deriving DecidableEq

def items : Str → List Item
  | [] => []
  | [c] => if c = dollar then [.finish] else [.one c]
  | c :: d :: re => if d = star then .starred c :: items re else .one c :: items (d :: re)

/-- The characters that a character of an expression stands for. -/
def Stands (c t : UInt8) : Prop := c = dot ∨ c = t

/-- The items match the beginning of a text, one after the other. -/
inductive Matches : List Item → Str → Prop where
  | nil (text : Str) : Matches [] text
  | starred {c : UInt8} {rest : List Item} {run text : Str} (each : ∀ t ∈ run, Stands c t) (more : Matches rest text) :
      Matches (.starred c :: rest) (run ++ text)
  | one {c t : UInt8} {rest : List Item} {text : Str} (stands : Stands c t) (more : Matches rest text) :
      Matches (.one c :: rest) (t :: text)
  | finish : Matches [.finish] []

/-- The expression matches somewhere in the text, or at its beginning if that is asked for. -/
def Found (re text : Str) : Prop :=
  if re.head? = some caret then Matches (items re.tail) text
  else ∃ before after, text = before ++ after ∧ Matches (items re) after

variable {c : UInt8} {re text : Str} {rest : List Item} {here : Str → Bool}

theorem matchone_iff (next : ∀ text, here text = true ↔ Matches rest text) :
    matchone c here text = true ↔ Matches (.one c :: rest) text := by
  constructor
  · intro found
    cases text with
    | nil => exact nomatch found
    | cons _ text =>
      simp only [matchone, Bool.and_eq_true, Bool.or_eq_true, beq_iff_eq] at found
      exact .one found.1 ((next text).mp found.2)
  · rintro (_ | _ | ⟨stands, more⟩)
    simp only [matchone, Bool.and_eq_true, Bool.or_eq_true, beq_iff_eq]
    exact ⟨stands, (next _).mpr more⟩

/-- The loop tries every run of characters that the star may stand for. -/
theorem matchstar_iff (next : ∀ text, here text = true ↔ Matches rest text) :
    matchstar c here text = true ↔ Matches (.starred c :: rest) text := by
  constructor
  · intro found
    suffices split : ∃ run after, text = run ++ after ∧ (∀ t ∈ run, Stands c t) ∧ Matches rest after by
      obtain ⟨run, after, rfl, each, more⟩ := split
      exact .starred each more
    induction text with
    | nil => exact ⟨[], [], rfl, fun _ mem => absurd mem List.not_mem_nil, (next _).mp found⟩
    | cons t text ih =>
      simp only [matchstar, Bool.or_eq_true, Bool.and_eq_true, beq_iff_eq] at found
      rcases found with now | ⟨stands, later⟩
      · exact ⟨[], t :: text, rfl, fun _ mem => absurd mem List.not_mem_nil, (next _).mp now⟩
      · obtain ⟨run, after, split, each, more⟩ := ih later
        refine ⟨t :: run, after, by rw [split, List.cons_append], List.forall_mem_cons.mpr ⟨?_, each⟩, more⟩
        exact stands.symm.imp id Eq.symm
  · intro found
    cases found with
    | @starred _ _ run after each more =>
      induction run with
      | nil =>
        have now := (next _).mpr more
        cases after with
        | nil => exact now
        | cons t after =>
          rw [List.nil_append, matchstar, now, Bool.true_or]
      | cons t run ih =>
        have parts := List.forall_mem_cons.mp each
        rw [List.cons_append, matchstar, ih parts.2]
        have stands : (t == c || c == dot) = true := by
          simp only [Bool.or_eq_true, beq_iff_eq]
          exact parts.1.symm.imp Eq.symm id
        rw [stands, Bool.and_true, Bool.or_true]

theorem finish_iff : text.isEmpty = true ↔ Matches [.finish] text := by
  constructor
  · intro empty
    rw [List.isEmpty_iff.mp empty]
    exact .finish
  · rintro ⟨⟩
    rfl

theorem matchhere_iff (re : Str) : ∀ text, matchhere re text = true ↔ Matches (items re) text := by
  -- The recursion goes to what follows a character, or a character and its star.
  induction re using items.induct with
  | case1 => exact fun text => iff_of_true rfl (.nil text)
  | case2 => exact fun text => finish_iff
  | case3 c other =>
    intro text
    rw [matchhere, items, if_neg other, if_neg other]
    exact matchone_iff fun text => iff_of_true rfl (.nil text)
  | case4 c re ih =>
    intro text
    exact matchstar_iff ih
  | case5 c _ re other ih =>
    intro text
    rw [matchhere, items, if_neg other, if_neg other]
    exact matchone_iff ih

/-- The loop tries every position of the text, and its end. -/
theorem matchFrom_iff : matchFrom re text = true ↔ ∃ before after, text = before ++ after ∧ Matches (items re) after := by
  induction text with
  | nil =>
    rw [matchFrom, matchhere_iff]
    constructor
    · exact fun found => ⟨[], [], rfl, found⟩
    · rintro ⟨before, after, split, found⟩
      rwa [(List.append_eq_nil_iff.mp split.symm).2] at found
  | cons t text ih =>
    rw [matchFrom, Bool.or_eq_true, matchhere_iff, ih]
    constructor
    · rintro (now | ⟨before, after, split, found⟩)
      · exact ⟨[], t :: text, rfl, now⟩
      · exact ⟨t :: before, after, by rw [split, List.cons_append], found⟩
    · rintro ⟨before, after, split, found⟩
      cases before with
      | nil => exact .inl (split ▸ found)
      | cons _ before => exact .inr ⟨before, after, (List.cons.inj split).2, found⟩

/-- The matcher ends on every expression and text, and finds an expression where it matches. -/
theorem match_iff_found (re text : Str) : matchRe re text = true ↔ Found re text := by
  unfold matchRe Found
  split
  · exact matchhere_iff re.tail text
  · exact matchFrom_iff

end Xv6Monitor.Util.Matching
