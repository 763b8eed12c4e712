import Xv6Monitor.Util.Strings

/-! `user/diff.c`. The variable `ch` of `read_line` is not initialised; what it holds when the function is called
is an argument of the model. -/

namespace Xv6Monitor.Util.Diff
open Strings

/-- `MAX_LINE` -/
def maxLine : Nat := 256

/-- What `read_line` leaves: the characters in the buffer, its variable `ch`, and the rest of the file. -/
structure Line where
  chars : List UInt8
  ch : UInt8
  rest : List UInt8

def readFrom : (left : Nat) → (ch : UInt8) → (file : List UInt8) → Line
  | 0, ch, file => ⟨[], ch, file⟩
  | _ + 1, ch, [] => ⟨[], ch, []⟩
  | left + 1, _, c :: file =>
    if c = newline then ⟨[], c, file⟩
    else
      let more := readFrom left c file
      { more with chars := c :: more.chars }

def readLine (ch : UInt8) (file : List UInt8) : Line := readFrom (maxLine - 1) ch file

def Line.has (l : Line) : Bool := 0 < l.chars.length ∨ (l.chars.length = 0 ∧ l.ch = newline)

/-- What the program prints; `n` is `line_num`. -/
inductive Message where
  /-- An empty line before a difference that is not the first. -/
  | gap
  /-- `Line n differs:`, and the two lines. -/
  | differs (n : Int32) (line1 line2 : Str)
  /-- `Line n only in` the first file, and the line. -/
  | only1 (n : Int32) (line1 : Str)
  /-- `Line n only in` the second file, and the line. -/
  | only2 (n : Int32) (line2 : Str)
  /-- `Files are identical` -/
  | identical
  deriving DecidableEq

structure State where
  file1 : List UInt8
  file2 : List UInt8
  lineNum : Int32
  differences : Int32
  eof1 : Bool
  eof2 : Bool
  output : List Message

def difference (n : Int32) (line1 line2 : Line) : Option Message :=
  if line1.has ∧ line2.has then
    if strcmp (cut line1.chars) (cut line2.chars) ≠ 0 then some (.differs n (cut line1.chars) (cut line2.chars)) else none
  else if line1.has then some (.only1 n (cut line1.chars))
  else if line2.has then some (.only2 n (cut line2.chars))
  else none

/-- One round of the loop of `main`; there is no next state when it breaks. The two calls of `read_line` find `ch1`
and `ch2` in their variable. -/
def compare (s : State) (ch1 ch2 : UInt8) : Option State :=
  let line1 := readLine ch1 s.file1
  let line2 := readLine ch2 s.file2
  let eof1 := s.eof1 || !line1.has
  let eof2 := s.eof2 || !line2.has
  if eof1 && eof2 then none
  else
    let next := { s with file1 := line1.rest, file2 := line2.rest, eof1 := eof1, eof2 := eof2, lineNum := s.lineNum + 1 }
    match difference s.lineNum line1 line2 with
    | none => some next
    | some message => some { next with
        differences := s.differences + 1,
        output := s.output ++ (if 0 < s.differences then [.gap] else []) ++ [message] }

def start (file1 file2 : List UInt8) : State := ⟨file1, file2, 1, 0, false, false, []⟩

/-- The loop of `main`, if it ends in so many rounds; `stale k` is what the calls of round `k` find in `ch`. -/
def compareFrom (stale : Nat → UInt8 × UInt8) : (left k : Nat) → State → Option State
  | 0, _, _ => none
  | left + 1, k, s =>
    match compare s (stale k).1 (stale k).2 with
    | none => some s
    | some t => compareFrom stale left (k + 1) t

/-- What the program prints, if its loop ends in as many rounds as there are bytes. -/
def diff (stale : Nat → UInt8 × UInt8) (file1 file2 : List UInt8) : Option (List Message) :=
  (compareFrom stale (max file1.length file2.length + 1) 0 (start file1 file2)).map fun s =>
    if s.differences = 0 then s.output ++ [.identical] else s.output

/-! ### One line -/

variable {ch : UInt8} {file : List UInt8} {left : Nat}

inductive Reads (left : Nat) (file : List UInt8) (l : Line) : Prop where
  /-- The buffer is full. -/
  | full (length : l.chars.length = left) (split : file = l.chars ++ l.rest)
  | newline (length : l.chars.length < left) (split : file = l.chars ++ newline :: l.rest) (last : l.ch = newline)
  /-- The file has ended. -/
  | last (length : l.chars.length < left) (split : file = l.chars) (none : l.rest = [])

theorem readFrom_reads (left : Nat) (ch : UInt8) (file : List UInt8) : Reads left file (readFrom left ch file) := by
  induction left generalizing ch file with
  | zero => exact .full rfl rfl
  | succ left ih =>
    rcases file with _ | ⟨c, file⟩
    · exact .last (Nat.succ_pos left) rfl rfl
    rw [readFrom]
    split
    next here => exact .newline (Nat.succ_pos left) (by rw [here, List.nil_append]) here
    next =>
      cases ih c file with
      | full length split => exact .full (congrArg Nat.succ length) (congrArg (c :: ·) split)
      | newline length split last => exact .newline (Nat.succ_lt_succ length) (congrArg (c :: ·) split) last
      | last length split none => exact .last (Nat.succ_lt_succ length) (congrArg (c :: ·) split) none

theorem readLine_reads (ch : UInt8) (file : List UInt8) : Reads 255 file (readLine ch file) := readFrom_reads 255 ch file

theorem readLine_nil (ch : UInt8) : readLine ch [] = ⟨[], ch, []⟩ := rfl

theorem has_nil : (readLine ch []).has = true ↔ ch = newline := by
  simp [readLine_nil, Line.has]

theorem readLine_some (some : file ≠ []) :
    (readLine ch file).has = true ∧ (readLine ch file).rest.length < file.length := by
  have positive := List.length_pos_iff.mpr some
  cases readLine_reads ch file with
  | full length split =>
    have total := congrArg List.length split
    rw [List.length_append] at total
    exact ⟨decide_eq_true (.inl (by omega)), by omega⟩
  | newline length split last =>
    have total := congrArg List.length split
    rw [List.length_append, List.length_cons] at total
    refine ⟨decide_eq_true ?_, by omega⟩
    rcases Nat.eq_zero_or_pos (readLine ch file).chars.length with none | some
    · exact .inr ⟨none, last⟩
    · exact .inl some
  | last length split none =>
    rw [none]
    exact ⟨decide_eq_true (.inl (split ▸ positive)), positive⟩

/-- What is claimed of a call of `read_line`: it returns `0` at the end of the file, and reads a byte where it returns `1`. -/
structure Correct (ch : UInt8) (file : List UInt8) : Prop where
  ends : file = [] → (readLine ch file).has = false
  reads : (readLine ch file).has = true → (readLine ch file).rest.length < file.length

theorem correct_iff : Correct ch file ↔ (file = [] → ch ≠ newline) := by
  constructor
  · intro correct empty stale
    have ends := correct.ends empty
    rw [empty, Bool.eq_false_iff] at ends
    exact ends (has_nil.mpr stale)
  intro fresh
  refine ⟨fun empty => ?_, fun has => ?_⟩
  · rw [empty]
    exact Bool.eq_false_iff.mpr fun has => fresh empty (has_nil.mp has)
  · by_cases empty : file = []
    · rw [empty] at has
      exact absurd (has_nil.mp has) (fresh empty)
    · exact (readLine_some empty).2

/-! ### The loop ends -/

variable {s t : State} {stale : Nat → UInt8 × UInt8} {file1 file2 : List UInt8}

structure Round (s : State) (ch1 ch2 : UInt8) (t : State) : Prop where
  file1 : t.file1 = (readLine ch1 s.file1).rest
  file2 : t.file2 = (readLine ch2 s.file2).rest
  eof1 : t.eof1 = (s.eof1 || !(readLine ch1 s.file1).has)
  eof2 : t.eof2 = (s.eof2 || !(readLine ch2 s.file2).has)
  going : ¬(t.eof1 = true ∧ t.eof2 = true)
  differences : t.differences =
    s.differences + if (difference s.lineNum (readLine ch1 s.file1) (readLine ch2 s.file2)).isSome then 1 else 0
  output : difference s.lineNum (readLine ch1 s.file1) (readLine ch2 s.file2) = none → t.output = s.output
  printed : ∀ m ∈ t.output, m ∈ s.output ∨ m = .gap ∨
    difference s.lineNum (readLine ch1 s.file1) (readLine ch2 s.file2) = some m

theorem compare_none {ch1 ch2 : UInt8} (breaks : compare s ch1 ch2 = none) :
    (s.eof1 || !(readLine ch1 s.file1).has) = true ∧ (s.eof2 || !(readLine ch2 s.file2).has) = true := by
  unfold compare at breaks
  dsimp only at breaks
  split at breaks
  next both => exact Bool.and_eq_true_iff.mp both
  next => split at breaks <;> exact nomatch breaks

theorem compare_some {ch1 ch2 : UInt8} (more : compare s ch1 ch2 = some t) : Round s ch1 ch2 t := by
  unfold compare at more
  dsimp only at more
  split at more
  · exact nomatch more
  next going =>
    rw [Bool.and_eq_true] at going
    split at more
    next none =>
      cases more
      refine ⟨rfl, rfl, rfl, rfl, going, ?_, fun _ => rfl, fun m mem => .inl mem⟩
      rw [none]
      exact (Int32.add_zero _).symm
    next message some =>
      cases more
      refine ⟨rfl, rfl, rfl, rfl, going, ?_, fun none => (nomatch some.symm.trans none), fun m mem => ?_⟩
      · rw [some]
        rfl
      rw [some]
      rcases List.mem_append.mp mem with early | last
      · refine (List.mem_append.mp early).imp_right fun gap => .inl ?_
        split at gap
        · exact List.mem_singleton.mp gap
        · exact absurd gap List.not_mem_nil
      · exact .inr (.inr (congrArg Option.some (List.mem_singleton.mp last).symm))

/-- The state at the beginning of round `k`, if the loop has not ended before. -/
def before (stale : Nat → UInt8 × UInt8) (file1 file2 : List UInt8) : (k : Nat) → Option State
  | 0 => some (start file1 file2)
  | k + 1 => (before stale file1 file2 k).bind fun s => compare s (stale k).1 (stale k).2

theorem rest_le (ch : UInt8) (file : List UInt8) : (readLine ch file).rest.length ≤ file.length := by
  by_cases empty : file = []
  · rw [empty, readLine_nil]
  · exact Nat.le_of_lt (readLine_some empty).2

theorem Round.some {ch1 ch2 : UInt8} (round : Round s ch1 ch2 t) :
    (readLine ch1 s.file1).has = true ∨ (readLine ch2 s.file2).has = true := by
  by_contra none
  rw [not_or, Bool.not_eq_true, Bool.not_eq_true] at none
  refine round.going ?_
  rw [round.eof1, round.eof2, none.1, none.2, Bool.not_false, Bool.or_true, Bool.or_true]
  exact ⟨rfl, rfl⟩

theorem Round.fewer {ch1 ch2 : UInt8} (round : Round s ch1 ch2 t) (first : Correct ch1 s.file1) (second : Correct ch2 s.file2) :
    t.file1.length + t.file2.length < s.file1.length + s.file2.length := by
  have le1 := rest_le ch1 s.file1
  have le2 := rest_le ch2 s.file2
  rw [round.file1, round.file2]
  rcases round.some with has | has
  · have less := first.reads has
    omega
  · have less := second.reads has
    omega

/-- No call that is made at the end of a file finds a newline in its variable. -/
def Fresh (stale : Nat → UInt8 × UInt8) (file1 file2 : List UInt8) : Prop :=
  ∀ k s, before stale file1 file2 k = some s →
    (s.file1 = [] → (stale k).1 ≠ newline) ∧ (s.file2 = [] → (stale k).2 ≠ newline)

/-- The calls of `read_line` that a run of `diff` makes are correct, and its loop ends, exactly if no call at the end of a
file finds a newline in its variable. -/
theorem diff_ends_iff (stale : Nat → UInt8 × UInt8) (file1 file2 : List UInt8) :
    ((∀ k s, before stale file1 file2 k = some s → Correct (stale k).1 s.file1 ∧ Correct (stale k).2 s.file2) ∧
        ∃ k, before stale file1 file2 k = none) ↔ Fresh stale file1 file2 := by
  constructor
  · rintro ⟨correct, -⟩ k s here
    exact (correct k s here).imp correct_iff.mp correct_iff.mp
  intro fresh
  have correct : ∀ k s, before stale file1 file2 k = some s → Correct (stale k).1 s.file1 ∧ Correct (stale k).2 s.file2 :=
    fun k s here => (fresh k s here).imp correct_iff.mpr correct_iff.mpr
  refine ⟨correct, ?_⟩
  -- Every round leaves fewer bytes than the one before.
  have bound : ∀ k s, before stale file1 file2 k = some s →
      k + (s.file1.length + s.file2.length) ≤ file1.length + file2.length := by
    intro k
    induction k with
    | zero =>
      intro s here
      cases here
      exact Nat.le_of_eq (Nat.zero_add _)
    | succ k ih =>
      intro s here
      obtain ⟨u, earlier, more⟩ := Option.bind_eq_some_iff.mp here
      have less := (compare_some more).fewer (correct k u earlier).1 (correct k u earlier).2
      have most := ih u earlier
      omega
  refine ⟨file1.length + file2.length + 1, Option.eq_none_iff_forall_not_mem.mpr fun s here => ?_⟩
  have most := bound _ s here
  omega

/-- Each call finds in its variable what the call before it has left. -/
def leftBehind : Nat → UInt8 × UInt8
  | 0 => (0, newline)
  | _ + 1 => (newline, newline)

/-- Two files that both hold the line `a`: every call leaves a newline in the variable for the next one, and the loop never
ends. -/
theorem stale_newline_loops :
    ((readLine 0 [97, newline]).ch = newline ∧ (readLine newline [97, newline]).ch = newline ∧
      (readLine newline []).ch = newline) ∧ ∀ k, (before leftBehind [97, newline] [97, newline] k).isSome = true := by
  refine ⟨by decide, fun k => ?_⟩
  have loops : ∀ k, ∃ n, before leftBehind [97, newline] [97, newline] (k + 1) = some ⟨[], [], n, 0, false, false, []⟩ := by
    intro k
    induction k with
    | zero => exact ⟨2, rfl⟩
    | succ k ih =>
      obtain ⟨n, here⟩ := ih
      refine ⟨n + 1, ?_⟩
      rw [before, here]
      rfl
  cases k with
  | zero => rfl
  | succ k =>
    obtain ⟨n, here⟩ := loops k
    rw [here]
    rfl

end Xv6Monitor.Util.Diff
