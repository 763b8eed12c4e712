import Xv6Monitor.Lib.Lines
import Xv6Monitor.Lib.Program
import Xv6Monitor.Util.Matching

/-! `grep` of `user/grep.c`: the lines of its input that match, whatever pieces the input comes in. -/

namespace Xv6Monitor.Util.Grep
open Function Lib.Bytes Lib.Lines Lib.Program Strings Matching

def bufSize : Nat := 1024

structure State where
  buf : Data
  input : Input
  output : List UInt8

inductive Fault where
  /-- An access outside `buf`. -/
  | outside
  /-- A loop that has not ended in the rounds it was given. -/
  | endless

abbrev GProg (α : Type) : Type := Prog Fault State α

def poke (i : Nat) (c : UInt8) : GProg Unit :=
  if i < bufSize then modify fun s => { s with buf := update s.buf i c } else stop .outside

def read (m : Nat) : GProg Nat := do
  let s ← get
  let n := s.input.count (bufSize - m - 1)
  if m + n ≤ bufSize then
    modify fun s => { s with buf := splice s.buf m n fun i => s.input.bytes.getD i 0, input := s.input.after n }
    pure n
  else
    stop .outside

def string (p : Nat) : GProg Str := do
  match stringAt (← get).buf (bufSize - p) p with
  | none => stop .outside
  | some s => pure s

def write (p n : Nat) : GProg Unit := modify fun s => { s with output := s.output ++ slice s.buf p n }

def move (p m : Nat) : GProg Unit :=
  if m ≤ bufSize then modify fun s => { s with buf := memmove s.buf 0 p m } else stop .outside

def scan (pattern : Str) : (left p : Nat) → GProg Nat
  | 0, _ => stop .endless
  | left + 1, p => do
    match strchr newline (← string p) with
    | none => pure p
    | some i =>
      let q := p + i
      poke q 0
      if matchRe pattern (← string p) then
        poke q newline
        write p (q + 1 - p)
      scan pattern left (q + 1)

def grepFrom (pattern : Str) : (left m : Nat) → GProg Unit
  | 0, _ => stop .endless
  | left + 1, m => do
    let n ← read m
    if 0 < n then
      let m := m + n
      poke m 0
      let p ← scan pattern (m + 1) 0
      if 0 < m then
        move p (m - p)
        grepFrom pattern left (m - p)
      else
        grepFrom pattern left m
    else
      pure ()

/-- Every round of the loop reads a byte, except the last. -/
def grep (pattern : Str) : GProg Unit := do
  grepFrom pattern ((← get).input.bytes.length + 1) 0

variable {pattern c : Str} {s : State} {p n m left : Nat}

theorem string_spells (spells : Spells s.buf p c) (free : 0 ∉ c) (inside : p + c.length < bufSize) :
    Ends (fun _ => False) (string p) s fun r t => r = c ∧ t = s := by
  have room : c.length < bufSize - p := by omega
  have found := stringAt_spells spells room free
  unfold string
  rw [ends_get_bind, found]
  exact ⟨rfl, rfl⟩

theorem ends_poke_bind {α : Type} {f : Unit → GProg α} {Q : α → State → Prop} {i : Nat} {x : UInt8} (inside : i < bufSize)
    (rest : Ends (fun _ => False) (f ()) { s with buf := update s.buf i x } Q) :
    Ends (fun _ => False) (poke i x >>= f) s Q := by
  unfold poke
  rw [if_pos inside]
  exact rest

theorem scan_spec (spells : Spells s.buf p c) (free : 0 ∉ c) (inside : p + c.length < bufSize)
    (enough : (ended newline c).length < left) :
    Ends (fun _ => False) (scan pattern left p) s fun q t =>
      q + (rest newline c).length = p + c.length ∧ Spells t.buf q (rest newline c) ∧ t.input = s.input ∧
        t.output = s.output ++ text newline ((ended newline c).filter (matchRe pattern)) := by
  induction c using line_induction newline generalizing s p left with
  | last c whole =>
    obtain ⟨left, rfl⟩ := Nat.exists_eq_succ_of_ne_zero (Nat.ne_of_gt (Nat.zero_lt_of_lt enough))
    unfold scan
    refine (string_spells spells free inside).bind fun r t ⟨same, here⟩ => ?_
    subst same here
    rw [strchr_free whole, rest_free whole, ended_free whole, List.filter_nil, text_nil, List.append_nil]
    exact ⟨rfl, spells, rfl, rfl⟩
  | line l c whole ih =>
    rw [ended_line whole, List.length_cons] at enough
    obtain ⟨left, rfl⟩ := Nat.exists_eq_succ_of_ne_zero (Nat.ne_of_gt (Nat.zero_lt_of_lt enough))
    have length : (l ++ newline :: c).length = l.length + 1 + c.length := by
      rw [List.length_append, List.length_cons]
      omega
    have free' : 0 ∉ l ∧ 0 ∉ c := by
      simp only [List.mem_append, List.mem_cons, not_or] at free
      exact ⟨free.1, free.2.2⟩
    -- What follows the line is a string however the line and its end are changed.
    have later : Spells s.buf (p + l.length + 1) c := by
      have parted : Spells s.buf p ((l ++ [newline]) ++ c) := by rwa [List.append_assoc]
      have dropped := parted.drop
      rwa [List.length_append, List.length_singleton, ← Nat.add_assoc] at dropped
    have next : ∀ {u : State} {w : Str}, (∀ i, p + l.length + 1 ≤ i → u.buf i = s.buf i) → u.input = s.input →
        u.output = s.output ++ w →
        Ends (fun _ => False) (scan pattern left (p + l.length + 1)) u fun q t =>
          q + (rest newline c).length = p + (l ++ newline :: c).length ∧ Spells t.buf q (rest newline c) ∧
            t.input = s.input ∧ t.output = s.output ++ (w ++ text newline ((ended newline c).filter (matchRe pattern))) := by
      intro u w same input output
      refine (ih (later.congr same) free'.2 (by omega) (by omega)).imp fun q t ⟨place, spelled, input', output'⟩ => ?_
      refine ⟨by omega, spelled, input'.trans input, ?_⟩
      rw [output', output, List.append_assoc]
    unfold scan
    refine (string_spells spells free inside).bind fun r t ⟨same, here⟩ => ?_
    subst same here
    rw [strchr_found whole]
    refine ends_poke_bind (by omega) ?_
    refine (string_spells spells.cut free'.1 (by omega)).bind fun r t ⟨same, here⟩ => ?_
    subst same here
    rw [rest_sep, ended_line whole]
    by_cases found : matchRe pattern r = true
    · rw [if_pos found, List.filter_cons_of_pos found, text_cons]
      refine ends_poke_bind (by omega) ?_
      -- The newline is back in its place, so the buffer is as it was.
      have place : t.buf (p + r.length) = newline := by
        have there := spells r.length (by omega)
        rwa [List.getD_append_right _ _ _ _ (Nat.le_refl _), Nat.sub_self] at there
      have back : update (update t.buf (p + r.length) 0) (p + r.length) newline = t.buf := by
        rw [update_idem, ← place, update_eq_self]
      have written : slice t.buf p (p + r.length + 1 - p) = r ++ [newline] := by
        have parted : Spells t.buf p ((r ++ [newline]) ++ c) := by rwa [List.append_assoc]
        have sliced := parted.slice
        rw [List.length_append] at sliced
        rwa [Nat.add_assoc, Nat.add_sub_cancel_left]
      unfold write
      rw [ends_modify_bind]
      rw [back, written]
      have more := next (u := { t with output := t.output ++ (r ++ [newline]) }) (fun _ _ => rfl) rfl rfl
      rwa [List.append_assoc, List.singleton_append] at more
    · rw [if_neg found, List.filter_cons_of_neg found]
      refine next (w := []) (fun i above => ?_) rfl (List.append_nil _).symm
      exact update_of_ne (by omega) ..

def Begins (b : Data) (c : Str) : Prop := ∀ i < c.length, b i = c.getD i 0

theorem read_spec (begins : Begins s.buf c) (room : c.length < bufSize) :
    Ends (fun _ => False) (read c.length) s fun n t =>
      n = s.input.count (bufSize - c.length - 1) ∧ t.output = s.output ∧ t.input = s.input.after n ∧
        Begins t.buf (c ++ s.input.bytes.take n) := by
  have most := s.input.count_le (bufSize - c.length - 1)
  unfold read
  rw [ends_get_bind]
  rw [if_pos (by omega)]
  refine ⟨rfl, rfl, rfl, fun i below => ?_⟩
  rw [List.length_append, List.length_take] at below
  dsimp only [splice]
  by_cases old : i < c.length
  · rw [if_neg (by omega), List.getD_append _ _ _ _ old]
    exact begins i old
  · rw [if_pos (by omega), List.getD_append_right _ _ _ _ (Nat.le_of_not_lt old)]
    rw [List.getD_eq_getElem?_getD, List.getD_eq_getElem?_getD, List.getElem?_take_of_lt (by omega)]

omit s in
theorem Begins.spells {b : Data} (begins : Begins b c) : Spells (update b c.length 0) 0 c := by
  intro i le
  rw [Nat.zero_add]
  by_cases last : i = c.length
  · rw [last, update_self, List.getD_eq_default _ _ (Nat.le_refl _)]
  · rw [update_of_ne last]
    exact begins i (by omega)

theorem move_spec (spells : Spells s.buf p c) (room : c.length ≤ bufSize) :
    Ends (fun _ => False) (move p c.length) s fun _ t => t.input = s.input ∧ t.output = s.output ∧ Begins t.buf c := by
  unfold move
  rw [if_pos room]
  refine ⟨rfl, rfl, fun i inside => ?_⟩
  dsimp only
  rw [memmove_eq, splice, if_pos (by omega)]
  exact spells i (Nat.le_of_lt inside)

/-- What has been read is `seen`: its lines have been dealt with, and the rest of it is in the buffer. -/
theorem grepFrom_spec {seen : Str} (short : ∀ l ∈ (seen ++ s.input.bytes).splitOn newline, l.length ≤ 1022)
    (free : 0 ∉ seen ++ s.input.bytes) (enough : s.input.bytes.length < left) (begins : Begins s.buf (rest newline seen))
    (done : s.output = text newline ((ended newline seen).filter (matchRe pattern))) :
    Ends (fun _ => False) (grepFrom pattern left (rest newline seen).length) s fun _ t =>
      t.output = text newline ((ended newline (seen ++ s.input.bytes)).filter (matchRe pattern)) := by
  induction left generalizing s seen with
  | zero => exact absurd enough (Nat.not_lt_zero _)
  | succ left ih =>
    -- A line that is not complete yet leaves room for at least one byte more.
    have room : (rest newline seen).length ≤ 1022 := by
      obtain ⟨l, mem, begin_⟩ := rest_prefix newline seen s.input.bytes
      exact Nat.le_trans begin_.length_le (short l mem)
    have size : 0 < bufSize - (rest newline seen).length - 1 := by
      unfold bufSize
      omega
    have most := s.input.count_le (bufSize - (rest newline seen).length - 1)
    unfold grepFrom
    refine (read_spec begins (by omega)).bind fun n t ⟨count, output, input, begins'⟩ => ?_
    rw [← count] at most
    by_cases none : n = 0
    · have empty : s.input.bytes = [] := (Input.count_eq_zero size).mp (count.symm.trans none)
      rw [none, if_neg (Nat.lt_irrefl 0), ends_pure, empty, List.append_nil, output]
      exact done
    rw [if_pos (Nat.pos_of_ne_zero none)]
    have length : (rest newline seen ++ s.input.bytes.take n).length = (rest newline seen).length + n := by
      rw [List.length_append, List.length_take, Nat.min_eq_left most.2]
    have split : s.input.bytes = s.input.bytes.take n ++ t.input.bytes := by
      rw [input, Input.after, List.take_append_drop]
    have free' : 0 ∉ rest newline seen ++ s.input.bytes.take n := by
      intro mem
      refine free (List.mem_append.mpr ((List.mem_append.mp mem).imp ?_ List.mem_of_mem_take))
      exact fun inside => (rest_suffix newline seen).subset inside
    refine ends_poke_bind (by omega) ?_
    rw [← length]
    have few := Nat.lt_succ_of_le (ended_length_le newline (rest newline seen ++ s.input.bytes.take n))
    refine (scan_spec begins'.spells free' (by omega) few).bind fun p u ⟨place, spells, same, output'⟩ => ?_
    rw [if_pos (by omega), show (rest newline seen ++ s.input.bytes.take n).length - p =
      (rest newline (rest newline seen ++ s.input.bytes.take n)).length by omega]
    refine (move_spec spells (by omega)).bind fun _ w ⟨same', output'', begins''⟩ => ?_
    rw [← rest_append] at begins'' ⊢
    have left_ : w.input.bytes = t.input.bytes := by rw [same', same]
    have all : seen ++ s.input.bytes.take n ++ w.input.bytes = seen ++ s.input.bytes := by
      rw [List.append_assoc, left_, ← split]
    rw [← all] at short free ⊢
    refine ih short free ?_ begins'' ?_
    · rw [left_, input, Input.after, List.length_drop]
      omega
    · rw [output'', output']
      rw [output, done, ended_append newline seen, List.filter_append, text_append]

/-- However its input is divided, `grep` writes the lines that match, each with its newline and in order, and it
neither stores outside its buffer nor reads a string that goes beyond it. -/
theorem grep_writes_matching_lines (pattern : Str) (ls : List Str) (sizes : List Nat) (buf : Data)
    (fine : ∀ l ∈ ls, newline ∉ l ∧ 0 ∉ l ∧ l.length ≤ 1022) :
    Ends (fun _ => False) (grep pattern) ⟨buf, ⟨text newline ls, sizes⟩, []⟩ fun _ t =>
      t.output = text newline (ls.filter (matchRe pattern)) := by
  have lines : ended newline (text newline ls) = ls := ended_text fun l mem => (fine l mem).1
  have pieces : (text newline ls).splitOn newline = ls ++ [[]] := by rw [splitOn_eq, lines, rest_text]
  have free : 0 ∉ text newline ls := by
    intro mem
    obtain ⟨l, inside, mem⟩ := List.mem_flatMap.mp mem
    rcases List.mem_append.mp mem with byte | last
    · exact (fine l inside).2.1 byte
    · exact absurd (List.mem_singleton.mp last) (by decide)
  have whole := @grepFrom_spec pattern ⟨buf, ⟨text newline ls, sizes⟩, []⟩ ((text newline ls).length + 1) []
  rw [List.nil_append, lines, pieces] at whole
  refine whole (fun l mem => ?_) free (Nat.lt_succ_self _) (fun _ below => absurd below (Nat.not_lt_zero _)) rfl
  rcases List.mem_append.mp mem with inside | last
  · exact (fine l inside).2.2
  · rw [List.mem_singleton.mp last]
    exact Nat.zero_le _

/-- The input `"ab\nc\nab\n"` in pieces of one and two bytes, searched for `^a`. -/
theorem grep_writes_two_lines :
    Ends (fun _ => False) (grep [caret, 97]) ⟨fun _ => 7, ⟨[97, 98, 10, 99, 10, 97, 98, 10], [1, 2, 1]⟩, []⟩ fun _ t =>
      t.output = [97, 98, 10, 97, 98, 10] :=
  grep_writes_matching_lines [caret, 97] [[97, 98], [99], [97, 98]] [1, 2, 1] (fun _ => 7) (by decide)

end Xv6Monitor.Util.Grep
