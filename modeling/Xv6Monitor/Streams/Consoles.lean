import Xv6Monitor.Lib.Ring
import Xv6Monitor.Lib.Transition

/-! The console input of `kernel/console.c`: characters that are typed go through `consoleintr`, and any
number of processes call `consoleread`. The interrupt handler has the lock from its beginning to its end;
a reader takes one round of its loop in a step. -/

namespace Xv6Monitor.Streams.Consoles
open Function Lib.Ring Lib.Transition

def INPUT_BUF_SIZE : Nat := 128

/-- The characters that mean something to the console: `'\n'`, `'\r'`, delete, and `C('D')` and so on. -/
def newline : UInt8 := 10
def carriage : UInt8 := 13
def delete : UInt8 := 127
def ctrlD : UInt8 := 4
def ctrlH : UInt8 := 8
def ctrlP : UInt8 := 16
def ctrlU : UInt8 := 21

structure Cons where
  buf : Nat → UInt8
  r : BitVec 32
  w : BitVec 32
  e : BitVec 32

inductive Edit where
  /-- The character is stored; `full` says that the buffer is full with it. -/
  | char (c : UInt8) (full : Bool)
  | erase
  | kill
  deriving DecidableEq

/-- The loop that kills the line, `n` characters at most: the edit index. -/
def killLine (buf : Nat → UInt8) (w : BitVec 32) : (n : Nat) → (e : BitVec 32) → BitVec 32
  | 0, e => e
  | n + 1, e => if e ≠ w ∧ buf (slot INPUT_BUF_SIZE (e - 1)) ≠ newline then killLine buf w n (e - 1) else e

def typed (c : UInt8) : UInt8 := if c = carriage then newline else c

def commits (c : UInt8) (full : Bool) : Bool := typed c = newline ∨ typed c = ctrlD ∨ full

/-- The state after a character was typed, and the edit that it was. -/
def consoleintr (s : Cons) (c : UInt8) : Cons × Option Edit :=
  if c = ctrlP then
    (s, none)
  else if c = ctrlU then
    ({ s with e := killLine s.buf s.w (s.e - s.w).toNat s.e }, some .kill)
  else if c = ctrlH ∨ c = delete then
    (if s.e ≠ s.w then { s with e := s.e - 1 } else s, some .erase)
  else if c ≠ 0 ∧ (s.e - s.r).toNat < INPUT_BUF_SIZE then
    let full := decide ((s.e + 1 - s.r).toNat = INPUT_BUF_SIZE)
    let w := if commits c full then s.e + 1 else s.w
    ({ s with buf := update s.buf (slot INPUT_BUF_SIZE s.e) (typed c), e := s.e + 1, w := w },
      some (.char c full))
  else
    (s, none)

/-- Where a process is in `consoleread`, with the variables `target` and `n`. -/
inductive Thread where
  | idle
  | entering (target n : Int)
  | inside (target n : Int)
  | asleep (target n : Int)
  /-- The call of `consoleread(…, n)` returned `result`. -/
  | returned (n result : Int)
  deriving DecidableEq

structure Sys where
  cons : Cons
  lock : Option Nat
  thread : Nat → Thread
  killed : Nat → Bool

inductive Event where
  | edited (edit : Edit)
  /-- A byte is copied to the user. -/
  | copied (c : UInt8)
  /-- A `control-D` is used up by a read that returns nothing. -/
  | ended
  /-- A byte cannot be copied to the user. -/
  | lost (c : UInt8)
  deriving DecidableEq

def Sys.put (s : Sys) (p : Nat) (t : Thread) : Sys := { s with thread := update s.thread p t }

def Sys.leave (s : Sys) (p : Nat) (t : Thread) : Sys := { s.put p t with lock := none }

def Thread.wake : Thread → Thread
  | .asleep target n => .entering target n
  | t => t

def Sys.wakeup (s : Sys) : Option Edit → Sys
  | some (.char c full) => if commits c full then { s with thread := fun p => (s.thread p).wake } else s
  | _ => s

/-- A round of `consoleread`. -/
def runRead (s : Sys) (p : Nat) (target n : Int) (copyout : Bool) : Sys × Option Event :=
  if 0 < n then
    if s.cons.r = s.cons.w then
      if s.killed p then (s.leave p (.returned target (-1)), none) else (s.leave p (.asleep target n), none)
    else
      let c := s.cons.buf (slot INPUT_BUF_SIZE s.cons.r)
      let s := { s with cons := { s.cons with r := s.cons.r + 1 } }
      if c = ctrlD then
        if n < target then
          -- Save it for next time, to make sure that the caller gets a 0-byte result.
          ({ s with cons := { s.cons with r := s.cons.r - 1 } }.leave p (.returned target (target - n)), none)
        else
          (s.leave p (.returned target (target - n)), some .ended)
      else if copyout then
        if c = newline then (s.leave p (.returned target (target - (n - 1))), some (.copied c))
        else (s.put p (.inside target (n - 1)), some (.copied c))
      else
        (s.leave p (.returned target (target - n)), some (.lost c))
  else
    (s.leave p (.returned target (target - n)), none)

inductive Action where
  | typed (c : UInt8)
  | consoleread (p : Nat) (n : Int)
  | acquire (p : Nat)
  | run (p : Nat) (copyout : Bool)
  | kill (p : Nat)

def act (s : Sys) (a : Action) : Option (Sys × Option Event) :=
  match a with
  | .typed c =>
    if s.lock = none then
      let edit := (consoleintr s.cons c).2
      some ({ s with cons := (consoleintr s.cons c).1 }.wakeup edit, edit.map .edited)
    else
      none
  | .consoleread p n =>
    match s.thread p with
    | .idle | .returned _ _ => some (s.put p (.entering n n), none)
    | _ => none
  | .acquire p =>
    match s.thread p, s.lock with
    | .entering target n, none => some ({ s.put p (.inside target n) with lock := some p }, none)
    | _, _ => none
  | .run p copyout =>
    match s.thread p with
    | .inside target n => some (runRead s p target n copyout)
    | _ => none
  | .kill p => some ({ s.put p (s.thread p).wake with killed := update s.killed p true }, none)

def start (buf : Nat → UInt8) : Sys := ⟨⟨buf, 0, 0, 0⟩, none, fun _ => .idle, fun _ => false⟩

def machine (buf : Nat → UInt8) : Machine Sys Action := ⟨start buf, fun s a => (act s a).map Prod.fst⟩

/-- What a line editor has: the lines that are committed, and the one that is edited. -/
structure Editor where
  committed : List UInt8
  line : List UInt8

def Editor.edit (s : Editor) : Edit → Editor
  | .char c full =>
    if commits c full then ⟨s.committed ++ (s.line ++ [typed c]), []⟩ else { s with line := s.line ++ [typed c] }
  | .erase => { s with line := s.line.dropLast }
  | .kill => { s with line := [] }

def edited (edits : List Edit) : Editor := edits.foldl Editor.edit ⟨[], []⟩

theorem edited_snoc (edits : List Edit) (e : Edit) : edited (edits ++ [e]) = (edited edits).edit e := by
  rw [edited, List.foldl_append]
  rfl

/-- The edits in the order of typing, what reads have copied out with the `control-D`s that they have used
up, and how many reads for something have returned nothing. -/
structure History where
  edits : List Edit
  out : List UInt8
  empty : Nat

def History.note (h : History) : Event → History
  | .edited e => { h with edits := h.edits ++ [e] }
  | .copied c => { h with out := h.out ++ [c] }
  | .ended => { h with out := h.out ++ [ctrlD] }
  | .lost _ => h

def Thread.nothing : Thread → Bool
  | .returned n 0 => 0 < n
  | _ => false

def observe (s : Sys) (a : Action) (t : Sys) (h : History) : History :=
  let h := match act s a with
    | some (_, some e) => h.note e
    | _ => h
  match a with
  | .run p _ => if (t.thread p).nothing then { h with empty := h.empty + 1 } else h
  | _ => h

def Action.valid : Action → Bool
  | .run _ copyout => copyout
  | _ => true

def Valid (_ : Sys) (a : Action) (_ : Sys) : Prop := a.valid = true

instance (s : Sys) (a : Action) (t : Sys) : Decidable (Valid s a t) := inferInstanceAs (Decidable (_ = _))

def Thread.fair : Thread → Prop
  | .entering target n | .inside target n | .asleep target n => n ≤ target
  | _ => True

section Indices

/-- The indices are in order and not too far apart. -/
structure Ordered (s : Cons) : Prop where
  order : (s.w - s.r).toNat ≤ (s.e - s.r).toNat
  bound : (s.e - s.r).toNat ≤ INPUT_BUF_SIZE

theorem size_dvd : INPUT_BUF_SIZE ∣ 2 ^ 32 := by decide

variable {s : Cons}

theorem Ordered.shrink (ordered : Ordered s) {e : BitVec 32} (less : (e - s.w).toNat ≤ (s.e - s.w).toNat) :
    Ordered { s with e := e } := by
  have whole := distance_add ordered.order
  have bound := ordered.bound
  have sum : e - s.r = (s.w - s.r) + (e - s.w) := by abel
  have part : (e - s.r).toNat = (s.w - s.r).toNat + (e - s.w).toNat := by
    rw [sum, BitVec.toNat_add, Nat.mod_eq_of_lt (by omega)]
  refine ⟨?_, ?_⟩ <;> dsimp only <;> omega

theorem killLine_le (buf : Nat → UInt8) (w : BitVec 32) (n : Nat) (e : BitVec 32) :
    (killLine buf w n e - w).toNat ≤ (e - w).toNat := by
  induction n generalizing e with
  | zero => exact le_refl _
  | succ n ih =>
    unfold killLine
    split
    next more =>
      have back := distance_back more.1.symm
      have rest := ih (e - 1)
      omega
    · exact le_refl _

theorem killLine_all {buf : Nat → UInt8} {w e : BitVec 32} {n : Nat} (enough : (e - w).toNat ≤ n)
    (plain : newline ∉ between INPUT_BUF_SIZE buf w e) : killLine buf w n e = w := by
  induction n generalizing e with
  | zero => exact (distance_zero.mp (Nat.le_zero.mp enough)).symm
  | succ n ih =>
    unfold killLine
    by_cases here : e = w
    · rw [if_neg fun more => more.1 here, here]
    · rw [between_back (Ne.symm here), List.mem_append, not_or, List.mem_singleton] at plain
      have back := distance_back (Ne.symm here)
      rw [if_pos ⟨here, Ne.symm plain.2⟩]
      exact ih (by omega) plain.1

theorem consoleintr_ordered (ordered : Ordered s) (c : UInt8) : Ordered (consoleintr s c).1 := by
  unfold consoleintr
  split
  · exact ordered
  split
  · exact ordered.shrink (killLine_le ..)
  split
  · dsimp only
    split
    next more =>
      have back := distance_back (Ne.symm more)
      exact ordered.shrink (by omega)
    · exact ordered
  split
  next room =>
    have size : INPUT_BUF_SIZE = 128 := rfl
    have next : (s.e + 1 - s.r).toNat = (s.e - s.r).toNat + 1 := distance_succ (by omega)
    have order := ordered.order
    refine ⟨?_, ?_⟩
    · dsimp only
      split <;> omega
    · dsimp only
      omega
  · exact ordered

theorem Ordered.take (ordered : Ordered s) (nonempty : s.r ≠ s.w) : Ordered { s with r := s.r + 1 } := by
  have some : s.r ≠ s.e := by
    intro same
    have order := ordered.order
    rw [distance_zero.mpr same, Nat.le_zero, distance_zero] at order
    exact nonempty order
  have first := distance_pred nonempty
  have second := distance_pred some
  have order := ordered.order
  have bound := ordered.bound
  refine ⟨?_, ?_⟩ <;> dsimp only <;> omega

end Indices

end Xv6Monitor.Streams.Consoles
