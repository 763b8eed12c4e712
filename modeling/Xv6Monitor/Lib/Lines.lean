import Mathlib.Data.List.Basic

/-! Text in lines: what a separator divides a list into, also when the list comes in parts. -/

namespace Xv6Monitor.Lib.Lines

variable {α : Type} [DecidableEq α]

def ended (sep : α) (xs : List α) : List (List α) := (xs.splitOn sep).dropLast

def rest (sep : α) (xs : List α) : List α := (xs.splitOn sep).getLastD []

def text (sep : α) (ls : List (List α)) : List α := ls.flatMap (· ++ [sep])

variable {sep : α} {xs ys l : List α} {ls : List (List α)}

omit [DecidableEq α] in
@[simp] theorem text_nil : text sep [] = [] := rfl

omit [DecidableEq α] in
@[simp] theorem text_cons : text sep (l :: ls) = l ++ sep :: text sep ls := by
  simp [text]

omit [DecidableEq α] in
@[simp] theorem text_append {ms : List (List α)} : text sep (ls ++ ms) = text sep ls ++ text sep ms := by
  simp [text]

theorem splitOn_free (free : sep ∉ xs) : xs.splitOn sep = [xs] := by
  rw [List.splitOn, List.splitOnP_eq_singleton]
  intro x mem
  exact beq_eq_false_iff_ne.mpr fun same => free (same ▸ mem)

theorem splitOn_ne_nil (sep : α) (xs : List α) : xs.splitOn sep ≠ [] := List.splitOnP_ne_nil _ xs

theorem splitOn_eq (sep : α) (xs : List α) : xs.splitOn sep = ended sep xs ++ [rest sep xs] := by
  have some := splitOn_ne_nil sep xs
  rw [ended, rest, List.getLastD_eq_getLast?, List.getLast?_eq_some_getLast some, Option.getD_some, List.dropLast_append_getLast]

theorem ended_free (free : sep ∉ xs) : ended sep xs = [] := by rw [ended, splitOn_free free, List.dropLast_singleton]

theorem rest_free (free : sep ∉ xs) : rest sep xs = xs := by rw [rest, splitOn_free free, List.getLastD_cons, List.getLastD_nil]

theorem splitOn_sep (sep : α) (xs ys : List α) :
    (xs ++ sep :: ys).splitOn sep = (xs.splitOn sep ++ ended sep ys) ++ [rest sep ys] := by
  rw [List.splitOn_append_cons_self, splitOn_eq sep ys, List.append_assoc]

theorem ended_sep (sep : α) (xs ys : List α) : ended sep (xs ++ sep :: ys) = xs.splitOn sep ++ ended sep ys := by
  rw [ended, splitOn_sep, List.dropLast_concat]

theorem rest_sep (sep : α) (xs ys : List α) : rest sep (xs ++ sep :: ys) = rest sep ys := by
  rw [rest, splitOn_sep, List.getLastD_concat]

theorem ended_line (free : sep ∉ l) : ended sep (l ++ sep :: xs) = l :: ended sep xs := by
  rw [ended_sep, splitOn_free free, List.singleton_append]

theorem line_cases (sep : α) (xs : List α) : sep ∉ xs ∨ ∃ l ys, sep ∉ l ∧ xs = l ++ sep :: ys := by
  by_cases mem : sep ∈ xs
  · obtain ⟨l, ys, split, free⟩ := List.eq_append_cons_of_mem mem
    exact .inr ⟨l, ys, free, split⟩
  · exact .inl mem

theorem line_induction {P : List α → Prop} (sep : α) (last : ∀ xs, sep ∉ xs → P xs)
    (line : ∀ l xs, sep ∉ l → P xs → P (l ++ sep :: xs)) (xs : List α) : P xs := by
  rcases line_cases sep xs with free | ⟨l, ys, free, split⟩
  · exact last xs free
  · rw [split]
    exact line l ys free (line_induction sep last line ys)
  termination_by xs.length
  decreasing_by
    rw [split, List.length_append, List.length_cons]
    omega

theorem rest_no_sep (sep : α) (xs : List α) : sep ∉ rest sep xs := by
  induction xs using line_induction sep with
  | last xs free => rwa [rest_free free]
  | line _ xs free _ => rwa [rest_sep]

theorem text_ended (sep : α) (xs : List α) : text sep (ended sep xs) ++ rest sep xs = xs := by
  induction xs using line_induction sep with
  | last xs free => rw [ended_free free, rest_free free, text_nil, List.nil_append]
  | line _ xs free ih => rw [ended_line free, rest_sep, text_cons, List.append_assoc, List.cons_append, ih]

theorem rest_suffix (sep : α) (xs : List α) : rest sep xs <:+ xs := ⟨_, text_ended sep xs⟩

theorem ended_length_le (sep : α) (xs : List α) : (ended sep xs).length ≤ xs.length := by
  induction xs using line_induction sep with
  | last xs free =>
    rw [ended_free free]
    exact Nat.zero_le _
  | line l xs free ih =>
    rw [ended_line free, List.length_append, List.length_cons, List.length_cons]
    omega

theorem ended_text (free : ∀ l ∈ ls, sep ∉ l) : ended sep (text sep ls) = ls := by
  induction ls with
  | nil => rw [text_nil, ended_free List.not_mem_nil]
  | cons l ls ih =>
    have parts := List.forall_mem_cons.mp free
    rw [text_cons, ended_line parts.1, ih parts.2]

theorem rest_text (sep : α) (ls : List (List α)) : rest sep (text sep ls) = [] := by
  induction ls with
  | nil => rw [text_nil, rest_free List.not_mem_nil]
  | cons _ ls ih => rw [text_cons, rest_sep, ih]

theorem ended_append (sep : α) (xs ys : List α) :
    ended sep (xs ++ ys) = ended sep xs ++ ended sep (rest sep xs ++ ys) := by
  induction xs using line_induction sep with
  | last xs free => rw [ended_free free, rest_free free, List.nil_append]
  | line _ xs free ih => rw [List.append_assoc, List.cons_append, ended_line free, ih, ended_line free, rest_sep, List.cons_append]

theorem rest_append (sep : α) (xs ys : List α) : rest sep (xs ++ ys) = rest sep (rest sep xs ++ ys) := by
  induction xs using line_induction sep with
  | last xs free => rw [rest_free free]
  | line _ xs free ih => rw [List.append_assoc, List.cons_append, rest_sep, ih, rest_sep]

theorem rest_prefix (sep : α) (xs ys : List α) : ∃ l ∈ (xs ++ ys).splitOn sep, rest sep xs <+: l := by
  rw [splitOn_eq, ended_append, rest_append]
  rcases line_cases sep ys with free | ⟨l, zs, free, split⟩
  · have whole : sep ∉ rest sep xs ++ ys := fun mem => (List.mem_append.mp mem).elim (rest_no_sep sep xs) free
    rw [rest_free whole]
    exact ⟨rest sep xs ++ ys, by simp, List.prefix_append ..⟩
  · have line : sep ∉ rest sep xs ++ l := fun mem => (List.mem_append.mp mem).elim (rest_no_sep sep xs) free
    rw [split, ← List.append_assoc, ended_line line]
    exact ⟨rest sep xs ++ l, by simp, List.prefix_append ..⟩

end Xv6Monitor.Lib.Lines
