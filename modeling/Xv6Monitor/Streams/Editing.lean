import Xv6Monitor.Streams.Reading

/-! The console against a line editor: nothing of what is typed is lost, and nothing is read that was not
typed. -/

namespace Xv6Monitor.Streams.Editing
open Lib.Ring Lib.Transition Consoles Reading

section Keys

variable {s t : Sys} {a : Action} {e : Option Event} {h : History}

/-- What was read and what is still to be read are the committed lines, and the rest is the line that is
edited. -/
structure Faithful (s : Cons) (h : History) : Prop where
  committed : h.out ++ between INPUT_BUF_SIZE s.buf s.r s.w = (edited h.edits).committed
  line : between INPUT_BUF_SIZE s.buf s.w s.e = (edited h.edits).line
  plain : newline ∉ (edited h.edits).line
  empty : h.empty = h.out.count ctrlD

theorem faithful_char {s : Cons} (ordered : Ordered s) (faithful : Faithful s h) {c : UInt8}
    (room : (s.e - s.r).toNat < INPUT_BUF_SIZE) (full : Bool) :
    Faithful { s with
      buf := Function.update s.buf (slot INPUT_BUF_SIZE s.e) (typed c), e := s.e + 1,
      w := if commits c full then s.e + 1 else s.w } (h.note (.edited (.char c full))) := by
  have order := ordered.order
  have whole := distance_add order
  by_cases ends : commits c full = true
  · -- The line is committed with the character.
    have edit : edited (h.edits ++ [.char c full]) = ⟨(edited h.edits).committed ++ ((edited h.edits).line ++ [typed c]), []⟩ := by
      rw [edited_snoc, Editor.edit, if_pos ends]
    have longer : between INPUT_BUF_SIZE (Function.update s.buf (slot INPUT_BUF_SIZE s.e) (typed c)) s.r (s.e + 1) =
        between INPUT_BUF_SIZE s.buf s.r s.w ++ (edited h.edits).line ++ [typed c] := by
      rw [between_push size_dvd (by decide) room, between_append order, faithful.line]
    refine ⟨?_, ?_, ?_, faithful.empty⟩
    · rw [History.note, edit, if_pos ends, longer, ← faithful.committed]
      simp only [List.append_assoc]
    · rw [History.note, edit, if_pos ends]
      exact between_self ..
    · rw [History.note, edit]
      exact List.not_mem_nil
  · have edit : edited (h.edits ++ [.char c full]) = { edited h.edits with line := (edited h.edits).line ++ [typed c] } := by
      rw [edited_snoc, Editor.edit, if_neg ends]
    have plain : newline ≠ typed c := by
      intro same
      exact ends (decide_eq_true (Or.inl same.symm))
    refine ⟨?_, ?_, ?_, faithful.empty⟩
    · rw [History.note, edit, if_neg ends]
      rw [between_update size_dvd order room]
      exact faithful.committed
    · rw [History.note, edit, if_neg ends]
      dsimp only
      rw [between_push size_dvd (by decide) (by omega), faithful.line]
    · rw [History.note, edit]
      simp only [List.mem_append, List.mem_singleton, not_or]
      exact ⟨faithful.plain, plain⟩

theorem faithful_erase {s : Cons} (faithful : Faithful s h) :
    Faithful (if s.e ≠ s.w then { s with e := s.e - 1 } else s) (h.note (.edited .erase)) := by
  have edit : edited (h.edits ++ [.erase]) = { edited h.edits with line := (edited h.edits).line.dropLast } := by
    rw [edited_snoc, Editor.edit]
  have shorter : between INPUT_BUF_SIZE s.buf s.w (if s.e ≠ s.w then s.e - 1 else s.e) = (edited h.edits).line.dropLast := by
    rw [← faithful.line]
    by_cases same : s.e = s.w
    · rw [if_neg (not_not.mpr same), same, between_self]
      rfl
    · rw [if_pos same, between_back (Ne.symm same), List.dropLast_concat]
  have state : (if s.e ≠ s.w then { s with e := s.e - 1 } else s) = { s with e := if s.e ≠ s.w then s.e - 1 else s.e } := by
    split <;> rfl
  rw [state]
  refine ⟨?_, ?_, ?_, faithful.empty⟩
  · rw [History.note, edit]
    exact faithful.committed
  · rw [History.note, edit]
    exact shorter
  · rw [History.note, edit]
    exact fun mem => faithful.plain (List.dropLast_subset _ mem)

theorem faithful_kill {s : Cons} (faithful : Faithful s h) :
    Faithful { s with e := killLine s.buf s.w (s.e - s.w).toNat s.e } (h.note (.edited .kill)) := by
  have edit : edited (h.edits ++ [.kill]) = { edited h.edits with line := [] } := by
    rw [edited_snoc, Editor.edit]
  have all : killLine s.buf s.w (s.e - s.w).toNat s.e = s.w := by
    refine killLine_all (le_refl _) ?_
    rw [faithful.line]
    exact faithful.plain
  rw [all]
  refine ⟨?_, ?_, ?_, faithful.empty⟩
  · rw [History.note, edit]
    exact faithful.committed
  · rw [History.note, edit]
    exact between_self ..
  · rw [History.note, edit]
    exact List.not_mem_nil

/-- What the interrupt handler does is what the line editor does. -/
theorem consoleintr_faithful {s : Cons} (ordered : Ordered s) (faithful : Faithful s h) (c : UInt8) :
    Faithful (consoleintr s c).1 (match (consoleintr s c).2 with | some e => h.note (.edited e) | none => h) := by
  unfold consoleintr
  split
  · exact faithful
  split
  · exact faithful_kill faithful
  split
  · exact faithful_erase faithful
  split
  next room => exact faithful_char ordered faithful room.2 _
  · exact faithful

theorem faithful_take {s : Cons} (faithful : Faithful s h) (nonempty : s.r ≠ s.w) {c : UInt8} {more : Nat}
    (read : s.buf (slot INPUT_BUF_SIZE s.r) = c) (mark : more = if c = ctrlD then 1 else 0) :
    Faithful { s with r := s.r + 1 } { h with out := h.out ++ [c], empty := h.empty + more } := by
  refine ⟨?_, faithful.line, faithful.plain, ?_⟩
  · have committed := faithful.committed
    rw [between_pop nonempty, read] at committed
    rw [List.append_assoc]
    exact committed
  · rw [List.count_append, faithful.empty, mark, List.count_singleton]
    simp only [beq_iff_eq]

theorem act_faithful (fair : ∀ q, (s.thread q).fair) (ordered : Ordered s.cons) (faithful : Faithful s.cons h)
    (moved : act s a = some (t, e)) (valid : Valid s a t) : Faithful t.cons (observe s a t h) := by
  cases a with
  | typed c =>
    obtain ⟨cons, event⟩ := act_typed moved
    have after := consoleintr_faithful ordered faithful c
    unfold observe
    rw [moved, event, cons]
    cases edit : (consoleintr s.cons c).2 with
    | none =>
      rw [edit] at after
      exact after
    | some _ =>
      rw [edit] at after
      exact after
  | run p _ =>
    have round := act_run fair moved
    unfold observe
    rw [moved]
    cases round with
    | none same other =>
      rw [same]
      simp only [other]
      exact faithful
    | copied nonempty plain taken other =>
      rw [taken]
      simp only [other]
      exact faithful_take faithful nonempty rfl (if_neg plain).symm
    | ended nonempty mark taken zero =>
      rw [taken]
      simp only [zero]
      exact faithful_take faithful nonempty mark rfl
    | lost _ _ failed => exact absurd (failed.symm.trans valid) Bool.false_ne_true
  | consoleread p _ =>
    obtain ⟨cons, none⟩ := act_quiet moved (fun _ => by simp) fun _ _ => by simp
    unfold observe
    rw [moved, cons, none]
    exact faithful
  | acquire p =>
    obtain ⟨cons, none⟩ := act_quiet moved (fun _ => by simp) fun _ _ => by simp
    unfold observe
    rw [moved, cons, none]
    exact faithful
  | kill p =>
    obtain ⟨cons, none⟩ := act_quiet moved (fun _ => by simp) fun _ _ => by simp
    unfold observe
    rw [moved, cons, none]
    exact faithful

def erasing (c : UInt8) : Prop := c = ctrlH ∨ c = delete ∨ c = ctrlU

theorem erasing_uncommitted {s : Cons} {c : UInt8} (erases : erasing c) :
    ∃ e, (consoleintr s c).1 = { s with e := e } ∧ (e - s.w).toNat ≤ (s.e - s.w).toNat := by
  unfold consoleintr
  split
  next other =>
    rcases erases with rfl | rfl | rfl <;> exact absurd other (by decide)
  split
  · exact ⟨_, rfl, killLine_le ..⟩
  next other =>
    have key : c = ctrlH ∨ c = delete := by
      rcases erases with here | here | here
      · exact Or.inl here
      · exact Or.inr here
      · exact absurd here other
    rw [if_pos key]
    split
    next more =>
      have back := distance_back (Ne.symm more)
      exact ⟨_, rfl, by omega⟩
    · exact ⟨s.e, rfl, le_refl _⟩

end Keys

section Results

variable {buf : Nat → UInt8} {s : Sys}

theorem start_ordered : Ordered (start buf).cons := by
  refine ⟨le_refl _, ?_⟩
  show ((0 : BitVec 32) - 0).toNat ≤ INPUT_BUF_SIZE
  decide

/-- In every run the indices are in order; the keys that erase do not reach below the write index; and when
the readers' buffers are valid, what they have got, followed by what they can still get, are the lines that
a line editor would have committed, with one read of nothing for every `control-D` that is used up. -/
theorem console_input (run : Run (machine buf) s) (valid : run.Every Valid) :
    let h := run.fold observe ⟨[], [], 0⟩
    ((s.cons.w - s.cons.r).toNat ≤ (s.cons.e - s.cons.r).toNat ∧ (s.cons.e - s.cons.r).toNat ≤ INPUT_BUF_SIZE) ∧
      (∀ c, erasing c → ∃ e, (consoleintr s.cons c).1 = { s.cons with e := e } ∧
        (e - s.cons.w).toNat ≤ (s.cons.e - s.cons.w).toNat) ∧
      h.out ++ between INPUT_BUF_SIZE s.cons.buf s.cons.r s.cons.w = (edited h.edits).committed ∧
      h.empty = h.out.count ctrlD := by
  have idle : ∀ q, ((start buf).thread q).fair := fun _ => trivial
  have all : (∀ q, (s.thread q).fair) ∧ Ordered s.cons ∧ Faithful s.cons (run.fold observe ⟨[], [], 0⟩) := by
    refine Path.fold_invariant_under (P := Valid)
      (I := fun s h => (∀ q, (s.thread q).fair) ∧ Ordered s.cons ∧ Faithful s.cons h) (fun s a t h moved valid keeps => ?_)
      ⟨idle, start_ordered, ⟨?_, ?_, List.not_mem_nil, rfl⟩⟩ run valid
    · obtain ⟨⟨_, e⟩, acted, rfl⟩ := Option.map_eq_some_iff.mp moved
      exact ⟨act_fair keeps.1 acted, act_ordered keeps.1 keeps.2.1 acted,
        act_faithful keeps.1 keeps.2.1 keeps.2.2 acted valid⟩
    · exact between_self ..
    · exact between_self ..
  obtain ⟨_, ordered, faithful⟩ := all
  exact ⟨⟨ordered.order, ordered.bound⟩, fun c erases => erasing_uncommitted erases, faithful.committed, faithful.empty⟩

/-- `a`, `control-D`, and two reads: the second gets nothing. -/
theorem console_input_end_of_file : ∃ s, ∃ run : Run (machine fun _ => 0) s, run.Every Valid ∧
    s.thread 0 = .returned 10 0 ∧ s.cons.r = 2 ∧
    (run.fold observe ⟨[], [], 0⟩).out ++ between INPUT_BUF_SIZE s.cons.buf s.cons.r s.cons.w =
      (edited (run.fold observe ⟨[], [], 0⟩).edits).committed := by
  obtain ⟨s, run, valid, returned, taken⟩ := execUnder_path (M := machine fun _ => 0) (s := start fun _ => 0) (P := Valid)
    (Q := fun s => s.thread 0 = .returned 10 0 ∧ s.cons.r = 2)
    [.typed 97, .typed ctrlD, .consoleread 0 10, .acquire 0, .run 0 true, .run 0 true, .consoleread 0 10, .acquire 0,
      .run 0 true] (by decide +kernel)
  exact ⟨s, run, valid, returned, taken, (console_input run valid).2.2.1⟩

end Results

end Xv6Monitor.Streams.Editing
