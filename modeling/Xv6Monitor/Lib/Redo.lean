import Mathlib.Data.List.Basic

/-! Writes to a store, applied in order, and what a redo log rests on: carrying out all of a list of
writes gives the same store whatever part of the list was carried out before. -/

namespace Xv6Monitor.Lib.Redo
open Function

variable {ι β : Type} [DecidableEq ι]

def write : List (ι × β) → (ι → β) → ι → β
  | [], store => store
  | w :: rest, store => write rest (update store w.1 w.2)

@[simp] theorem write_nil (store : ι → β) : write [] store = store := rfl

@[simp] theorem write_cons (w : ι × β) (rest : List (ι × β)) (store : ι → β) :
    write (w :: rest) store = write rest (update store w.1 w.2) := rfl

theorem write_append (first second : List (ι × β)) (store : ι → β) :
    write (first ++ second) store = write second (write first store) := by
  induction first generalizing store with
  | nil => rfl
  | cons _ _ ih => exact ih _

variable {ws : List (ι × β)}

theorem write_other {a : ι} (untouched : ∀ w ∈ ws, w.1 ≠ a) (store : ι → β) : write ws store a = store a := by
  induction ws generalizing store with
  | nil => rfl
  | cons w _ ih =>
    rw [write_cons, ih fun v mem => untouched v (List.mem_cons_of_mem _ mem)]
    exact update_of_ne (Ne.symm (untouched w List.mem_cons_self)) ..

theorem write_congr {a : ι} {store store' : ι → β}
    (same : (∃ w ∈ ws, w.1 = a) ∨ store a = store' a) : write ws store a = write ws store' a := by
  induction ws generalizing store store' with
  | nil => exact same.elim (fun ⟨w, mem, _⟩ => absurd mem List.not_mem_nil) id
  | cons w _ ih =>
    refine ih ?_
    by_cases here : w.1 = a
    · subst here
      exact Or.inr (by simp)
    rcases same with ⟨v, mem, there⟩ | same
    · rcases List.mem_cons.mp mem with rfl | later
      · exact absurd there here
      · exact Or.inl ⟨v, later, there⟩
    · exact Or.inr (by simp [Ne.symm here, same])

theorem write_update {w : ι × β} (mem : w ∈ ws) (store : ι → β) :
    write ws (update store w.1 w.2) = write ws store := by
  funext a
  apply write_congr
  by_cases here : w.1 = a
  · exact Or.inl ⟨w, mem, here⟩
  · exact Or.inr (update_of_ne (Ne.symm here) ..)

theorem write_value {a : ι} {v : β} (written : ∃ w ∈ ws, w.1 = a)
    (agree : ∀ w ∈ ws, w.1 = a → w.2 = v) (store : ι → β) : write ws store a = v := by
  induction ws generalizing store with
  | nil =>
    obtain ⟨w, mem, -⟩ := written
    cases mem
  | cons w rest ih =>
    rw [write_cons]
    by_cases later : ∃ w ∈ rest, w.1 = a
    · exact ih later (fun v mem => agree v (List.mem_cons_of_mem _ mem)) _
    rw [write_other fun v mem there => later ⟨v, mem, there⟩]
    obtain ⟨v', mem, there⟩ := written
    rcases List.mem_cons.mp mem with rfl | deeper
    · rw [← there, update_self]
      exact agree v' List.mem_cons_self there
    · exact absurd ⟨v', deeper, there⟩ later

end Xv6Monitor.Lib.Redo
