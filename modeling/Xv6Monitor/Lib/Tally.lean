import Mathlib.Algebra.BigOperators.Pi
import Mathlib.Algebra.Order.BigOperators.Group.Finset
import Mathlib.Algebra.BigOperators.Ring.Finset
import Mathlib.Algebra.Order.Ring.Int
import Mathlib.Tactic.Abel

/-! Counting pointers: how many cells of a table point to each object. A cell that is rewritten moves one
unit of the count from its old object to the new one. -/

namespace Xv6Monitor.Lib.Tally
open Function

variable {ι κ : Type} [Fintype ι] [DecidableEq ι] [DecidableEq κ]

/-- The count of one cell. -/
def token : Option κ → κ → Int
  | none => 0
  | some e => Pi.single e 1

def tally (ptr : ι → Option κ) : κ → Int := ∑ i, token (ptr i)

@[simp] theorem token_none : token (none : Option κ) = 0 := rfl

@[simp] theorem token_some (e : κ) : token (some e) = Pi.single e 1 := rfl

omit [DecidableEq ι] in
theorem tally_apply (ptr : ι → Option κ) (e : κ) : tally ptr e = (Finset.univ.filter fun i => ptr i = some e).card := by
  have each : ∀ i, token (ptr i) e = if ptr i = some e then 1 else 0 := by
    intro i
    cases ptr i with
    | none => simp
    | some _ =>
      rw [token_some, Pi.single_apply]
      exact if_congr (by rw [Option.some_inj, eq_comm]) rfl rfl
  rw [tally, Finset.sum_apply, Finset.sum_congr rfl fun i _ => each i, Finset.sum_boole]

theorem tally_update (ptr : ι → Option κ) (i : ι) (new : Option κ) :
    tally (update ptr i new) = tally ptr - token (ptr i) + token new := by
  have split : ∀ f : ι → Option κ, tally f = token (f i) + ∑ j ∈ Finset.univ.erase i, token (f j) := by
    intro f
    exact (Finset.add_sum_erase _ (fun j => token (f j)) (Finset.mem_univ i)).symm
  have rest : ∑ j ∈ Finset.univ.erase i, token (update ptr i new j) =
      ∑ j ∈ Finset.univ.erase i, token (ptr j) := by
    refine Finset.sum_congr rfl fun j mem => ?_
    rw [update_of_ne (Finset.ne_of_mem_erase mem)]
  rw [split (update ptr i new), rest, update_self, split ptr]
  abel

theorem tally_replace (ptr : ι → Option κ) (i : ι) (new : Option κ) (extra : κ → Int) :
    tally (update ptr i new) + (extra + token (ptr i) - token new) = tally ptr + extra := by
  rw [tally_update]
  abel

omit [DecidableEq ι] in
theorem tally_nonneg (ptr : ι → Option κ) (e : κ) : 0 ≤ tally ptr e := by
  rw [tally_apply]
  exact Int.natCast_nonneg _

omit [DecidableEq ι] in
theorem tally_pos {ptr : ι → Option κ} {i : ι} {e : κ} (points : ptr i = some e) : 0 < tally ptr e := by
  rw [tally_apply]
  exact Int.natCast_pos.mpr (Finset.card_pos.mpr ⟨i, Finset.mem_filter.mpr ⟨Finset.mem_univ i, points⟩⟩)

end Xv6Monitor.Lib.Tally
