import Mathlib.Data.Prod.Lex
import Mathlib.Order.Fin.Basic

/-! A scan over a table that carries along the best entry met so far. The entries may be
ready or not, and their keys are compared strictly, so that the first of several least
entries wins. -/

namespace Xv6Monitor.Lib.Selection

variable {n : Nat} {K : Type} [LinearOrder K] {ready ready' : Fin n → Prop} {key key' : Fin n → K}
  {k : Nat} {cand : Option (Fin n)} {q : Fin n}

/-- The candidate is the first ready entry with the least key below position `k`. -/
def Least (ready : Fin n → Prop) (key : Fin n → K) (k : Nat) : Option (Fin n) → Prop
  | none => ∀ r, r.val < k → ¬ready r
  | some q => ready q ∧ q.val < k ∧
      ∀ r, r.val < k → ready r → toLex (key q, q) ≤ toLex (key r, r)

theorem least_start : Least ready key 0 none := fun r below => absurd below (Nat.not_lt_zero r.val)

theorem Least.skip (least : Least ready key q.val cand)
    (worse : ¬(ready q ∧ ∀ old ∈ cand, key q < key old)) : Least ready key (q.val + 1) cand := by
  have split : ∀ r : Fin n, r.val < q.val + 1 → r.val < q.val ∨ r = q := by
    intro r below
    rcases Nat.lt_succ_iff_lt_or_eq.mp below with earlier | same
    · exact Or.inl earlier
    · exact Or.inr (Fin.ext same)
  cases cand with
  | none =>
    intro r below here
    rcases split r below with earlier | rfl
    · exact least r earlier here
    · exact worse ⟨here, by simp⟩
  | some old =>
    obtain ⟨chosen, before, best⟩ := least
    refine ⟨chosen, Nat.lt_succ_of_lt before, ?_⟩
    intro r below here
    rcases split r below with earlier | rfl
    · exact best r earlier here
    have larger : ¬key r < key old := fun smaller => worse ⟨here, by simpa using smaller⟩
    rw [Prod.Lex.toLex_le_toLex]
    rcases lt_or_eq_of_le (not_lt.mp larger) with less | same
    · exact Or.inl less
    · exact Or.inr ⟨same, Fin.le_def.mpr before.le⟩

theorem Least.take (least : Least ready key q.val cand) (here : ready q)
    (better : ∀ old ∈ cand, key q < key old) : Least ready key (q.val + 1) (some q) := by
  refine ⟨here, Nat.lt_succ_self q.val, ?_⟩
  intro r below other
  rcases Nat.lt_succ_iff_lt_or_eq.mp below with earlier | same
  · cases cand with
    | none => exact absurd other (least r earlier)
    | some old =>
      have smaller : toLex (key q, q) < toLex (key old, old) :=
        Prod.Lex.toLex_lt_toLex.mpr (Or.inl (better old rfl))
      exact (smaller.trans_le (least.2.2 r earlier other)).le
  · rw [Fin.ext same]

theorem Least.change (least : Least ready key k cand)
    (passed : ∀ r, r.val < k → ready' r → ready r ∧ key' r = key r)
    (kept : ∀ q ∈ cand, ready' q) : Least ready' key' k cand := by
  rcases cand with _ | q
  · exact fun r below here => least r below (passed r below here).1
  obtain ⟨-, before, best⟩ := least
  refine ⟨kept q rfl, before, ?_⟩
  intro r below here
  rw [(passed r below here).2, (passed q before (kept q rfl)).2]
  exact best r below (passed r below here).1

theorem Least.minimal (least : Least ready key k (some q)) (last : n ≤ k) {r : Fin n} (here : ready r) :
    toLex (key q, q) ≤ toLex (key r, r) :=
  least.2.2 r (lt_of_lt_of_le r.isLt last) here

end Xv6Monitor.Lib.Selection
