import Xv6Monitor.Streams.Consoles

/-! What the steps of the console do to its buffer: a round of a read takes one byte at most, and the indices
stay in order. -/

namespace Xv6Monitor.Streams.Reading
open Function Lib.Ring Consoles

section Readers

/-- What a round of `consoleread` does to the buffer, and whether it makes the call return nothing. -/
inductive Round (s t : Cons) (copyout nothing : Bool) : Option Event → Prop where
  | none (same : t = s) (other : nothing = false) : Round s t copyout nothing none
  | copied (nonempty : s.r ≠ s.w) (plain : s.buf (slot INPUT_BUF_SIZE s.r) ≠ ctrlD) (moved : t = { s with r := s.r + 1 })
      (other : nothing = false) : Round s t copyout nothing (some (.copied (s.buf (slot INPUT_BUF_SIZE s.r))))
  | ended (nonempty : s.r ≠ s.w) (mark : s.buf (slot INPUT_BUF_SIZE s.r) = ctrlD) (moved : t = { s with r := s.r + 1 })
      (zero : nothing = true) : Round s t copyout nothing (some .ended)
  | lost (nonempty : s.r ≠ s.w) (moved : t = { s with r := s.r + 1 }) (failed : copyout = false) :
      Round s t copyout nothing (some (.lost (s.buf (slot INPUT_BUF_SIZE s.r))))

variable {s t : Sys} {p : Nat} {target n : Int} {copyout : Bool} {a : Action} {e : Option Event}

theorem put_self (s : Sys) (p : Nat) (r : Thread) : (s.put p r).thread p = r := update_self ..

theorem leave_self (s : Sys) (p : Nat) (r : Thread) : (s.leave p r).thread p = r := update_self ..

theorem nothing_returned {r : Int} (some : r ≠ 0) : (Thread.returned n r).nothing = false := by
  unfold Thread.nothing
  split
  next here =>
    cases here
    exact absurd rfl some
  · rfl

theorem runRead_round (s : Sys) (p : Nat) (copyout : Bool) (fair : n ≤ target) :
    Round s.cons (runRead s p target n copyout).1.cons copyout ((runRead s p target n copyout).1.thread p).nothing
      (runRead s p target n copyout).2 := by
  unfold runRead
  split
  next more =>
    split
    · split
      · refine .none rfl ?_
        rw [leave_self]
        exact nothing_returned (by decide)
      · refine .none rfl ?_
        rw [leave_self]
        rfl
    next nonempty =>
      dsimp only
      split
      next mark =>
        split
        next less =>
          refine .none ?_ ?_
          · show { s.cons with r := s.cons.r + 1 - 1 } = s.cons
            rw [add_sub_cancel_right]
          · rw [leave_self]
            exact nothing_returned (by omega)
        next least =>
          refine .ended nonempty mark rfl ?_
          have same : target - n = 0 := by omega
          rw [leave_self, same]
          exact decide_eq_true (by omega)
      next plain =>
        split
        · split
          · refine .copied nonempty plain rfl ?_
            rw [leave_self]
            exact nothing_returned (by omega)
          · refine .copied nonempty plain rfl ?_
            rw [put_self]
            rfl
        next failed => exact .lost nonempty rfl (Bool.not_eq_true _ ▸ failed)
  next less =>
    refine .none rfl ?_
    rw [leave_self]
    by_cases zero : target - n = 0
    · rw [zero]
      exact decide_eq_false (by omega)
    · exact nothing_returned zero

theorem fair_update {thread : Nat → Thread} {r : Thread} (fair : ∀ q, (thread q).fair) (here : r.fair) (q : Nat) :
    (update thread p r q).fair := by
  by_cases same : q = p
  · rw [same, update_self]
    exact here
  · rw [update_of_ne same]
    exact fair q

theorem fair_wake {r : Thread} (fair : r.fair) : r.wake.fair := by
  cases r <;> exact fair

theorem runRead_fair (p : Nat) (copyout : Bool) (fair : ∀ q, (s.thread q).fair) (mine : n ≤ target) :
    ∀ q, ((runRead s p target n copyout).1.thread q).fair := by
  unfold runRead
  split
  · split
    · split
      · exact fair_update fair trivial
      · exact fair_update fair mine
    dsimp only
    split
    · split <;> exact fair_update fair trivial
    split
    · split
      · exact fair_update fair trivial
      · exact fair_update fair (show n - 1 ≤ target by omega)
    · exact fair_update fair trivial
  · exact fair_update fair trivial

theorem act_fair (fair : ∀ q, (s.thread q).fair) (moved : act s a = some (t, e)) : ∀ q, (t.thread q).fair := by
  cases a with
  | typed c =>
    unfold act at moved
    obtain ⟨-, ⟨⟩⟩ := Option.ite_none_right_eq_some.mp moved
    unfold Sys.wakeup
    split
    · split
      · exact fun q => fair_wake (fair q)
      · exact fair
    · exact fair
  | consoleread p n =>
    unfold act at moved
    dsimp only at moved
    split at moved
    · cases moved
      exact fair_update fair (le_refl n)
    · cases moved
      exact fair_update fair (le_refl n)
    · exact nomatch moved
  | acquire p =>
    unfold act at moved
    dsimp only at moved
    split at moved
    next target n here _ =>
      cases moved
      have mine := fair p
      rw [here] at mine
      exact fair_update fair mine
    · exact nomatch moved
  | run p copyout =>
    unfold act at moved
    dsimp only at moved
    split at moved
    next target n here =>
      have mine := fair p
      rw [here] at mine
      have round := runRead_fair p copyout fair mine
      rw [Option.some.inj moved] at round
      exact round
    · exact nomatch moved
  | kill p =>
    cases moved
    exact fair_update fair (fair_wake (fair p))

end Readers

section Runs

variable {s t : Sys} {a : Action} {e : Option Event} {h : History}

theorem wakeup_cons (s : Sys) (edit : Option Edit) : (s.wakeup edit).cons = s.cons := by
  unfold Sys.wakeup
  split
  · split <;> rfl
  · rfl

theorem act_quiet (moved : act s a = some (t, e)) (noChar : ∀ c, a ≠ .typed c) (noRound : ∀ p copyout, a ≠ .run p copyout) :
    t.cons = s.cons ∧ e = none := by
  cases a with
  | typed c => exact absurd rfl (noChar c)
  | run p copyout => exact absurd rfl (noRound p copyout)
  | consoleread p n =>
    unfold act at moved
    dsimp only at moved
    split at moved
    · cases moved
      exact ⟨rfl, rfl⟩
    · cases moved
      exact ⟨rfl, rfl⟩
    · exact nomatch moved
  | acquire p =>
    unfold act at moved
    dsimp only at moved
    split at moved
    · cases moved
      exact ⟨rfl, rfl⟩
    · exact nomatch moved
  | kill p =>
    cases moved
    exact ⟨rfl, rfl⟩

theorem act_typed {c : UInt8} (moved : act s (.typed c) = some (t, e)) :
    t.cons = (consoleintr s.cons c).1 ∧ e = (consoleintr s.cons c).2.map .edited := by
  unfold act at moved
  obtain ⟨-, ⟨⟩⟩ := Option.ite_none_right_eq_some.mp moved
  exact ⟨wakeup_cons .., rfl⟩

theorem act_run {p : Nat} {copyout : Bool} (fair : ∀ q, (s.thread q).fair) (moved : act s (.run p copyout) = some (t, e)) :
    Round s.cons t.cons copyout (t.thread p).nothing e := by
  unfold act at moved
  dsimp only at moved
  split at moved
  next here =>
    have mine := fair p
    rw [here] at mine
    have round := runRead_round s p copyout mine
    rw [Option.some.inj moved] at round
    exact round
  · exact nomatch moved

theorem act_ordered (fair : ∀ q, (s.thread q).fair) (ordered : Ordered s.cons) (moved : act s a = some (t, e)) :
    Ordered t.cons := by
  cases a with
  | typed c =>
    rw [(act_typed moved).1]
    exact consoleintr_ordered ordered c
  | run p _ =>
    cases act_run fair moved with
    | none same _ =>
      rw [same]
      exact ordered
    | copied nonempty _ taken _ | ended nonempty _ taken _ | lost nonempty taken _ =>
      rw [taken]
      exact ordered.take nonempty
  | consoleread p _ =>
    rw [(act_quiet moved (fun _ => by simp) fun _ _ => by simp).1]
    exact ordered
  | acquire p =>
    rw [(act_quiet moved (fun _ => by simp) fun _ _ => by simp).1]
    exact ordered
  | kill p =>
    rw [(act_quiet moved (fun _ => by simp) fun _ _ => by simp).1]
    exact ordered

end Runs

end Xv6Monitor.Streams.Reading
