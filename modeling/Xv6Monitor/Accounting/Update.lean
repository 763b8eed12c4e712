import Xv6Monitor.Process.Marks

/-! The clock handler seen from the process table: a tick, then one visit to each slot in turn.
Between its steps the other CPUs go on. -/

namespace Xv6Monitor.Accounting.Update
open Process Table Machine Step Moves Sections Lifecycle Children Locks Holding Marks

variable {C : Nat} {s t u : Sys C} {c : Fin C}

def visits : Call → Option Nat
  | .updateTime k => some k
  | _ => none

def cursor (calls : List Call) : Option Nat := calls.findSome? visits

theorem visits_lock (call : Call) (k : Nat) (found : visits call = some k) : callLock call = some .ticks := by
  cases call <;> first
    | rfl
    | cases found

theorem cursor_append (first second : List Call) :
    cursor (first ++ second) = (cursor first).or (cursor second) :=
  List.findSome?_append

def updateTime : Marker .ticks Nat where
  find frame := cursor frame.calls
  locked _ _ tidy found := pick_lock visits_lock tidy found

def updating (s : Sys C) : Option Nat := updateTime.current s

inductive Clockwork (s t : Sys C) : Prop where
  | idle (same : updating t = updating s) (ticks : t.ticks = s.ticks)
      (charged : ∀ q, (t.proc q).runTime ≤ (s.proc q).runTime)
  | tick (before : updating s = none) (after : updating t = some 0) (ticks : t.ticks = uint (s.ticks + 1))
      (table : t.proc = s.proc)
  | visit (q : Slot) (before : updating s = some q.val) (after : updating t = some (q.val + 1))
      (ticks : t.ticks = s.ticks)
      (entry : t.proc q = if (s.proc q).state = .running then (s.proc q).charge else s.proc q)
      (others : ∀ r, r ≠ q → t.proc r = s.proc r)
  | finish (k : Nat) (last : NPROC ≤ k) (before : updating s = some k) (after : updating t = none)
      (ticks : t.ticks = s.ticks) (table : t.proc = s.proc)

def clocks : Op → Bool
  | .tick | .charge _ => true
  | _ => false

theorem apply_clocks {op : Op} (plain : clocks op = false) (done : op.apply s c = some u) :
    u.ticks = s.ticks ∧ ∀ q, (u.proc q).runTime ≤ (s.proc q).runTime := by
  constructor
  · cases op <;> simp only [Op.apply, Option.some.injEq, Option.ite_none_right_eq_some] at done <;>
      (try obtain ⟨-, rfl⟩ := done)
    case sleep lk => cases lk <;> rfl
    case tick => cases plain
    all_goals rfl
  intro q
  rcases apply_writes done q with same | wrote
  · rw [same]
  generalize u.proc q = entry at wrote
  cases op <;> simp only [writes] at wrote <;>
    obtain ⟨rfl, rfl⟩ := wrote
  case charge => cases plain
  case kill => simp
  case alloc | allocFail | reap => exact Nat.zero_le _
  all_goals exact Nat.le_refl _

theorem callStep_clock {call : Call} {choice : Choice} {result : Section}
    (next : callStep s c call choice = some result) :
    (∃ q : Slot, call = .updateTime q.val ∧ result.calls = [.updateTime (q.val + 1)] ∧
      result.op = if (s.proc q).state = .running then .charge q else .look q) ∨
    (∃ k, call = .updateTime k ∧ NPROC ≤ k ∧ cursor result.calls = none ∧ result.op = .nop) ∨
    (call = .clockintr ∧ result.calls = [.updateTime 0] ∧ result.op = .tick) ∨
    (cursor [call] = none ∧ cursor result.calls = none ∧ clocks result.op = false) := by
  cases callStep_move next with
  | handler _ _ next =>
    cases call
    case updateTime =>
      simp only [handlerCall] at next
      split at next
      next absent =>
        cases next
        exact Or.inr (Or.inl ⟨_, rfl, slotAt_none absent, rfl, rfl⟩)
      next q found =>
        obtain rfl := slotAt_some found
        split at next
        next running =>
          cases next
          exact Or.inl ⟨q, rfl, rfl, (if_pos running).symm⟩
        next stopped =>
          cases next
          exact Or.inl ⟨q, rfl, rfl, (if_neg stopped).symm⟩
    case clockintr =>
      simp only [handlerCall] at next
      split at next <;> cases next
      · exact Or.inr (Or.inr (Or.inl ⟨rfl, rfl, rfl⟩))
      · exact Or.inr (Or.inr (Or.inr ⟨rfl, rfl, rfl⟩))
    all_goals
      simp only [handlerCall] at next
      repeat' split at next
      all_goals
        simp only [Option.some.injEq, reduceCtorEq] at next
        try subst next
        try exact Or.inr (Or.inr (Or.inr ⟨rfl, rfl, rfl⟩))
  | process p _ _ me next =>
    refine Or.inr (Or.inr (Or.inr ?_))
    cases call <;> simp only [processCall] at next <;> (repeat' split at next) <;>
      simp only [Option.some.injEq, reduceCtorEq] at next <;> subst next <;> exact ⟨rfl, rfl, rfl⟩
  | sleep p _ chan me outside =>
    rcases outside with rfl | rfl <;> exact Or.inr (Or.inr (Or.inr ⟨rfl, rfl, rfl⟩))
  | wakeup _ chan outside =>
    rcases outside with rfl | rfl | rfl <;> exact Or.inr (Or.inr (Or.inr ⟨rfl, rfl, rfl⟩))
  | allocFail | copyoutFail => exact Or.inr (Or.inr (Or.inr ⟨rfl, rfl, rfl⟩))

theorem baseStep_clock {p : Slot} {base after : Base} {choice : Choice} {op : Op} {calls : List Call}
    (next : baseStep s p base choice = some (after, op, calls)) :
    cursor calls = none ∧ clocks op = false := by
  unfold baseStep at next
  split at next <;> (try split at next) <;> (try split at next) <;>
    obtain ⟨rfl, rfl, rfl⟩ := next
  case h_3.isFalse call _ => cases call <;> exact ⟨rfl, rfl⟩
  all_goals exact ⟨rfl, rfl⟩

theorem apply_visit {q : Slot}
    (done : (if (s.proc q).state = .running then Op.charge q else .look q).apply s c = some u) :
    u.ticks = s.ticks ∧ u.proc q = (if (s.proc q).state = .running then (s.proc q).charge else s.proc q) ∧
    ∀ r, r ≠ q → u.proc r = s.proc r := by
  split at done
  next running =>
    simp only [Op.apply, Option.ite_none_right_eq_some, Option.some.injEq] at done
    obtain ⟨-, rfl⟩ := done
    exact ⟨rfl, by simp [running], fun r other => by simp [other]⟩
  next stopped =>
    simp only [Op.apply, Option.ite_none_right_eq_some, Option.some.injEq] at done
    obtain ⟨-, rfl⟩ := done
    exact ⟨rfl, by simp [stopped], fun r other => rfl⟩

theorem move_clockwork (inv : Coherent s) (locking : Locking s) (moved : Move s c t) : Clockwork s t := by
  have locking' := locking_move inv moved locking
  cases move_progress inv locking moved with
  | rest unlocked holders ticks _ entries =>
    refine .idle (updateTime.current_rest inv locking moved unlocked holders) ticks fun q => ?_
    rcases entries q with same | ⟨-, same⟩ | same | ⟨-, same⟩ <;> rw [same]
    · exact Nat.le_refl _
    · exact Nat.le_refl _
  | call _ base call rest choice result u before after next done shared =>
    have table : t.proc = u.proc := by rw [shared]
    have time : t.ticks = u.ticks := by rw [shared]
    have here : updateTime.find (frameOf s c) = (cursor [call]).or (cursor rest) := by
      rw [before, ← cursor_append]
      rfl
    have there : updateTime.find (frameOf t c) = (cursor result.calls).or (cursor rest) := by
      rw [after, ← cursor_append]
      rfl
    rcases callStep_clock next with ⟨q, rfl, new, op⟩ | ⟨k, rfl, last, new, op⟩ | ⟨rfl, new, op⟩ |
      ⟨own, new, plain⟩
    · obtain ⟨still, entry, frame⟩ := apply_visit (op ▸ done)
      refine .visit q (updateTime.current_some locking here) (updateTime.current_some (c := c) locking' ?_)
        (time.trans still) (by rw [table, entry]) (fun r other => by rw [table, frame r other])
      rw [there, new]
      rfl
    · rw [op] at done
      cases done
      have tidy := frame_tidy locking c
      rw [before] at tidy
      refine .finish k last (updateTime.current_some locking here) ?_ time table
      refine updateTime.current_left inv locking moved here ?_
      rw [there, new, show cursor rest = none from pick_rest visits_lock tidy (by simp)]
      rfl
    · rw [op] at done
      simp only [Op.apply, Option.ite_none_right_eq_some, Option.some.injEq] at done
      obtain ⟨free, rfl⟩ := done
      refine .tick (updateTime.current_none free) (updateTime.current_some (c := c) locking' ?_) time table
      rw [there, new]
      rfl
    · obtain ⟨still, charged⟩ := apply_clocks plain done
      refine .idle (updateTime.current_move inv locking moved ?_) (time.trans still) (by rw [table]; exact charged)
      rw [here, there, own, new]
  | base _ base next choice op _ u before after step done shared =>
    obtain ⟨new, plain⟩ := baseStep_clock step
    obtain ⟨still, charged⟩ := apply_clocks plain done
    have table : t.proc = u.proc := by rw [shared]
    have time : t.ticks = u.ticks := by rw [shared]
    refine .idle (updateTime.current_move inv locking moved ?_) (time.trans still) (by rw [table]; exact charged)
    rw [before, after]
    exact new

end Xv6Monitor.Accounting.Update
