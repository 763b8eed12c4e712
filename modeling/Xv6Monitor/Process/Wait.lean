import Xv6Monitor.Process.Family

/-! The returns of `wait`. It returns a pid exactly when it frees the zombie child with that pid,
and -1 without touching the table. -/

namespace Xv6Monitor.Process.Wait
open Table Machine Step Moves Sections Lifecycle Children Locks Holding Exits

variable {C : Nat} {s t u : Sys C} {c : Fin C}

/-- A call of `wait` that returns in a step of CPU `c`: the caller, the slot it stands at and
the value it returns. -/
def returned (s : Sys C) (c : Fin C) (t : Sys C) : Option (Slot × Nat × Int) :=
  (s.cpu c).cur.bind fun p =>
    match (s.thread p).calls with
    | .waitScan _ k _ :: rest =>
        if (t.thread p).calls = rest then some (p, k, (t.thread p).a0) else none
    | _ => none

/-- What a step does to zombies: one is freed exactly when `wait` returns its pid to its
parent, and a `wait` that returns -1 changes no entry. -/
structure Collects (s : Sys C) (c : Fin C) (t : Sys C) : Prop where
  freed : ∀ q, (s.proc q).state = .zombie → (t.proc q).state ≠ .zombie →
    (t.proc q).state = .unused ∧
    ∃ p, (s.proc q).parent = some p ∧ returned s c t = some (p, q.val, (s.proc q).pid)
  returns : ∀ p k value, returned s c t = some (p, k, value) →
    (value = -1 ∧ t.proc = s.proc) ∨
    ∃ q : Slot, q.val = k ∧ (s.proc q).state = .zombie ∧ (s.proc q).parent = some p ∧
      (s.proc q).pid = value ∧ (t.proc q).state = .unused ∧ ∀ r, r ≠ q → t.proc r = s.proc r

theorem callStep_wait {addr k : Nat} {havekids : Bool} {choice : Choice} {result : Section}
    (next : callStep s c (.waitScan addr k havekids) choice = some result) :
    (∃ q p, (s.cpu c).proc = some p ∧ slotAt k = some q ∧ (s.proc q).parent = some p ∧
      (s.proc q).state = .zombie ∧ result = ⟨.reap q, [], some (s.proc q).pid⟩) ∨
    (∃ inside, result = ⟨.releaseWait inside, [], some (-1)⟩) ∨ 
    ∃ call, result.calls = [call] := by
  cases callStep_move next with
  | handler _ _ next => simp [handlerCall] at next
  | process p _ _ me next =>
    simp only [processCall] at next
    repeat' split at next
    all_goals simp only [Option.some.injEq] at next; subst next
    · exact Or.inl ⟨_, p, me, ‹_›, ‹_›, ‹_›, rfl⟩
    · exact Or.inr (Or.inr ⟨_, rfl⟩)
    · exact Or.inr (Or.inr ⟨_, rfl⟩)
    · exact Or.inr (Or.inl ⟨_, rfl⟩)
    · exact Or.inr (Or.inl ⟨_, rfl⟩)
    · exact Or.inr (Or.inr ⟨_, rfl⟩)
  | sleep p _ chan me outside => rcases outside with same | same <;> cases same
  | wakeup _ chan outside => rcases outside with same | same | same <;> cases same
  | copyoutFail p _ addr k havekids me _ _ _ _ => exact Or.inr (Or.inl ⟨_, rfl⟩)

theorem callStep_reap {q : Slot} {call : Call} {choice : Choice} {result : Section}
    (next : callStep s c call choice = some result) (reaps : result.op = .reap q) :
    ∃ addr havekids, call = .waitScan addr q.val havekids ∧ result.calls = [] ∧
      result.ret = some (s.proc q).pid := by
  cases callStep_move next with
  | handler _ _ next => exact nomatch reaps ▸ (handlerCall_handles next).1
  | process _ _ _ _ next =>
    cases call <;> simp only [processCall] at next <;> (repeat' split at next) <;>
      simp only [Option.some.injEq, reduceCtorEq] at next <;> subst next <;> cases reaps
    rename_i found _ _
    exact ⟨_, _, by rw [slotAt_some found], rfl, rfl⟩
  | _ => cases reaps

theorem apply_reap {op : Op} (executing : Executing s c) (legal : Legal s c op)
    (done : op.apply s c = some u) {q : Slot} (zombie : (s.proc q).state = .zombie)
    (freed : (u.proc q).state ≠ .zombie) : op = .reap q := by
  rcases apply_writes done q with same | wrote
  · rw [same] at freed
    exact absurd zombie freed
  generalize u.proc q = entry at wrote freed
  cases op <;> simp only [writes, Option.some.injEq, Prod.mk.injEq] at wrote <;>
    obtain ⟨rfl, rfl⟩ := wrote <;> simp only [Legal] at legal
  case reap => rfl
  case sleep p chan lk => simp [(executing p legal).1] at zombie
  case zombie p status => simp [(executing p legal).1] at zombie
  all_goals simp_all

theorem baseStep_reap {p q : Slot} {base after : Base} {choice : Choice} {calls : List Call} :
    baseStep s p base choice ≠ some (after, .reap q, calls) := by
  intro next
  unfold baseStep at next
  split at next <;> (try split at next) <;> (try split at next) <;>
    simp only [Option.some.injEq, Prod.mk.injEq, reduceCtorEq, false_and, and_false] at next

theorem move_freed (inv : Coherent s) (moved : Move s c t) {q : Slot} (zombie : (s.proc q).state = .zombie)
    (freed : (t.proc q).state ≠ .zombie) :
    (t.proc q).state = .unused ∧
    ∃ p, (s.proc q).parent = some p ∧ returned s c t = some (p, q.val, (s.proc q).pid) := by
  cases move_change inv moved with
  | frame entries =>
    rcases entries q with same | ⟨ready, -⟩ | same | ⟨running, -⟩
    · rw [same] at freed
      exact absurd zombie freed
    · rw [zombie] at ready
      cases ready
    · rw [same] at freed
      exact absurd zombie freed
    · rw [zombie] at running
      cases running
  | op op _ executing legal done table source =>
    rw [table] at freed
    obtain rfl := apply_reap executing legal done zombie freed
    obtain ⟨-, _, on', parent⟩ := legal
    have unused : (t.proc q).state = .unused := by
      simp only [Op.apply, Option.ite_none_right_eq_some, Option.some.injEq] at done
      obtain ⟨-, rfl⟩ := done
      rw [table]
      simp [Proc.freeproc]
    generalize reaps : Op.reap q = op at source
    cases source with
    | handler call rest choice result idle top next =>
      rw [idle] at on'
      cases on'
    | call p call rest choice result on top next calls value =>
      obtain ⟨_, _, rfl, empty, pid⟩ := callStep_reap next reaps.symm
      rw [empty] at calls
      rw [pid] at value
      rw [Option.some.inj (on'.symm.trans on)] at parent
      exact ⟨unused, p, parent, by simp [returned, on, top, calls, value]⟩
    | base p choice op on empty next =>
      rw [← reaps] at next
      exact absurd next baseStep_reap

theorem returned_some {p : Slot} {k : Nat} {value : Int} (returns : returned s c t = some (p, k, value)) :
    (s.cpu c).cur = some p ∧ (t.thread p).a0 = value ∧
      ∃ addr havekids, (s.thread p).calls = .waitScan addr k havekids :: (t.thread p).calls := by
  obtain ⟨_, on, returns⟩ := Option.bind_eq_some_iff.mp returns
  split at returns
  next addr _ havekids _ top =>
    obtain ⟨popped, ⟨⟩⟩ := Option.ite_none_right_eq_some.mp returns
    exact ⟨on, rfl, addr, havekids, by rw [popped, top]⟩
  next => cases returns

theorem move_returned (inv : Coherent s) (locking : Locking s) (moved : Move s c t) {p : Slot} {k : Nat}
    {value : Int} (returns : returned s c t = some (p, k, value)) :
    (value = -1 ∧ t.proc = s.proc) ∨
    ∃ q : Slot, q.val = k ∧ (s.proc q).state = .zombie ∧ (s.proc q).parent = some p ∧
      (s.proc q).pid = value ∧ (t.proc q).state = .unused ∧ ∀ r, r ≠ q → t.proc r = s.proc r := by
  obtain ⟨on, result, addr, havekids, popped⟩ := returned_some returns
  cases moved with
  | interruptIdle cause off idle | sched t idle | idleCall call rest choice result u idle =>
    rw [idle] at on
    cases on
  | interruptUser cause r off here running user quiet =>
    obtain rfl := Option.some.inj (here.symm.trans on)
    have := congrArg List.length popped
    simp at this
    omega
  | interruptKernel cause r off here running kernel enabled quiet =>
    obtain rfl := Option.some.inj (here.symm.trans on)
    have longer := congrArg List.length popped
    simp at longer
    omega
  | switch r t here moved =>
    obtain rfl := Option.some.inj (here.symm.trans on)
    have unlocked := (locking.threads r).parked (switch_phase moved)
    rw [threadLock, popped] at unlocked
    cases unlocked
  | call r call rest choice result u here running top next done =>
    obtain rfl := Option.some.inj (here.symm.trans on)
    rw [top] at popped
    obtain ⟨rfl, calls⟩ := List.cons.inj popped
    have legal := inv.call_legal on top next
    rcases callStep_wait next with ⟨q, p', me, found, parent, zombie, rfl⟩ | ⟨inside, rfl⟩ | ⟨call, new⟩
    · obtain ⟨-, p', on', parent⟩ := legal
      obtain rfl := Option.some.inj (on'.symm.trans on)
      simp only [Op.apply, Option.ite_none_right_eq_some, Option.some.injEq] at done
      obtain ⟨-, rfl⟩ := done
      refine Or.inr ⟨q, (slotAt_some found).symm, zombie, parent, by simpa using result, ?_, ?_⟩
      · simp [Proc.freeproc]
      · intro r' other
        simp [other]
    · simp only [Op.apply, Option.ite_none_right_eq_some, Option.some.injEq] at done
      obtain ⟨-, rfl⟩ := done
      exact Or.inl ⟨by simpa using result.symm, rfl⟩
    · have longer := congrArg List.length calls
      simp [new] at longer
  | base r choice base _ calls u here running empty next done =>
    obtain rfl := Option.some.inj (here.symm.trans on)
    rw [empty] at popped
    cases popped

theorem move_collects (inv : Coherent s) (locking : Locking s) (moved : Move s c t) : Collects s c t where
  freed _ zombie freed := move_freed inv moved zombie freed
  returns _ _ _ returns := move_returned inv locking moved returns

end Xv6Monitor.Process.Wait
