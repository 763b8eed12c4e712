import Xv6Monitor.Process.Exits
import Xv6Monitor.Process.Holding
import Xv6Monitor.Scheduler.Policy

/-! Pending yields. The timer, `setpriority` and `setscheduler` put a `yield` on the stack of the
executing thread, which under PRIORITY stays there until the process gives up its CPU. -/

namespace Xv6Monitor.Scheduler.Yielding
open Process.Table Process.Machine Process.Step Process.Moves Process.Sections
open Process.Lifecycle Process.Children Process.Invariant
open Process.Holding Process.Stacks Process.Exits Policy

variable {C : Nat} {s t u : Sys C} {c : Fin C} {p q r : Slot}

def yields : Call → Bool
  | .yield | .setpriorityYield | .kerneltrap .timer => true
  | _ => false

def dueAt (base : Base) (calls : List Call) : Bool :=
  stage base ≠ 0 || base = .usertrapTail .timer || calls.any yields

/-- The thread gives up its CPU before it returns to user mode, or does not return there. -/
def due (thread : Thread) : Bool := thread.phase = .yielding || dueAt thread.base thread.calls

variable {base : Base} {calls : List Call}

theorem dueAt_push (pending : dueAt base calls = true) (more : List Call) :
    dueAt base (more ++ calls) = true := by
  simp only [dueAt, List.any_append, Bool.or_eq_true] at pending ⊢
  tauto

variable {call : Call}

theorem yields_call (pending : yields call = true) :
    call = .yield ∨ call = .setpriorityYield ∨ call = .kerneltrap .timer := by
  unfold yields at pending
  split at pending <;> simp_all

variable {choice : Choice} {result : Section}

theorem yields_move (next : callStep s c call choice = some result) (pending : yields call = true) :
    handlerCall s c call = some result ∨ ∃ p, processCall s p call = some result := by
  cases callStep_move next with
  | handler _ _ next => exact Or.inl next
  | process p _ _ me next => exact Or.inr ⟨p, next⟩
  | sleep p _ chan me outside => rcases outside with rfl | rfl <;> cases pending
  | wakeup _ chan outside => rcases outside with rfl | rfl | rfl <;> cases pending
  | allocFail | copyoutFail => cases pending

theorem callStep_yields (mode : s.schedMode = .priority)
    (named : (s.cpu c).proc ≠ none) (next : callStep s c call choice = some result)
    (pending : yields call = true) :
    result.calls.any yields = true ∨ leaves result.op = true := by
  rcases yields_call pending with rfl | rfl | rfl <;> rcases yields_move next pending with next | ⟨p, next⟩ <;>
    simp only [handlerCall, processCall, mode, named, reduceCtorEq, reduceIte, ne_eq, not_false_eq_true,
      and_self, Option.some.injEq] at next <;> subst next
  · exact Or.inr rfl
  · exact Or.inl rfl
  · exact Or.inl rfl

variable {op : Op}

theorem baseStep_due {after : Base}
    (next : baseStep s p base choice = some (after, op, calls)) (pending : dueAt base [] = true) :
    dueAt after calls = true := by
  unfold baseStep at next
  split at next <;> (try split at next) <;> (try split at next) <;>
    obtain ⟨rfl, rfl, rfl⟩ := next <;> simp_all [dueAt, stage, yields]

def alters : Op → Bool
  | .setPriority _ _ | .setMode _ => true
  | _ => false

theorem callStep_alters (next : callStep s c call choice = some result) :
    alters result.op = false ∨ result.calls.any yields = true := by
  cases callStep_move next with
  | handler _ _ next =>
    cases call <;> simp only [handlerCall] at next <;> (repeat' split at next) <;>
      simp only [Option.some.injEq, reduceCtorEq] at next <;> subst next <;> exact Or.inl rfl
  | process _ _ _ _ next =>
    cases call <;> simp only [processCall] at next <;> (repeat' split at next) <;>
      simp only [Option.some.injEq, reduceCtorEq] at next <;> subst next <;> first
        | exact Or.inl rfl
        | exact Or.inr rfl
  | sleep | wakeup | allocFail | copyoutFail => exact Or.inl rfl

theorem baseStep_alters {after : Base}
    (next : baseStep s p base choice = some (after, op, calls)) : alters op = false := by
  unfold baseStep at next
  split at next <;> (try split at next) <;> (try split at next) <;>
    obtain ⟨-, rfl, -⟩ := next <;> rfl

theorem apply_policy (legal : Legal s c op) (plain : alters op = false)
    (done : op.apply s c = some u) : u.schedMode = s.schedMode ∧ ∀ r, (s.proc r).state ≠ .unused →
      (u.proc r).state ≠ .unused → (u.proc r).priority = (s.proc r).priority := by
  constructor
  · cases op <;> simp only [Op.apply, Option.some.injEq, Option.ite_none_right_eq_some] at done <;>
      (try obtain ⟨-, rfl⟩ := done)
    case setMode => cases plain
    case sleep lk => cases lk <;> rfl
    all_goals rfl
  intro r live after
  rcases apply_writes done r with same | wrote
  · rw [same]
  generalize u.proc r = entry at wrote after
  cases op <;> simp only [writes] at wrote <;>
    obtain ⟨rfl, rfl⟩ := wrote <;> simp only [Legal] at legal
  case setPriority => cases plain
  case alloc | allocFail => exact absurd legal live
  case reap => exact absurd rfl after
  case kill => simp
  all_goals rfl

/-- A step keeps the policy and the priorities, or it is followed by a `yield`. -/
theorem move_policy (inv : Coherent s) (moved : Move s c t) :
    (t.schedMode = s.schedMode ∧ ∀ r, (s.proc r).state ≠ .unused → (t.proc r).state ≠ .unused →
      (t.proc r).priority = (s.proc r).priority) ∨
    ∃ p, (t.cpu c).cur = some p ∧ due (t.thread p) = true := by
  by_cases idle : (s.cpu c).cur = none
  · obtain ⟨mode, priorities⟩ := idle_policy inv moved idle
    exact Or.inl ⟨mode, fun r _ _ => priorities r⟩
  cases moved with
  | interruptIdle _ _ idle' | sched _ idle' | idleCall _ _ _ _ _ idle' => exact absurd idle' idle
  | interruptUser | interruptKernel => exact Or.inl ⟨rfl, fun r _ _ => rfl⟩
  | switch p t on moved =>
    refine Or.inl ⟨?_, fun r _ _ => ?_⟩
    · generalize (s.thread p).phase = phase at moved
      cases moved <;> rfl
    · rcases switch_entry inv.owned on moved r with same | same | ⟨-, same⟩ <;> rw [same]
      rfl
  | call p call _ choice _ u on running top next done =>
    rcases callStep_alters next with plain | yielding
    · have kept := apply_policy (inv.call_legal on top next) plain done
      exact Or.inl kept
    · refine Or.inr ⟨p, by simp [apply_cpu done, on], ?_⟩
      simp [due, dueAt, yielding]
  | base p choice base _ _ u on running _ next done =>
    have kept := apply_policy (baseStep_legal on next) (baseStep_alters next) done
    exact Or.inl kept

theorem leaves_stops (legal : Legal s c op) (done : op.apply s c = some u) (left : leaves op = true)
    (on : (s.cpu c).cur = some p) : (u.proc p).state ≠ .running ∨ (u.thread p).phase = .yielding := by
  cases op <;> cases left <;>
    simp only [Op.apply, Option.ite_none_right_eq_some, Option.some.injEq] at done <;>
    obtain ⟨-, rfl⟩ := done <;> obtain rfl := Option.some.inj (on.symm.trans legal) <;>
    simp [Sys.leave, Proc.sleepOn, Proc.zombify]

theorem dueAt_call {rest : List Call} (mode : s.schedMode = .priority) (named : (s.cpu c).proc ≠ none)
    (next : callStep s c call choice = some result) (stays : leaves result.op = false)
    (pending : dueAt base (call :: rest) = true) : dueAt base (result.calls ++ rest) = true := by
  rw [dueAt, List.any_cons] at pending
  rw [dueAt, List.any_append]
  cases own : yields call with
  | false =>
    rw [own] at pending
    simp only [Bool.or_eq_true] at pending ⊢
    tauto
  | true =>
    rcases callStep_yields mode named next own with handed | left
    · simp [handed]
    · rw [stays] at left
      cases left

theorem yielding_move (inv : Coherent s) (moved : Move s c t) (running : (s.proc p).state = .running)
    (still : (t.proc p).state = .running) (yielding : (s.thread p).phase = .yielding) :
    (t.thread p).phase = .yielding := by
  by_cases on : (s.cpu c).cur = some p
  · cases moved with
    | interruptIdle _ _ idle | sched _ idle | idleCall _ _ _ _ _ idle => cases idle.symm.trans on
    | interruptUser _ q _ here phase | interruptKernel _ q _ here phase | call q _ _ _ _ _ here phase
    | base q _ _ _ _ _ here phase =>
      obtain rfl := Option.some.inj (here.symm.trans on)
      cases phase.symm.trans yielding
    | switch q t here moved =>
      obtain rfl := Option.some.inj (here.symm.trans on)
      rw [yielding] at moved
      cases moved
      simp [Proc.makeRunnable] at still
  · rcases move_thread inv moved on with same | ⟨unused, -⟩
    · rw [same, yielding]
    · cases unused.symm.trans running

/-- In PRIORITY mode a pending `yield` stays pending while the process runs. -/
theorem due_move (inv : Coherent s) (locking : Locking s) (moved : Move s c t) (mode : s.schedMode = .priority)
    (running : (s.proc p).state = .running) (still : (t.proc p).state = .running)
    (pending : due (s.thread p) = true) : due (t.thread p) = true := by
  simp only [due, Bool.or_eq_true, decide_eq_true_eq] at pending ⊢
  rcases pending with yielding | pending
  · exact Or.inl (yielding_move inv moved running still yielding)
  cases move_stacked inv moved p with
  | keep base calls => exact Or.inr (by rw [base, calls, pending])
  | born unused _ =>
    rw [unused] at running
    cases running
  | start on parked base calls =>
    rw [(locking.threads p).started (by rw [parked]; rfl)] at pending
    cases pending
  | trap on cause user base calls =>
    have yielding : (s.thread p).calls.any yields = true := by
      simpa [dueAt, user, stage] using pending
    simp [dueAt, calls, yielding]
  | interrupt on cause base calls =>
    rw [base, calls]
    exact Or.inr (dueAt_push pending [handler cause, .kerneltrap cause])
  | call on call _ choice result u top next done table base calls _ phase =>
    have named : (s.cpu c).proc ≠ none := by
      rw [inv.myproc (Or.inl (by simp [on])), on]
      simp
    cases left : leaves result.op with
    | true =>
      rw [table] at still
      rw [phase]
      exact Or.inl ((leaves_stops (inv.call_legal on top next) done left on).resolve_left (absurd still))
    | false =>
      rw [base, calls]
      rw [top] at pending
      exact Or.inr (dueAt_call mode named next left pending)
  | base on running empty choice _ u next done table =>
    rw [empty] at pending
    exact Or.inr (baseStep_due next pending)

end Xv6Monitor.Scheduler.Yielding
