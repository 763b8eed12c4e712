import Xv6Monitor.Process.Moves

/-! What the code has established when it starts an operation: the test it made on the
entry it is about to change, the identity of the caller, the child a `fork` in
progress owns. -/

namespace Xv6Monitor.Process.Sections
open Table Machine Step

variable {C : Nat} {s t : Sys C} {c : Fin C}

def childOf : Call → Option Slot
  | .allocTime np _ | .forkParent np _ | .forkRunnable np _ => some np
  | _ => none

def children (calls : List Call) : List Slot := calls.filterMap childOf

@[simp] theorem children_nil : children [] = [] := rfl

@[simp] theorem children_append (first second : List Call) :
    children (first ++ second) = children first ++ children second :=
  List.filterMap_append

@[simp] theorem children_cons (call : Call) (rest : List Call) :
    children (call :: rest) = (childOf call).toList ++ children rest := by
  unfold children
  cases child : childOf call with
  | none => simp [child]
  | some _ => simp [child]

def Legal (s : Sys C) (c : Fin C) : Op → Prop
  | .alloc q | .allocFail q _ => (s.proc q).state = .unused
  | .setParent np p => (s.proc np).state = .used ∧ (s.cpu c).cur = some p
  | .allocTime np | .forkRunnable np => (s.proc np).state = .used
  | .wake q => (s.proc q).state = .sleeping
  | .reap q => (s.proc q).state = .zombie ∧ ∃ p, (s.cpu c).cur = some p ∧ (s.proc q).parent = some p
  | .charge q => (s.proc q).state = .running
  | .setPriority q _ => (s.proc q).state ≠ .unused
  | .yield p | .sleep p _ _ | .zombie p _ | .addTurnaround p | .addWaiting p | .setKilled p =>
      (s.cpu c).cur = some p
  | .reparent q => ∃ p, (s.cpu c).cur = some p ∧ (s.proc q).parent = some p
  | _ => True

variable {call : Call} {result : Section}

theorem processCall_legal {p : Slot} (me : (s.cpu c).cur = some p)
    (owns : ∀ np ∈ childOf call, (s.proc np).state = .used)
    (next : processCall s p call = some result) : Legal s c result.op := by
  cases call <;> simp only [processCall] at next <;> (repeat' split at next) <;>
    simp only [Option.some.injEq, reduceCtorEq] at next <;> subst next <;>
    simp_all [Legal, childOf]

theorem handlerCall_legal (next : handlerCall s c call = some result) : Legal s c result.op := by
  cases call <;> simp only [handlerCall] at next <;> (repeat' split at next) <;>
    simp only [Option.some.injEq, reduceCtorEq] at next <;> subst next <;>
    simp_all [Legal]

/-- The ways in which a call goes on: as the code says, or as the environment decides where
the code leaves it open. -/
inductive CallMove (s : Sys C) (c : Fin C) : Call → Section → Prop where
  | handler (call : Call) (result : Section) (next : handlerCall s c call = some result) :
      CallMove s c call result
  | process (p : Slot) (call : Call) (result : Section) (me : (s.cpu c).proc = some p)
      (next : processCall s p call = some result) : CallMove s c call result
  | sleep (p : Slot) (call : Call) (chan : Chan) (me : (s.cpu c).proc = some p)
      (outside : call = .busy ∨ call = .fsinit) :
      CallMove s c call ⟨.sleep p (some chan) .other, [call], none⟩
  | wakeup (call : Call) (chan : Chan) (outside : call = .busy ∨ call = .fsinit ∨ call = .devintr) :
      CallMove s c call ⟨.nop, [.wakeup (some chan) 0, call], none⟩
  | allocFail (p q : Slot) (k : Nat) (late : Bool) (me : (s.cpu c).proc = some p)
      (found : slotAt k = some q) (unused : (s.proc q).state = .unused) :
      CallMove s c (.allocproc k) ⟨.allocFail q late, [], some (-1)⟩
  | copyoutFail (p pp : Slot) (addr k : Nat) (havekids : Bool) (me : (s.cpu c).proc = some p)
      (found : slotAt k = some pp) (given : addr ≠ 0) (parent : (s.proc pp).parent = some p)
      (zombie : (s.proc pp).state = .zombie) :
      CallMove s c (.waitScan addr k havekids) ⟨.releaseWait (some pp), [], some (-1)⟩

variable {choice : Choice}

theorem callStep_move (next : callStep s c call choice = some result) : CallMove s c call result := by
  unfold callStep at next
  split at next
  next =>
    split at next
    next handled =>
      cases next
      exact .handler call result handled
    next =>
      obtain ⟨p, me, next⟩ := Option.bind_eq_some_iff.mp next
      exact .process p call result me next
  next chan =>
    split at next
    next p me =>
      cases next
      exact .sleep p .busy chan me (Or.inl rfl)
    next p me =>
      cases next
      exact .sleep p .fsinit chan me (Or.inr rfl)
    next => cases next
  next chan =>
    split at next <;> cases next
    · exact .wakeup .busy chan (Or.inl rfl)
    · exact .wakeup .fsinit chan (Or.inr (Or.inl rfl))
    · exact .wakeup .devintr chan (Or.inr (Or.inr rfl))
  next =>
    split at next
    next k p me =>
      split at next
      next q found =>
        obtain ⟨unused, ⟨⟩⟩ := Option.ite_none_right_eq_some.mp next
        exact .allocFail p q k false me found unused
      next => cases next
    next addr k havekids p me =>
      split at next
      next pp found =>
        obtain ⟨checks, ⟨⟩⟩ := Option.ite_none_right_eq_some.mp next
        exact .copyoutFail p pp addr k havekids me found checks.1 checks.2.1 checks.2.2
      next => cases next
    next => cases next
  next =>
    split at next
    next k p me =>
      split at next
      next q found =>
        obtain ⟨unused, ⟨⟩⟩ := Option.ite_none_right_eq_some.mp next
        exact .allocFail p q k true me found unused
      next => cases next
    next => cases next
  next => cases next

theorem callStep_legal (me : (s.cpu c).proc = (s.cpu c).cur)
    (owns : ∀ np ∈ childOf call, (s.proc np).state = .used)
    (next : callStep s c call choice = some result) : Legal s c result.op := by
  cases callStep_move next with
  | handler _ _ next => exact handlerCall_legal next
  | process p _ _ here next => exact processCall_legal (me ▸ here) owns next
  | sleep p _ _ here => exact me.symm.trans here
  | wakeup => trivial
  | allocFail p _ _ _ _ _ unused => exact unused
  | copyoutFail => trivial

theorem baseStep_legal {p : Slot} {base after : Base} {op : Op}
    {calls : List Call} (me : (s.cpu c).cur = some p)
    (next : baseStep s p base choice = some (after, op, calls)) : Legal s c op := by
  unfold baseStep at next
  split at next <;> (try split at next) <;> (try split at next) <;>
    obtain ⟨-, rfl, -⟩ := next <;> simp_all [Legal]

/-- The operations with which `fork` takes on a child and lets it go. -/
def forks : Op → Bool
  | .alloc _ | .forkRunnable _ => true
  | _ => false

def handles : Op → Bool
  | .nop | .look _ | .wake _ | .tick | .charge _ | .releaseTicks none => true
  | _ => false

theorem handles_plain {op : Op} (handled : handles op = true) : forks op = false := by
  cases op <;> first | rfl | cases handled

theorem handlerCall_handles (next : handlerCall s c call = some result) :
    handles result.op = true ∧ childOf call = none ∧ children result.calls = [] := by
  cases call <;> simp only [handlerCall] at next <;> (repeat' split at next) <;>
    simp only [Option.some.injEq, reduceCtorEq] at next <;> subst next <;> simp [childOf, handles]

/-- A call hands its child on to the call that replaces it, and only `allocproc` finds a
new one. -/
theorem callStep_children (next : callStep s c call choice = some result) :
    (∃ q, result.op = .alloc q ∧ childOf call = none ∧ children result.calls = [q]) ∨
    (∃ np, result.op = .forkRunnable np ∧ childOf call = some np ∧ children result.calls = []) ∨
    (forks result.op = false ∧ children result.calls = (childOf call).toList) := by
  cases callStep_move next with
  | handler _ _ next =>
    obtain ⟨handled, before, after⟩ := handlerCall_handles next
    exact Or.inr (Or.inr ⟨handles_plain handled, by rw [after, before, Option.toList_none]⟩)
  | process p _ _ here next =>
    cases call <;> simp only [processCall] at next <;> (repeat' split at next) <;>
      simp only [Option.some.injEq, reduceCtorEq] at next <;> subst next <;>
      simp [childOf, forks]
  | sleep p _ chan here outside => rcases outside with rfl | rfl <;> simp [childOf, forks]
  | wakeup _ chan outside => rcases outside with rfl | rfl | rfl <;> simp [childOf, forks]
  | allocFail p q _ _ _ _ _ => simp [childOf, forks]
  | copyoutFail => simp [childOf, forks]

theorem callStep_handler (nobody : (s.cpu c).proc = none) (next : callStep s c call choice = some result) :
    handles result.op = true ∧ children result.calls = [] := by
  cases callStep_move next with
  | handler _ _ next => exact ⟨(handlerCall_handles next).1, (handlerCall_handles next).2.2⟩
  | wakeup _ _ outside => rcases outside with rfl | rfl | rfl <;> simp [childOf, handles]
  | process p _ _ me | sleep p _ _ me | allocFail p _ _ _ me | copyoutFail p _ _ _ _ me =>
    rw [nobody] at me
    cases me

@[simp] theorem children_entry (call : Syscall) : children call.entry.2 = [] := by
  cases call <;> rfl

theorem baseStep_children {p : Slot} {base after : Base} {op : Op}
    {calls : List Call} (next : baseStep s p base choice = some (after, op, calls)) :
    forks op = false ∧ children calls = [] := by
  unfold baseStep at next
  split at next <;> (try split at next) <;> (try split at next) <;>
    obtain ⟨-, rfl, rfl⟩ := next
  all_goals simp [childOf, forks]

end Xv6Monitor.Process.Sections
