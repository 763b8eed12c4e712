import Xv6Monitor.Process.Invariant

/-! The three global spinlocks, read off call stacks: which lock a position holds, and that every
section takes and drops locks as the positions before and after it say. -/

namespace Xv6Monitor.Process.Locks
open Table Machine Step Sections Lifecycle

variable {C : Nat} {s t u : Sys C} {c d : Fin C}

inductive Lock where
  | wait
  | ticks
  | metrics
  deriving DecidableEq, Repr

def holder (s : Sys C) : Lock → Option (Fin C)
  | .wait => s.waitLock
  | .ticks => s.tickslock
  | .metrics => s.metricsLock

def callLock : Call → Option Lock
  | .waitScan _ _ _ | .waitSleep _ => some .wait
  | .resetTurnaround _ | .resetWaiting _ | .resetFinished _ => some .metrics
  | .sleepLoop _ _ | .sleepTicks _ _ | .updateTime _ | .clockRelease => some .ticks
  | _ => none

def baseLock : Base → Option Lock
  | .exitTurnaround _ | .exitWaiting _ | .exitFinished _ => some .metrics
  | .reparent _ _ | .exitZombie _ => some .wait
  | _ => none

/-- The lock that a stack holds. Only `wakeup` is called with a lock held. -/
def held (below : Option Lock) : List Call → Option Lock
  | [] => below
  | .wakeup _ _ :: rest => held below rest
  | call :: _ => callLock call

/-- Below a call other than `wakeup` no lock is held. -/
def Tidy (below : Option Lock) : List Call → Prop
  | [] => True
  | .wakeup _ _ :: rest => Tidy below rest
  | _ :: rest => held below rest = none ∧ Tidy below rest

inductive LockEffect where
  | keep
  | acquire (l : Lock)
  | release (l : Lock)

def lockEffect : Op → LockEffect
  | .acquireMetrics => .acquire .metrics
  | .acquireWait => .acquire .wait
  | .acquireTicks | .tick => .acquire .ticks
  | .addFinished | .zeroFinished => .release .metrics
  | .releaseWait _ | .reap _ | .zombie _ _ | .sleep _ _ .waitLock => .release .wait
  | .releaseTicks _ | .sleep _ _ .tickslock => .release .ticks
  | _ => .keep

/-- How the lock held by the executing stack changes with an operation. -/
def LockStep : LockEffect → Option Lock → Option Lock → Prop
  | .keep, before, after => after = before
  | .acquire l, before, after => before = none ∧ after = some l
  | .release l, before, after => before = some l ∧ after = none

/-- What happens to the locks when a call goes on above `rest`. -/
structure Orderly (below : Option Lock) (before : List Call) (op : Op) (after : List Call) : Prop where
  tidy : Tidy below after
  lock : LockStep (lockEffect op) (held below before) (held below after)
  left : leaves op = true → held below after = none

variable {below : Option Lock} {call : Call} {rest : List Call}

theorem tidy_rest (tidy : Tidy below (call :: rest)) : Tidy below rest := by
  cases call <;> first | exact tidy | exact tidy.2

theorem tidy_plain (tidy : Tidy below (call :: rest))
    (plain : ∀ chan k, call ≠ .wakeup chan k) : held below rest = none := by
  cases call <;> first
    | exact tidy.1
    | exact absurd rfl (plain _ _)

variable {calls : List Call}

theorem tidy_held {l : Lock} (tidy : Tidy (some l) calls) : held (some l) calls = some l := by
  induction calls with
  | nil => rfl
  | cons call _ ih =>
    have deeper := ih (tidy_rest tidy)
    cases call <;> first
      | exact deeper
      | (have free := tidy.1
         rw [deeper] at free
         cases free)

theorem tidy_mem {l : Lock} (tidy : Tidy below calls)
    (mem : call ∈ calls) (lock : callLock call = some l) : held below calls = some l := by
  induction calls with
  | nil => cases mem
  | cons first _ ih =>
    rcases List.mem_cons.mp mem with rfl | later
    · cases call <;> simp [callLock] at lock <;> simp [held, callLock, lock]
    have deeper := ih (tidy_rest tidy) later
    cases first <;> first
      | exact deeper
      | (have free := tidy.1
         rw [deeper] at free
         cases free)

theorem tidy_wakeup {l : Lock} (tidy : Tidy (some l) calls) (mem : call ∈ calls) :
    ∃ chan k, call = .wakeup chan k := by
  induction calls with
  | nil => cases mem
  | cons _ _ ih =>
    rcases List.mem_cons.mp mem with rfl | later
    · by_contra plain
      have free := tidy_plain tidy fun chan k same => plain ⟨chan, k, same⟩
      rw [tidy_held (tidy_rest tidy)] at free
      cases free
    · exact ih (tidy_rest tidy) later

theorem callStep_lock {choice : Choice} {result : Section} (tidy : Tidy below (call :: rest))
    (next : callStep s c call choice = some result) :
    Orderly below (call :: rest) result.op (result.calls ++ rest) := by
  cases callStep_move next with
  | handler _ _ next =>
    cases call <;> simp only [handlerCall] at next <;> (repeat' split at next) <;>
      simp only [Option.some.injEq, reduceCtorEq] at next <;> subst next <;> constructor <;>
      simp_all [Tidy, LockStep, lockEffect, held, callLock, leaves]
  | process p _ _ me next =>
    cases call <;> simp only [processCall] at next <;> (repeat' split at next) <;>
      simp only [Option.some.injEq, reduceCtorEq] at next <;> subst next <;> constructor <;>
      simp_all [Tidy, LockStep, lockEffect, held, callLock, leaves]
  | sleep p _ chan me outside =>
    rcases outside with rfl | rfl <;> constructor <;>
      simp_all [Tidy, LockStep, lockEffect, held, callLock, leaves]
  | wakeup _ chan outside =>
    rcases outside with rfl | rfl | rfl <;> constructor <;>
      simp_all [Tidy, LockStep, lockEffect, held, callLock, leaves]
  | allocFail => constructor <;> simp_all [Tidy, LockStep, lockEffect, held, callLock, leaves]
  | copyoutFail => constructor <;> simp_all [Tidy, LockStep, lockEffect, held, callLock, leaves]

theorem entry_lock (call : Syscall) :
    Tidy (baseLock call.entry.1) call.entry.2 ∧ held (baseLock call.entry.1) call.entry.2 = none := by
  cases call <;> simp [Syscall.entry, Tidy, held, baseLock, callLock]

theorem baseStep_lock {p : Slot} {base after : Base} {choice : Choice} {op : Op}
    (next : baseStep s p base choice = some (after, op, calls)) :
    Tidy (baseLock after) calls ∧
    LockStep (lockEffect op) (baseLock base) (held (baseLock after) calls) ∧
    (leaves op = true → held (baseLock after) calls = none) := by
  unfold baseStep at next
  split at next <;> (try split at next) <;> (try split at next) <;>
    obtain ⟨rfl, rfl, rfl⟩ := next
  all_goals first
    | exact ⟨(entry_lock _).1, (entry_lock _).2, fun left => by cases left⟩
    | simp_all [Tidy, LockStep, lockEffect, held, baseLock, callLock, leaves]

theorem apply_holder {op : Op} (done : op.apply s c = some u) (l : Lock) :
    match lockEffect op with
    | .keep => holder u l = holder s l
    | .acquire l' => holder s l' = none ∧ holder u l = if l = l' then some c else holder s l
    | .release l' => holder u l = if l = l' then none else holder s l := by
  cases op <;> simp only [Op.apply, Option.some.injEq, Option.ite_none_right_eq_some] at done <;>
    (try obtain ⟨guard, rfl⟩ := done)
  case sleep lk => cases lk <;> cases l <;> simp [lockEffect, holder, Sys.leave, Sys.releaseFor]
  all_goals cases l <;> simp_all [lockEffect, holder, Sys.leave]

def threadLock (thread : Thread) : Option Lock := held (baseLock thread.base) thread.calls

end Xv6Monitor.Process.Locks
