import Xv6Monitor.Process.Exits
import Xv6Monitor.Process.Marks

/-! The counters of the global metrics. `exit` adds to the three of them and `setscheduler` clears
them, one after the other in a section under `metrics_lock`; every step is classified by
how far the section has come. -/

namespace Xv6Monitor.Accounting.Counters
open Process Table Machine Step Moves Sections Children Locks Holding Stacks Marks Exits

variable {C : Nat} {s t u : Sys C} {c : Fin C}

inductive Mark where
  | turnaround (p : Slot)
  | waiting (p : Slot)
  | zeroTurnaround
  | zeroWaiting
  deriving DecidableEq, Repr

def resetting : Call → Option Mark
  | .resetWaiting _ => some .zeroTurnaround
  | .resetFinished _ => some .zeroWaiting
  | _ => none

theorem resetting_lock (call : Call) (x : Mark) (found : resetting call = some x) :
    callLock call = some .metrics := by
  cases call <;> first
    | rfl
    | cases found

def markOf (frame : Frame) : Option Mark :=
  match frame.base with
  | .exitWaiting _ => frame.who.map .turnaround
  | .exitFinished _ => frame.who.map .waiting
  | _ => frame.calls.findSome? resetting

def metricsMark : Marker .metrics Mark where
  find := markOf
  locked frame x tidy found := by
    unfold markOf at found
    split at found
    next status base =>
      rw [base] at tidy ⊢
      exact tidy_held tidy
    next status base =>
      rw [base] at tidy ⊢
      exact tidy_held tidy
    next => exact pick_lock resetting_lock tidy found

/-- The calls of `setscheduler` that are about to clear the counters. -/
def resets (s : Sys C) (c : Fin C) : Bool :=
  match (frameOf s c).calls with
  | .resetTurnaround _ :: _ => true
  | _ => false

def meters : Op → Bool
  | .addTurnaround _ | .addWaiting _ | .addFinished | .zeroTurnaround | .zeroWaiting | .zeroFinished => true
  | _ => false

def SameCounters (s t : Sys C) : Prop :=
  t.totalTurnaroundTime = s.totalTurnaroundTime ∧ t.totalWaitingTimeSum = s.totalWaitingTimeSum ∧
    t.finishedProcesses = s.finishedProcesses

theorem apply_meters {op : Op} (plain : meters op = false) (done : op.apply s c = some u) :
    SameCounters s u := by
  cases op <;> simp only [Op.apply, Option.some.injEq, Option.ite_none_right_eq_some] at done <;>
    (try obtain ⟨-, rfl⟩ := done)
  case sleep lk => cases lk <;> exact ⟨rfl, rfl, rfl⟩
  case addTurnaround | addWaiting | addFinished | zeroTurnaround | zeroWaiting | zeroFinished => cases plain
  all_goals exact ⟨rfl, rfl, rfl⟩

variable {call : Call} {choice : Choice}

theorem callStep_metrics {result : Section} (next : callStep s c call choice = some result) :
    (∃ mode, call = .resetTurnaround mode ∧ result = ⟨.zeroTurnaround, [.resetWaiting mode], none⟩) ∨
    (∃ mode, call = .resetWaiting mode ∧ result = ⟨.zeroWaiting, [.resetFinished mode], none⟩) ∨
    (∃ mode, call = .resetFinished mode ∧ result = ⟨.zeroFinished, [.setMode mode], none⟩) ∨
    ((∀ mode, call ≠ .resetTurnaround mode) ∧ resetting call = none ∧
      result.calls.findSome? resetting = none ∧ meters result.op = false) := by
  cases callStep_move next with
  | handler _ _ next =>
    refine Or.inr (Or.inr (Or.inr ?_))
    cases call <;> simp only [handlerCall] at next <;> (repeat' split at next) <;>
      simp only [Option.some.injEq, reduceCtorEq] at next <;> subst next <;>
      exact ⟨by simp, rfl, rfl, rfl⟩
  | process p _ _ me next =>
    cases call
    case resetTurnaround =>
      cases next
      exact Or.inl ⟨_, rfl, rfl⟩
    case resetWaiting =>
      cases next
      exact Or.inr (Or.inl ⟨_, rfl, rfl⟩)
    case resetFinished =>
      cases next
      exact Or.inr (Or.inr (Or.inl ⟨_, rfl, rfl⟩))
    all_goals
      refine Or.inr (Or.inr (Or.inr ?_))
      simp only [processCall] at next
      repeat' split at next
      all_goals
        simp only [Option.some.injEq, reduceCtorEq] at next
        try subst next
        try exact ⟨by simp, rfl, rfl, rfl⟩
  | sleep p _ chan me outside =>
    rcases outside with rfl | rfl <;> exact Or.inr (Or.inr (Or.inr ⟨by simp, rfl, rfl, rfl⟩))
  | wakeup _ chan outside =>
    rcases outside with rfl | rfl | rfl <;> exact Or.inr (Or.inr (Or.inr ⟨by simp, rfl, rfl, rfl⟩))
  | allocFail | copyoutFail => exact Or.inr (Or.inr (Or.inr ⟨by simp, rfl, rfl, rfl⟩))

variable {p : Slot} {base : Base} {calls : List Call}

theorem baseStep_metrics {after : Base} {op : Op} (next : baseStep s p base choice = some (after, op, calls)) :
    (∃ status, base = .exitTurnaround status ∧ after = .exitWaiting status ∧ op = .addTurnaround p ∧ calls = []) ∨
    (∃ status, base = .exitWaiting status ∧ after = .exitFinished status ∧ op = .addWaiting p ∧ calls = []) ∨
    (∃ status, base = .exitFinished status ∧ after = .exitFiles status ∧ op = .addFinished ∧ calls = []) ∨
    (markOf ⟨some p, base, []⟩ = none ∧ markOf ⟨some p, after, calls⟩ = none ∧ meters op = false ∧
      ¬(stage base < 3 ∧ 3 ≤ stage after)) := by
  unfold baseStep at next
  split at next <;> (try split at next) <;> (try split at next) <;>
    obtain ⟨rfl, rfl, rfl⟩ := next
  case h_3.isFalse call _ => cases call <;> simp [Syscall.entry, markOf, resetting, meters, stage]
  all_goals simp [markOf, resetting, meters, stage]

inductive Metering (s : Sys C) (c : Fin C) (t : Sys C) : Prop where
  | quiet (same : metricsMark.current t = metricsMark.current s) (counters : SameCounters s t)
      (unreached : reaches 3 s c t = none) (kept : resets s c = false)
  | turnaround (p : Slot) (before : metricsMark.current s = none)
      (after : metricsMark.current t = some (.turnaround p)) (reached : reaches 3 s c t = some p)
      (kept : resets s c = false) (table : t.proc = s.proc)
      (added : t.totalTurnaroundTime =
        uint64 (s.totalTurnaroundTime + uintSub s.ticks (s.proc p).creationTime))
      (waiting : t.totalWaitingTimeSum = s.totalWaitingTimeSum)
      (finished : t.finishedProcesses = s.finishedProcesses)
  | waiting (p : Slot) (before : metricsMark.current s = some (.turnaround p))
      (after : metricsMark.current t = some (.waiting p)) (unreached : reaches 3 s c t = none)
      (kept : resets s c = false) (turnaround : t.totalTurnaroundTime = s.totalTurnaroundTime)
      (added : t.totalWaitingTimeSum = uint64 (s.totalWaitingTimeSum + (s.proc p).totalWaitingTime))
      (finished : t.finishedProcesses = s.finishedProcesses)
  | finished (p : Slot) (before : metricsMark.current s = some (.waiting p))
      (after : metricsMark.current t = none) (unreached : reaches 3 s c t = none)
      (kept : resets s c = false) (turnaround : t.totalTurnaroundTime = s.totalTurnaroundTime)
      (waiting : t.totalWaitingTimeSum = s.totalWaitingTimeSum)
      (added : t.finishedProcesses = uint64 (s.finishedProcesses + 1))
  | zeroTurnaround (after : metricsMark.current t = some .zeroTurnaround) (reset : resets s c = true)
      (cleared : t.totalTurnaroundTime = 0)
  | zeroWaiting (before : metricsMark.current s = some .zeroTurnaround)
      (after : metricsMark.current t = some .zeroWaiting) (unreached : reaches 3 s c t = none)
      (kept : resets s c = false) (turnaround : t.totalTurnaroundTime = s.totalTurnaroundTime)
      (cleared : t.totalWaitingTimeSum = 0)
  | zeroFinished (before : metricsMark.current s = some .zeroWaiting)
      (after : metricsMark.current t = none) (unreached : reaches 3 s c t = none)
      (kept : resets s c = false) (turnaround : t.totalTurnaroundTime = s.totalTurnaroundTime)
      (waiting : t.totalWaitingTimeSum = s.totalWaitingTimeSum) (cleared : t.finishedProcesses = 0)

theorem reaches_metrics (inv : Coherent s) (moved : Move s c t) (reached : reaches 3 s c t = some p) :
    (s.cpu c).cur = some p ∧ ∃ status, (s.thread p).base = .exitTurnaround status := by
  obtain ⟨on, below, above⟩ := reaches_some.mp reached
  refine ⟨on, ?_⟩
  cases move_advance inv moved p with
  | stay same =>
    rw [same] at above
    omega
  | born unused _ => exact absurd unused (cur_live inv on)
  | trap on _ _ trapped =>
    rw [trapped] at above
    exact absurd above (by simp [stage])
  | base on _ _ _ _ _ next _ _ =>
    rcases baseStep_metrics next with ⟨status, base, -⟩ | ⟨status, base, -⟩ | ⟨status, base, -⟩ | ⟨-, -, -, no⟩
    · exact ⟨status, base⟩
    · simp [base, stage] at below
    · simp [base, stage] at below
    · exact absurd ⟨below, above⟩ no

theorem frame_base_unlocked (locking : Locking s) (free : lockOf s c = none) :
    baseLock (frameOf s c).base = none := by
  have tidy := frame_tidy locking c
  rw [frame_lock] at free
  cases lock : baseLock (frameOf s c).base with
  | none => rfl
  | some _ =>
    rw [lock] at tidy free
    rw [tidy_held tidy] at free
    cases free

theorem resets_lock (reset : resets s c = true) : lockOf s c = some .metrics := by
  unfold resets at reset
  rw [frame_lock]
  split at reset
  next top =>
    rw [top]
    rfl
  next => cases reset

theorem base_unlocked {rest : List Call} (tidy : Tidy (baseLock base) (call :: rest))
    (plain : ∀ chan k, call ≠ .wakeup chan k) : baseLock base = none := by
  have free := tidy_plain tidy plain
  have deeper := tidy_rest tidy
  cases lock : baseLock base with
  | none => rfl
  | some _ =>
    rw [lock] at deeper free
    rw [tidy_held deeper] at free
    cases free

variable {who : Option Slot}

theorem markOf_calls (free : baseLock base = none) : markOf ⟨who, base, calls⟩ = calls.findSome? resetting := by
  cases base <;> first
    | rfl
    | cases free

theorem metering_rest (inv : Coherent s) (locking : Locking s) (moved : Move s c t)
    (unlocked : lockOf s c = none) : reaches 3 s c t = none ∧ resets s c = false := by
  constructor
  · cases reached : reaches 3 s c t with
    | none => rfl
    | some _ =>
      obtain ⟨on, _, exiting⟩ := reaches_metrics inv moved reached
      have free := frame_base_unlocked locking unlocked
      rw [frame_active on, exiting] at free
      cases free
  · cases reset : resets s c with
    | false => rfl
    | true =>
      rw [resets_lock reset] at unlocked
      cases unlocked

theorem unreached_call {calls' : List Call}
    (before : frameOf s c = ⟨who, base, calls⟩) (after : frameOf t c = ⟨who, base, calls'⟩) :
    reaches 3 s c t = none := by
  rcases reached : reaches 3 s c t with _ | p
  · rfl
  obtain ⟨on, below, above⟩ := reaches_some.mp reached
  rw [frame_active on] at before
  cases before
  have same := (frame_who (s := t) (c := c) (p := p) (by rw [after])).2
  rw [same, after] at above
  simp only at above
  omega

theorem metering_call {rest : List Call}
    {result : Section} (inv : Coherent s) (locking : Locking s) (moved : Move s c t)
    (before : frameOf s c = ⟨who, base, call :: rest⟩) (after : frameOf t c = ⟨who, base, result.calls ++ rest⟩)
    (next : callStep s c call choice = some result) (done : result.op.apply s c = some u)
    (shared : SameCounters u t) : Metering s c t := by
  have locking' := locking_move inv moved locking
  have tidy := frame_tidy locking c
  rw [before] at tidy
  have unreached := unreached_call before after
  obtain ⟨turnaround, waiting, finished⟩ := shared
  rcases callStep_metrics next with ⟨mode, rfl, rfl⟩ | ⟨mode, rfl, rfl⟩ | ⟨mode, rfl, rfl⟩ | ⟨first, own, new, plain⟩
  · cases done
    have free := base_unlocked tidy (by simp)
    refine .zeroTurnaround (metricsMark.current_some (c := c) locking' ?_) (by simp [resets, before]) turnaround
    rw [after]
    exact markOf_calls free
  · cases done
    have free := base_unlocked tidy (by simp)
    refine .zeroWaiting (metricsMark.current_some (c := c) locking ?_) (metricsMark.current_some (c := c) locking' ?_)
      unreached (by simp [resets, before]) turnaround waiting
    · rw [before]
      exact markOf_calls free
    · rw [after]
      exact markOf_calls free
  · simp only [Op.apply, Option.ite_none_right_eq_some, Option.some.injEq] at done
    obtain ⟨-, rfl⟩ := done
    have free := base_unlocked tidy (by simp)
    have here : metricsMark.find (frameOf s c) = some .zeroWaiting := by
      rw [before]
      exact markOf_calls free
    have below : rest.findSome? resetting = none := pick_rest resetting_lock tidy (by simp)
    refine .zeroFinished (metricsMark.current_some locking here) (metricsMark.current_left inv locking moved here ?_)
      unreached (by simp [resets, before]) turnaround waiting finished
    rw [after]
    exact (markOf_calls free).trans below
  · have counters := apply_meters plain done
    refine .quiet (metricsMark.current_move inv locking moved ?_) ?_ unreached ?_
    · rw [before, after]
      have calls : (result.calls ++ rest).findSome? resetting = (call :: rest).findSome? resetting := by
        rw [List.findSome?_append, new, List.findSome?_cons, own]
        rfl
      cases base <;> first
        | rfl
        | exact calls
    · exact ⟨turnaround.trans counters.1, waiting.trans counters.2.1, finished.trans counters.2.2⟩
    · rw [resets, before]
      split
      next mode _ top => exact absurd (List.cons.inj top).1 (first mode)
      next => rfl

theorem metering_base {after : Base} {op : Op}
    (inv : Coherent s) (locking : Locking s) (moved : Move s c t) (before : frameOf s c = ⟨some p, base, []⟩)
    (now : frameOf t c = ⟨some p, after, calls⟩) (next : baseStep s p base choice = some (after, op, calls))
    (done : op.apply s c = some u) (table : t.proc = u.proc) (shared : SameCounters u t) : Metering s c t := by
  have locking' := locking_move inv moved locking
  obtain ⟨on, here⟩ := frame_who (s := s) (c := c) (p := p) (by rw [before])
  have there := (frame_who (s := t) (c := c) (p := p) (by rw [now])).2
  rw [before] at here
  rw [now] at there
  have kept : resets s c = false := by rw [resets, before]
  have unreached : ¬(stage base < 3 ∧ 3 ≤ stage after) → reaches 3 s c t = none := by
    intro no
    rcases reached : reaches 3 s c t with _ | _
    · rfl
    obtain ⟨on', below, above⟩ := reaches_some.mp reached
    obtain rfl := Option.some.inj (on.symm.trans on')
    rw [here] at below
    rw [there] at above
    exact absurd ⟨below, above⟩ no
  obtain ⟨turnaround, waiting, finished⟩ := shared
  rcases baseStep_metrics next with ⟨status, rfl, rfl, rfl, rfl⟩ | ⟨status, rfl, rfl, rfl, rfl⟩ |
    ⟨status, rfl, rfl, rfl, rfl⟩ | ⟨own, new, plain, no⟩
  · cases done
    have mine : holder s .metrics = some c := by
      apply (locking.holds c .metrics).mpr
      rw [frame_lock, before]
      rfl
    refine .turnaround p ?_ (metricsMark.current_some (c := c) locking' (by rw [now]; rfl)) ?_ kept table turnaround
      waiting finished
    · rw [metricsMark.current_own mine, before]
      rfl
    refine reaches_some.mpr ⟨on, ?_, ?_⟩
    · rw [here]
      simp [stage]
    · rw [there]
      simp [stage]
  · cases done
    exact .waiting p (metricsMark.current_some (c := c) locking (by rw [before]; rfl))
      (metricsMark.current_some (c := c) locking' (by rw [now]; rfl)) (unreached (by simp [stage])) kept turnaround
      waiting finished
  · simp only [Op.apply, Option.ite_none_right_eq_some, Option.some.injEq] at done
    obtain ⟨-, rfl⟩ := done
    have marked : metricsMark.find (frameOf s c) = some (.waiting p) := by
      rw [before]
      rfl
    exact .finished p (metricsMark.current_some locking marked)
      (metricsMark.current_left inv locking moved marked (by rw [now]; rfl)) (unreached (by simp [stage])) kept
      turnaround waiting finished
  · have counters := apply_meters plain done
    refine .quiet (metricsMark.current_move inv locking moved ?_) ?_ (unreached no) kept
    · rw [before, now]
      exact new.trans own.symm
    · exact ⟨turnaround.trans counters.1, waiting.trans counters.2.1, finished.trans counters.2.2⟩

theorem turnaround_on (locking : Locking s) (found : metricsMark.find (frameOf s c) = some (.turnaround p)) :
    (s.cpu c).cur = some p ∧ threadLock (s.thread p) = some .metrics := by
  have named : (frameOf s c).who = some p ∧ ∃ status, (frameOf s c).base = .exitWaiting status := by
    change markOf (frameOf s c) = _ at found
    unfold markOf at found
    split at found
    next status base =>
      obtain ⟨q, who, same⟩ := Option.map_eq_some_iff.mp found
      cases same
      exact ⟨who, status, base⟩
    next status base =>
      obtain ⟨q, who, same⟩ := Option.map_eq_some_iff.mp found
      cases same
    next =>
      obtain ⟨call, -, same⟩ := List.exists_of_findSome?_eq_some found
      cases call <;> cases same
  obtain ⟨who, status, base⟩ := named
  obtain ⟨on, same⟩ := frame_who who
  exact ⟨on, locking.exiting (by rw [same, base]; rfl)⟩

theorem move_metering (inv : Coherent s) (locking : Locking s) (moved : Move s c t) : Metering s c t := by
  cases move_progress inv locking moved with
  | rest unlocked holders _ metrics _ =>
    obtain ⟨unreached, kept⟩ := metering_rest inv locking moved unlocked
    exact .quiet (metricsMark.current_rest inv locking moved unlocked holders) metrics unreached kept
  | call _ base call rest choice _ u before after next done shared =>
    refine metering_call inv locking moved before after next done ?_
    rw [shared]
    exact ⟨rfl, rfl, rfl⟩
  | base _ base next choice _ _ u before after step done shared =>
    refine metering_base inv locking moved before after step done (by rw [shared]) ?_
    rw [shared]
    exact ⟨rfl, rfl, rfl⟩

end Xv6Monitor.Accounting.Counters
