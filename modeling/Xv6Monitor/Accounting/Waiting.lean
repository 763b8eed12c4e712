import Xv6Monitor.Process.Clock
import Xv6Monitor.Scheduler.Scan

/-! Waiting time. Along a run each stretch that a process spends RUNNABLE is measured in ticks of
the clock, and `total_waiting_time` is compared with the sum over the completed
stretches. -/

namespace Xv6Monitor.Accounting.Waiting
open Lib.Transition Process Table Machine Step Moves Lifecycle Children Invariant Clock Scheduler.Scan

variable {C : Nat} {s t : Sys C} {c : Fin C}

structure Stretch where
  current : Nat
  total : Nat
  deriving DecidableEq, Repr

def Stretch.note (w : Stretch) (ticked : Bool) (before after : Proc) : Stretch :=
  if before.state = .unused then ⟨0, 0⟩
  else if before.state = .runnable ∧ after.state ≠ .runnable then ⟨0, w.total + w.current⟩
  else if before.state ≠ .runnable ∧ after.state = .runnable then ⟨0, w.total⟩
  else ⟨w.current + ticked.toNat, w.total⟩

def noteWaiting (x : Sys C) (_ : Action C) (y : Sys C) (waits : Slot → Stretch) (q : Slot) : Stretch :=
  (waits q).note (y.ticks ≠ x.ticks) (x.proc q) (y.proc q)

def waiting {origin : Sys C} (path : Path (kernel C) origin s) : Slot → Stretch :=
  path.fold noteWaiting fun _ => ⟨0, 0⟩

/-- `last_runnable_time` marks the begin of the stretch under way. -/
structure Measured (ticks : Nat) (p : Proc) (w : Stretch) : Prop where
  bounded : p.state ≠ .unused → w.total ≤ ticks
  current : p.state = .runnable → p.lastRunnableTime + w.current = ticks ∧ w.total + w.current ≤ ticks

/-- A dispatch that does not count its stretch, which began at tick zero and lasted. -/
def Missed (ticks : Nat) (before after : Proc) : Prop :=
  before.state = .runnable ∧ after.state = .running ∧ before.lastRunnableTime = 0 ∧ ticks ≠ 0

def Exact (p : Proc) (w : Stretch) : Prop := p.state ≠ .unused → p.totalWaitingTime = w.total

section Entry

variable {ticks : Nat} {pid : Int} {p p' : Proc} {w : Stretch}

theorem note_steady (live : p.state ≠ .unused) (same : p'.state = .runnable ↔ p.state = .runnable) :
    w.note false p p' = w := by
  unfold Stretch.note
  rw [if_neg live, if_neg (by tauto), if_neg (by tauto)]
  rfl

theorem note_unused (unused : p.state = .unused) (ticked : Bool) : w.note ticked p p' = ⟨0, 0⟩ :=
  if_pos unused

theorem note_opens (stopped : p.state ≠ .runnable) (live : p.state ≠ .unused) (ready : p'.state = .runnable)
    (ticked : Bool) : w.note ticked p p' = ⟨0, w.total⟩ := by
  unfold Stretch.note
  rw [if_neg live, if_neg (by tauto), if_pos ⟨stopped, ready⟩]

theorem note_closes (ready : p.state = .runnable) (gone : p'.state ≠ .runnable) (ticked : Bool) :
    w.note ticked p p' = ⟨0, w.total + w.current⟩ := by
  unfold Stretch.note
  rw [if_neg (by simp [ready]), if_pos ⟨ready, gone⟩]

inductive Turn (ticks : Nat) (p p' : Proc) : Prop where
  | absent (unused : p.state = .unused) (still : p'.state = .unused)
  | born (unused : p.state = .unused) (used : p'.state = .used) (zero : p'.totalWaitingTime = 0)
  | opens (live : p.state ≠ .unused) (stopped : p.state ≠ .runnable) (ready : p'.state = .runnable)
      (start : p'.lastRunnableTime = ticks) (kept : p'.totalWaitingTime = p.totalWaitingTime)
  | closes (ready : p.state = .runnable) (dispatched : p' = p.dispatch ticks)
  | steady (live : p.state ≠ .unused) (same : p'.state = .runnable ↔ p.state = .runnable)
      (start : p'.state = .runnable → p'.lastRunnableTime = p.lastRunnableTime)
      (kept : p'.totalWaitingTime = p.totalWaitingTime)

theorem edge_turn (edge : Edge ticks pid p p') : Turn ticks p p' := by
  have unchanged : p'.state = p.state → p'.lastRunnableTime = p.lastRunnableTime →
      p'.totalWaitingTime = p.totalWaitingTime → Turn ticks p p' := by
    intro state start kept
    by_cases unused : p.state = .unused
    · exact .absent unused (by rw [state, unused])
    · exact .steady unused (by rw [state]) (fun _ => start) kept
  cases edge with
  | alloc unused => exact .born unused rfl rfl
  | abandon unused _ => exact .absent unused rfl
  | ready stopped =>
    refine .opens ?_ ?_ rfl rfl rfl <;> rintro state <;> rw [state] at stopped <;> simp at stopped
  | kill =>
    by_cases asleep : p.state = .sleeping
    · refine .opens (by simp [asleep]) (by simp [asleep]) (by simp [asleep]) ?_ (by simp)
      simp [Proc.kill, asleep, Proc.makeRunnable]
    · exact unchanged (by simp [asleep]) (by simp [Proc.kill, asleep]) (by simp)
  | dispatch ready => exact .closes ready rfl
  | sleep running _ =>
    exact .steady (by simp [running]) (by simp [running, Proc.sleepOn]) (fun _ => rfl) rfl
  | exit running _ =>
    exact .steady (by simp [running]) (by simp [running, Proc.zombify]) (fun _ => rfl) rfl
  | reap zombie => exact .steady (by simp [zombie]) (by simp [zombie, Proc.freeproc]) (fun _ => rfl) rfl
  | same | created | adopt | setKilled | setPriority | clearChan | charge => exact unchanged rfl rfl rfl

theorem Measured.turn (measured : Measured ticks p w) (turn : Turn ticks p p') :
    Measured ticks p' (w.note false p p') := by
  cases turn with
  | absent unused still =>
    exact ⟨fun live => absurd still live, fun ready => by simp [still] at ready⟩
  | born unused used _ =>
    rw [note_unused unused]
    exact ⟨fun _ => Nat.zero_le _, fun ready => by simp [used] at ready⟩
  | opens live stopped ready start kept =>
    rw [note_opens stopped live ready]
    have bounded := measured.bounded live
    exact ⟨fun _ => bounded, fun _ => ⟨by simp [start], by simpa using bounded⟩⟩
  | closes ready dispatched =>
    subst dispatched
    rw [note_closes ready (by simp [Proc.dispatch])]
    have current := (measured.current ready).2
    exact ⟨fun _ => current, fun again => by simp [Proc.dispatch] at again⟩
  | steady live same start kept =>
    rw [note_steady live same]
    refine ⟨fun _ => measured.bounded live, fun ready => ?_⟩
    rw [start ready]
    exact measured.current (same.mp ready)

theorem Measured.tick (measured : Measured ticks p w) : Measured (ticks + 1) p (w.note true p p) := by
  by_cases unused : p.state = .unused
  · rw [note_unused unused]
    exact ⟨fun live => absurd unused live, fun ready => by simp [unused] at ready⟩
  have note : w.note true p p = ⟨w.current + 1, w.total⟩ := by
    simp [Stretch.note, unused]
  rw [note]
  have bounded := measured.bounded unused
  refine ⟨fun _ => by simp only; omega, fun ready => ?_⟩
  have current := measured.current ready
  simp only
  omega

theorem exact_turn (measured : Measured ticks p w) (short : ticks < 4294967296) (exact : Exact p w)
    (turn : Turn ticks p p') : Exact p' (w.note false p p') ↔ ¬Missed ticks p p' := by
  cases turn with
  | absent unused still => simp [Exact, Missed, unused, still]
  | born unused _ zero => simp [Exact, Missed, note_unused, unused, zero]
  | opens live stopped ready start kept =>
    simp [Exact, Missed, note_opens stopped live ready, stopped, kept, exact live]
  | steady live same start kept =>
    rw [note_steady live same]
    have never : ¬Missed ticks p p' := by
      rintro ⟨ready, running, -⟩
      rw [same.mpr ready] at running
      cases running
    simp only [never, not_false_eq_true, iff_true, Exact, kept]
    exact fun _ => exact live
  | closes ready dispatched =>
    subst dispatched
    rw [note_closes ready (by simp [Proc.dispatch])]
    obtain ⟨current, bounded⟩ := measured.current ready
    have before := exact (by simp [ready])
    by_cases zero : p.lastRunnableTime = 0
    · simp [Exact, Missed, Proc.dispatch, ready, zero]
      omega
    have positive : p.lastRunnableTime > 0 := Nat.pos_of_ne_zero zero
    have added : uint (p.totalWaitingTime + uintSub ticks p.lastRunnableTime) = w.total + w.current := by
      rw [uintSub_of_le (by omega) short, uint_of_lt (by omega)]
      omega
    simp [Exact, Missed, Proc.dispatch, zero, added]

theorem exact_tick (exact : Exact p w) : Exact p (w.note true p p) ↔ ¬Missed ticks p p := by
  have never : ¬Missed ticks p p := by
    rintro ⟨ready, running, -⟩
    rw [ready] at running
    cases running
  refine iff_of_true (fun live => ?_) never
  simp [Stretch.note, live, exact live]

end Entry

theorem waiting_snoc {x : Sys C} {a : Action C} (path : Run (kernel C) x)
    (moved : (kernel C).step x a = some t) (q : Slot) : waiting (path.snoc a moved) q =
      (waiting path q).note (t.ticks ≠ x.ticks) (x.proc q) (t.proc q) :=
  rfl

theorem measured_along (run : Run (kernel C) s) (short : clock run < 4294967296) (q : Slot) :
    Measured s.ticks (s.proc q) (waiting run q) := by
  induction run with
  | nil =>
    refine ⟨fun _ => Nat.zero_le _, fun ready => ?_⟩
    have start : ((boot C).proc q).lastRunnableTime = 0 := by
      rw [boot_proc]
      split <;> rfl
    exact ⟨start, Nat.le_refl 0⟩
  | snoc path a moved ih =>
    have measured := ih (lt_of_le_of_lt (clock_mono path moved) short)
    rw [waiting_snoc]
    rcases (short_move path moved short).2 with still | ⟨next, table⟩
    · rw [decide_eq_false (not_not_intro still), still]
      exact measured.turn (edge_turn (move_edge (inv_reachable ⟨path⟩) (step_move moved) q))
    · rw [decide_eq_true (by omega), next, table]
      exact measured.tick

def WaitingExact (run : Run (kernel C) s) : Prop := ∀ q, Exact (s.proc q) (waiting run q)

/-- No process is dispatched after tick zero out of a stretch that began at tick zero. -/
def Timed (x : Sys C) (a : Action C) (y : Sys C) : Prop :=
  ∀ q, Dispatches x y a.cpu q → x.ticks = 0 ∨ (x.proc q).lastRunnableTime ≠ 0

instance (x : Sys C) (a : Action C) (y : Sys C) : Decidable (Timed x a y) :=
  decidable_of_iff ((x.cpu a.cpu).proc = none → (y.cpu a.cpu).proc.all
    (fun q => x.ticks = 0 ∨ (x.proc q).lastRunnableTime ≠ 0) = true) (by
      simp only [Timed, Dispatches, Option.all_eq_true, decide_eq_true_eq]
      exact ⟨fun all q here => all here.1 q here.2, fun all free q named => all q ⟨free, named⟩⟩)

theorem timed_iff {a : Action C} (inv : Coherent s) (moved : Move s a.cpu t) :
    Timed s a t ↔ ∀ q, ¬Missed s.ticks (s.proc q) (t.proc q) := by
  refine forall_congr' fun q => ⟨?_, fun counted dispatched => ?_⟩
  · rintro timed ⟨ready, running, zero, late⟩
    rcases ready_kept inv moved ready with ⟨still, -⟩ | dispatched
    · rw [still] at running
      cases running
    · rcases timed dispatched with early | marked
      · exact late early
      · exact marked zero
  · by_contra missed
    obtain ⟨-, -, ready, -⟩ := move_dispatch inv moved dispatched
    rw [not_or, not_not] at missed
    exact counted ⟨ready, dispatch_runs inv moved dispatched, missed.2, missed.1⟩

theorem waitingExact_snoc {x : Sys C} {a : Action C} (path : Run (kernel C) x)
    (moved : (kernel C).step x a = some t) (short : clock (path.snoc a moved) < 4294967296)
    (exact : WaitingExact path) : WaitingExact (path.snoc a moved) ↔ Timed x a t := by
  rw [timed_iff (inv_reachable ⟨path⟩) (step_move moved)]
  refine forall_congr' fun q => ?_
  obtain ⟨small, still | ⟨next, table⟩⟩ := short_move path moved short
  · rw [waiting_snoc, decide_eq_false (not_not_intro still)]
    have measured := measured_along path (lt_of_le_of_lt (clock_mono path moved) short) q
    exact exact_turn measured small (exact q)
      (edge_turn (move_edge (inv_reachable ⟨path⟩) (step_move moved) q))
  · rw [waiting_snoc, decide_eq_true (by omega), table]
    exact exact_tick (exact q)

/-- Waiting time is exact along a run exactly when no process is dispatched after tick zero out
of a stretch that began at tick zero. -/
theorem waiting_exact_iff (run : Run (kernel C) s) (short : clock run < 4294967296) :
    run.Always WaitingExact ↔ run.Every Timed := by
  induction run with
  | nil =>
    refine iff_of_true (fun q _ => ?_) (Path.every_nil _)
    show ((boot C).proc q).totalWaitingTime = 0
    rw [boot_proc]
    split <;> rfl
  | snoc path _ moved ih =>
    have earlier := ih (lt_of_le_of_lt (clock_mono path moved) short)
    rw [Path.every_snoc, ← earlier]
    exact and_congr_right fun always => waitingExact_snoc path moved short always.last

/-- The clock ticks before the scheduler first runs the first process: the tick it waited is not
counted. -/
theorem first_stretch_missed : ∃ s : Sys 1, ∃ run : Run (kernel 1) s, clock run = 1 ∧
    (s.proc firstSlot).state = .running ∧ (waiting run firstSlot).total = 1 ∧
    (s.proc firstSlot).totalWaitingTime = 0 := by
  obtain ⟨s, run, measured, running, entry⟩ := execFold_path (M := kernel 1) (s := (kernel 1).init)
    (h := (0, fun _ => ⟨0, 0⟩)) (Path.alongside noteTick noteWaiting)
    (Q := fun s r => (r.1 = 1 ∧ (r.2 firstSlot).total = 1) ∧ (s.proc firstSlot).state = .running ∧
      (s.proc firstSlot).totalWaitingTime = 0)
    (⟨0, .timer⟩ :: steps 0 135) (by decide +kernel)
  rw [Path.fold_alongside] at measured
  exact ⟨s, run, measured.1, running, measured.2, entry⟩

/-- A child forked at tick 1 and dispatched at tick 2 has waited one tick. -/
theorem waiting_exact_child : ∃ s : Sys 1, ∃ run : Run (kernel 1) s, run.Always WaitingExact ∧
    (s.proc 1).totalWaitingTime = 1 ∧ (waiting run 1).total = 1 := by
  obtain ⟨s, run, every, ticks, live, waited⟩ := execUnder_path (M := kernel 1) (s := (kernel 1).init)
    (P := fun x a y => x.ticks ≤ y.ticks ∧ Timed x a y)
    (Q := fun s => s.ticks = 2 ∧ (s.proc 1).state ≠ .unused ∧ (s.proc 1).totalWaitingTime = 1)
    (steps 0 6 ++ [⟨0, .timer⟩] ++ steps 0 207 ++ syscall 0 .fork 8 ++ [⟨0, .timer⟩] ++ steps 0 139)
    (by decide +kernel)
  have count := clock_of_mono run fun x a y taken => (every x a y taken).1
  have exact := (waiting_exact_iff run (by omega)).mpr fun x a y taken => (every x a y taken).2
  exact ⟨s, run, exact, waited, by rw [← exact.last 1 live, waited]⟩

end Xv6Monitor.Accounting.Waiting
