import Xv6Monitor.Accounting.Update
import Xv6Monitor.Scheduler.Scan

/-! Ticks charged to a process. A tick counts as run time when `update_time` finds the process
RUNNING and as waiting time when it passes while the process is RUNNABLE; the two
overlap only for a process dispatched between the tick and the visit to its slot. -/

namespace Xv6Monitor.Accounting.Charging
open Lib.Transition Process Table Machine Step Moves Lifecycle Children Invariant Clock Locks Holding
  Marks Scheduler.Scan Update

variable {C : Nat} {s t : Sys C} {c : Fin C}

/-- The present tick is still to be charged to slot `q`. -/
def due (s : Sys C) (q : Slot) : Bool := (updating s).any fun k => k ≤ q.val

def spent (ticks : Nat) (due : Bool) (p : Proc) : Nat :=
  p.runTime + p.totalWaitingTime +
    if p.state = .runnable then ticks - p.lastRunnableTime
    else if p.state = .running ∧ due = true then 1 else 0

structure Balanced (ticks : Nat) (due : Bool) (p : Proc) : Prop where
  aged : p.state ≠ .unused → p.creationTime + spent ticks due p ≤ ticks
  marked : p.state = .runnable → p.lastRunnableTime ≤ ticks

section Entry

variable {ticks : Nat} {pid : Int} {p p' : Proc} {late : Bool}

theorem Balanced.lower (balanced : Balanced ticks late p) (live : p.state ≠ .unused)
    (birth : p'.creationTime = p.creationTime) (less : spent ticks late p' ≤ spent ticks late p)
    (marked : p'.state = .runnable → p'.lastRunnableTime ≤ ticks) : Balanced ticks late p' := by
  refine ⟨fun _ => ?_, marked⟩
  have aged := balanced.aged live
  omega

theorem Balanced.edge (balanced : Balanced ticks late p) (dated : Dated ticks p') (edge : Edge ticks pid p p')
    (charged : p'.runTime ≤ p.runTime) (short : ticks < 4294967296)
    (visited : p.state = .runnable → p'.state = .running → late = false) : Balanced ticks late p' := by
  have gone : p'.state = .unused → Balanced ticks late p' :=
    fun unused => ⟨fun live => absurd unused live, fun ready => by simp [unused] at ready⟩
  by_cases young : p'.state = .used
  · obtain ⟨idle, prompt⟩ := dated.fresh young
    exact ⟨fun _ => by simp [spent, young, idle, prompt, dated.past], fun ready => by simp [young] at ready⟩
  cases edge with
  | same => exact balanced
  | alloc unused => exact absurd rfl young
  | created used => exact absurd used young
  | abandon unused late => exact gone rfl
  | adopt | setKilled | setPriority | clearChan => exact ⟨balanced.aged, balanced.marked⟩
  | ready stopped =>
    refine balanced.lower ?_ rfl ?_ fun _ => Nat.le_refl _
    · rcases stopped with state | state | state <;> simp [state]
    · simp [spent, Proc.makeRunnable]
  | kill =>
    by_cases asleep : p.state = .sleeping
    · refine balanced.lower (by simp [asleep]) (by simp) ?_ fun _ => ?_
      · simp [spent]
        simp [Proc.kill, asleep, Proc.makeRunnable]
      · simp [Proc.kill, asleep, Proc.makeRunnable]
    · simp only [Proc.kill, asleep]
      exact ⟨balanced.aged, balanced.marked⟩
  | dispatch ready =>
    have marked := balanced.marked ready
    refine balanced.lower (by simp [ready]) rfl ?_ fun again => by simp [Proc.dispatch] at again
    have counted : (p.dispatch ticks).totalWaitingTime ≤ p.totalWaitingTime + (ticks - p.lastRunnableTime) := by
      simp only [Proc.dispatch]
      split
      next => 
        rw [uintSub_of_le marked short]
        exact Nat.mod_le _ _
      next => exact Nat.le_add_right _ _
    simp only [spent, visited ready rfl, ready, show (p.dispatch ticks).state = .running from rfl,
      show (p.dispatch ticks).runTime = p.runTime from rfl]
    simp
    omega
  | sleep running _ =>
    refine balanced.lower (by simp [running]) rfl ?_ fun again => by simp [Proc.sleepOn] at again
    simp [spent, Proc.sleepOn]
  | exit running _ =>
    refine balanced.lower (by simp [running]) rfl ?_ fun again => by simp [Proc.zombify] at again
    simp [spent, Proc.zombify]
  | reap _ => exact gone rfl
  | charge running =>
    refine balanced.lower (by simp [running]) rfl ?_ balanced.marked
    unfold spent
    have kept : p.charge.totalWaitingTime = p.totalWaitingTime := rfl
    simp only [show p.charge.state = p.state from rfl, running]
    simp
    omega

theorem Balanced.tick (balanced : Balanced ticks false p) : Balanced (ticks + 1) true p := by
  refine ⟨fun live => ?_, fun ready => (balanced.marked ready).trans (Nat.le_succ _)⟩
  have aged := balanced.aged live
  by_cases ready : p.state = .runnable
  · have marked := balanced.marked ready
    simp only [spent, ready, if_true] at aged ⊢
    omega
  · simp only [spent, ready, if_false] at aged ⊢
    split <;> simp at aged <;> omega

theorem Balanced.visit (balanced : Balanced ticks true p) :
    Balanced ticks false (if p.state = .running then p.charge else p) := by
  split
  next running =>
    have aged := balanced.aged (by simp [running])
    have more : p.charge.runTime ≤ p.runTime + 1 := Nat.mod_le _ _
    refine ⟨fun _ => ?_, fun ready => ?_⟩
    · simp only [spent, show p.charge.state = p.state from rfl, running,
        show p.charge.creationTime = p.creationTime from rfl,
        show p.charge.totalWaitingTime = p.totalWaitingTime from rfl] at aged ⊢
      simp at aged ⊢
      omega
    · rw [show p.charge.state = p.state from rfl, running] at ready
      cases ready
  next stopped =>
    refine ⟨fun live => ?_, balanced.marked⟩
    have aged := balanced.aged live
    simp only [spent, stopped] at aged ⊢
    exact aged

end Entry

/-- No process is dispatched between a tick and the visit of `update_time` to its slot. -/
def Visited (x : Sys C) (a : Action C) (y : Sys C) : Prop :=
  ∀ q, Dispatches x y a.cpu q → due x q = false

theorem balanced_move {a : Action C} (inv : Coherent s) (locking : Locking s) (moved : Move s a.cpu t)
    (dated : ∀ q, Dated t.ticks (t.proc q))
    (short : s.ticks < 4294967296) (later : t.ticks = s.ticks ∨ t.ticks = s.ticks + 1)
    (visited : Visited s a t) (balanced : ∀ q, Balanced s.ticks (due s q) (s.proc q)) (q : Slot) :
    Balanced t.ticks (due t q) (t.proc q) := by
  have before := balanced q
  cases move_clockwork inv locking moved with
  | idle same ticks charged =>
    have still : due t q = due s q := by rw [due, due, same]
    have date := dated q
    rw [ticks] at date
    rw [still, ticks]
    refine before.edge date (move_edge inv moved q) (charged q) short fun ready running => ?_
    rcases ready_kept inv moved ready with ⟨again, -⟩ | dispatched
    · rw [again] at running
      cases running
    · exact visited q dispatched
  | tick none_before after ticks table =>
    have clear : due s q = false := by simp [due, none_before]
    have pending : due t q = true := by simp [due, after]
    have next : t.ticks = s.ticks + 1 := by
      rcases later with same | next
      · rw [ticks] at same
        exact absurd same (uint_succ_ne _)
      · exact next
    rw [clear] at before
    rw [pending, next, table]
    exact before.tick
  | visit r here after ticks entry others =>
    by_cases this : q = r
    · subst this
      have pending : due s q = true := by simp [due, here]
      have clear : due t q = false := by simp [due, after]
      rw [pending] at before
      rw [clear, ticks, entry]
      exact before.visit
    · have apart : q.val ≠ r.val := fun same => this (Fin.ext same)
      have still : due t q = due s q := by
        simp only [due, here, after, Option.any_some]
        congr 1
        exact propext ⟨fun _ => by omega, fun _ => by omega⟩
      rw [still, ticks, others q this]
      exact before
  | finish k last here after ticks table =>
    have still : due t q = due s q := by
      simp only [due, here, after]
      exact (decide_eq_false (by omega)).symm
    rw [still, ticks, table]
    exact before

theorem balanced_boot (q : Slot) : Balanced (boot C).ticks (due (boot C) q) ((boot C).proc q) := by
  rw [boot_proc]
  split
  next => exact ⟨fun _ => Nat.le_refl 0, fun _ => Nat.le_refl 0⟩
  next => exact ⟨fun live => absurd rfl live, fun ready => by cases ready⟩

theorem balanced_along (run : Run (kernel C) s) (short : clock run < 4294967296)
    (visited : run.Every Visited) (q : Slot) : Balanced s.ticks (due s q) (s.proc q) := by
  induction run generalizing q with
  | nil => exact balanced_boot q
  | snoc path _ moved ih =>
    obtain ⟨earlier, last⟩ := Path.every_snoc.mp visited
    have before := ih (lt_of_le_of_lt (clock_mono path moved) short) earlier
    obtain ⟨small, later⟩ := short_move path moved short
    exact balanced_move (inv_reachable ⟨path⟩) (locking_reachable ⟨path⟩) (step_move moved)
      (dated_along (path.snoc _ moved) (ticks_mono _ short)) small
      (later.imp_right And.left) last before q

/-- In a run in which no process is dispatched between a tick and the visit to its slot, no tick
is charged twice. -/
theorem no_tick_charged_twice (run : Run (kernel C) s) (short : clock run < 4294967296)
    (visited : run.Every Visited) (q : Slot) (live : (s.proc q).state ≠ .unused) :
    (s.proc q).creationTime ≤ s.ticks ∧
    (s.proc q).runTime + (s.proc q).totalWaitingTime ≤ s.ticks - (s.proc q).creationTime := by
  have aged := (balanced_along run short visited q).aged live
  unfold spent at aged
  omega

theorem visited_alone {s t : Sys 1} {a : Action 1} (moved : Move s a.cpu t) : Visited s a t := by
  rintro q ⟨before, after⟩
  rcases move_loc moved a.cpu with ⟨same, -⟩ | ⟨-, idle, quiet, -⟩
  · rw [same, before] at after
    cases after
  have still : updating s = none := by
    unfold updating Marker.current
    cases holder s .ticks with
    | none => rfl
    | some c =>
      rw [Subsingleton.elim c a.cpu, Option.bind_some, frame_idle idle, quiet]
      rfl
  rw [due, still]
  rfl

/-- On one CPU the first process is charged the tick during which it runs. -/
theorem no_tick_charged_twice_alone : ∃ s : Sys 1, Reachable (kernel 1) s ∧ s.ticks = 1 ∧
    (s.proc firstSlot).runTime = 1 ∧
    (s.proc firstSlot).runTime + (s.proc firstSlot).totalWaitingTime ≤
      s.ticks - (s.proc firstSlot).creationTime := by
  obtain ⟨s, run, later, ticks, live, charged⟩ := execUnder_path (M := kernel 1) (s := (kernel 1).init)
    (P := fun x _ y => x.ticks ≤ y.ticks)
    (Q := fun s => s.ticks = 1 ∧ (s.proc firstSlot).state ≠ .unused ∧ (s.proc firstSlot).runTime = 1)
    (steps 0 6 ++ [⟨0, .timer⟩] ++ steps 0 207) (by decide +kernel)
  have short : clock run < 4294967296 := by
    rw [clock_of_mono run later, ticks]
    decide
  have visited : run.Every Visited := by
    intro x a y taken
    obtain ⟨path, -, moved⟩ := taken.before later
    exact visited_alone (step_move moved)
  exact ⟨s, ⟨run⟩, ticks, charged, (no_tick_charged_twice run short visited firstSlot live).2⟩

/-- CPU 0 advances the clock and stands before its visits; on CPU 1 the first process forks a
child and sleeps, and the child is dispatched and then charged for the tick at which it
was born. -/
theorem newborn_charged : ∃ s : Sys 2, ∃ run : Run (kernel 2) s, clock run = 1 ∧
    (s.proc 1).state = .running ∧ (s.proc 1).creationTime = s.ticks ∧ (s.proc 1).runTime = 1 := by
  obtain ⟨s, run, ticks, charged⟩ := execFold_path (M := kernel 2) (s := (kernel 2).init) (h := 0) noteTick
    (Q := fun s n => n = 1 ∧ (s.proc 1).state = .running ∧ (s.proc 1).creationTime = s.ticks ∧
      (s.proc 1).runTime = 1)
    (steps 1 6 ++ [⟨0, .timer⟩, ⟨0, .go⟩] ++ syscall 1 .fork 8 ++ syscall 1 .other 1 ++
      [⟨1, .sleepOn (.other 0)⟩] ++ steps 1 6 ++ steps 0 2) (by decide +kernel)
  exact ⟨s, run, ticks, charged⟩

end Xv6Monitor.Accounting.Charging
