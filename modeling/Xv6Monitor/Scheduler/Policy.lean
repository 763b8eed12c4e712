import Xv6Monitor.Process.Clock
import Xv6Monitor.Scheduler.Scan

/-! Which process a policy picks. A dispatch obeys the policy in force when it comes from
that policy's own branch and nobody slipped behind its scan; the round robin loop does not
read `sched_mode` again before it has gone through the whole table. -/

namespace Xv6Monitor.Scheduler.Policy
open Lib.Transition Process.Table Process.Machine Process.Step Process.Moves Process.Sections
open Process.Ownership Process.Children Process.Invariant Scan

variable {C : Nat} {s t u : Sys C} {c d : Fin C} {q r : Slot}

/-- A CPU stands before a dispatch in a branch that does not belong to `sched_mode`. -/
def Stale (s : Sys C) : Prop :=
  ∃ c, ∃ q ∈ aim (s.cpu c).loc, Ready s q ∧ policy (s.cpu c).loc ≠ some s.schedMode

instance : Decidable (Stale s) :=
  decidable_of_iff (∃ c, (aim (s.cpu c).loc).any fun q =>
      decide (Ready s q ∧ policy (s.cpu c).loc ≠ some s.schedMode))
    (by simp [Stale, Option.any_eq_true])

theorem policy_current (fresh : ¬Stale s) (aimed : aim (s.cpu c).loc = some q) (ready : Ready s q) :
    policy (s.cpu c).loc = some s.schedMode := by
  by_contra stale
  exact fresh ⟨c, q, aimed, ready, stale⟩

theorem apply_handled {op : Op} (handled : handles op = true) (done : op.apply s c = some u) :
    u.schedMode = s.schedMode ∧ ∀ r, (u.proc r).priority = (s.proc r).priority := by
  cases op <;> (try cases handled) <;>
    simp only [Op.apply, Option.some.injEq, Option.ite_none_right_eq_some] at done <;>
    (try obtain ⟨-, rfl⟩ := done)
  case wake => exact ⟨rfl, update_field Proc.priority rfl⟩
  case charge => exact ⟨rfl, update_field Proc.priority rfl⟩
  all_goals exact ⟨rfl, fun r => rfl⟩

theorem idle_policy (inv : Coherent s) (moved : Move s c t) (idle : (s.cpu c).cur = none) :
    t.schedMode = s.schedMode ∧ ∀ r, (t.proc r).priority = (s.proc r).priority := by
  cases moved with
  | interruptIdle => exact ⟨rfl, fun r => rfl⟩
  | sched t _ _ moved =>
    refine ⟨?_, fun r => ?_⟩
    · cases moved with
      | scanTake _ _ cand _ _ _ _ => cases cand <;> rfl
      | _ => rfl
    · rcases sched_entry inv.owned moved r with same | ⟨-, dispatched⟩
      · rw [same]
      · rw [dispatched]
        rfl
  | idleCall call _ _ _ _ _ top next done =>
    have nobody := (inv.myproc (c := c) (Or.inr (by simp [top]))).trans idle
    have kept := apply_handled (callStep_handler nobody next).1 done
    exact kept
  | interruptUser _ p _ on | interruptKernel _ p _ on | switch p _ on | call p _ _ _ _ _ on
  | base p _ _ _ _ _ on =>
    rw [idle] at on
    cases on

variable {branch : Branch} {cand : Option Slot}

theorem idle_of_scan (inv : Coherent s) {k : Nat}
    (loc : (s.cpu c).loc = .scan branch k cand) : (s.cpu c).cur = none := by
  cases cur : (s.cpu c).cur with
  | none => rfl
  | some p =>
    obtain ⟨⟨_, place⟩, -⟩ := inv.owned.active c p cur
    rw [view_cpu, loc] at place
    cases place

theorem alone_of_scan {s t : Sys 1} {c d : Fin 1} (inv : Coherent s) (moved : Move s c t) {k : Nat} (loc : (s.cpu d).loc = .scan branch k cand) :
    t.schedMode = s.schedMode ∧ ∀ r, (t.proc r).priority = (s.proc r).priority := by
  rw [Subsingleton.elim d c] at loc
  exact idle_policy inv moved (idle_of_scan inv loc)

theorem keyed_alone {s t : Sys 1} {c d : Fin 1} (inv : Coherent s) (moved : Move s c t) {k : Nat} (loc : (s.cpu d).loc = .scan branch k cand) :
    Keyed branch s t := by
  intro r before after
  have birth := (move_edge inv moved r).identity (by rw [before]; simp) (by rw [after]; simp)
  have priority := (alone_of_scan inv moved loc).2 r
  cases branch <;> simp only [key, birth.2 (by rw [after]; simp), priority]

/-- Every dispatch under FCFS takes a RUNNABLE process with the least creation time, every
dispatch under PRIORITY one that is least by priority and then creation time. -/
def Complies (s t : Sys C) : Prop :=
  ∀ c q, Dispatches s t c q →
    (s.schedMode = .fcfs →
      Ready s q ∧ ∀ r, Ready s r → (s.proc q).creationTime ≤ (s.proc r).creationTime) ∧
    (s.schedMode = .priority →
      Ready s q ∧ ∀ r, Ready s r → (s.proc q).priority < (s.proc r).priority ∨
        ((s.proc q).priority = (s.proc r).priority ∧
          (s.proc q).creationTime ≤ (s.proc r).creationTime))

instance : Decidable (Complies s t) := inferInstanceAs (Decidable (∀ _, _))

/-- The first process makes its child less important and selects PRIORITY; the round robin
pass that is under way dispatches the child, although the first process is RUNNABLE. -/
theorem stale_pass_violates_policy : ∃ s : Sys 1, Reachable (kernel 1) s ∧
    ∃ t ∈ step s ⟨0, .go⟩, s.schedMode = .priority ∧ ¬Complies s t :=
  reachable_exec
    (steps 0 6 ++ syscall 0 .fork 8 ++ syscall 0 (.setpriority 2 20) 6 ++
      syscall 0 (.setscheduler 2) 11) (by decide +kernel)

/-- No stale dispatch is due and nobody becomes RUNNABLE behind a scan. -/
def Timely (s : Sys C) (_ : Action C) (t : Sys C) : Prop :=
  ¬Stale s ∧ ∀ branch ∈ [Branch.fcfs, Branch.priority], ¬Overtakes branch s t

instance {a : Action C} : Decidable (Timely s a t) := inferInstanceAs (Decidable (_ ∧ _))

theorem complies_of_scanning (inv : Coherent s) (moved : Move s c t) (fresh : ¬Stale s)
    (scanning : ∀ branch, Scanning branch s) : Complies s t := by
  intro d q dispatched
  obtain ⟨rfl, -, ready, aimed⟩ := move_dispatch inv moved dispatched
  have current := policy_current fresh aimed ready
  refine ⟨fun mode => ⟨ready, fun r other => ?_⟩, fun mode => ⟨ready, fun r other => ?_⟩⟩
  · have least := scan_dispatch (scanning .fcfs) aimed (by rw [current, mode]; rfl) other
    have order := key_fcfs_le least
    omega
  · exact key_priority_le (scan_dispatch (scanning .priority) aimed (by rw [current, mode]; rfl) other)

/-- Policy compliance on one CPU, in every run without a stale dispatch in which nobody becomes
RUNNABLE behind a scan under way. -/
theorem policy_compliance {s : Sys 1} (run : Run (kernel 1) s) (timely : run.Every Timely) :
    run.Every fun x _ y => Complies x y := by
  intro x a y taken
  obtain ⟨earlier, every, moved⟩ := taken.before timely
  have scanning : ∀ branch, Scanning branch x := by
    intro branch
    refine invariant_along (scanning_boot branch) ?_ earlier every
    intro s a t inv moved last
    have nobody : ¬Overtakes branch s t := last.2 branch (by cases branch <;> simp)
    exact scanning_move inv moved nobody (fun d k cand loc => keyed_alone inv moved loc)
  have inv := inv_reachable ⟨earlier⟩
  exact complies_of_scanning inv (step_move moved) (timely x a y taken).1 scanning

/-- The first process selects FCFS and sleeps; a device wakes it between two scans, and the
next scan dispatches it. -/
theorem policy_compliance_fcfs : ∃ (s : Sys 1) (run : Run (kernel 1) s), run.Every Timely ∧
    (s.schedMode = .fcfs ∧ (s.cpu 0).loc = .swtchIn none firstSlot) ∧
    run.Every fun x _ y => Complies x y := by
  obtain ⟨s, run, timely, ends⟩ := execUnder_path (M := kernel 1) (P := Timely) (s := boot 1)
    (Q := fun s => s.schedMode = .fcfs ∧ (s.cpu 0).loc = .swtchIn none firstSlot)
    (steps 0 6 ++ syscall 0 (.setscheduler 1) 9 ++ syscall 0 .other 1 ++
      [⟨0, .sleepOn (.other 0)⟩] ++ steps 0 67 ++ [⟨0, .device⟩, ⟨0, .wakeOn (.other 0)⟩] ++
      steps 0 133) (by decide +kernel)
  exact ⟨s, run, timely, ends, policy_compliance run timely⟩

end Xv6Monitor.Scheduler.Policy
