import Xv6Monitor.Scheduler.Yielding

/-! Preemption under PRIORITY. A process that becomes RUNNABLE while a `yield` is pending is
noticed; the other ways to become RUNNABLE (`fork`, `kill`, the wakeups of devices and
system calls) do not lead to a reschedule. -/

namespace Xv6Monitor.Scheduler.Preemption
open Lib.Transition Process.Table Process.Machine Process.Step Process.Moves
open Process.Lifecycle Process.Children Process.Invariant Process.Clock
open Process.Holding Process.Stacks Process.Exits Scan Policy Yielding

variable {C : Nat} {s t : Sys C} {c : Fin C} {p q r : Slot}

theorem running_alone {s : Sys 1} {c : Fin 1} (inv : Coherent s) (on : (s.cpu c).cur = some p)
    (running : (s.proc q).state = .running) : q = p := by
  obtain ⟨d, target⟩ := inv.owned.dispatched q running
  rw [Subsingleton.elim d c] at target
  obtain ⟨⟨_, loc⟩, -⟩ := inv.owned.active c p on
  rw [loc] at target
  exact (Option.some.inj target).symm

/-- The step readies a process that is more important than the executed one, and no `yield` is
pending. -/
def Overlooks (x : Sys C) (c : Fin C) (y : Sys C) : Prop :=
  ∃ p, (x.cpu c).cur = some p ∧ due (x.thread p) = false ∧
    ∃ r, ¬Ready x r ∧ Ready y r ∧ (x.proc r).priority < (x.proc p).priority

instance (x : Sys C) (c : Fin C) (y : Sys C) : Decidable (Overlooks x c y) :=
  decidable_of_iff ((x.cpu c).cur.any fun p => due (x.thread p) = false ∧
      ∃ r, ¬Ready x r ∧ Ready y r ∧ (x.proc r).priority < (x.proc p).priority) (by
    simp [Overlooks, Option.any_eq_true])

/-- Nobody becomes RUNNABLE behind a scan, and under PRIORITY no dispatch of another branch is
due and no process that becomes RUNNABLE is overlooked. -/
def Prompt (x : Sys C) (a : Action C) (y : Sys C) : Prop :=
  ¬Overtakes .priority x y ∧ (x.schedMode = .priority → ¬Stale x ∧ ¬Overlooks x a.cpu y)

instance (x : Sys C) (a : Action C) (y : Sys C) : Decidable (Prompt x a y) := inferInstanceAs (Decidable (_ ∧ _))

/-- Under PRIORITY a RUNNING process is as important as the RUNNABLE ones or gives way. -/
def Preempted (s : Sys C) : Prop :=
  s.schedMode = .priority → ∀ p, (s.proc p).state = .running →
    due (s.thread p) = true ∨ ∀ r, Ready s r → (s.proc p).priority ≤ (s.proc r).priority

/-- While a process runs, its CPU readies others only on its behalf. -/
theorem ready_executed {s t : Sys 1} {c : Fin 1} (inv : Coherent s) (moved : Move s c t)
    (running : (s.proc p).state = .running) (before : ¬Ready s r) (after : Ready t r) :
    (s.cpu c).cur = some p := by
  cases cur : (s.cpu c).cur with
  | some _ => rw [running_alone inv cur running]
  | none =>
    exfalso
    cases moved with
    | interruptIdle => exact before after
    | sched t idle quiet moved =>
      rcases sched_entry inv.owned moved r with same | ⟨ready, -⟩
      · rw [Ready, same] at after
        exact before after
      · exact before ready
    | idleCall call _ _ _ _ idle top _ _ =>
      obtain ⟨d, target⟩ := inv.owned.dispatched p running
      have quiet : (s.cpu c).calls ≠ [] := by simp [top]
      rw [Subsingleton.elim d c, (inv.owned.handler c quiet).1] at target
      cases target
    | interruptUser _ _ _ on | interruptKernel _ _ _ on | switch _ _ on | call _ _ _ _ _ _ on
    | base _ _ _ _ _ _ on =>
      rw [cur] at on
      cases on

theorem ready_live (inv : Coherent s) (moved : Move s c t) (after : Ready t r) :
    (s.proc r).state ≠ .unused := by
  intro unused
  have used := (move_birth inv moved unused (by rw [after]; simp)).2.1
  rw [Ready, used] at after
  cases after

theorem edge_runs {ticks : Nat} {pid : Int} {entry entry' : Proc} (edge : Edge ticks pid entry entry')
    (before : entry.state ≠ .running) (after : entry'.state = .running) : entry.state = .runnable := by
  cases edge with
  | dispatch ready => exact ready
  | kill =>
    by_cases asleep : entry.state = .sleeping <;> simp [asleep] at after
    exact absurd after before
  | same | created | adopt | clearChan | setPriority => exact absurd after before
  | setKilled running | charge running => exact absurd running before
  | _ => cases after

/-- A dispatch of the PRIORITY branch takes a process that is as important as any other. -/
theorem preempted_dispatch (inv : Coherent s) (moved : Move s c t) (mode : s.schedMode = .priority)
    (fresh : ¬Stale s) (scanning : Scanning .priority s) (before : (s.proc p).state ≠ .running)
    (after : (t.proc p).state = .running) (other : Ready t r) : (s.proc p).priority ≤ (s.proc r).priority := by
  have ready : Ready s p := edge_runs (move_edge inv moved p) before after
  have dispatched : Dispatches s t c p := by
    rcases ready_kept inv moved ready with ⟨still, -⟩ | dispatched
    · rw [Ready, after] at still
      cases still
    · exact dispatched
  obtain ⟨-, -, -, aimed⟩ := move_dispatch inv moved dispatched
  have current := policy_current fresh aimed ready
  have was : Ready s r := by
    obtain ⟨-, -, sched⟩ := dispatch_sched moved dispatched
    rcases sched_entry inv.owned sched r with same | ⟨ready, -⟩
    · rwa [Ready, same] at other
    · exact ready
  have order := key_priority_le (scan_dispatch scanning aimed (by rw [current, mode]; rfl) was)
  omega

theorem preempted_move {s t : Sys 1} {a : Action 1} (inv : Coherent s) (locking : Locking s)
    (moved : Move s a.cpu t) (prompt : Prompt s a t) (scanning : Scanning .priority s) (holds : Preempted s) :
    Preempted t := by
  intro mode p after
  rcases move_policy inv moved with ⟨same, priorities⟩ | ⟨q, on, pending⟩
  · rw [same] at mode
    obtain ⟨fresh, noticed⟩ := prompt.2 mode
    have live : (s.proc p).state ≠ .unused := by
      intro unused
      have ready := edge_runs (move_edge inv moved p) (by simp [unused]) after
      rw [unused] at ready
      cases ready
    have importance := priorities p live (by simp [after])
    by_cases before : (s.proc p).state = .running
    · cases pending : due (s.thread p) with
      | true => exact Or.inl (due_move inv locking moved mode before after pending)
      | false =>
        right
        intro r ready
        rw [importance, priorities r (ready_live inv moved ready) (by rw [ready]; simp)]
        by_cases was : Ready s r
        · exact (holds mode p before).resolve_left (by simp [pending]) r was
        · by_contra more
          exact noticed ⟨p, ready_executed inv moved before was ready, pending, r, was, ready, by omega⟩
    · right
      intro r ready
      rw [importance, priorities r (ready_live inv moved ready) (by rw [ready]; simp)]
      exact preempted_dispatch inv moved mode fresh scanning before after ready
  · rw [running_alone (inv_move inv moved) on after]
    exact Or.inl pending

theorem preempted_boot : Preempted (boot C) := by
  intro mode
  cases mode

/-- The process `p` returns from the kernel to user mode. -/
def Returns (x : Sys C) (c : Fin C) (y : Sys C) (p : Slot) : Prop :=
  (x.cpu c).cur = some p ∧ (x.thread p).base = .usertrapret ∧ (y.thread p).base = .user

instance (x : Sys C) (c : Fin C) (y : Sys C) (p : Slot) : Decidable (Returns x c y p) :=
  inferInstanceAs (Decidable (_ ∧ _))

theorem returns_plain (inv : Coherent s) (moved : Move s c t) (returned : Returns s c t p) :
    (s.proc p).state = .running ∧ due (s.thread p) = false ∧ t.proc = s.proc := by
  obtain ⟨on, base, user⟩ := returned
  cases move_advance inv moved p with
  | stay same => rw [same, base] at user; cases user
  | born unused => exact absurd unused (cur_live inv on)
  | trap _ _ user' => rw [base] at user'; cases user'
  | base _ running choice _ _ _ next done table empty =>
    rw [base, user] at next
    cases choice <;> cases next
    cases done
    exact ⟨(inv.executing on running p on).1, by simp [due, dueAt, running, base, empty, stage], table⟩

/-- Priority scheduling on one CPU is preemptive in every run whose steps are all prompt: whenever
a process returns to user mode under PRIORITY, no RUNNABLE process is more important. -/
theorem priority_preempts {s : Sys 1} (run : Run (kernel 1) s) (prompt : run.Every Prompt) :
    run.Every fun x a y => x.schedMode = .priority → ∀ p, Returns x a.cpu y p →
      ∀ r, Ready y r → (y.proc p).priority ≤ (y.proc r).priority := by
  intro x a y taken mode p returned r ready
  obtain ⟨earlier, every, moved⟩ := taken.before prompt
  have holds : Locking x ∧ Scanning .priority x ∧ Preempted x := by
    refine invariant_along (I := fun s => Locking s ∧ Scanning .priority s ∧ Preempted s)
      ⟨locking_boot, scanning_boot .priority, preempted_boot⟩ ?_ earlier every
    rintro s a t inv moved prompt ⟨locking, scanning, holds⟩
    exact ⟨locking_move inv moved locking,
      scanning_move inv moved prompt.1 (fun d k cand loc => keyed_alone inv moved loc) scanning,
      preempted_move inv locking moved prompt scanning holds⟩
  have inv := inv_reachable ⟨earlier⟩
  obtain ⟨running, plain, table⟩ := returns_plain inv (step_move moved) returned
  rw [Ready, table] at ready
  rw [table]
  exact (holds.2.2 mode p running).resolve_left (by simp [plain]) r ready

/-- The first process makes itself more important than its child before it forks. -/
theorem priority_preempts_child : ∃ (s : Sys 1) (run : Run (kernel 1) s), run.Every Prompt ∧
    (s.schedMode = .priority ∧ (s.thread firstSlot).base = .user ∧ Ready s 1) ∧
    run.Every fun x a y => x.schedMode = .priority → ∀ p, Returns x a.cpu y p →
      ∀ r, Ready y r → (y.proc p).priority ≤ (y.proc r).priority := by
  obtain ⟨s, run, prompt, ends⟩ := execUnder_path (M := kernel 1) (P := Prompt) (s := (kernel 1).init)
    (Q := fun s => s.schedMode = .priority ∧ (s.thread firstSlot).base = .user ∧ Ready s 1)
    (steps 0 6 ++ syscall 0 (.setscheduler 2) 145 ++ syscall 0 (.setpriority 1 5) 78 ++ syscall 0 .fork 8)
    (by decide +kernel)
  exact ⟨s, run, prompt, ends, priority_preempts run prompt⟩

/-- Alone under PRIORITY, the first process makes itself less important than its future child and
forks: it returns to user mode while the child waits. -/
theorem fork_not_preempted : ∃ s : Sys 1, Reachable (kernel 1) s ∧ (∀ r, ¬Ready s r) ∧
    ∃ x, ∃ path : Path (kernel 1) s x, path.Throughout (fun x => x.schedMode = .priority) ∧
      ∃ y ∈ step x ⟨0, .go⟩, Returns x 0 y firstSlot ∧ Ready y 1 ∧
        (y.proc 1).priority < (y.proc firstSlot).priority := by
  obtain ⟨s, reachable, alone, mode, ends⟩ := reachable_exec (M := kernel 1)
    (Q := fun s => (∀ r, ¬Ready s r) ∧ s.schedMode = .priority ∧
      (execUnder (kernel 1) (fun _ _ y => y.schedMode = .priority) s
        (syscall 0 (.setpriority 1 20) 78 ++ syscall 0 .fork 7)).any (fun x : Sys 1 =>
          decide (∃ y ∈ step x ⟨0, .go⟩, Returns x 0 y firstSlot ∧ Ready y 1 ∧
            (y.proc 1).priority < (y.proc firstSlot).priority)) = true)
    (steps 0 6 ++ syscall 0 (.setscheduler 2) 145) (by decide +kernel)
  obtain ⟨x, path, every, returned⟩ := execUnder_path _ ends
  exact ⟨s, reachable, alone, x, path, ⟨mode, every⟩, returned⟩

end Xv6Monitor.Scheduler.Preemption
