import Xv6Monitor.Scheduler.Policy

/-! First come, first served. The FCFS branch compares creation times, which have the
resolution of a tick, and takes the lowest slot among equals. That is the order of arrival
as long as creation times are read in the order in which pids are drawn, and the processes of
one tick lie in the table in the order of their pids. -/

namespace Xv6Monitor.Scheduler.Arrival
open Lib.Transition Process.Table Process.Machine Process.Step Process.Moves
open Process.Children Process.Invariant Scan Policy

variable {C : Nat} {s t : Sys C} {c : Fin C} {q r : Slot}

/-- A dispatch under FCFS passes over nobody who was allocated earlier. -/
def ByArrival (s t : Sys C) : Prop :=
  s.schedMode = .fcfs → ∀ c q, Dispatches s t c q → ∀ r, Ready s r → (s.proc q).pid ≤ (s.proc r).pid

instance : Decidable (ByArrival s t) := inferInstanceAs (Decidable (_ → _))

/-- RUNNABLE processes created in the same tick lie in the table in the order of their pids. -/
def Aligned (s : Sys C) : Prop :=
  ∀ p, Ready s p → ∀ q, Ready s q → (s.proc p).creationTime = (s.proc q).creationTime →
    (s.proc p).pid < (s.proc q).pid → p < q

instance : Decidable (Aligned s) := inferInstanceAs (Decidable (∀ _, _))

def Forked (s : Sys C) (q : Slot) : Prop := (s.proc q).state ≠ .unused ∧ (s.proc q).state ≠ .used

instance : Decidable (Forked s q) := inferInstanceAs (Decidable (_ ∧ _))

/-- A `fork` ends with two processes of which the first has the smaller pid and the later creation
time: another CPU drew its pid and read the clock in between. -/
def Outruns (s t : Sys C) : Prop :=
  ∃ p, Forked t p ∧ ∃ q, Forked t q ∧ ¬(Forked s p ∧ Forked s q) ∧
    (t.proc p).pid < (t.proc q).pid ∧ (t.proc q).creationTime < (t.proc p).creationTime

instance : Decidable (Outruns s t) := inferInstanceAs (Decidable (∃ _, _))

/-- While FCFS is in force no stale dispatch is due and the processes of one tick are aligned;
nobody becomes RUNNABLE behind an FCFS scan, and no `fork` outruns another. -/
def Orderly (s : Sys C) (_ : Action C) (t : Sys C) : Prop :=
  (s.schedMode = .fcfs → ¬Stale s ∧ Aligned s) ∧ ¬Overtakes .fcfs s t ∧ ¬Outruns s t

instance {a : Action C} : Decidable (Orderly s a t) := inferInstanceAs (Decidable (_ ∧ _))

/-- Process 2 of the first tick exits, its slot goes to process 4 of the same tick, and the FCFS
scan passes over process 3. The policy is FCFS from the first fork on. -/
theorem slot_reuse_violates_arrival : ∃ s₀ : Sys 1, Reachable (kernel 1) s₀ ∧
    ∃ s, ∃ stretch : Path (kernel 1) s₀ s,
      stretch.Throughout (fun x => x.schedMode = .fcfs) ∧
      ∃ t ∈ step s ⟨0, .go⟩, ¬ByArrival s t := by
  obtain ⟨s₀, reachable, start, ends⟩ := reachable_exec (M := kernel 1)
    (Q := fun s₀ => s₀.schedMode = .fcfs ∧
      (execUnder (kernel 1) (fun _ _ y => y.schedMode = .fcfs) s₀
        (steps 0 5 ++ syscall 0 .fork 8 ++ syscall 0 .fork 9 ++ syscall 0 (.wait 0) 71 ++
          steps 0 69 ++ syscall 0 (.exit 0) 141 ++ steps 0 73 ++ syscall 0 .fork 8 ++
          syscall 0 (.wait 0) 71 ++ steps 0 65)).any
        (fun s : Sys 1 => decide (∃ t ∈ step s ⟨0, .go⟩, ¬ByArrival s t)) = true)
    (steps 0 6 ++ syscall 0 (.setscheduler 1) 9 ++ syscall 0 .other 1 ++
      [⟨0, .sleepOn (.other 0)⟩] ++ steps 0 67 ++ [⟨0, .device⟩, ⟨0, .wakeOn (.other 0)⟩] ++
      steps 0 133) (by decide +kernel)
  obtain ⟨s, stretch, every, last⟩ := execUnder_path _ ends
  exact ⟨s₀, reachable, s, stretch, ⟨start, every⟩, last⟩

/-- The order of pids is the order of creation times. -/
def Aged (s : Sys C) : Prop :=
  ∀ p q, Forked s p → Forked s q → (s.proc p).pid < (s.proc q).pid →
    (s.proc p).creationTime ≤ (s.proc q).creationTime

theorem aged_boot : Aged (boot C) := by
  intro p q _ _ _
  rw [boot_proc, boot_proc]
  split <;> split <;> exact Nat.le_refl 0

theorem aged_move (inv : Coherent s) (moved : Move s c t) (apart : ¬Outruns s t) (aged : Aged s) : Aged t := by
  intro p q first second order
  by_contra later
  by_cases before : Forked s p ∧ Forked s q
  · have p_kept := (move_edge inv moved p).identity before.1.1 first.1
    have q_kept := (move_edge inv moved q).identity before.2.1 second.1
    rw [p_kept.1, q_kept.1] at order
    rw [p_kept.2 first.2, q_kept.2 second.2] at later
    exact later (aged p q before.1 before.2 order)
  · exact apart ⟨p, first, q, second, before, order, not_le.mp later⟩

theorem Ready.forked (ready : Ready s q) : Forked s q := by
  constructor <;> rw [ready] <;> simp

theorem arrival_of_scanning (inv : Coherent s) (moved : Move s c t) (aged : Aged s)
    (orderly : s.schedMode = .fcfs → ¬Stale s ∧ Aligned s) (scanning : Scanning .fcfs s) :
    ByArrival s t := by
  intro mode d q dispatched r other
  obtain ⟨fresh, aligned⟩ := orderly mode
  obtain ⟨rfl, -, ready, aimed⟩ := move_dispatch inv moved dispatched
  have current := policy_current fresh aimed ready
  have least := scan_dispatch scanning aimed (by rw [current, mode]; rfl) other
  by_contra later
  have earlier : (s.proc r).pid < (s.proc q).pid := not_le.mp later
  have ordered := aged r q (Ready.forked other) (Ready.forked ready) earlier
  rcases key_fcfs_le least with younger | ⟨same, first⟩
  · omega
  · exact absurd (aligned r other q ready same.symm earlier) (not_lt.mpr first)

/-- FCFS serves in the order of allocation, on any number of CPUs, in every run whose steps are
orderly. -/
theorem fcfs_by_arrival (run : Run (kernel C) s) (orderly : run.Every Orderly) :
    run.Every fun x _ y => ByArrival x y := by
  intro x a y taken
  obtain ⟨earlier, every, moved⟩ := taken.before orderly
  have aged : Aged x := by
    refine invariant_along aged_boot ?_ earlier every
    intro s a t inv moved last
    exact aged_move inv moved last.2.2
  have scanning : Scanning .fcfs x := by
    refine invariant_along (scanning_boot .fcfs) ?_ earlier every
    intro s a t inv moved last
    exact scanning_move inv moved last.2.1 (fun _ _ _ _ => keyed_fcfs inv moved)
  exact arrival_of_scanning (inv_reachable ⟨earlier⟩) (step_move moved) aged
    (orderly x a y taken).1 scanning

/-- The first process forks on CPU 0 and selects FCFS; the scan of CPU 1 serves the child. -/
theorem fcfs_by_arrival_child : ∃ (s : Sys 2) (run : Run (kernel 2) s),
    run.Every Orderly ∧
    (s.schedMode = .fcfs ∧ ∃ q, (s.cpu 1).loc = .swtchIn none q ∧ (s.proc q).pid = 2) ∧
    run.Every fun x _ y => ByArrival x y := by
  obtain ⟨s, run, orderly, ends⟩ := execUnder_path (M := kernel 2) (s := boot 2) (P := Orderly)
    (Q := fun s => s.schedMode = .fcfs ∧ ∃ q, (s.cpu 1).loc = .swtchIn none q ∧ (s.proc q).pid = 2)
    (steps 0 6 ++ syscall 0 .fork 8 ++ syscall 0 (.setscheduler 1) 9 ++ steps 1 66)
    (by decide +kernel)
  exact ⟨s, run, orderly, ends, fcfs_by_arrival run orderly⟩

end Xv6Monitor.Scheduler.Arrival
