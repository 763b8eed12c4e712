import Mathlib.Algebra.Group.Action.Defs
import Mathlib.Algebra.Order.BigOperators.Group.List
import Mathlib.Algebra.Order.Ring.Nat
import Mathlib.Data.Int.Interval
import Xv6Monitor.Accounting.Counters
import Xv6Monitor.Accounting.Waiting

/-! The global metrics. A process never waits longer than it has lived, so that the sums that
`exit` accumulates stay below the bounds of `uint64` and the waiting sum below the
turnaround sum, in every state in which `metrics_lock` is free. -/

namespace Xv6Monitor.Accounting.Metrics
open Lib.Transition Process Table Machine Step Moves Lifecycle Children Invariant Clock Holding Stacks Exits Waiting
  Counters

variable {C : Nat} {s t : Sys C} {c : Fin C}

/-- A process has waited at most since its birth, and a RUNNABLE one has completed that wait
before the stretch under way. -/
structure Patient (ticks : Nat) (p : Proc) : Prop where
  lived : p.state ≠ .unused → p.creationTime + p.totalWaitingTime ≤ ticks
  ready : p.state = .runnable → p.creationTime + p.totalWaitingTime ≤ p.lastRunnableTime ∧
    p.lastRunnableTime ≤ ticks

section Entry

variable {ticks : Nat} {pid : Int} {p p' : Proc}

theorem Patient.edge (patient : Patient ticks p) (dated : Dated ticks p') (short : ticks < 4294967296)
    (edge : Edge ticks pid p p') : Patient ticks p' := by
  by_cases gone : p'.state = .unused
  · exact ⟨fun live => absurd gone live, fun ready => by rw [gone] at ready; cases ready⟩
  by_cases young : p'.state = .used
  · have past := dated.past
    have fresh := (dated.fresh young).2
    exact ⟨fun _ => by omega, fun ready => by rw [young] at ready; cases ready⟩
  cases edge_turn edge with
  | absent unused still => exact absurd still gone
  | born unused used zero => exact absurd used young
  | opens live stopped ready start kept =>
    have birth := (edge.identity live gone).2 young
    have lived := patient.lived live
    exact ⟨fun _ => by omega, fun _ => by omega⟩
  | closes ready dispatched =>
    subst dispatched
    have waited := patient.ready ready
    have lived := patient.lived (by simp [ready])
    refine ⟨fun _ => ?_, fun again => by cases again⟩
    show p.creationTime + (if p.lastRunnableTime > 0 then
      uint (p.totalWaitingTime + uintSub ticks p.lastRunnableTime) else p.totalWaitingTime) ≤ ticks
    split
    next => rw [uintSub_of_le waited.2 short, uint_of_lt (by omega)]; omega
    next => exact lived
  | steady live same start kept =>
    have birth := (edge.identity live gone).2 young
    have lived := patient.lived live
    refine ⟨fun _ => by omega, fun ready => ?_⟩
    have waited := patient.ready (same.mp ready)
    have begun := start ready
    omega

theorem Patient.tick (patient : Patient ticks p) : Patient (ticks + 1) p where
  lived live := (patient.lived live).trans (Nat.le_succ _)
  ready ready := ⟨(patient.ready ready).1, (patient.ready ready).2.trans (Nat.le_succ _)⟩

end Entry

theorem patient_boot (q : Slot) : Patient 0 ((boot C).proc q) := by
  rw [boot_proc]
  split <;> exact ⟨fun _ => Nat.le_refl 0, fun _ => ⟨Nat.le_refl 0, Nat.le_refl 0⟩⟩

/-- Before the tick counter wraps nobody has waited longer than they have lived. -/
theorem patient_along (run : Run (kernel C) s) (short : clock run < 4294967296) (q : Slot) :
    Patient s.ticks (s.proc q) := by
  induction run with
  | nil => exact patient_boot q
  | snoc path _ moved ih =>
    have patient := ih (lt_of_le_of_lt (clock_mono path moved) short)
    obtain ⟨small, still | ⟨next, table⟩⟩ := short_move path moved short
    · have date := dated_along (path.snoc _ moved) (ticks_mono _ short) q
      rw [still] at date ⊢
      exact patient.edge date small (move_edge (inv_reachable ⟨path⟩) (step_move moved) q)
    · rw [next, table]
      exact patient.tick

/-- What `exit` accounts for a process: the tick it exits at, its birth and its waiting time. -/
structure Account where
  tick : Nat
  birth : Nat
  waited : Nat
  deriving DecidableEq, Repr

def Account.age (e : Account) : Nat := e.tick - e.birth

def accountOf (x : Sys C) (p : Slot) : Account :=
  ⟨x.ticks, (x.proc p).creationTime, (x.proc p).totalWaitingTime⟩

/-- Notes each `exit` in its section under `metrics_lock`, and starts afresh with each reset. -/
def noteAccount : Sys C → Action C → Sys C → List (Int × Account) → List (Int × Account) :=
  exitLog 3 (fun x _ p => accountOf x p) fun x a _ => resets x a.cpu

def accounts (run : Run (kernel C) s) : List (Int × Account) := run.fold noteAccount []

def ages (log : List (Int × Account)) : Nat := (log.map fun e => e.2.age).sum

def waits (log : List (Int × Account)) : Nat := (log.map fun e => e.2.waited).sum

section Bounds

variable {log : List (Int × Account)}

theorem ages_add (e : Int × Account) : ages (log ++ [e]) = ages log + (e.2.tick - e.2.birth) := by
  simp [ages, Account.age]

theorem waits_add (e : Int × Account) : waits (log ++ [e]) = waits log + e.2.waited := by
  simp [waits]

def Account.Fair (e : Account) : Prop := e.birth + e.waited ≤ e.tick ∧ e.tick < 4294967296

theorem waits_le_ages (fair : ∀ e ∈ log, e.2.Fair) : waits log ≤ ages log := by
  refine List.sum_le_sum fun e mem => ?_
  have lived := (fair e mem).1
  simp only [Account.age]
  omega

theorem logged_length {n : Nat} (logged : Logged n s log) (bounded : s.nextpid ≤ INT_MAX) :
    log.length < 2147483648 := by
  have within : (log.map Prod.fst).toFinset ⊆ Finset.Ioo 0 s.nextpid := by
    intro pid mem
    obtain ⟨e, old, rfl⟩ := List.mem_map.mp (List.mem_toFinset.mp mem)
    exact Finset.mem_Ioo.mpr (logged.issued e old)
  have count := Finset.card_le_card within
  rw [List.toFinset_card_of_nodup logged.once, List.length_map, Int.card_Ioo] at count
  unfold INT_MAX at bounded
  omega

theorem ages_small (fair : ∀ e ∈ log, e.2.Fair) (few : log.length < 2147483648) :
    ages log < 9223372036854775808 := by
  have bound : ages log ≤ (log.map fun e => e.2.age).length • 4294967295 := by
    refine List.sum_le_card_nsmul _ _ fun age mem => ?_
    obtain ⟨e, old, rfl⟩ := List.mem_map.mp mem
    have small := (fair e old).2
    simp only [Account.age]
    omega
  rw [List.length_map, smul_eq_mul] at bound
  omega

end Bounds

/-- The counters against the exits, by the position of the section under way. -/
def Metered (s : Sys C) (log : List (Int × Account)) : Prop :=
  match metricsMark.current s with
  | none => s.totalTurnaroundTime = ages log ∧ s.totalWaitingTimeSum = waits log ∧
      s.finishedProcesses = log.length
  | some (.turnaround p) => s.totalTurnaroundTime = ages log ∧
      s.totalWaitingTimeSum + (s.proc p).totalWaitingTime = waits log ∧ s.finishedProcesses + 1 = log.length
  | some (.waiting _) => s.totalTurnaroundTime = ages log ∧ s.totalWaitingTimeSum = waits log ∧
      s.finishedProcesses + 1 = log.length
  | some .zeroTurnaround => log = [] ∧ s.totalTurnaroundTime = 0
  | some .zeroWaiting => log = [] ∧ s.totalTurnaroundTime = 0 ∧ s.totalWaitingTimeSum = 0

theorem exiting_waits (inv : Coherent s) (locking : Locking s) (moved : Move s c t) {p : Slot}
    (marked : metricsMark.current s = some (.turnaround p)) :
    (t.proc p).totalWaitingTime = (s.proc p).totalWaitingTime := by
  obtain ⟨_, found⟩ := (metricsMark.current_iff locking).mp marked
  obtain ⟨on, lock⟩ := turnaround_on locking found
  have running : (s.thread p).phase = .running := by
    by_contra parked
    rw [(locking.threads p).parked parked] at lock
    cases lock
  have state := (inv.executing on running p on).1
  cases edge_turn (move_edge inv moved p) with
  | absent unused | born unused => rw [state] at unused; cases unused
  | closes ready => rw [state] at ready; cases ready
  | opens live _ ready start kept => exact kept
  | steady live _ start kept => exact kept

section Step

variable {a : Action C} {log : List (Int × Account)}

theorem noteAccount_other (kept : resets s a.cpu = false) (unreached : reaches 3 s a.cpu t = none) :
    noteAccount s a t log = log := by
  simp [noteAccount, exitLog, kept, unreached]

theorem noteAccount_exit {p : Slot} (kept : resets s a.cpu = false) (reached : reaches 3 s a.cpu t = some p) :
    noteAccount s a t log = log ++ [((s.proc p).pid, accountOf s p)] := by
  simp [noteAccount, exitLog, kept, reached]

theorem noteAccount_reset (reset : resets s a.cpu = true) : noteAccount s a t log = [] := by
  simp [noteAccount, exitLog, reset]

theorem fair_move (inv : Coherent s) (patient : ∀ q, Patient s.ticks (s.proc q)) (small : s.ticks < 4294967296)
    (fair : ∀ e ∈ log, e.2.Fair) : ∀ e ∈ noteAccount s a t log, e.2.Fair := by
  intro e mem
  unfold noteAccount exitLog at mem
  split at mem
  next => cases mem
  next =>
    rcases List.mem_append.mp mem with old | new
    · exact fair e old
    · obtain ⟨p, reached, rfl⟩ := List.mem_map.mp new
      have on := (reaches_some.mp (Option.mem_toList.mp reached)).1
      exact ⟨(patient p).lived (cur_live inv on), small⟩

theorem metered_quiet (inv : Coherent s) (locking : Locking s) (moved : Move s c t) (metered : Metered s log)
    (same : metricsMark.current t = metricsMark.current s) (counters : SameCounters s t) : Metered t log := by
  unfold Metered at metered ⊢
  rw [same, counters.1, counters.2.1, counters.2.2]
  cases mark : metricsMark.current s with
  | none => simpa only [mark] using metered
  | some m =>
    simp only [mark] at metered
    cases m with
    | turnaround _ => simpa only [exiting_waits inv locking moved mark] using metered
    | _ => exact metered

/-- One step keeps the counters in agreement with the exits, as long as the sums fit. -/
theorem metered_move (inv : Coherent s) (locking : Locking s) (moved : Move s a.cpu t)
    (fair : ∀ e ∈ noteAccount s a t log, e.2.Fair) (few : (noteAccount s a t log).length < 2147483648)
    (metered : Metered s log) : Metered t (noteAccount s a t log) := by
  have small := ages_small fair few
  have bounded := waits_le_ages fair
  cases move_metering inv locking moved with
  | quiet same counters unreached kept =>
    rw [noteAccount_other kept unreached]
    exact metered_quiet inv locking moved metered same counters
  | turnaround p before after reached kept table added waiting finished =>
    rw [noteAccount_exit kept reached] at small fair ⊢
    obtain ⟨born, tick⟩ := fair _ (List.mem_append_right log (List.mem_singleton_self _))
    simp only [accountOf] at born tick
    simp only [Metered, before] at metered
    simp only [Metered, after, ages_add, waits_add, accountOf, List.length_append]
      at small ⊢
    rw [added, waiting, finished, table, metered.1, metered.2.1, metered.2.2,
      uintSub_of_le (by omega) tick, uint64_of_lt (lt_trans small (by decide))]
    exact ⟨rfl, rfl, rfl⟩
  | waiting p before after unreached kept turnaround added finished =>
    rw [noteAccount_other kept unreached] at *
    simp only [Metered, before] at metered
    simp only [Metered, after]
    rw [turnaround, added, finished, metered.2.1, uint64_of_lt (by omega)]
    exact ⟨metered.1, rfl, metered.2.2⟩
  | finished p before after unreached kept turnaround waiting added =>
    rw [noteAccount_other kept unreached] at *
    simp only [Metered, before] at metered
    simp only [Metered, after]
    rw [turnaround, waiting, added, metered.2.2, uint64_of_lt (by omega)]
    exact ⟨metered.1, metered.2.1, rfl⟩
  | zeroTurnaround after reset cleared =>
    rw [noteAccount_reset reset]
    simp only [Metered, after]
    exact ⟨trivial, cleared⟩
  | zeroWaiting before after unreached kept turnaround cleared =>
    rw [noteAccount_other kept unreached]
    simp only [Metered, before] at metered
    simp only [Metered, after]
    exact ⟨metered.1, turnaround.trans metered.2, cleared⟩
  | zeroFinished before after unreached kept turnaround waiting cleared =>
    rw [noteAccount_other kept unreached]
    simp only [Metered, before] at metered
    simp only [Metered, after]
    obtain ⟨rfl, sum, sum'⟩ := metered
    exact ⟨turnaround.trans sum, waiting.trans sum', cleared⟩

end Step

theorem metered_along (run : Run (kernel C) s) (short : clock run < 4294967296) :
    (∀ e ∈ accounts run, e.2.Fair) ∧ Metered s (accounts run) := by
  induction run with
  | nil => exact ⟨fun e mem => absurd mem List.not_mem_nil, rfl, rfl, rfl⟩
  | snoc path a moved ih =>
    have before := lt_of_le_of_lt (clock_mono path moved) short
    obtain ⟨fair, metered⟩ := ih before
    have inv := inv_reachable ⟨path⟩
    have fair' : ∀ e ∈ accounts (path.snoc a moved), e.2.Fair :=
      fair_move inv (patient_along path before) (short_move path moved short).1 fair
    have reached : Reachable (kernel C) _ := ⟨path.snoc a moved⟩
    have few := logged_length (logged_along 3 (fun x _ p => accountOf x p) (fun x a _ => resets x a.cpu)
      (path.snoc a moved)) (nextpid_reachable reached)
    exact ⟨fair', metered_move inv (locking_reachable ⟨path⟩) (step_move moved) fair' few metered⟩

structure SchedMetrics where
  turnaround : Nat
  waiting : Nat
  finished : Nat
  deriving DecidableEq, Repr

def populateMetrics (s : Sys C) : SchedMetrics :=
  ⟨s.totalTurnaroundTime, s.totalWaitingTimeSum, s.finishedProcesses⟩

def SchedMetrics.averages (m : SchedMetrics) : Option (Nat × Nat) :=
  if m.finished > 0 then some (m.turnaround / m.finished, m.waiting / m.finished) else none

/-- The global metrics are consistent whenever `metrics_lock` is free: they count the exits since
boot or the last reset, sum up their ages, and bound the waiting time by the age. -/
theorem metrics_consistent (run : Run (kernel C) s) (short : clock run < 4294967296)
    (free : s.metricsLock = none) :
    (populateMetrics s).finished = (accounts run).length ∧
    (populateMetrics s).turnaround = ((accounts run).map fun e => e.2.tick - e.2.birth).sum ∧
    (populateMetrics s).waiting ≤ (populateMetrics s).turnaround ∧
    ((populateMetrics s).finished = 0 → (populateMetrics s).turnaround = 0 ∧ (populateMetrics s).waiting = 0) ∧
    ∀ turnaround waiting, (populateMetrics s).averages = some (turnaround, waiting) → waiting ≤ turnaround := by
  obtain ⟨fair, metered⟩ := metered_along run short
  have outside : metricsMark.current s = none := metricsMark.current_none free
  simp only [Metered, outside] at metered
  obtain ⟨turnaround, waiting, finished⟩ := metered
  have bounded : s.totalWaitingTimeSum ≤ s.totalTurnaroundTime := by
    rw [turnaround, waiting]
    exact waits_le_ages fair
  refine ⟨finished, turnaround, bounded, fun none => ?_, fun mean mean' printed => ?_⟩
  · have empty : accounts run = [] := List.eq_nil_of_length_eq_zero (finished.symm.trans none)
    rw [empty] at turnaround waiting
    exact ⟨turnaround, waiting⟩
  · simp only [SchedMetrics.averages, Option.ite_none_right_eq_some] at printed
    obtain ⟨-, rfl, rfl⟩ := printed
    exact Nat.div_le_div_right bounded

/-- A child born at tick 1 waits until tick 2 and exits. -/
theorem metrics_consistent_child : ∃ s : Sys 1, ∃ run : Run (kernel 1) s, s.metricsLock = none ∧
    populateMetrics s = ⟨1, 1, 1⟩ ∧ (accounts run).length = 1 := by
  obtain ⟨s, run, later, ticks, free, metrics⟩ := execUnder_path (M := kernel 1) (s := (kernel 1).init)
    (P := fun x _ y => x.ticks ≤ y.ticks)
    (Q := fun s => s.ticks = 2 ∧ s.metricsLock = none ∧ populateMetrics s = ⟨1, 1, 1⟩)
    (steps 0 6 ++ [⟨0, .timer⟩] ++ steps 0 207 ++ syscall 0 .fork 8 ++ [⟨0, .timer⟩] ++ steps 0 142 ++
      syscall 0 (.exit 7) 5)
    (by decide +kernel)
  have count := clock_of_mono run later
  have finished := (metrics_consistent run (by omega) free).1
  rw [metrics] at finished
  exact ⟨s, run, free, metrics, finished.symm⟩

end Xv6Monitor.Accounting.Metrics
