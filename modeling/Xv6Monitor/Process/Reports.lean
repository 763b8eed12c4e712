import Xv6Monitor.Process.Wait

/-! Every exit is collected once. Along a run the calls of `exit` and the pids that `wait`
returns are logged; each report is an exit of a child of the caller, and no exit is
reported twice. -/

namespace Xv6Monitor.Process.Reports
open Lib.Transition Table Machine Step Moves Sections Lifecycle Children Invariant Clock Holding Stacks Exits Parents
  Family Wait

variable {C : Nat} {s t u : Sys C} {c : Fin C}

def report (s : Sys C) (c : Fin C) (t : Sys C) : Option (Int × Int) :=
  (returned s c t).bind fun (_, k, value) =>
    if value = -1 then none else (slotAt k).map fun q => (value, (s.proc q).xstate)

/-- The process that enters `exit` in a step is logged with the status it passes. -/
def noteExit : Sys C → Action C → Sys C → List (Int × Int) → List (Int × Int) :=
  exitLog 1 (fun _ y p => (statusOf (y.thread p).base).getD 0) (fun _ _ _ => false)

def exits (run : Run (kernel C) s) : List (Int × Int) := run.fold noteExit []

def noteReport (x : Sys C) (a : Action C) (y : Sys C) (log : List (Int × Int)) : List (Int × Int) :=
  log ++ (report x a.cpu y).toList

def reports (run : Run (kernel C) s) : List (Int × Int) := run.fold noteReport []

theorem move_birth_thread (inv : Coherent s) (moved : Move s c t) {q : Slot}
    (before : (s.proc q).state = .unused) (after : (t.proc q).state ≠ .unused) : t.thread q = .fresh := by
  have born : ∀ {op : Op} {u : Sys C}, Executing s c → Legal s c op → op.apply s c = some u →
      (u.proc q).state ≠ .unused → u.thread q = .fresh := by
    intro op u executing legal done live
    obtain rfl := apply_birth executing legal done before live
    simp only [Op.apply, Option.ite_none_right_eq_some, Option.some.injEq] at done
    obtain ⟨-, rfl⟩ := done
    simp
  cases moved with
  | interruptIdle | interruptUser | interruptKernel => exact absurd before after
  | sched t idle _ moved =>
    rcases sched_entry inv.owned moved q with same | ⟨ready, -⟩
    · rw [same] at after
      exact absurd before after
    · rw [before] at ready
      cases ready
  | switch p t on moved =>
    rcases switch_entry inv.owned on moved q with same | same | ⟨running, -⟩
    · rw [same] at after
      exact absurd before after
    · rw [same] at after
      exact absurd before after
    · rw [before] at running
      cases running
  | idleCall call rest choice result u idle top next done =>
    have fresh := born (u := u) (executing_idle idle) (inv.handler_legal top next) done after
    exact fresh
  | call p call rest choice result u on running top next done =>
    have away : q ≠ p := fun same => cur_live inv on (same ▸ before)
    simpa [away] using born (inv.executing on running) (inv.call_legal on top next) done after
  | base p choice base op _ u on running _ next done =>
    have away : q ≠ p := fun same => cur_live inv on (same ▸ before)
    simpa [away] using born (inv.executing on running) (baseStep_legal on next) done after

theorem move_zombie_kept (inv : Coherent s) (moved : Move s c t) {q : Slot}
    (zombie : (s.proc q).state = .zombie) (still : (t.proc q).state = .zombie) :
    (t.proc q).xstate = (s.proc q).xstate ∧ (t.proc q).pid = (s.proc q).pid := by
  have edge := move_edge inv moved q
  generalize t.proc q = after at edge still
  cases edge with
  | kill => simp [Proc.kill, zombie]
  | alloc | ready | dispatch | sleep | reap => cases still
  | abandon unused | exit running | setKilled running | charge running => simp_all
  | _ => exact ⟨rfl, rfl⟩

structure Accounted (s : Sys C) (exits reports : List (Int × Int)) : Prop where
  exiting : ∀ q status, (s.proc q).state ≠ .unused → statusOf (s.thread q).base = some status →
    ((s.proc q).pid, status) ∈ exits
  zombies : ∀ q, (s.proc q).state = .zombie → ((s.proc q).pid, (s.proc q).xstate) ∈ exits
  reported : ∀ r ∈ reports, r ∈ exits
  gone : ∀ r ∈ reports, r.1 < s.nextpid ∧ ∀ q, (s.proc q).state ≠ .unused → (s.proc q).pid ≠ r.1
  once : (reports.map Prod.fst).Nodup

theorem noteExit_mem {a : Action C} {log : List (Int × Int)} {e : Int × Int} :
    e ∈ noteExit s a t log ↔ e ∈ log ∨ ∃ p, reaches 1 s a.cpu t = some p ∧
      e = ((s.proc p).pid, (statusOf (t.thread p).base).getD 0) := by
  simp [noteExit, exitLog, eq_comm]

theorem statusOf_stage {base : Base} {status : Int} (exiting : statusOf base = some status) :
    0 < stage base := by
  cases base <;> simp [statusOf] at exiting <;> simp [stage]

section Steps

variable {a : Action C} {exits reports : List (Int × Int)}

theorem Accounted.exiting_move (accounted : Accounted s exits reports) (inv : Coherent s)
    (moved : Move s a.cpu t) (q : Slot) (status : Int) (live : (t.proc q).state ≠ .unused)
    (exiting : statusOf (t.thread q).base = some status) :
    ((t.proc q).pid, status) ∈ noteExit s a t exits := by
  have started := statusOf_stage exiting
  rw [noteExit_mem]
  by_cases unused : (s.proc q).state = .unused
  · rw [move_birth_thread inv moved unused live] at exiting
    cases exiting
  rw [((move_edge inv moved q).identity unused live).1]
  cases move_advance inv moved q with
  | stay same =>
    rw [same] at exiting
    exact Or.inl (accounted.exiting q status unused exiting)
  | born free _ => exact absurd free unused
  | trap on _ _ trapped =>
    rw [trapped] at exiting
    cases exiting
  | base on running choice op calls u next done table =>
    rcases baseStep_exit next with ⟨-, zero⟩ | ⟨zero, status', after⟩ | ⟨status', -, after, -⟩ |
      ⟨-, -, -, same⟩
    · omega
    · rw [after] at exiting
      cases exiting
      refine Or.inr ⟨q, reaches_some.mpr ⟨on, by omega, ?_⟩, by rw [after]; rfl⟩
      rw [after]
      exact Nat.le_refl 1
    · rw [after] at exiting
      cases exiting
    · rw [same] at exiting
      exact Or.inl (accounted.exiting q status unused exiting)

theorem Accounted.zombies_move (accounted : Accounted s exits reports) (inv : Coherent s)
    (moved : Move s a.cpu t) (q : Slot) (zombie : (t.proc q).state = .zombie) :
    ((t.proc q).pid, (t.proc q).xstate) ∈ noteExit s a t exits := by
  refine noteExit_mem.mpr (Or.inl ?_)
  by_cases before : (s.proc q).state = .zombie
  · obtain ⟨status, pid⟩ := move_zombie_kept inv moved before zombie
    rw [status, pid]
    exact accounted.zombies q before
  · obtain ⟨status, on, base, -, entry⟩ := move_zombie inv moved before zombie
    rw [entry]
    exact accounted.exiting q status (cur_live inv on) (by rw [base]; rfl)

theorem report_some (inv : Coherent s) (locking : Locking s) (moved : Move s c t) {r : Int × Int}
    (reported : report s c t = some r) : ∃ q, (s.proc q).state = .zombie ∧
      r = ((s.proc q).pid, (s.proc q).xstate) ∧ (t.proc q).state = .unused := by
  obtain ⟨⟨_, _, _⟩, returns, reported⟩ := Option.bind_eq_some_iff.mp reported
  simp only at reported
  split at reported
  next => cases reported
  next positive =>
    rcases move_returned inv locking moved returns with ⟨failed, -⟩ | ⟨q, rfl, zombie, -, pid, unused, -⟩
    · exact absurd failed positive
    · rw [slotAt_val] at reported
      cases reported
      exact ⟨q, zombie, by rw [pid], unused⟩

theorem accounted_move (inv : Coherent s) (births : Births s) (locking : Locking s)
    (moved : Move s a.cpu t) (accounted : Accounted s exits reports) :
    Accounted t (noteExit s a t exits) (noteReport s a t reports) := by
  unfold noteReport
  have next := move_nextpid inv moved
  have fresh : ∀ r : Int × Int, r.1 < s.nextpid →
      (∀ q, (s.proc q).state ≠ .unused → (t.proc q).state ≠ .unused → (s.proc q).pid ≠ r.1) →
      r.1 < t.nextpid ∧ ∀ q, (t.proc q).state ≠ .unused → (t.proc q).pid ≠ r.1 := by
    intro r issued absent
    refine ⟨by omega, fun q live => ?_⟩
    rcases move_live inv moved live with ⟨was, pid⟩ | ⟨-, pid, -⟩
    · rw [pid]
      exact absent q was live
    · omega
  constructor
  · exact accounted.exiting_move inv moved
  · exact accounted.zombies_move inv moved
  · intro r mem
    refine noteExit_mem.mpr (Or.inl ?_)
    rcases List.mem_append.mp mem with old | new
    · exact accounted.reported r old
    · obtain ⟨q, zombie, rfl, -⟩ := report_some inv locking moved (Option.mem_toList.mp new)
      exact accounted.zombies q zombie
  · intro r mem
    rcases List.mem_append.mp mem with old | new
    · obtain ⟨issued, absent⟩ := accounted.gone r old
      exact fresh r issued fun q was _ => absent q was
    obtain ⟨q, zombie, rfl, unused⟩ := report_some inv locking moved (Option.mem_toList.mp new)
    have here : (s.proc q).state ≠ .unused := by simp [zombie]
    refine fresh _ (births.issued q here).2 fun q' was live same => ?_
    obtain rfl := births.unique q' q was here same
    exact live unused
  · rw [List.map_append]
    refine List.nodup_append.mpr ⟨accounted.once, ?_, ?_⟩
    · cases report s a.cpu t <;> simp
    intro pid old pid' new
    obtain ⟨r, mem, rfl⟩ := List.mem_map.mp old
    obtain ⟨r', mem', rfl⟩ := List.mem_map.mp new
    obtain ⟨q, zombie, rfl, -⟩ := report_some inv locking moved (Option.mem_toList.mp mem')
    exact fun same => (accounted.gone r mem).2 q (by simp [zombie]) same.symm

end Steps

theorem accounted_boot : Accounted (boot C) [] [] := by
  constructor
  · intro q status _ exiting
    cases exiting
  · intro q zombie
    rw [boot_proc] at zombie
    split at zombie <;> cases zombie
  · exact fun r mem => absurd mem List.not_mem_nil
  · exact fun r mem => absurd mem List.not_mem_nil
  · exact List.nodup_nil

theorem accounted_along (run : Run (kernel C) s) : Accounted s (exits run) (reports run) := by
  induction run with
  | nil => exact accounted_boot
  | snoc path _ moved ih =>
    have reached : Reachable (kernel C) _ := ⟨path⟩
    exact accounted_move (inv_reachable reached) (births_reachable reached) (locking_reachable reached)
      (step_move moved) ih

theorem collects_along (run : Run (kernel C) s) : run.Every fun x a y => Collects x a.cpu y := by
  intro x a y taken
  obtain ⟨path, -, moved⟩ := taken.before (P := fun _ _ _ => True) (fun _ _ _ _ => trivial)
  exact move_collects (inv_reachable ⟨path⟩) (locking_reachable ⟨path⟩) (step_move moved)

/-- Every exit is collected at most once and by the right process. The parent of a process that
is past its `fork` is alive, also while `wait_lock` is held. An entry leaves ZOMBIE only
when `wait` returns its pid to its parent, which frees it; a `wait` that returns -1 leaves
the table alone. No pid exits twice or is reported twice, and each report carries the pid
and the status of an exit. -/
theorem exits_collected_once (run : Run (kernel C) s) :
    (∀ q, q ≠ s.initproc → (s.proc q).state ≠ .unused → (s.proc q).state ≠ .used →
      ∃ r, (s.proc q).parent = some r ∧ (s.proc r).state ≠ .unused ∧ (s.proc r).state ≠ .zombie) ∧
    run.Every (fun x a y => Collects x a.cpu y) ∧
    ((exits run).map Prod.fst).Nodup ∧ ((reports run).map Prod.fst).Nodup ∧
    ∀ r ∈ reports run, r ∈ exits run := by
  have kin := kin_reachable ⟨run⟩
  have accounted := accounted_along run
  exact ⟨kin.parent_alive, collects_along run, (logged_along 1 _ _ run).once, accounted.once, accounted.reported⟩

/-- The first process forks a child that exits with status 7, and collects it. -/
theorem exits_collected_once_child : ∃ s : Sys 1, ∃ run : Run (kernel 1) s,
    reports run = [(2, 7)] ∧ (2, 7) ∈ exits run := by
  obtain ⟨s, run, reported⟩ := execFold_path (M := kernel 1) (s := (kernel 1).init) (h := []) noteReport
    (Q := fun _ log => log = [(2, 7)])
    (steps 0 6 ++ syscall 0 .fork 8 ++ syscall 0 (.wait 0) 75 ++ syscall 0 (.exit 7) 213)
    (by decide +kernel)
  have once : reports run = [(2, 7)] := reported
  exact ⟨s, run, once, (exits_collected_once run).2.2.2.2 (2, 7) (by rw [once]; simp)⟩

end Xv6Monitor.Process.Reports
