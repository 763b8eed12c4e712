import Xv6Monitor.Process.Clock
import Xv6Monitor.Process.Stacks

/-! The way of a process out of the system. A thread passes the positions of `exit` in order
and never goes back, so that what is recorded of a process at one of them is recorded
once for each pid. -/

namespace Xv6Monitor.Process.Exits
open Lib.Transition Table Machine Step Moves Sections Lifecycle Children Invariant Clock Stacks

variable {C : Nat} {s t u : Sys C} {c : Fin C}

def stage : Base → Nat
  | .exit _ => 1
  | .exitTurnaround _ => 2
  | .exitWaiting _ => 3
  | .exitFinished _ => 4
  | .exitFiles _ => 5
  | .exitLock _ => 6
  | .reparent _ _ => 7
  | .exitZombie _ => 8
  | .gone => 9
  | _ => 0

def statusOf : Base → Option Int
  | .exit status | .exitTurnaround status | .exitWaiting status | .exitFinished status
  | .exitFiles status | .exitLock status | .reparent status _ | .exitZombie status => some status
  | _ => none

/-- The code that performs an operation, and where it goes on. -/
inductive Source (s : Sys C) (c : Fin C) (t : Sys C) : Op → Prop where
  | handler (call : Call) (rest : List Call) (choice : Choice) (result : Section)
      (idle : (s.cpu c).cur = none) (top : (s.cpu c).calls = call :: rest)
      (next : callStep s c call choice = some result) : Source s c t result.op
  | call (p : Slot) (call : Call) (rest : List Call) (choice : Choice) (result : Section)
      (on : (s.cpu c).cur = some p) (top : (s.thread p).calls = call :: rest)
      (next : callStep s c call choice = some result)
      (calls : (t.thread p).calls = result.calls ++ rest)
      (value : (t.thread p).a0 = result.ret.getD (s.thread p).a0) : Source s c t result.op
  | base (p : Slot) (choice : Choice) (op : Op) (on : (s.cpu c).cur = some p)
      (empty : (s.thread p).calls = [])
      (next : baseStep s p (s.thread p).base choice = some ((t.thread p).base, op, (t.thread p).calls)) :
      Source s c t op

inductive Change (s : Sys C) (c : Fin C) (t : Sys C) : Prop where
  | frame (entries : ∀ q, Turned s.ticks (s.proc q) (t.proc q))
  | op (op : Op) (u : Sys C) (executing : Executing s c) (legal : Legal s c op)
      (done : op.apply s c = some u) (table : t.proc = u.proc) (source : Source s c t op)

theorem move_change (inv : Coherent s) (moved : Move s c t) : Change s c t := by
  cases moved with
  | interruptIdle | interruptUser | interruptKernel => exact .frame fun q => Or.inl rfl
  | sched t idle _ moved =>
    exact .frame fun q => (sched_entry inv.owned moved q).imp_right Or.inl
  | switch p t on moved => exact .frame fun q => (switch_entry inv.owned on moved q).imp_right Or.inr
  | idleCall call rest choice result u idle top next done =>
    exact .op result.op u (executing_idle idle) (inv.handler_legal top next) done rfl
      (.handler call rest choice result idle top next)
  | call p call rest choice result u on running top next done =>
    have legal := inv.call_legal on top next
    have value : (u.thread p).a0 = (s.thread p).a0 := by
      rcases apply_thread legal done p with same | ⟨alloc, -⟩ | ⟨-, -, resume, -, after⟩
      · rw [same]
      · rw [alloc] at legal
        exact absurd legal (cur_live inv on)
      · rw [after]
    refine .op result.op u (inv.executing on running) legal done rfl
      (.call p call rest choice result on top next (by simp) (by simp [value]))
  | base p choice base op _ u on running empty next done =>
    exact .op op u (inv.executing on running) (baseStep_legal on next) done rfl
      (.base p choice op on empty (by simpa using next))

inductive Advance (s : Sys C) (c : Fin C) (t : Sys C) (r : Slot) : Prop where
  | stay (same : (t.thread r).base = (s.thread r).base)
  | born (unused : (s.proc r).state = .unused) (fresh : t.thread r = .fresh)
  | trap (on : (s.cpu c).cur = some r) (cause : Cause) (user : (s.thread r).base = .user)
      (trapped : (t.thread r).base = .usertrapTail cause)
  | base (on : (s.cpu c).cur = some r) (running : (s.thread r).phase = .running) (choice : Choice)
      (op : Op) (calls : List Call) (u : Sys C)
      (next : baseStep s r (s.thread r).base choice = some ((t.thread r).base, op, calls))
      (done : op.apply s c = some u) (table : t.proc = u.proc) (empty : (s.thread r).calls = [])

theorem move_advance (inv : Coherent s) (moved : Move s c t) (r : Slot) : Advance s c t r := by
  cases move_stacked inv moved r with
  | keep base calls => exact .stay base
  | born unused fresh => exact .born unused fresh
  | start on _ base calls => exact .stay base
  | trap on cause user base calls => exact .trap on cause user base
  | interrupt on cause base calls => exact .stay base
  | call on call _ choice _ u _ next done table base calls => exact .stay base
  | base on running empty choice op u next done table => exact .base on running choice op _ u next done table empty

theorem baseStep_exit {p : Slot} {base after : Base} {choice : Choice} {op : Op} {calls : List Call}
    (next : baseStep s p base choice = some (after, op, calls)) :
    (stage base = 0 ∧ stage after = 0) ∨ (stage base = 0 ∧ ∃ status, after = .exit status) ∨
    (∃ status, base = .exitZombie status ∧ after = .gone ∧ op = .zombie p status) ∨
    (stage base ≤ stage after ∧ stage base < 8 ∧ statusOf base ≠ none ∧ statusOf after = statusOf base) := by
  unfold baseStep at next
  split at next <;> (try split at next) <;> (try split at next) <;>
    obtain ⟨rfl, rfl, rfl⟩ := next
  case h_3.isFalse call _ => cases call <;> simp [stage, Syscall.entry]
  all_goals simp [stage, statusOf]

theorem stage_move (inv : Coherent s) (moved : Move s c t) {q : Slot} (live : (s.proc q).state ≠ .unused) :
    stage (s.thread q).base ≤ stage (t.thread q).base := by
  cases move_advance inv moved q with
  | stay same => rw [same]
  | born unused _ => exact absurd unused live
  | trap on _ user _ =>
    rw [user]
    exact Nat.zero_le _
  | base on running choice op calls u next done table =>
    rcases baseStep_exit next with ⟨zero, -⟩ | ⟨zero, -⟩ | ⟨status, before, after, -⟩ | ⟨grows, -⟩
    · rw [zero]
      exact Nat.zero_le _
    · rw [zero]
      exact Nat.zero_le _
    · rw [before, after]
      show 8 ≤ 9
      decide
    · exact grows

section Log

variable {β : Type}

/-- The process that reaches position `n` of `exit` in a step of CPU `c`. -/
def reaches (n : Nat) (s : Sys C) (c : Fin C) (t : Sys C) : Option Slot :=
  (s.cpu c).cur.filter fun p => stage (s.thread p).base < n ∧ n ≤ stage (t.thread p).base

variable {n : Nat}

theorem reaches_some {p : Slot} : reaches n s c t = some p ↔
    (s.cpu c).cur = some p ∧ stage (s.thread p).base < n ∧ n ≤ stage (t.thread p).base := by
  simp [reaches]

/-- A record for each process that reaches position `n`, under its pid; the log is cleared
when `forget` says so. -/
def exitLog (n : Nat) (record : Sys C → Sys C → Slot → β) (forget : Sys C → Action C → Sys C → Bool)
    (x : Sys C) (a : Action C) (y : Sys C) (log : List (Int × β)) : List (Int × β) :=
  if forget x a y then []
  else log ++ (reaches n x a.cpu y).toList.map fun p => ((x.proc p).pid, record x y p)

/-- Every recorded process has passed position `n`, so no pid is recorded again. -/
structure Logged (n : Nat) (s : Sys C) (log : List (Int × β)) : Prop where
  once : (log.map Prod.fst).Nodup
  issued : ∀ e ∈ log, 0 < e.1 ∧ e.1 < s.nextpid
  passed : ∀ e ∈ log, ∀ q, (s.proc q).state ≠ .unused → (s.proc q).pid = e.1 →
    n ≤ stage (s.thread q).base

theorem logged_nil (n : Nat) (s : Sys C) : Logged n s ([] : List (Int × β)) where
  once := List.nodup_nil
  issued _ mem := absurd mem List.not_mem_nil
  passed _ mem := absurd mem List.not_mem_nil

variable {log : List (Int × β)}

theorem Logged.keep (logged : Logged n s log) (inv : Coherent s) (moved : Move s c t) : Logged n t log := by
  have next := move_nextpid inv moved
  refine ⟨logged.once, fun e old => ?_, fun e old q live same => ?_⟩
  · have issued := logged.issued e old
    omega
  rcases move_live inv moved live with ⟨was, pid⟩ | ⟨-, pid, -⟩
  · have before := logged.passed e old q was (by rw [← pid, same])
    exact before.trans (stage_move inv moved was)
  · have issued := logged.issued e old
    omega

theorem Logged.add (logged : Logged n t log) (inv : Coherent s)
    (births : Births s) (moved : Move s c t) {p : Slot} (reached : reaches n s c t = some p)
    (before : ∀ e ∈ log, (s.proc p).pid ≠ e.1) (entry : β) :
    Logged n t (log ++ [((s.proc p).pid, entry)]) := by
  obtain ⟨on, below, above⟩ := reaches_some.mp reached
  have issued := births.issued p (cur_live inv on)
  have next := move_nextpid inv moved
  constructor
  · rw [List.map_append]
    refine List.nodup_append.mpr ⟨logged.once, by simp, ?_⟩
    intro pid old other new
    obtain ⟨e, mem, rfl⟩ := List.mem_map.mp old
    simp only [List.map_cons, List.map_nil, List.mem_singleton] at new
    rw [new]
    exact Ne.symm (before e mem)
  · intro e mem
    rcases List.mem_append.mp mem with old | new
    · exact logged.issued e old
    · rw [List.mem_singleton.mp new]
      omega
  · intro e mem q live same
    rcases List.mem_append.mp mem with old | new
    · exact logged.passed e old q live same
    rw [List.mem_singleton.mp new] at same
    rcases move_live inv moved live with ⟨was, pid⟩ | ⟨-, pid, -⟩
    · obtain rfl := births.unique q p was (cur_live inv on) (by rw [← pid, same])
      exact above
    · simp only at same
      omega

theorem logged_move {record : Sys C → Sys C → Slot → β}
    {forget : Sys C → Action C → Sys C → Bool} {a : Action C}
    (inv : Coherent s) (births : Births s) (moved : Move s a.cpu t) (logged : Logged n s log) :
    Logged n t (exitLog n record forget s a t log) := by
  unfold exitLog
  split
  next => exact logged_nil n t
  next =>
    have kept := logged.keep inv moved
    cases reached : reaches n s a.cpu t with
    | none => simpa using kept
    | some p =>
      obtain ⟨on, below, above⟩ := reaches_some.mp reached
      refine kept.add inv births moved reached (fun e old same => ?_) _
      have passed := logged.passed e old p (cur_live inv on) same
      omega

/-- Along every run the log holds each pid at most once. -/
theorem logged_along (n : Nat) (record : Sys C → Sys C → Slot → β)
    (forget : Sys C → Action C → Sys C → Bool) (run : Run (kernel C) s) :
    Logged n s (run.fold (exitLog n record forget) []) := by
  have both : Births s ∧ Logged n s (run.fold (exitLog n record forget) []) := by
    refine history_over (J := fun s log => Births s ∧ Logged n s log) ⟨births_boot, logged_nil n _⟩ ?_ run
    rintro x a y log inv moved ⟨births, logged⟩
    exact ⟨births_move inv moved births, logged_move inv births moved logged⟩
  exact both.2

end Log

end Xv6Monitor.Process.Exits
