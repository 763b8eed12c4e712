import Xv6Monitor.Process.Clock

/-! `kill` finds its victim by pid alone. Entries that are not in use have pid 0, so the
search for pid 0 ends at one of them. -/

namespace Xv6Monitor.Process.Kill
open Function (update update_of_ne update_self)
open Lib.Transition Table Machine Step Moves Sections Lifecycle Children Invariant Clock

variable {C : Nat} {s t u : Sys C} {c : Fin C}

def killFrom (table : Slot → Proc) (ticks : Nat) (pid : Int) : List Slot → Int × (Slot → Proc)
  | [] => (-1, table)
  | q :: rest =>
      if (table q).pid = pid then (0, update table q ((table q).kill ticks))
      else killFrom table ticks pid rest

def kill (table : Slot → Proc) (ticks : Nat) (pid : Int) : Int × (Slot → Proc) :=
  killFrom table ticks pid (List.finRange NPROC)

theorem drop_slot (q : Slot) :
    (List.finRange NPROC).drop q.val = q :: (List.finRange NPROC).drop (q.val + 1) := by
  have inside : q.val < (List.finRange NPROC).length := by simp
  rw [List.drop_eq_getElem_cons inside]
  simp

variable {p : Slot}

theorem steps_call {call : Call} {rest : List Call} {result : Section}
    (on : (s.cpu c).cur = some p) (running : (s.thread p).phase = .running)
    (top : (s.thread p).calls = call :: rest) (next : callStep s c call .go = some result)
    (done : result.op.apply s c = some u) (n : Nat) :
    exec (kernel C) s (steps c (n + 1)) = exec (kernel C) (u.setThread p { u.thread p with
      calls := result.calls ++ rest, a0 := result.ret.getD (u.thread p).a0 }) (steps c n) := by
  simp only [exec, steps, List.replicate_succ, execUnder, kernel, Step.step, on, threadStep, running, top, next, done,
    Option.bind_some, Option.map_some, if_true]

theorem callStep_kill (me : (s.cpu c).proc = some p) (pid : Int) (k : Nat) :
    callStep s c (.kill pid k) .go = processCall s p (.kill pid k) := by
  simp only [callStep, handlerCall, me, Option.bind_some]

variable {pid : Int}

/-- When CPU `c` runs the loop without interference, it computes `kill`. -/
theorem kill_steps {rest : List Call} (free : ∀ q, s.plock q = none)
    (on : (s.cpu c).cur = some p) (me : (s.cpu c).proc = some p)
    (running : (s.thread p).phase = .running) (k : Nat) (inside : k ≤ NPROC)
    (top : (s.thread p).calls = .kill pid k :: rest) :
    ∃ n t, exec (kernel C) s (steps c n) = some t ∧
      ((t.thread p).a0, t.proc) = killFrom s.proc s.ticks pid ((List.finRange NPROC).drop k) ∧
      (t.thread p).calls = rest := by
  obtain ⟨n, length⟩ : ∃ n, NPROC - k = n := ⟨_, rfl⟩
  have next := callStep_kill me pid k
  induction n generalizing s k with
  | zero =>
    obtain rfl : k = NPROC := by omega
    rw [processCall, show slotAt NPROC = none by decide] at next
    refine ⟨1, _, steps_call on running top next rfl 0, ?_, by simp⟩
    rw [List.drop_eq_nil_of_le (by simp)]
    simp [killFrom]
    rfl
  | succ n ih =>
    have below : k < NPROC := by omega
    rw [processCall, show slotAt k = _ from slotAt_val ⟨k, below⟩] at next
    rw [show (List.finRange NPROC).drop k = _ from drop_slot ⟨k, below⟩, killFrom]
    by_cases hit : (s.proc ⟨k, below⟩).pid = pid
    · simp only [hit, if_true] at next ⊢
      refine ⟨1, _, steps_call on running top next (if_pos (free _)) 0, ?_, by simp⟩
      simp
      rfl
    · simp only [hit, if_false] at next ⊢
      obtain ⟨n, t, ran, result⟩ := ih (s := s.setThread p { s.thread p with
        calls := .kill pid (k + 1) :: rest, a0 := (s.thread p).a0 }) free on me (by simp [running])
        (k + 1) below (by simp) (by omega) (callStep_kill me pid (k + 1))
      exact ⟨n + 1, t, (steps_call on running top next (if_pos (free _)) n).trans ran, result⟩

/-- The first process kills itself. -/
theorem kill_steps_own : ∃ s t : Sys 1, Reachable (kernel 1) s ∧ ∃ n, exec (kernel 1) s (steps 0 n) = some t ∧
    ((t.thread firstSlot).a0, t.proc) = kill s.proc s.ticks 1 := by
  obtain ⟨s, reachable, free, on, me, running, top⟩ := reachable_exec (M := kernel 1) (Q := fun s =>
    (∀ q, s.plock q = none) ∧ (s.cpu 0).cur = some firstSlot ∧ (s.cpu 0).proc = some firstSlot ∧
    (s.thread firstSlot).phase = .running ∧ (s.thread firstSlot).calls = [.kill 1 0])
    (steps 0 6 ++ syscall 0 (.kill 1) 1) (by decide +kernel)
  obtain ⟨n, t, ran, result, -⟩ := kill_steps free on me running 0 (by decide) top
  exact ⟨s, t, reachable, n, ran, result⟩

/-- Entries that are not in use have pid 0. -/
def Vacant (s : Sys C) : Prop := ∀ q, (s.proc q).state = .unused → (s.proc q).pid = 0

variable {ticks : Nat}

theorem edge_vacant {p p' : Proc} (edge : Edge ticks pid p p')
    (before : p.state = .unused → p.pid = 0) (after : p'.state = .unused) : p'.pid = 0 := by
  cases edge with
  | same => exact before after
  | abandon _ _ => rfl
  | reap _ => rfl
  | created _ => exact before after
  | adopt _ => exact before after
  | setKilled running => exact before after
  | setPriority _ _ => exact before after
  | clearChan => exact before after
  | charge running => exact before after
  | kill =>
    rw [Proc.kill_state] at after
    split at after
    · cases after
    · rw [(Proc.kill_frame p ticks).1]
      exact before after
  | _ => cases after

theorem vacant_reachable (reachable : Reachable (kernel C) s) : Vacant s := by
  refine invariant_over ?_ ?_ reachable
  · intro q unused
    rw [boot_proc] at unused ⊢
    split at unused
    · cases unused
    next other => rw [if_neg other]; rfl
  · intro s c t inv moved vacant q
    exact edge_vacant (move_edge inv moved q) (vacant q)

variable {table : Slot → Proc} {slots : List Slot}

theorem killFrom_miss
    (miss : ∀ q ∈ slots, (table q).pid ≠ pid) : killFrom table ticks pid slots = (-1, table) := by
  induction slots with
  | nil => rfl
  | cons q _ ih =>
    rw [killFrom, if_neg (miss q (by simp))]
    exact ih fun r here => miss r (by simp [here])

theorem killFrom_hit {q : Slot}
    (here : q ∈ slots) (hit : (table q).pid = pid) (only : ∀ r ∈ slots, (table r).pid = pid → r = q) :
    killFrom table ticks pid slots = (0, update table q ((table q).kill ticks)) := by
  induction slots with
  | nil => cases here
  | cons r _ ih =>
    rw [killFrom]
    split
    next same => rw [only r (by simp) same]
    next other =>
      rcases List.mem_cons.mp here with rfl | later
      · exact absurd hit other
      · exact ih later fun x found => only x (by simp [found])

theorem killFrom_found (ticks : Nat) {q : Slot}
    (here : q ∈ slots) (hit : (table q).pid = pid) : (killFrom table ticks pid slots).1 = 0 := by
  induction slots with
  | nil => cases here
  | cons _ _ ih =>
    rw [killFrom]
    split
    next => rfl
    next other =>
      rcases List.mem_cons.mp here with rfl | later
      · exact absurd hit other
      · exact ih later

/-- `kill(pid)` marks the one live process with that pid and touches nothing else; without such
a process it fails and touches nothing at all. -/
def KillExact (s : Sys C) (pid : Int) : Prop :=
  (∀ q, (s.proc q).state ≠ .unused → (s.proc q).pid = pid →
    (kill s.proc s.ticks pid).1 = 0 ∧ ((kill s.proc s.ticks pid).2 q).killed = true ∧
    ((kill s.proc s.ticks pid).2 q).state =
      (if (s.proc q).state = .sleeping then .runnable else (s.proc q).state) ∧
    ∀ r, r ≠ q → (kill s.proc s.ticks pid).2 r = s.proc r) ∧
  ((∀ q, (s.proc q).state ≠ .unused → (s.proc q).pid ≠ pid) →
    kill s.proc s.ticks pid = (-1, s.proc))

theorem kill_exact_iff (births : Births s) (vacant : Vacant s) (pid : Int) :
    KillExact s pid ↔ (pid ≠ 0 ∨ ∀ q, (s.proc q).state ≠ .unused) := by
  constructor
  · rintro ⟨-, missing⟩
    by_contra neither
    obtain ⟨rfl, q, unused⟩ : pid = 0 ∧ ∃ q, (s.proc q).state = .unused := by
      simpa using neither
    have failed := missing fun r live => (births.issued r live).1.ne'
    have found := killFrom_found s.ticks (List.mem_finRange q) (vacant q unused)
    rw [← kill, failed] at found
    cases found
  · intro nonzero
    have live : ∀ q, (s.proc q).pid = pid → (s.proc q).state ≠ .unused := by
      intro q same unused
      rcases nonzero with other | full
      · exact other (same.symm.trans (vacant q unused))
      · exact full q unused
    refine ⟨fun q used same => ?_, fun missing => ?_⟩
    · have hit : kill s.proc s.ticks pid = (0, update s.proc q ((s.proc q).kill s.ticks)) :=
        killFrom_hit (List.mem_finRange q) same fun r _ match' =>
          births.unique r q (live r match') used (match'.trans same.symm)
      rw [hit]
      refine ⟨rfl, ?_, ?_, fun r other => update_of_ne other ..⟩
      · simp only [update_self, Proc.kill]
        split <;> rfl
      · simp only [update_self, Proc.kill_state]
    · exact killFrom_miss fun q _ same => missing q (live q same) same

def zeroTarget : List Call → Option Slot
  | .kill pid k :: _ => if pid = 0 then slotAt k else none
  | _ => none

/-- No search for pid 0 stands before an entry that is not in use. -/
def Spares (s : Sys C) : Prop :=
  ∀ p, ∀ q ∈ zeroTarget (s.thread p).calls, (s.proc q).state ≠ .unused

instance : Decidable (Spares s) :=
  decidable_of_iff (∀ p, (zeroTarget (s.thread p).calls).all fun q => (s.proc q).state ≠ .unused)
    (by simp [Spares, Option.all_eq_true])

def Clean (s : Sys C) : Prop := ∀ q, (s.proc q).state = .unused → (s.proc q).killed = false

theorem apply_clean {op : Op} (executing : Executing s c) (legal : Legal s c op)
    (done : op.apply s c = some u) {q : Slot} (spared : op = .kill q → (s.proc q).state ≠ .unused)
    (before : (s.proc q).state = .unused → (s.proc q).killed = false)
    (after : (u.proc q).state = .unused) : (u.proc q).killed = false := by
  rcases apply_writes done q with same | wrote
  · rw [same] at after ⊢
    exact before after
  generalize u.proc q = entry at wrote after ⊢
  cases op <;> simp only [writes, Option.some.injEq, Prod.mk.injEq] at wrote <;>
    obtain ⟨rfl, rfl⟩ := wrote <;> simp only [Legal] at legal
  case kill =>
    rw [Proc.kill_state] at after
    split at after
    · cases after
    · exact absurd after (spared rfl)
  case setKilled p =>
    have running := (executing p legal).1
    rw [running] at after
    cases after
  case allocTime | setParent | reparent | setPriority | charge => exact before after
  case allocFail | reap => rfl
  all_goals cases after

theorem callStep_kills {call : Call} {choice : Choice} {result : Section} {q : Slot}
    (next : callStep s c call choice = some result) (kills : result.op = .kill q) :
    ∃ pid k, call = .kill pid k ∧ slotAt k = some q ∧ (s.proc q).pid = pid := by
  cases callStep_move next with
  | handler _ _ next => exact nomatch kills ▸ (handlerCall_handles next).1
  | process p _ _ me next =>
    cases call <;> simp only [processCall] at next <;> (repeat' split at next) <;>
      simp only [Option.some.injEq, reduceCtorEq] at next <;> subst next <;> simp_all
  | _ => cases kills

theorem baseStep_spares {q : Slot} {base after : Base} {choice : Choice} {op : Op}
    {calls : List Call} (next : baseStep s p base choice = some (after, op, calls)) :
    op ≠ .kill q := by
  unfold baseStep at next
  split at next <;> (try split at next) <;> (try split at next) <;>
    obtain ⟨-, rfl, -⟩ := next <;> simp

theorem clean_move (inv : Coherent s) (moved : Move s c t) (vacant : Vacant s) (spares : Spares s)
    (clean : Clean s) : Clean t := by
  intro q unused
  cases moved with
  | interruptIdle | interruptUser | interruptKernel => exact clean q unused
  | sched t idle _ moved =>
    rcases sched_entry inv.owned moved q with same | ⟨-, dispatched⟩
    · rw [same] at unused ⊢
      exact clean q unused
    · rw [dispatched] at unused
      cases unused
  | switch p t on moved =>
    rcases switch_entry inv.owned on moved q with same | same | ⟨-, same⟩ <;> rw [same] at unused ⊢
    · exact clean q unused
    · exact clean q unused
    · cases unused
  | idleCall call rest choice result u idle top next done =>
    have nobody := (inv.myproc (c := c) (Or.inr (by simp [top]))).trans idle
    refine apply_clean (executing_idle idle) (inv.handler_legal top next) done ?_ (clean q) unused
    intro kills
    have handled := (callStep_handler nobody next).1
    rw [kills] at handled
    cases handled
  | call p call rest choice result u on running top next done =>
    refine apply_clean (inv.executing on running) (inv.call_legal on top next) done ?_ (clean q) unused
    intro kills
    obtain ⟨_, _, rfl, found, same⟩ := callStep_kills next kills
    intro before
    rw [vacant q before] at same
    refine spares p q ?_ before
    rw [top, ← same]
    exact found
  | base p choice base _ _ u on running _ next done =>
    refine apply_clean (inv.executing on running) (baseStep_legal on next) done ?_ (clean q) unused
    exact fun kills => absurd kills (baseStep_spares next)

theorem clean_boot : Clean (boot C) := by
  intro q unused
  rw [boot_proc]
  split <;> rfl

/-- `kill(pid)` is exact in a reachable state unless `pid` is 0 and some entry is not in use; and
in every run in which no search for pid 0 reaches such an entry, every process starts with
`killed` clear. -/
theorem kill_touches_named_process (run : Run (kernel C) s) :
    (∀ pid, KillExact s pid ↔ (pid ≠ 0 ∨ ∀ q, (s.proc q).state ≠ .unused)) ∧
    (run.Every (fun x _ _ => Spares x) → run.Every fun x _ y =>
      ∀ q, (x.proc q).state = .unused → (y.proc q).state ≠ .unused → (y.proc q).killed = false) := by
  have reachable : Reachable (kernel C) s := ⟨run⟩
  refine ⟨kill_exact_iff (births_reachable reachable) (vacant_reachable reachable), ?_⟩
  intro spares x a y taken q before after
  obtain ⟨earlier, every, moved⟩ := taken.before spares
  have both : Vacant x ∧ Clean x := by
    refine invariant_along (I := fun s => Vacant s ∧ Clean s)
      ⟨vacant_reachable ⟨.nil⟩, clean_boot⟩ ?_ earlier every
    rintro s a t inv moved spared ⟨vacant, clean⟩
    exact ⟨fun q => edge_vacant (move_edge inv moved q) (vacant q),
      clean_move inv moved vacant spared clean⟩
  obtain ⟨-, born, -⟩ := move_birth (inv_reachable ⟨earlier⟩) (step_move moved) before after
  rw [born]
  exact both.2 q before

/-- The first process calls `kill(0)`: it returns 0 and marks slot 1, which is not in use, and the
child that `fork` puts there starts as killed. -/
theorem kill_zero_marks_unused :
    (∃ s : Sys 1, Reachable (kernel 1) s ∧ ¬KillExact s 0) ∧
    ∃ s : Sys 1, Reachable (kernel 1) s ∧ (s.proc 1).state = .used ∧ (s.proc 1).killed = true := by
  constructor
  · obtain ⟨s, reachable, unused⟩ := reachable_exec (M := kernel 1)
      (Q := fun s => (s.proc 1).state = .unused) (steps 0 6) (by decide +kernel)
    refine ⟨s, reachable, fun killed => ?_⟩
    have iff := kill_exact_iff (births_reachable reachable) (vacant_reachable reachable) 0
    rcases iff.mp killed with nonzero | full
    · exact nonzero rfl
    · exact full 1 unused
  · exact reachable_exec (steps 0 6 ++ syscall 0 (.kill 0) 5 ++ syscall 0 .fork 3) (by decide +kernel)

/-- The first process forks: its child starts unmarked and can be killed by its pid. -/
theorem kill_touches_named_process_child : ∃ (s : Sys 1) (run : Run (kernel 1) s),
    KillExact s 2 ∧ run.Every (fun x _ _ => Spares x) ∧ (s.proc 1).state = .used ∧
    run.Every fun x _ y =>
      ∀ q, (x.proc q).state = .unused → (y.proc q).state ≠ .unused → (y.proc q).killed = false := by
  obtain ⟨s, run, spares, born⟩ := execUnder_path (M := kernel 1) (s := boot 1)
    (P := fun x _ _ => Spares x) (Q := fun s => (s.proc 1).state = .used)
    (steps 0 6 ++ syscall 0 .fork 3) (by decide +kernel)
  obtain ⟨exact_iff, starts⟩ := kill_touches_named_process run
  exact ⟨s, run, (exact_iff 2).mpr (Or.inl (by decide)), spares, born, starts spares⟩

end Xv6Monitor.Process.Kill
