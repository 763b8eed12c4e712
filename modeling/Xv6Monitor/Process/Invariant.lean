import Xv6Monitor.Process.Children

/-! The invariant of every reachable state, kept by every move. From it each step takes each
table entry along an edge of its life, and no process is ever run by two CPUs. -/

namespace Xv6Monitor.Process.Invariant
open Lib.Transition Table Machine Step Moves Sections Lifecycle Ownership Handover Children

variable {C : Nat} {s t u : Sys C} {c : Fin C}

theorem sched_entry (owned : Owned (view s)) (moved : SchedMove s c t) (q : Slot) :
    t.proc q = s.proc q ∨
    ((s.proc q).state = .runnable ∧ t.proc q = (s.proc q).dispatch s.ticks) := by
  cases moved with
  | passDispatch r loc free ready =>
    by_cases here : q = r
    · subst here
      exact Or.inr ⟨ready, by simp⟩
    · exact Or.inl (by simp [here])
  | scanDispatch branch _ r loc _ =>
    by_cases here : q = r
    · subst here
      have ready := (owned.cand (c := c) (q := q) (by simp [loc, candOf])).2.1
      exact Or.inr ⟨ready, by simp⟩
    · exact Or.inl (by simp [here])
  | scanTake branch r cand loc free ready _ =>
    cases cand <;> exact Or.inl rfl
  | _ => exact Or.inl rfl

theorem sched_frame (moved : SchedMove s c t) :
    t.thread = s.thread ∧ ∀ d, (t.cpu d).calls = (s.cpu d).calls := by
  cases moved with
  | scanTake _ _ cand _ _ _ _ =>
    cases cand <;> exact ⟨rfl, update_field Cpu.calls rfl⟩
  | _ => exact ⟨rfl, update_field Cpu.calls rfl⟩

theorem switch_entry {p : Slot} (owned : Owned (view s)) (on : (s.cpu c).cur = some p)
    (moved : SwitchMove s c p (s.thread p).phase t) (q : Slot) :
    t.proc q = s.proc q ∨ t.proc q = { s.proc q with chan := none } ∨
    ((s.proc q).state = .running ∧ t.proc q = (s.proc q).makeRunnable s.ticks) := by
  obtain ⟨-, fits⟩ := owned.active c p on
  rw [view_phase] at fits
  generalize (s.thread p).phase = phase at moved fits
  cases moved with
  | ready =>
    by_cases here : q = p
    · subst here
      exact Or.inr (Or.inr ⟨fits.1, by simp⟩)
    · exact Or.inl (by simp [here])
  | save resume held _ _ => exact Or.inl rfl
  | load resume => exact Or.inl rfl
  | resume resume held _ =>
    by_cases here : q = p
    · subst here
      cases resume <;> simp [wokenEntry]
    · exact Or.inl (by simp [here])

/-- What the scheduler and the switches do to an entry. -/
def Turned (ticks : Nat) (p p' : Proc) : Prop :=
  p' = p ∨ (p.state = .runnable ∧ p' = p.dispatch ticks) ∨ p' = { p with chan := none } ∨
    (p.state = .running ∧ p' = p.makeRunnable ticks)

theorem switch_children {p : Slot} {phase : Phase} (moved : SwitchMove s c p phase t) (r : Slot) :
    (children (t.thread r).calls).Sublist (children (s.thread r).calls) := by
  by_cases here : r = p
  · subst here
    cases moved with
    | ready => simp
    | save resume held _ _ => simp
    | load resume => simp
    | resume resume held _ =>
      cases resume <;> simp
      cases s.first <;> simp [forkretCalls, childOf]
  · cases moved <;> simp [here]

theorem switch_calls {p : Slot} {phase : Phase} (moved : SwitchMove s c p phase t) (d : Fin C) :
    (t.cpu d).calls = (s.cpu d).calls := by
  cases moved with
  | load _ =>
    refine update_field Cpu.calls ?_ d
    rfl
  | _ => rfl

theorem inv_move (inv : Coherent s) (moved : Move s c t) : Coherent t := by
  cases moved with
  | interruptIdle cause off idle quiet =>
    refine ⟨owned_calls inv.owned (unburdened inv.owned off idle) _, ?_⟩
    apply inv.forking.keep
    · exact fun r used => used
    · exact fun r => rfl
    intro d
    by_cases here : d = c
    · subst here
      cases cause <;> simp [handler, childOf]
    · simp [here, inv.forking.handlers d]
  | interruptUser cause p off on running _ quiet =>
    refine inv.restack rfl ?_
    cases cause <;> simp [handler, childOf]
  | interruptKernel cause p off on running _ _ quiet =>
    refine inv.restack rfl ?_
    cases cause <;> simp [handler, childOf]
  | sched t idle quiet moved =>
    refine ⟨owned_sched inv.owned idle quiet moved, ?_⟩
    obtain ⟨thread, calls⟩ := sched_frame moved
    apply inv.forking.keep
    · intro r used
      rcases sched_entry inv.owned moved r with same | ⟨ready, -⟩
      · rw [same, used]
      · rw [used] at ready
        cases ready
    · intro r
      rw [thread]
    · intro d
      rw [calls d]
      exact inv.forking.handlers d
  | switch p t on moved =>
    refine ⟨owned_switch inv.owned on moved, ?_⟩
    apply inv.forking.shrink (switch_children moved)
    · intro r np _ used
      rcases switch_entry inv.owned on moved np with same | same | ⟨running, -⟩
      · rw [same, used]
      · rw [same, used]
      · rw [used] at running
        cases running
    · intro d
      rw [switch_calls moved d]
      exact inv.forking.handlers d
  | idleCall call rest choice result u idle top next done =>
    have nobody := (inv.myproc (c := c) (Or.inr (by simp [top]))).trans idle
    obtain ⟨handled, new⟩ := callStep_handler nobody next
    have after := inv.apply (inv.handler_legal top next) (executing_idle idle) (handles_plain handled) done
    have free := inv.owned.handler c (by simp [top])
    constructor
    · apply owned_calls after.owned
      rw [apply_cpu done]
      exact free
    apply after.forking.keep
    · exact fun r used => used
    · exact fun r => rfl
    intro d
    by_cases here : d = c
    · subst here
      have before := inv.forking.handlers d
      rw [top, children_cons] at before
      simp [new, (List.append_eq_nil_iff.mp before).2]
    · simp [here, after.forking.handlers d]
  | call p call rest choice result u on running top next done =>
    refine ⟨?_, inv.forking_call on running top next done⟩
    rw [view_setThread]
    have result := owned_apply inv.owned (inv.executing on running) (inv.call_legal on top next) done
    rw [← View.turn_self (view u) p] at result
    exact result
  | base p choice base _ calls u on running _ next done =>
    obtain ⟨plain, new⟩ := baseStep_children next
    have after := inv.apply (baseStep_legal on next) (inv.executing on running) plain done
    refine after.restack rfl ?_
    simp [new]

theorem inv_boot : Coherent (boot C) := by
  constructor
  · constructor
    case dispatched =>
      intro q running
      rw [view_state, boot_proc] at running
      split at running <;> cases running
    all_goals simp [boot, targetOf, Idle, Thread.fresh]
  · constructor <;> simp [boot, Thread.fresh]

theorem inv_reachable (reachable : Reachable (kernel C) s) : Coherent s :=
  reachable.invariant inv_boot fun _ _ _ moved inv => inv_move inv (step_move moved)

section Rules

variable {η : Type} {P : Sys C → Action C → Sys C → Prop} {I : Sys C → Prop}

theorem invariant_along (start : I (boot C))
    (keeps : ∀ s a t, Coherent s → Move s a.cpu t → P s a t → I s → I t)
    (run : Run (kernel C) s) (every : run.Every P) : I s := by
  have both : Coherent s ∧ I s := by
    refine Path.invariant_under (I := fun s => Coherent s ∧ I s) ?_ ⟨inv_boot, start⟩ run every
    rintro x a y moved last ⟨inv, holds⟩
    exact ⟨inv_move inv (step_move moved), keeps x a y inv (step_move moved) last holds⟩
  exact both.2

theorem invariant_over (start : I (boot C))
    (keeps : ∀ s c t, Coherent s → Move s c t → I s → I t)
    (reachable : Reachable (kernel C) s) : I s :=
  reachable.elim fun run => invariant_along (P := fun _ _ _ => True) start
    (fun x a y inv moved _ holds => keeps x a.cpu y inv moved holds) run (fun _ _ _ _ => trivial)

theorem history_over {observe : Sys C → Action C → Sys C → η → η} {h₀ : η} {J : Sys C → η → Prop}
    (start : J (boot C) h₀)
    (keeps : ∀ s a t h, Coherent s → Move s a.cpu t → J s h → J t (observe s a t h))
    (run : Run (kernel C) s) : J s (run.fold observe h₀) := by
  have both : Coherent s ∧ J s (run.fold observe h₀) := by
    refine Path.fold_invariant (I := fun s h => Coherent s ∧ J s h) ?_ ⟨inv_boot, start⟩ run
    rintro x a y h moved ⟨inv, holds⟩
    exact ⟨inv_move inv (step_move moved), keeps x a y h inv (step_move moved) holds⟩
  exact both.2

end Rules

/-- What a move does to the shared state: a step of the scheduler, a switch, or one operation;
only call stacks change besides. -/
inductive Effect (s : Sys C) (c : Fin C) : Sys C → Prop where
  | sched (t : Sys C) (idle : (s.cpu c).cur = none) (moved : SchedMove s c t) : Effect s c t
  | switch (p : Slot) (t : Sys C) (on : (s.cpu c).cur = some p)
      (moved : SwitchMove s c p (s.thread p).phase t) : Effect s c t
  | op (op : Op) (u : Sys C) (executing : Executing s c) (legal : Legal s c op)
      (done : op.apply s c = some u) (cpu : Fin C → Cpu) (thread : Slot → Thread) :
      Effect s c { u with cpu := cpu, thread := thread }

theorem move_effect (inv : Coherent s) (moved : Move s c t) : Effect s c t := by
  cases moved with
  | interruptIdle cause off idle quiet =>
    exact .op .nop s (executing_idle idle) trivial rfl _ s.thread
  | interruptUser cause p off on running user quiet =>
    exact .op .nop s (inv.executing on running) trivial rfl s.cpu _
  | interruptKernel cause p off on running kernel enabled quiet =>
    exact .op .nop s (inv.executing on running) trivial rfl s.cpu _
  | sched t idle quiet moved => exact .sched t idle moved
  | switch p t on moved => exact .switch p t on moved
  | idleCall call rest choice result u idle top next done =>
    exact .op result.op u (executing_idle idle) (inv.handler_legal top next) done _ u.thread
  | call p call rest choice result u on running top next done =>
    exact .op result.op u (inv.executing on running) (inv.call_legal on top next) done u.cpu _
  | base p choice base op _ u on running _ next done =>
    exact .op op u (inv.executing on running) (baseStep_legal on next) done u.cpu _

theorem move_edge (inv : Coherent s) (moved : Move s c t) (q : Slot) :
    Edge s.ticks s.nextpid (s.proc q) (t.proc q) := by
  cases move_effect inv moved with
  | sched t _ moved =>
    rcases sched_entry inv.owned moved q with same | ⟨ready, dispatched⟩
    · rw [same]
      exact .same
    · rw [dispatched]
      exact .dispatch ready
  | switch _ t on moved =>
    rcases switch_entry inv.owned on moved q with same | cleared | ⟨running, yielded⟩
    · rw [same]
      exact .same
    · rw [cleared]
      exact .clearChan
    · rw [yielded]
      exact .ready (Or.inr (Or.inr running))
  | op op _ executing legal done _ _ => exact apply_edge executing legal done q

theorem move_enters (moved : Move s c t) {d : Fin C} {p : Slot} (before : (s.cpu d).cur ≠ some p)
    (after : (t.cpu d).cur = some p) :
    d = c ∧ (s.cpu c).cur = none ∧ (s.cpu c).calls = [] ∧ ∃ cursor, (s.cpu c).loc = .swtchIn cursor p := by
  have elsewhere : ∀ cpu : Cpu, cpu.cur = (s.cpu c).cur →
      (Function.update s.cpu c cpu d).cur ≠ some p := by
    intro cpu same
    rw [update_field Cpu.cur same d]
    exact before
  cases moved with
  | interruptIdle => exact absurd after (elsewhere _ rfl)
  | interruptUser | interruptKernel => exact absurd after before
  | sched t idle quiet moved =>
    cases moved with
    | swtchIn cursor q loc =>
      by_cases here : d = c
      · subst here
        simp only [Sys.setCpu_cpu, Function.update_self, Option.some.injEq] at after
        subst after
        exact ⟨rfl, idle, quiet, cursor, loc⟩
      · simp [here] at after
        exact absurd after before
    | scanTake _ q cand loc _ _ _ =>
      cases cand <;> exact absurd after (elsewhere _ rfl)
    | _ => exact absurd after (elsewhere _ rfl)
  | switch q t on moved =>
    generalize (s.thread q).phase = phase at moved
    cases moved with
    | load _ =>
      by_cases here : d = c
      · subst here
        simp at after
      · simp [here] at after
        exact absurd after before
    | _ => exact absurd after before
  | idleCall call rest choice result u idle top next done =>
    rw [Sys.setCpu_cpu, apply_cpu done] at after
    exact absurd after (elsewhere _ rfl)
  | call q call rest choice result u on running top next done =>
    rw [Sys.setThread_cpu, apply_cpu done] at after
    exact absurd after before
  | base q choice base _ _ u on running _ next done =>
    rw [Sys.setThread_cpu, apply_cpu done] at after
    exact absurd after before

/-- No process runs on two CPUs: while its lock is free a process is RUNNING exactly when one
CPU has it as `c->proc`, no two CPUs execute the same thread, and a CPU enters a thread
only when its registers are saved. -/
theorem runs_on_one_cpu (reachable : Reachable (kernel C) s) (p : Slot) :
    (s.plock p = none → ((s.proc p).state = .running ↔ ∃! c, (s.cpu c).proc = some p)) ∧
    (∀ c d, (s.cpu c).cur = some p → (s.cpu d).cur = some p → c = d) ∧
    (∀ action t c, step s action = some t → (s.cpu c).cur ≠ some p → (t.cpu c).cur = some p →
      ∃ resume, (s.thread p).phase = .parked resume) := by
  have inv := inv_reachable reachable
  refine ⟨fun free => ⟨fun running => ?_, ?_⟩, ?_, ?_⟩
  · obtain ⟨c, target⟩ := inv.owned.dispatched p running
    refine ⟨c, (inv.owned.named c).trans target, fun d here => ?_⟩
    exact inv.owned.unique d c p ((inv.owned.named d).symm.trans here) target
  · rintro ⟨c, here, -⟩
    rcases inv.owned.target ((inv.owned.named c).symm.trans here) with held | running
    · exact absurd (free.symm.trans held.1) (by simp)
    · exact running.2.1
  · intro c d first second
    obtain ⟨⟨cursor, loc⟩, -⟩ := inv.owned.active c p first
    obtain ⟨⟨_, loc'⟩, -⟩ := inv.owned.active d p second
    exact inv.owned.unique c d p (by rw [loc]; rfl) (by rw [loc']; rfl)
  · intro action t c moved before after
    obtain ⟨rfl, idle, quiet, cursor, loc⟩ := move_enters (step_move moved) before after
    exact (owned_enter inv.owned idle quiet loc).1

/-- CPU 1 picks up the first process while CPU 0 stays in its loop. -/
theorem runs_on_one_cpu_second : ∃ s : Sys 2, Reachable (kernel 2) s ∧ s.plock firstSlot = none ∧
    (s.proc firstSlot).state = .running ∧
    ((s.proc firstSlot).state = .running ↔ ∃! c, (s.cpu c).proc = some firstSlot) := by
  obtain ⟨s, reachable, free, running⟩ := reachable_exec (M := kernel 2)
    (Q := fun s => s.plock firstSlot = none ∧ (s.proc firstSlot).state = .running)
    [⟨1, .go⟩, ⟨1, .go⟩, ⟨1, .go⟩, ⟨1, .go⟩] (by decide)
  exact ⟨s, reachable, free, running, (runs_on_one_cpu reachable firstSlot).1 free⟩

end Xv6Monitor.Process.Invariant
