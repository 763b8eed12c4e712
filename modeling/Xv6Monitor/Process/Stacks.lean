import Xv6Monitor.Process.Invariant

/-! What a step does to the stack of one thread: nothing, or one of six things, said once for the
arguments that follow a thread through its system calls and interrupts. -/

namespace Xv6Monitor.Process.Stacks
open Function (update_of_ne)
open Table Machine Step Moves Sections Lifecycle Ownership Children Invariant

variable {C : Nat} {s t u : Sys C} {c d : Fin C}

theorem cur_other (inv : Coherent s) {p : Slot} (on : (s.cpu c).cur = some p) (other : d ≠ c) :
    (s.cpu d).cur ≠ some p := by
  intro also
  obtain ⟨⟨_, loc⟩, -⟩ := inv.owned.active c p on
  obtain ⟨⟨_, loc'⟩, -⟩ := inv.owned.active d p also
  exact other (inv.owned.unique d c p (by rw [loc']; rfl) (by rw [loc]; rfl))

theorem cur_live (inv : Coherent s) {p : Slot} (on : (s.cpu c).cur = some p) :
    (s.proc p).state ≠ .unused := by
  obtain ⟨⟨_, loc⟩, -⟩ := inv.owned.active c p on
  have target : targetOf ((view s).cpu c).loc = some p := by
    rw [loc]
    rfl
  rcases inv.owned.target target with ⟨-, live, -⟩ | ⟨-, running, -⟩
  · exact live
  · intro unused
    rw [view_state, unused] at running
    cases running

inductive Stacked (s : Sys C) (c : Fin C) (t : Sys C) (r : Slot) : Prop where
  | keep (base : (t.thread r).base = (s.thread r).base) (calls : (t.thread r).calls = (s.thread r).calls)
  | born (unused : (s.proc r).state = .unused) (fresh : t.thread r = .fresh)
  | start (on : (s.cpu c).cur = some r) (parked : (s.thread r).phase = .parked .forkret)
      (base : (t.thread r).base = (s.thread r).base) (calls : (t.thread r).calls = forkretCalls s.first)
  | trap (on : (s.cpu c).cur = some r) (cause : Cause) (user : (s.thread r).base = .user)
      (base : (t.thread r).base = .usertrapTail cause)
      (calls : (t.thread r).calls = handler cause :: (s.thread r).calls)
  | interrupt (on : (s.cpu c).cur = some r) (cause : Cause) (base : (t.thread r).base = (s.thread r).base)
      (calls : (t.thread r).calls = handler cause :: .kerneltrap cause :: (s.thread r).calls)
  | call (on : (s.cpu c).cur = some r) (call : Call) (rest : List Call) (choice : Choice) (result : Section)
      (u : Sys C) (top : (s.thread r).calls = call :: rest) (next : callStep s c call choice = some result)
      (done : result.op.apply s c = some u) (table : t.proc = u.proc)
      (base : (t.thread r).base = (s.thread r).base) (calls : (t.thread r).calls = result.calls ++ rest)
      (running : (s.thread r).phase = .running) (phase : (t.thread r).phase = (u.thread r).phase)
  | base (on : (s.cpu c).cur = some r) (running : (s.thread r).phase = .running)
      (empty : (s.thread r).calls = []) (choice : Choice) (op : Op) (u : Sys C)
      (next : baseStep s r (s.thread r).base choice = some ((t.thread r).base, op, (t.thread r).calls))
      (done : op.apply s c = some u) (table : t.proc = u.proc)

theorem apply_stack {op : Op} (legal : Legal s c op) (done : op.apply s c = some u) (r : Slot) :
    ((u.thread r).base = (s.thread r).base ∧ (u.thread r).calls = (s.thread r).calls) ∨
    ((s.proc r).state = .unused ∧ u.thread r = .fresh) := by
  rcases apply_thread legal done r with same | ⟨rfl, fresh⟩ | ⟨-, -, resume, -, after⟩
  · exact Or.inl (by rw [same]; exact ⟨rfl, rfl⟩)
  · exact Or.inr ⟨legal, fresh⟩
  · exact Or.inl (by rw [after]; exact ⟨rfl, rfl⟩)

theorem switch_stacked {p : Slot} (on : (s.cpu c).cur = some p)
    (moved : SwitchMove s c p (s.thread p).phase t) (r : Slot) : Stacked s c t r := by
  generalize phase : (s.thread p).phase = before at moved
  by_cases here : r = p
  · subst here
    cases moved with
    | ready | save | load => exact .keep (by simp) (by simp)
    | resume resume _ _ =>
      by_cases new : resume = .forkret
      · exact .start on (by rw [phase, new]) (by simp) (by simp [new])
      · exact .keep (by simp) (by simp [new])
  · cases moved <;> exact .keep (by simp [here]) (by simp [here])

theorem move_stacked (inv : Coherent s) (moved : Move s c t) (r : Slot) : Stacked s c t r := by
  have applied : ∀ {op : Op} {u : Sys C}, Legal s c op → op.apply s c = some u →
      t.thread r = u.thread r → Stacked s c t r := by
    intro op u legal done same
    rcases apply_stack legal done r with ⟨base, calls⟩ | ⟨unused, fresh⟩
    · exact .keep (by rw [same, base]) (by rw [same, calls])
    · exact .born unused (by rw [same, fresh])
  cases moved with
  | interruptIdle cause off idle quiet => exact .keep rfl rfl
  | interruptUser cause p off on running user quiet =>
    by_cases here : r = p
    · subst here
      exact .trap on cause user (by simp) (by simp)
    · exact .keep (by simp [here]) (by simp [here])
  | interruptKernel cause p off on running _ _ quiet =>
    by_cases here : r = p
    · subst here
      exact .interrupt on cause (by simp) (by simp)
    · exact .keep (by simp [here]) (by simp [here])
  | sched t idle quiet moved => exact .keep (by rw [(sched_frame moved).1]) (by rw [(sched_frame moved).1])
  | switch p t on moved => exact switch_stacked on moved r
  | idleCall call rest choice result u idle top next done =>
    exact applied (inv.handler_legal top next) done rfl
  | call p call rest choice result u on running top next done =>
    by_cases here : r = p
    · subst here
      rcases apply_stack (inv.call_legal on top next) done r with ⟨base, -⟩ | ⟨unused, -⟩
      · exact .call on call rest choice result u top next done rfl (by simpa using base) (by simp) running
          (by simp)
      · exact absurd unused (cur_live inv on)
    · exact applied (inv.call_legal on top next) done (update_of_ne here ..)
  | base p choice base op calls u on running empty next done =>
    by_cases here : r = p
    · subst here
      exact .base on running empty choice op u (by simpa using next) done rfl
    · exact applied (baseStep_legal on next) done (update_of_ne here ..)

theorem move_thread (inv : Coherent s) (moved : Move s c t) {r : Slot} (off : (s.cpu c).cur ≠ some r) :
    t.thread r = s.thread r ∨ ((s.proc r).state = .unused ∧ t.thread r = .fresh) := by
  have applied : ∀ {op : Op} {u : Sys C}, Legal s c op → op.apply s c = some u →
      u.thread r = s.thread r ∨ ((s.proc r).state = .unused ∧ u.thread r = .fresh) := by
    intro op u legal done
    rcases apply_thread legal done r with same | ⟨rfl, fresh⟩ | ⟨-, on, -⟩
    · exact Or.inl same
    · exact Or.inr ⟨legal, fresh⟩
    · exact absurd on off
  have elsewhere : ∀ {p : Slot}, (s.cpu c).cur = some p → r ≠ p := by
    rintro p on rfl
    exact off on
  cases moved with
  | interruptIdle => exact Or.inl rfl
  | interruptUser cause p _ on | interruptKernel cause p _ on =>
    exact Or.inl (update_of_ne (elsewhere on) ..)
  | sched t idle _ moved => exact Or.inl (by rw [(sched_frame moved).1])
  | switch p t on moved =>
    generalize (s.thread p).phase = phase at moved
    cases moved <;> exact Or.inl (update_of_ne (elsewhere on) ..)
  | idleCall call rest choice result u idle top next done =>
    rw [Sys.setCpu_thread]
    exact applied (inv.handler_legal top next) done
  | call p call rest choice result u on running top next done =>
    rw [Sys.setThread_thread, update_of_ne (elsewhere on)]
    exact applied (inv.call_legal on top next) done
  | base p choice base op _ u on running _ next done =>
    rw [Sys.setThread_thread, update_of_ne (elsewhere on)]
    exact applied (baseStep_legal on next) done

theorem sched_others (moved : SchedMove s c t) (other : d ≠ c) : t.cpu d = s.cpu d := by
  cases moved with
  | scanTake _ _ cand _ _ _ _ => cases cand <;> exact update_of_ne other ..
  | _ => exact update_of_ne other ..

theorem move_others (moved : Move s c t) (other : d ≠ c) : t.cpu d = s.cpu d := by
  cases moved with
  | interruptIdle => exact update_of_ne other ..
  | interruptUser | interruptKernel => rfl
  | sched t idle _ moved => exact sched_others moved other
  | switch p t on moved =>
    generalize (s.thread p).phase = phase at moved
    cases moved with
    | load _ => exact update_of_ne other ..
    | _ => rfl
  | idleCall call rest choice result u idle top next done =>
    rw [Sys.setCpu_cpu, update_of_ne other, apply_cpu done]
  | call p call rest choice result u on running top next done => rw [Sys.setThread_cpu, apply_cpu done]
  | base p choice base _ _ u on running _ next done => rw [Sys.setThread_cpu, apply_cpu done]

theorem stack_others (inv : Coherent s) (moved : Move s c t) (other : d ≠ c) {p : Slot}
    (there : (s.cpu d).cur = some p) :
    (t.thread p).base = (s.thread p).base ∧ (t.thread p).calls = (s.thread p).calls := by
  cases move_stacked inv moved p with
  | keep base calls => exact ⟨base, calls⟩
  | born unused _ => exact absurd unused (cur_live inv there)
  | start on | trap on | interrupt on | call on | base on => exact absurd there (cur_other inv on other)

end Xv6Monitor.Process.Stacks
