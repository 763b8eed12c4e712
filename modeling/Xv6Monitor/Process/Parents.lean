import Xv6Monitor.Process.Exits

/-! The steps in the life of a child: `fork` sets its parent before it makes it runnable, `exit`
of the parent hands it on, its own `exit` makes it a zombie and `wait` frees its entry. -/

namespace Xv6Monitor.Process.Parents
open Table Machine Step Moves Sections Lifecycle Children Invariant Stacks Exits

variable {C : Nat} {s t u : Sys C} {c d : Fin C}

/-- The operations of `usertrap` and `exit` on the process table. -/
def ofBase : Op → Bool
  | .reparent _ | .zombie _ _ | .setKilled _ => true
  | _ => false

variable {call : Call} {choice : Choice} {result : Section}

theorem callStep_ofBase (next : callStep s c call choice = some result) : ofBase result.op = false := by
  cases callStep_move next with
  | handler _ _ next =>
    cases call <;> simp only [handlerCall] at next <;> (repeat' split at next) <;>
      simp only [Option.some.injEq, reduceCtorEq] at next <;> subst next <;> rfl
  | process _ _ _ _ next =>
    cases call <;> simp only [processCall] at next <;> (repeat' split at next) <;>
      simp only [Option.some.injEq, reduceCtorEq] at next <;> subst next <;> rfl
  | _ => rfl

variable {q : Slot}

theorem baseStep_reparent {p : Slot} {base after : Base} {calls : List Call}
    (next : baseStep s p base choice = some (after, .reparent q, calls)) :
    (∃ status, base = .reparent status q.val) ∧ (s.proc q).parent = some p := by
  unfold baseStep at next
  split at next <;> (try split at next) <;> (try split at next) <;>
    simp only [Option.some.injEq, Prod.mk.injEq, reduceCtorEq, false_and, and_false] at next
  next status _ _ _ found parent =>
    obtain ⟨-, same, -⟩ := next
    cases same
    exact ⟨⟨status, by rw [slotAt_some found]⟩, parent⟩

theorem baseStep_zombie {p : Slot} {base after : Base} {calls : List Call} {status : Int}
    (next : baseStep s p base choice = some (after, .zombie q status, calls)) :
    q = p ∧ base = .exitZombie status ∧ after = .gone := by
  unfold baseStep at next
  split at next <;> (try split at next) <;> (try split at next) <;>
    simp only [Option.some.injEq, Prod.mk.injEq, reduceCtorEq, false_and, and_false] at next
  next =>
    obtain ⟨rfl, same, -⟩ := next
    cases same
    exact ⟨rfl, rfl, rfl⟩

variable {op : Op}

theorem source_base (source : Source s c t op) (own : ofBase op = true) : ∃ p choice, (s.cpu c).cur = some p ∧
      baseStep s p (s.thread p).base choice = some ((t.thread p).base, op, (t.thread p).calls) := by
  cases source with
  | handler call rest choice result _ top next =>
    rw [callStep_ofBase next] at own
    cases own
  | call p call rest choice result on top next _ _ =>
    rw [callStep_ofBase next] at own
    cases own
  | base p choice op on _ next => exact ⟨p, choice, on, next⟩

inductive Adoption (s : Sys C) (c : Fin C) (q : Slot) (after : Proc) : Prop where
  | keep (same : after.parent = (s.proc q).parent)
  | cleared (freed : (s.proc q).state = .unused ∨ (s.proc q).state = .zombie)
      (unused : after.state = .unused) (orphan : after.parent = none)
  | forked (p : Slot) (on : (s.cpu c).cur = some p) (running : (s.proc p).state = .running)
      (free : s.waitLock = none) (used : (s.proc q).state = .used) (child : after.parent = some p)
  | inherited (p : Slot) (status : Int) (on : (s.cpu c).cur = some p)
      (exiting : (s.thread p).base = .reparent status q.val) (child : (s.proc q).parent = some p)
      (given : after.parent = some s.initproc)

theorem apply_adoption (executing : Executing s c) (legal : Legal s c op)
    (done : op.apply s c = some u) (q : Slot) : op = .reparent q ∨ Adoption s c q (u.proc q) := by
  rcases apply_writes done q with same | wrote
  · exact Or.inr (.keep (by rw [same]))
  generalize u.proc q = after at wrote
  cases op <;> simp only [writes] at wrote <;>
    obtain ⟨rfl, rfl⟩ := wrote <;> simp only [Legal] at legal
  case reparent => exact Or.inl rfl
  case allocFail late => exact Or.inr (.cleared (Or.inl legal) rfl rfl)
  case reap => exact Or.inr (.cleared (Or.inr legal.1) rfl rfl)
  case setParent p =>
    simp only [Op.apply, Option.ite_none_right_eq_some] at done
    exact Or.inr (.forked p legal.2 (executing p legal.2).1 done.1 legal.1 rfl)
  case kill => exact Or.inr (.keep (by simp))
  all_goals exact Or.inr (.keep rfl)

theorem move_adoption (inv : Coherent s) (moved : Move s c t) (q : Slot) : Adoption s c q (t.proc q) := by
  cases move_change inv moved with
  | frame entries =>
    rcases entries q with same | ⟨-, same⟩ | same | ⟨-, same⟩
    · exact .keep (by rw [same])
    · exact .keep (by rw [same]; rfl)
    · exact .keep (by rw [same])
    · exact .keep (by rw [same]; rfl)
  | op op _ executing legal done table source =>
    rw [table]
    rcases apply_adoption executing legal done q with rfl | adoption
    · obtain ⟨p, _, on, next⟩ := source_base source rfl
      obtain ⟨⟨status, exiting⟩, child⟩ := baseStep_reparent next
      cases done
      exact .inherited p status on exiting child (by simp)
    · exact adoption

theorem apply_zombie (legal : Legal s c op) (done : op.apply s c = some u)
    (before : (s.proc q).state ≠ .zombie) (after : (u.proc q).state = .zombie) :
    ∃ status, op = .zombie q status ∧ u.proc q = (s.proc q).zombify status := by
  rcases apply_writes done q with same | wrote
  · rw [same] at after
    exact absurd after before
  generalize u.proc q = entry at wrote after
  cases op <;> simp only [writes, Option.some.injEq, Prod.mk.injEq] at wrote <;>
    obtain ⟨rfl, rfl⟩ := wrote <;> simp only [Legal] at legal
  case zombie p status => exact ⟨status, rfl, rfl⟩
  case kill =>
    rw [Proc.kill_state] at after
    split at after
    · cases after
    · exact absurd after before
  all_goals first
    | exact absurd after before
    | cases after

theorem move_zombie (inv : Coherent s) (moved : Move s c t)
    (before : (s.proc q).state ≠ .zombie) (after : (t.proc q).state = .zombie) :
    ∃ status, (s.cpu c).cur = some q ∧ (s.thread q).base = .exitZombie status ∧
      (t.thread q).base = .gone ∧ t.proc q = (s.proc q).zombify status := by
  cases move_change inv moved with
  | frame entries =>
    rcases entries q with same | ⟨-, same⟩ | same | ⟨-, same⟩ <;> rw [same] at after
    · exact absurd after before
    · cases after
    · exact absurd after before
    · cases after
  | op op _ _ legal done table source =>
    rw [table] at after
    obtain ⟨status, rfl, entry⟩ := apply_zombie legal done before after
    obtain ⟨_, _, on, next⟩ := source_base source rfl
    obtain ⟨rfl, base, gone⟩ := baseStep_zombie next
    exact ⟨status, on, base, gone, by rw [table, entry]⟩

variable {np : Slot}

theorem callStep_forkRunnable
    (next : callStep s c call choice = some result) (forks : result.op = .forkRunnable np) :
    ∃ pid, call = .forkRunnable np pid := by
  cases callStep_move next with
  | handler _ _ next => exact nomatch forks ▸ (handlerCall_handles next).1
  | process _ _ _ _ next =>
    cases call <;> simp only [processCall] at next <;> (repeat' split at next) <;>
      simp only [Option.some.injEq, reduceCtorEq] at next <;> subst next <;> cases forks
    exact ⟨_, rfl⟩
  | _ => cases forks

theorem callStep_setParent {pid : Int}
    (next : callStep s c call choice = some result) (after : .forkRunnable np pid ∈ result.calls) :
    ∃ p, result.op = .setParent np p := by
  cases callStep_move next with
  | handler _ _ next =>
    cases call <;> simp only [handlerCall] at next <;> (repeat' split at next) <;>
      simp only [Option.some.injEq, reduceCtorEq] at next <;> subst next <;> simp at after
  | process p _ _ me next =>
    cases call <;> simp only [processCall] at next <;> (repeat' split at next) <;>
      simp only [Option.some.injEq, reduceCtorEq] at next <;> subst next <;> simp at after
    exact ⟨p, by rw [after.1]⟩
  | sleep p _ chan me outside => rcases outside with rfl | rfl <;> simp at after
  | wakeup _ chan outside => rcases outside with rfl | rfl | rfl <;> simp at after
  | _ => simp at after

theorem move_used (inv : Coherent s) (moved : Move s c t) (used : (s.proc q).state = .used) :
    (t.proc q).state = .used ∨ ∃ p pid, .forkRunnable q pid ∈ (s.thread p).calls := by
  cases move_change inv moved with
  | frame entries =>
    rcases entries q with same | ⟨ready, -⟩ | same | ⟨running, -⟩
    · exact Or.inl (by rw [same, used])
    · rw [used] at ready
      cases ready
    · exact Or.inl (by rw [same, used])
    · rw [used] at running
      cases running
  | op op _ executing legal done table source =>
    rcases apply_used legal executing done used with still | rfl
    · exact Or.inl (by rw [table, still])
    generalize born : Op.forkRunnable q = op at source
    cases source with
    | handler call rest choice result _ top next =>
      obtain ⟨pid, rfl⟩ := callStep_forkRunnable next born.symm
      have none_here := inv.forking.handlers c
      rw [top] at none_here
      cases none_here
    | call p call rest choice result on top next _ _ =>
      obtain ⟨pid, rfl⟩ := callStep_forkRunnable next born.symm
      exact Or.inr ⟨p, pid, by simp [top]⟩
    | base p choice op on _ next =>
      have plain := (baseStep_children next).1
      rw [← born] at plain
      cases plain

theorem sched_initproc (moved : SchedMove s c t) : t.initproc = s.initproc := by
  cases moved with
  | scanTake _ _ cand _ _ _ _ => cases cand <;> rfl
  | _ => rfl

theorem apply_initproc (done : op.apply s c = some u) : u.initproc = s.initproc := by
  cases op <;> simp only [Op.apply, Option.some.injEq, Option.ite_none_right_eq_some] at done <;>
    (try obtain ⟨-, rfl⟩ := done)
  case sleep lk => cases lk <;> rfl
  all_goals rfl

theorem move_initproc (inv : Coherent s) (moved : Move s c t) : t.initproc = s.initproc := by
  cases move_effect inv moved with
  | sched t _ moved => exact sched_initproc moved
  | switch p t _ moved =>
    generalize (s.thread p).phase = phase at moved
    cases moved <;> rfl
  | op op u _ _ done _ _ => exact apply_initproc (u := u) done

theorem move_forked (inv : Coherent s) (moved : Move s c t) {r : Slot} {pid : Int}
    (there : .forkRunnable np pid ∈ (t.thread r).calls) :
    .forkRunnable np pid ∈ (s.thread r).calls ∨ (t.proc np).parent ≠ none := by
  cases move_stacked inv moved r with
  | keep base calls =>
    rw [calls] at there
    exact Or.inl there
  | born _ fresh =>
    rw [fresh] at there
    cases there
  | start on _ base calls =>
    rw [calls] at there
    cases first : s.first <;> simp [forkretCalls] at there
  | trap on cause _ base calls =>
    rw [calls] at there
    cases cause <;> simp [handler] at there <;> exact Or.inl there
  | interrupt on cause base calls =>
    rw [calls] at there
    cases cause <;> simp [handler] at there <;> exact Or.inl there
  | call on call _ choice _ u top next done table base calls =>
    rw [calls] at there
    rcases List.mem_append.mp there with new | old
    · obtain ⟨_, parent⟩ := callStep_setParent next new
      rw [parent] at done
      simp only [Op.apply, Option.ite_none_right_eq_some, Option.some.injEq] at done
      obtain ⟨-, rfl⟩ := done
      exact Or.inr (by simp [table])
    · exact Or.inl (by rw [top]; exact List.mem_cons_of_mem _ old)
  | base on _ _ choice _ u next done table =>
    have child : np ∈ children (t.thread r).calls := List.mem_filterMap.mpr ⟨_, there, rfl⟩
    rw [(baseStep_children next).2] at child
    cases child

theorem move_free (inv : Coherent s) (moved : Move s c t) (free : (t.proc q).state = .unused) :
    (s.proc q).state = .unused ∨ ((s.proc q).state = .zombie ∧ (t.proc q).parent = none) := by
  have edge := move_edge inv moved q
  generalize t.proc q = after at edge free
  cases edge with
  | alloc unused => cases free
  | abandon unused _ => exact Or.inl unused
  | ready | dispatch | sleep | exit => cases free
  | kill =>
    rw [Proc.kill_state] at free
    split at free
    · cases free
    · exact Or.inl free
  | reap zombie => exact Or.inr ⟨zombie, rfl⟩
  | _ => exact Or.inl free

theorem move_stays (inv : Coherent s) (moved : Move s c t) {r : Slot}
    (here : (s.proc r).state ≠ .unused ∧ (s.proc r).state ≠ .zombie)
    (remains : ∀ status, (s.cpu c).cur = some r → (s.thread r).base ≠ .exitZombie status) :
    (t.proc r).state ≠ .unused ∧ (t.proc r).state ≠ .zombie := by
  constructor
  · intro free
    rcases move_free inv moved free with unused | ⟨zombie, -⟩
    · exact here.1 unused
    · exact here.2 zombie
  · intro zombie
    obtain ⟨status, on, base, -⟩ := move_zombie inv moved here.2 zombie
    exact remains status on base

end Xv6Monitor.Process.Parents
