import Xv6Monitor.Process.Sections

/-! The life of one table entry. Whatever a step does to the rest of the system, it takes
each entry along one of the edges below, guarded by the state it leaves. -/

namespace Xv6Monitor.Process.Lifecycle
open Function (update update_of_ne update_self)
open Table Machine Sections

variable {C : Nat} {s t u : Sys C} {c : Fin C}

/-- The edges of one entry while the clock shows `ticks` and the next pid is `pid`. -/
inductive Edge (ticks : Nat) (pid : Int) (p : Proc) : Proc → Prop where
  | same : Edge ticks pid p p
  | alloc (unused : p.state = .unused) : Edge ticks pid p (p.allocproc pid)
  | created (used : p.state = .used) : Edge ticks pid p (p.allocTime ticks)
  | abandon (unused : p.state = .unused) (late : Bool) :
      Edge ticks pid p ((if late then p.allocproc pid else p).freeproc ticks)
  | adopt (parent : Slot) : Edge ticks pid p { p with parent := some parent }
  | ready (stopped : p.state = .used ∨ p.state = .sleeping ∨ p.state = .running) :
      Edge ticks pid p (p.makeRunnable ticks)
  | kill : Edge ticks pid p (p.kill ticks)
  | setKilled (running : p.state = .running) : Edge ticks pid p { p with killed := true }
  | setPriority (priority : Int) (live : p.state ≠ .unused) :
      Edge ticks pid p { p with priority := priority }
  | dispatch (runnable : p.state = .runnable) : Edge ticks pid p (p.dispatch ticks)
  | sleep (running : p.state = .running) (chan : Option Chan) : Edge ticks pid p (p.sleepOn chan)
  | clearChan : Edge ticks pid p { p with chan := none }
  | exit (running : p.state = .running) (status : Int) : Edge ticks pid p (p.zombify status)
  | reap (zombie : p.state = .zombie) : Edge ticks pid p (p.freeproc ticks)
  | charge (running : p.state = .running) : Edge ticks pid p p.charge

/-- A process keeps its pid as long as its entry is in use, and its birth from its `fork` on. -/
theorem Edge.identity {ticks : Nat} {pid : Int} {p p' : Proc} (edge : Edge ticks pid p p')
    (before : p.state ≠ .unused) (after : p'.state ≠ .unused) :
    p'.pid = p.pid ∧ (p'.state ≠ .used → p'.creationTime = p.creationTime) := by
  cases edge with
  | alloc unused => exact absurd unused before
  | created used => exact ⟨rfl, fun forked => absurd used forked⟩
  | abandon unused _ => exact absurd unused before
  | reap _ => exact absurd rfl after
  | kill => simp
  | _ => exact ⟨rfl, fun _ => rfl⟩

/-- The thread that executes on `c` has its process marked RUNNING and unlocked. -/
def Executing (s : Sys C) (c : Fin C) : Prop :=
  ∀ p, (s.cpu c).cur = some p → (s.proc p).state = .running ∧ s.plock p = none

def writes (s : Sys C) : Op → Option (Slot × Proc)
  | .alloc q => some (q, (s.proc q).allocproc s.nextpid)
  | .allocTime q => some (q, (s.proc q).allocTime s.ticks)
  | .allocFail q late =>
      some (q, (if late then (s.proc q).allocproc s.nextpid else s.proc q).freeproc s.ticks)
  | .setParent np p => some (np, { s.proc np with parent := some p })
  | .forkRunnable q | .wake q => some (q, (s.proc q).makeRunnable s.ticks)
  | .reparent q => some (q, { s.proc q with parent := some s.initproc })
  | .kill q => some (q, (s.proc q).kill s.ticks)
  | .setKilled q => some (q, { s.proc q with killed := true })
  | .setPriority q priority => some (q, { s.proc q with priority := priority })
  | .reap q => some (q, (s.proc q).freeproc s.ticks)
  | .charge q => some (q, (s.proc q).charge)
  | .sleep p chan _ => some (p, (s.proc p).sleepOn chan)
  | .zombie p status => some (p, (s.proc p).zombify status)
  | _ => none

variable {entry : Proc}

theorem update_entry {table : Slot → Proc} {q : Slot} (r : Slot) : update table q entry r = table r ∨
    (some (q, entry) = some (r, update table q entry r)) := by
  by_cases here : r = q
  · subst here
    exact Or.inr (by rw [update_self])
  · exact Or.inl (update_of_ne here ..)

variable {op : Op}

theorem apply_writes (done : op.apply s c = some u) (r : Slot) :
    u.proc r = s.proc r ∨ writes s op = some (r, u.proc r) := by
  cases op <;> simp only [Op.apply, Option.some.injEq, Option.ite_none_right_eq_some] at done <;>
    (try obtain ⟨-, rfl⟩ := done)
  case sleep lk => cases lk <;> exact update_entry r
  all_goals first
    | exact Or.inl rfl
    | exact update_entry r

theorem writes_edge {q : Slot} (executing : Executing s c)
    (legal : Legal s c op) (wrote : writes s op = some (q, entry)) :
    Edge s.ticks s.nextpid (s.proc q) entry := by
  cases op <;> simp only [writes, Option.some.injEq, Prod.mk.injEq] at wrote <;>
    obtain ⟨rfl, rfl⟩ := wrote <;> simp only [Legal] at legal
  case alloc => exact .alloc legal
  case allocTime => exact .created legal
  case allocFail late => exact .abandon legal late
  case setParent p => exact .adopt p
  case forkRunnable => exact .ready (Or.inl legal)
  case reparent => exact .adopt s.initproc
  case wake => exact .ready (Or.inr (Or.inl legal))
  case kill => exact .kill
  case setKilled p => exact .setKilled (executing p legal).1
  case setPriority priority => exact .setPriority priority legal
  case reap => exact .reap legal.1
  case charge => exact .charge legal
  case sleep p chan lk => exact .sleep (executing p legal).1 chan
  case zombie p status => exact .exit (executing p legal).1 status

theorem apply_edge (executing : Executing s c) (legal : Legal s c op)
    (done : op.apply s c = some u) (q : Slot) : Edge s.ticks s.nextpid (s.proc q) (u.proc q) := by
  rcases apply_writes done q with same | wrote
  · rw [same]
    exact .same
  · exact writes_edge executing legal wrote

theorem apply_runnable (executing : Executing s c) (legal : Legal s c op)
    (done : op.apply s c = some u) {q : Slot} (ready : (s.proc q).state = .runnable) :
    (u.proc q).state = .runnable := by
  rcases apply_writes done q with same | wrote
  · rw [same, ready]
  generalize u.proc q = entry at wrote
  cases op <;> simp only [writes, Option.some.injEq, Prod.mk.injEq] at wrote <;>
    obtain ⟨rfl, rfl⟩ := wrote <;> simp only [Legal] at legal
  case sleep p chan lk => simp [(executing p legal).1] at ready
  case zombie p status => simp [(executing p legal).1] at ready
  all_goals simp_all

theorem apply_cpu (done : op.apply s c = some u) : u.cpu = s.cpu := by
  cases op <;> simp only [Op.apply, Option.some.injEq, Option.ite_none_right_eq_some] at done <;>
    (try obtain ⟨-, rfl⟩ := done)
  case sleep lk => cases lk <;> rfl
  all_goals rfl

def resumeOf : Phase → Option Resume
  | .running => none
  | .yielding => some .yield
  | .sched resume | .swtch resume | .parked resume => some resume

def leaves : Op → Bool
  | .yield _ | .sleep _ _ _ | .zombie _ _ => true
  | _ => false

theorem turn_thread {p : Slot} (on : (s.cpu c).cur = some p) (phase : Phase)
    (entered : resumeOf phase ≠ some .forkret) (r : Slot) :
    update s.thread p { s.thread p with phase := phase } r = s.thread r ∨
    ((s.cpu c).cur = some r ∧ ∃ phase', resumeOf phase' ≠ some .forkret ∧
      update s.thread p { s.thread p with phase := phase } r = { s.thread r with phase := phase' }) := by
  by_cases here : r = p
  · rw [here]
    exact Or.inr ⟨on, phase, entered, update_self ..⟩
  · exact Or.inl (update_of_ne here ..)

/-- An operation starts the thread of a new process or leaves the executing one; it touches no
other thread. -/
theorem apply_thread (legal : Legal s c op) (done : op.apply s c = some u) (r : Slot) :
    u.thread r = s.thread r ∨ (op = .alloc r ∧ u.thread r = .fresh) ∨
    (leaves op = true ∧ (s.cpu c).cur = some r ∧
      ∃ phase, resumeOf phase ≠ some .forkret ∧ u.thread r = { s.thread r with phase := phase }) := by
  cases op <;> simp only [Op.apply, Option.some.injEq, Option.ite_none_right_eq_some] at done <;>
    (try obtain ⟨-, rfl⟩ := done) <;> simp only [Legal] at legal
  case alloc q =>
    by_cases here : q = r
    · subst here
      exact Or.inr (Or.inl ⟨rfl, update_self ..⟩)
    · exact Or.inl (update_of_ne (Ne.symm here) ..)
  case yield p =>
    exact (turn_thread legal .yielding (by simp [resumeOf]) r).imp_right fun left => Or.inr ⟨rfl, left⟩
  case sleep p chan lk =>
    cases lk <;> exact (turn_thread legal (.sched .sleep) (by simp [resumeOf]) r).imp_right fun left =>
      Or.inr ⟨rfl, left⟩
  case zombie p status =>
    exact (turn_thread legal (.sched .zombie) (by simp [resumeOf]) r).imp_right fun left =>
      Or.inr ⟨rfl, left⟩
  all_goals exact Or.inl rfl

end Xv6Monitor.Process.Lifecycle
