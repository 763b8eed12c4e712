import Xv6Monitor.Process.Locks
import Xv6Monitor.Process.Stacks

/-! A CPU holds a global lock exactly while the stack it executes stands in the section that the
lock protects, and no thread is switched out inside such a section. -/

namespace Xv6Monitor.Process.Holding
open Function (update_of_ne update_self)
open Lib.Transition Table Machine Step Moves Sections Lifecycle Ownership Handover Children Invariant Locks
  Stacks

variable {C : Nat} {s t u : Sys C} {c d : Fin C}

def lockOf (s : Sys C) (c : Fin C) : Option Lock :=
  match (s.cpu c).cur with
  | none => held none (s.cpu c).calls
  | some p => threadLock (s.thread p)

structure Settled (thread : Thread) : Prop where
  tidy : Tidy (baseLock thread.base) thread.calls
  parked : thread.phase ≠ .running → threadLock thread = none
  started : resumeOf thread.phase = some .forkret → thread = .fresh

structure Locking (s : Sys C) : Prop where
  threads : ∀ p, Settled (s.thread p)
  handlers : ∀ c, Tidy none (s.cpu c).calls
  holds : ∀ c l, holder s l = some c ↔ lockOf s c = some l

theorem settled_fresh : Settled .fresh where
  tidy := trivial
  parked _ := rfl
  started _ := rfl

theorem holds_change (effect : LockEffect) (holds : ∀ c l, holder s l = some c ↔ lockOf s c = some l)
    (others : ∀ d, d ≠ c → lockOf t d = lockOf s d)
    (lock : LockStep effect (lockOf s c) (lockOf t c))
    (change : ∀ l, match effect with
      | .keep => holder t l = holder s l
      | .acquire l' => holder s l' = none ∧ holder t l = if l = l' then some c else holder s l
      | .release l' => holder t l = if l = l' then none else holder s l) (d : Fin C) (l : Lock) :
    holder t l = some d ↔ lockOf t d = some l := by
  have now := change l
  by_cases same : d = c
  · subst same
    cases effect <;> simp only [LockStep] at lock now <;> grind
  · rw [others d same]
    have mine := holds c
    cases effect <;> simp only [LockStep] at lock now <;> grind

theorem locking_boot : Locking (boot C) := by
  constructor
  · exact fun p => settled_fresh
  · exact fun c => trivial
  · intro c l
    cases l <;> simp [boot, holder, lockOf, held]

theorem holder_of_noff (off : s.noff c = 0) (l : Lock) : holder s l ≠ some c := by
  unfold Sys.noff at off
  have free := (Nat.add_eq_zero_iff.mp off).2
  rw [List.countP_eq_zero] at free
  intro mine
  cases l
  · exact free s.waitLock (by simp) (by simpa [holder] using mine)
  · exact free s.tickslock (by simp) (by simpa [holder] using mine)
  · exact free s.metricsLock (by simp) (by simpa [holder] using mine)

theorem Locking.unlocked (locking : Locking s) (off : s.noff c = 0) : lockOf s c = none := by
  cases lock : lockOf s c with
  | none => rfl
  | some l => exact absurd ((locking.holds c l).mpr lock) (holder_of_noff off l)

theorem lockOf_others (inv : Coherent s) (moved : Move s c t) (other : d ≠ c) : lockOf t d = lockOf s d := by
  unfold lockOf threadLock
  rw [move_others moved other]
  cases on : (s.cpu d).cur with
  | none => rfl
  | some _ =>
    obtain ⟨base, calls⟩ := stack_others inv moved other on
    simp only [base, calls]

variable {p : Slot} {thread : Thread}

theorem locking_thread (op : Op) (inv : Coherent s) (locking : Locking s)
    (on : (s.cpu c).cur = some p) (running : (s.thread p).phase = .running) (legal : Legal s c op)
    (done : op.apply s c = some u) (phase : thread.phase = (u.thread p).phase)
    (tidy : Tidy (baseLock thread.base) thread.calls)
    (lock : LockStep (lockEffect op) (threadLock (s.thread p)) (threadLock thread))
    (left : leaves op = true → threadLock thread = none)
    (others : ∀ d, d ≠ c → lockOf (u.setThread p thread) d = lockOf s d) : Locking (u.setThread p thread) := by
  have cpu := apply_cpu done
  constructor
  · intro r
    by_cases here : r = p
    · subst here
      rw [Sys.setThread_thread, update_self]
      rcases apply_thread legal done r with same | ⟨rfl, -⟩ | ⟨leaving, -, resume, entered, after⟩
      · have still : thread.phase = .running := by rw [phase, same, running]
        refine ⟨tidy, fun moved => absurd still moved, fun moved => ?_⟩
        rw [still] at moved
        cases moved
      · exact absurd legal (cur_live inv on)
      · refine ⟨tidy, fun _ => left leaving, fun moved => ?_⟩
        rw [phase, after] at moved
        exact absurd moved entered
    · rw [Sys.setThread_thread, update_of_ne here]
      rcases apply_thread legal done r with same | ⟨-, fresh⟩ | ⟨-, also, -⟩
      · rw [same]
        exact locking.threads r
      · rw [fresh]
        exact settled_fresh
      · exact absurd (Option.some.inj (also.symm.trans on)) here
  · intro d
    rw [Sys.setThread_cpu, cpu]
    exact locking.handlers d
  · refine holds_change (lockEffect op) locking.holds others ?_ ?_
    · simpa [lockOf, cpu, on] using lock
    · intro l
      have change := apply_holder done l
      exact change

theorem locking_idle (op : Op) {calls : List Call} (locking : Locking s)
    (idle : (s.cpu c).cur = none) (legal : Legal s c op) (handled : handles op = true)
    (done : op.apply s c = some u) (tidy : Tidy none calls)
    (lock : LockStep (lockEffect op) (held none (s.cpu c).calls) (held none calls))
    (others : ∀ d, d ≠ c → lockOf (u.setCpu c { u.cpu c with calls := calls }) d = lockOf s d) :
    Locking (u.setCpu c { u.cpu c with calls := calls }) := by
  have cpu := apply_cpu done
  have thread : ∀ r, u.thread r = s.thread r := by
    intro r
    rcases apply_thread legal done r with same | ⟨rfl, -⟩ | ⟨-, here, -⟩
    · exact same
    · cases handled
    · rw [idle] at here
      cases here
  constructor
  · intro r
    rw [Sys.setCpu_thread, thread r]
    exact locking.threads r
  · intro d
    by_cases here : d = c
    · subst here
      rw [Sys.setCpu_cpu, update_self]
      exact tidy
    · rw [Sys.setCpu_cpu, update_of_ne here, cpu]
      exact locking.handlers d
  · refine holds_change (lockEffect op) locking.holds others ?_ ?_
    · simpa [lockOf, cpu, idle] using lock
    · intro l
      have change := apply_holder done l
      exact change

theorem sched_holder (moved : SchedMove s c t) (l : Lock) : holder t l = holder s l := by
  cases moved with
  | scanTake _ _ cand _ _ _ _ => cases cand <;> rfl
  | _ => rfl

/-- The scheduler takes no global lock, and enters threads that hold none. -/
theorem locking_sched (inv : Coherent s) (locking : Locking s) (idle : (s.cpu c).cur = none)
    (quiet : (s.cpu c).calls = []) (moved : SchedMove s c t)
    (others : ∀ d, d ≠ c → lockOf t d = lockOf s d) : Locking t := by
  obtain ⟨thread, calls⟩ := sched_frame moved
  have unlocked : lockOf s c = none := by simp [lockOf, idle, quiet, held]
  have lock : ∀ d, lockOf t d = lockOf s d := by
    intro d
    by_cases here : d = c
    · subst here
      rw [unlocked]
      cases after : (t.cpu d).cur with
      | none => simp [lockOf, after, calls, quiet, held]
      | some p =>
        obtain ⟨-, -, -, _, loc⟩ := move_enters (.sched t idle quiet moved) (by simp [idle]) after
        obtain ⟨_, parked⟩ := (owned_enter inv.owned idle quiet loc).1
        rw [view_phase] at parked
        simpa [lockOf, after, thread] using (locking.threads p).parked (by simp [parked])
    · exact others d here
  constructor
  · intro p
    rw [thread]
    exact locking.threads p
  · intro d
    rw [calls d]
    exact locking.handlers d
  · intro d l
    rw [sched_holder moved l, lock d]
    exact locking.holds d l

variable {phase : Phase}

theorem switch_holder (moved : SwitchMove s c p phase t) (l : Lock) : holder t l = holder s l := by
  cases moved <;> cases l <;> rfl

theorem Settled.turn (settled : Settled thread)
    (unlocked : threadLock thread = none) (entered : resumeOf phase ≠ some .forkret) :
    Settled { thread with phase := phase } where
  tidy := settled.tidy
  parked _ := unlocked
  started again := absurd again entered

theorem Settled.entered (settled : Settled thread)
    (out : ∀ resume, thread.phase ≠ .parked resume) : resumeOf thread.phase ≠ some .forkret := by
  intro first
  have fresh := settled.started first
  exact out .forkret (by rw [fresh]; rfl)

theorem settled_forkret (first : Bool) : Settled ⟨.usertrapret, forkretCalls first, .running, 0⟩ := by
  constructor
  · cases first <;> simp [forkretCalls, Tidy, held, baseLock]
  · exact fun moved => absurd rfl moved
  · exact fun moved => by cases moved

theorem switch_phase (moved : SwitchMove s c p (s.thread p).phase t) : (s.thread p).phase ≠ .running := by
  intro running
  rw [running] at moved
  cases moved

theorem switch_thread (moved : SwitchMove s c p (s.thread p).phase t)
    (settled : Settled (s.thread p)) (switching : (s.thread p).phase ≠ .running) :
    Settled (t.thread p) ∧ threadLock (t.thread p) = none ∧ ∀ r, r ≠ p → t.thread r = s.thread r := by
  have unlocked := settled.parked switching
  generalize before : (s.thread p).phase = phase at moved
  cases moved with
  | ready =>
    simp only [Sys.setThread_thread, update_self]
    exact ⟨settled.turn unlocked (by simp [resumeOf]), unlocked, fun r other => update_of_ne other ..⟩
  | save resume held _ _ =>
    have entered := settled.entered (by simp [before])
    rw [before] at entered
    simp only [Sys.setThread_thread, update_self]
    exact ⟨settled.turn unlocked entered, unlocked, fun r other => update_of_ne other ..⟩
  | load resume =>
    have entered := settled.entered (by simp [before])
    rw [before] at entered
    simp only [Sys.setCpu_thread, Sys.setThread_thread, update_self]
    exact ⟨settled.turn unlocked entered, unlocked, fun r other => update_of_ne other ..⟩
  | resume resume held _ =>
    simp only [Sys.setThread_thread, update_self]
    refine ⟨?_, ?_, fun r other => update_of_ne other ..⟩
    all_goals by_cases first : resume = .forkret
    · have fresh := settled.started (by rw [before, first]; rfl)
      rw [if_pos first, fresh]
      exact settled_forkret s.first
    · rw [if_neg first]
      exact settled.turn unlocked (by simp [resumeOf])
    · have fresh := settled.started (by rw [before, first]; rfl)
      rw [if_pos first, fresh]
      cases s.first <;> rfl
    · rw [if_neg first]
      exact unlocked

theorem switch_cur (moved : SwitchMove s c p phase t) :
    (t.cpu c).cur = (s.cpu c).cur ∨ (t.cpu c).cur = none := by
  cases moved with
  | load _ => exact Or.inr (by simp)
  | _ => exact Or.inl rfl

theorem locking_switch (inv : Coherent s) (locking : Locking s)
    (on : (s.cpu c).cur = some p) (moved : SwitchMove s c p (s.thread p).phase t)
    (others : ∀ d, d ≠ c → lockOf t d = lockOf s d) : Locking t := by
  have switching := switch_phase moved
  obtain ⟨settled, unlocked, rest⟩ := switch_thread moved (locking.threads p) switching
  have calls := switch_calls moved
  have quiet : (s.cpu c).calls = [] := by
    by_contra busy
    have free := (inv.owned.handler c busy).1
    obtain ⟨⟨_, loc⟩, -⟩ := inv.owned.active c p on
    rw [loc] at free
    cases free
  constructor
  · intro r
    by_cases here : r = p
    · rw [here]
      exact settled
    · rw [rest r here]
      exact locking.threads r
  · intro d
    rw [calls d]
    exact locking.handlers d
  · intro d l
    rw [switch_holder moved l, locking.holds d l]
    by_cases here : d = c
    · subst here
      have before : lockOf s d = none := by
        simpa [lockOf, on] using (locking.threads p).parked switching
      have after : lockOf t d = none := by
        rcases switch_cur moved with same | left
        · simpa [lockOf, same, on] using unlocked
        · simp [lockOf, left, calls, quiet, held]
      rw [before, after]
    · rw [others d here]

theorem locking_move (inv : Coherent s) (moved : Move s c t) (locking : Locking s) : Locking t := by
  have others : ∀ d, d ≠ c → lockOf t d = lockOf s d := fun d other => lockOf_others inv moved other
  cases moved with
  | interruptIdle cause off idle quiet =>
    refine locking_idle .nop locking idle trivial rfl rfl ?_ ?_ others
    · cases cause <;> simp [handler, Tidy, held, callLock]
    · cases cause <;> simp [quiet, handler, LockStep, lockEffect, held, callLock]
  | interruptUser cause p off on running user quiet =>
    have unlocked : threadLock (s.thread p) = none := by
      simpa [lockOf, on] using locking.unlocked off
    have tidy := (locking.threads p).tidy
    simp only [threadLock, user] at unlocked tidy
    refine locking_thread .nop inv locking on running trivial rfl rfl ?_ ?_ ?_ others
    · cases cause <;> exact ⟨unlocked, tidy⟩
    · cases cause <;> simp_all [handler, LockStep, lockEffect, threadLock, held, callLock]
    · simp [leaves]
  | interruptKernel cause p off on running kernel enabled quiet =>
    have unlocked : threadLock (s.thread p) = none := by
      simpa [lockOf, on] using locking.unlocked off
    have tidy := (locking.threads p).tidy
    refine locking_thread .nop inv locking on running trivial rfl rfl ?_ ?_ ?_ others
    · cases cause <;> exact ⟨rfl, unlocked, tidy⟩
    · cases cause <;> simp_all [handler, LockStep, lockEffect, threadLock, held, callLock]
    · simp [leaves]
  | sched t idle quiet step => exact locking_sched inv locking idle quiet step others
  | switch p t on step => exact locking_switch inv locking on step others
  | idleCall call rest choice result u idle top next done =>
    have nobody := (inv.myproc (c := c) (Or.inr (by simp [top]))).trans idle
    have tidy := locking.handlers c
    rw [top] at tidy
    have orderly := callStep_lock tidy next
    refine locking_idle result.op locking idle (inv.handler_legal top next) (callStep_handler nobody next).1
      done orderly.tidy ?_ others
    rw [top]
    exact orderly.lock
  | call p call rest choice result u on running top next done =>
    have legal := inv.call_legal on top next
    have tidy := (locking.threads p).tidy
    rw [top] at tidy
    have orderly := callStep_lock tidy next
    have base : (u.thread p).base = (s.thread p).base := by
      rcases apply_thread legal done p with same | ⟨alloc, -⟩ | ⟨-, -, resume, -, after⟩
      · rw [same]
      · rw [alloc] at legal
        exact absurd legal (cur_live inv on)
      · rw [after]
    refine locking_thread result.op inv locking on running legal done rfl ?_ ?_ ?_ others
    · rw [base]
      exact orderly.tidy
    · simp only [threadLock, base, top]
      exact orderly.lock
    · simp only [base]
      exact orderly.left
  | base p choice base op _ u on running empty next done =>
    obtain ⟨tidy, lock, left⟩ := baseStep_lock next
    refine locking_thread op inv locking on running (baseStep_legal on next) done rfl tidy ?_ left others
    simpa [threadLock, empty, held] using lock

theorem Locking.exiting (locking : Locking s) {l : Lock}
    (base : baseLock (s.thread p).base = some l) : threadLock (s.thread p) = some l := by
  have tidy := (locking.threads p).tidy
  rw [base] at tidy
  simp only [threadLock, base]
  exact tidy_held tidy

theorem Locking.held (locking : Locking s) {l : Lock} (on : (s.cpu c).cur = some p)
    (lock : threadLock (s.thread p) = some l) : holder s l = some c := by
  apply (locking.holds c l).mpr
  simpa only [lockOf, on] using lock

theorem locking_reachable (reachable : Reachable (kernel C) s) : Locking s :=
  invariant_over locking_boot (fun _ _ _ inv moved locking => locking_move inv moved locking) reachable

/-- A CPU has a lock exactly from its `acquire` to its `release`; no process is switched out in between. -/
theorem locks_balanced (run : Run (kernel C) s) : (∀ c l, holder s l = some c ↔ lockOf s c = some l) ∧
    ∀ p, (s.thread p).phase ≠ .running → threadLock (s.thread p) = none := by
  have locking := locking_reachable ⟨run⟩
  exact ⟨locking.holds, fun p => (locking.threads p).parked⟩

end Xv6Monitor.Process.Holding
