import Xv6Monitor.Process.Step

/-! What a step can do, said once. The relations below list the moves of the machine
with their guards and results; every invariant is proved from them. -/

namespace Xv6Monitor.Process.Moves
open Table Machine Step

variable {C : Nat} {s t : Sys C} {c : Fin C}

def branchOf : SchedMode → SchedLoc
  | .roundRobin => .roundRobin 0
  | .fcfs => .scan .fcfs 0 none
  | .priority => .scan .priority 0 none

def dropCand (s : Sys C) : Option Slot → Sys C
  | some old => s.setLock old none
  | none => s

def afterSwtch : Option Nat → SchedLoc
  | some k => .roundRobin (k + 1)
  | none => .top

inductive SchedMove (s : Sys C) (c : Fin C) : Sys C → Prop where
  | reread (loc : (s.cpu c).loc = .top) :
      SchedMove s c (s.setCpu c { s.cpu c with loc := branchOf s.schedMode })
  | passEnd (k : Nat) (loc : (s.cpu c).loc = .roundRobin k) (last : NPROC ≤ k) :
      SchedMove s c (s.setCpu c { s.cpu c with loc := .top })
  | passSkip (q : Slot) (loc : (s.cpu c).loc = .roundRobin q.val) (free : s.plock q = none)
      (idle : (s.proc q).state ≠ .runnable) :
      SchedMove s c (s.setCpu c { s.cpu c with loc := .roundRobin (q.val + 1) })
  | passDispatch (q : Slot) (loc : (s.cpu c).loc = .roundRobin q.val) (free : s.plock q = none)
      (ready : (s.proc q).state = .runnable) :
      SchedMove s c (((s.setLock q (some c)).setProc q ((s.proc q).dispatch s.ticks)).setCpu c
        { s.cpu c with proc := some q, loc := .swtchIn (some q.val) q })
  | scanSkip (branch : Branch) (q : Slot) (cand : Option Slot)
      (loc : (s.cpu c).loc = .scan branch q.val cand) (free : s.plock q = none)
      (worse : ¬((s.proc q).state = .runnable ∧
        ∀ old ∈ cand, branch.better (s.proc q) (s.proc old) = true)) :
      SchedMove s c (s.setCpu c { s.cpu c with loc := .scan branch (q.val + 1) cand })
  | scanTake (branch : Branch) (q : Slot) (cand : Option Slot)
      (loc : (s.cpu c).loc = .scan branch q.val cand) (free : s.plock q = none)
      (ready : (s.proc q).state = .runnable)
      (better : ∀ old ∈ cand, branch.better (s.proc q) (s.proc old) = true) :
      SchedMove s c (((dropCand s cand).setLock q (some c)).setCpu c
        { s.cpu c with loc := .scan branch (q.val + 1) (some q) })
  | scanNone (branch : Branch) (k : Nat) (loc : (s.cpu c).loc = .scan branch k none)
      (last : NPROC ≤ k) :
      SchedMove s c (s.setCpu c { s.cpu c with loc := .top })
  | scanDispatch (branch : Branch) (k : Nat) (q : Slot)
      (loc : (s.cpu c).loc = .scan branch k (some q)) (last : NPROC ≤ k) :
      SchedMove s c ((s.setProc q ((s.proc q).dispatch s.ticks)).setCpu c
        { s.cpu c with proc := some q, loc := .swtchIn none q })
  | swtchIn (cursor : Option Nat) (p : Slot) (loc : (s.cpu c).loc = .swtchIn cursor p) :
      SchedMove s c (s.setCpu c { s.cpu c with cur := some p, loc := .swtchOut cursor p })
  | swtchOut (cursor : Option Nat) (p : Slot) (loc : (s.cpu c).loc = .swtchOut cursor p)
      (held : s.plock p = some c) :
      SchedMove s c ((s.setLock p none).setCpu c
        { s.cpu c with proc := none, loc := afterSwtch cursor })

theorem slotAt_some {k : Nat} {q : Slot} (found : slotAt k = some q) : k = q.val := by
  unfold slotAt at found
  split at found
  · cases found
    rfl
  · cases found

theorem slotAt_none {k : Nat} (absent : slotAt k = none) : NPROC ≤ k := by
  unfold slotAt at absent
  split at absent
  · cases absent
  · omega

theorem slotAt_val (q : Slot) : slotAt q.val = some q := by
  unfold slotAt
  rw [dif_pos q.isLt]

theorem schedStep_move (moved : schedStep s c = some t) : SchedMove s c t := by
  unfold schedStep at moved
  simp only at moved
  split at moved
  next loc =>
    have same : t = s.setCpu c { s.cpu c with loc := branchOf s.schedMode } := by
      cases mode : s.schedMode <;> simp only [mode, Option.some.injEq] at moved <;> exact moved.symm
    rw [same]
    exact .reread loc
  next k loc =>
    split at moved
    next absent =>
      cases moved
      exact .passEnd k loc (slotAt_none absent)
    next q found =>
      obtain rfl := slotAt_some found
      obtain ⟨free, moved⟩ := Option.ite_none_right_eq_some.mp moved
      split at moved
      next ready =>
        cases moved
        exact .passDispatch q loc free ready
      next idle =>
        cases moved
        exact .passSkip q loc free idle
  next branch k cand loc =>
    split at moved
    next q found =>
      obtain rfl := slotAt_some found
      obtain ⟨free, moved⟩ := Option.ite_none_right_eq_some.mp moved
      split at moved
      next best =>
        have same : t = ((dropCand s cand).setLock q (some c)).setCpu c
            { s.cpu c with loc := .scan branch (q.val + 1) (some q) } := by
          cases cand <;> simp only [Option.some.injEq] at moved <;> exact moved.symm
        rw [same]
        exact .scanTake branch q cand loc free best.1 best.2
      next worse =>
        cases moved
        exact .scanSkip branch q cand loc free worse
    next absent =>
      split at moved
      next =>
        cases moved
        exact .scanNone branch k loc (slotAt_none absent)
      next q =>
        cases moved
        exact .scanDispatch branch k q loc (slotAt_none absent)
  next cursor p loc =>
    cases moved
    exact .swtchIn cursor p loc
  next cursor p loc =>
    split at moved
    next held =>
      have same : t = (s.setLock p none).setCpu c
          { s.cpu c with proc := none, loc := afterSwtch cursor } := by
        cases cursor <;> simp only [Option.some.injEq] at moved <;> exact moved.symm
      rw [same]
      exact .swtchOut cursor p loc held
    next => cases moved

/-- `sleep` clears the channel when it resumes. -/
def wokenEntry : Resume → Proc → Proc
  | .sleep, p => { p with chan := none }
  | _, p => p

def forkretCalls (first : Bool) : List Call := if first then [.fsinit] else []

/-- `swtch` away from a process, and the first section of the thread it switches to. -/
inductive SwitchMove (s : Sys C) (c : Fin C) (p : Slot) : Phase → Sys C → Prop where
  | ready :
      SwitchMove s c p .yielding ((s.setProc p ((s.proc p).makeRunnable s.ticks)).setThread p
        { s.thread p with phase := .sched .yield })
  | save (resume : Resume) (held : s.plock p = some c) (alone : s.noff c = 1)
      (left : (s.proc p).state ≠ .running) :
      SwitchMove s c p (.sched resume) (s.setThread p { s.thread p with phase := .swtch resume })
  | load (resume : Resume) :
      SwitchMove s c p (.swtch resume)
        ((s.setThread p { s.thread p with phase := .parked resume }).setCpu c
          { s.cpu c with cur := none })
  | resume (resume : Resume) (held : s.plock p = some c) (alive : resume ≠ .zombie) :
      SwitchMove s c p (.parked resume)
        (((s.setProc p (wokenEntry resume (s.proc p))).setLock p none).setThread p
          { s.thread p with
            phase := .running
            calls := if resume = .forkret then forkretCalls s.first else (s.thread p).calls })

theorem setProc_same (s : Sys C) (p : Slot) : s.setProc p (s.proc p) = s := by
  unfold Sys.setProc
  rw [Function.update_eq_self]

theorem switchStep_move {p : Slot} {phase : Phase} (moved : switchStep s c p phase = some t) :
    SwitchMove s c p phase t := by
  cases phase with
  | running => cases moved
  | yielding =>
    cases moved
    exact .ready
  | sched resume =>
    simp only [switchStep] at moved
    obtain ⟨checks, ⟨⟩⟩ := Option.ite_none_right_eq_some.mp moved
    exact .save resume checks.1 checks.2.1 checks.2.2
  | swtch resume =>
    cases moved
    exact .load resume
  | parked resume =>
    simp only [switchStep] at moved
    obtain ⟨held, moved⟩ := Option.ite_none_right_eq_some.mp moved
    cases resume with
    | forkret =>
      have result := SwitchMove.resume (s := s) (p := p) .forkret held (by simp)
      simp only [wokenEntry, setProc_same] at result
      cases moved
      exact result
    | yield =>
      have result := SwitchMove.resume (s := s) (p := p) .yield held (by simp)
      simp only [wokenEntry, setProc_same] at result
      cases moved
      exact result
    | sleep =>
      cases moved
      exact .resume .sleep held (by simp)
    | zombie => cases moved

/-- One step of CPU `c`. The last three moves perform an operation on the shared state and
then put the executing stack where the code continues. -/
inductive Move (s : Sys C) (c : Fin C) : Sys C → Prop where
  | interruptIdle (cause : Cause) (off : s.noff c = 0) (idle : (s.cpu c).cur = none)
      (quiet : (s.cpu c).calls = []) :
      Move s c (s.setCpu c { s.cpu c with calls := [handler cause, .kerneltrap cause] })
  | interruptUser (cause : Cause) (p : Slot) (off : s.noff c = 0) (on : (s.cpu c).cur = some p)
      (running : (s.thread p).phase = .running) (user : (s.thread p).base = .user)
      (quiet : ∀ call ∈ (s.thread p).calls, call.interrupt = false) :
      Move s c (s.setThread p { s.thread p with
        base := .usertrapTail cause, calls := handler cause :: (s.thread p).calls })
  | interruptKernel (cause : Cause) (p : Slot) (off : s.noff c = 0) (on : (s.cpu c).cur = some p)
      (running : (s.thread p).phase = .running) (kernel : (s.thread p).base ≠ .user)
      (enabled : (s.thread p).base.interruptible = true)
      (quiet : ∀ call ∈ (s.thread p).calls, call.interrupt = false) :
      Move s c (s.setThread p { s.thread p with
        calls := handler cause :: .kerneltrap cause :: (s.thread p).calls })
  | sched (t : Sys C) (idle : (s.cpu c).cur = none) (quiet : (s.cpu c).calls = [])
      (moved : SchedMove s c t) : Move s c t
  | switch (p : Slot) (t : Sys C) (on : (s.cpu c).cur = some p)
      (moved : SwitchMove s c p (s.thread p).phase t) : Move s c t
  | idleCall (call : Call) (rest : List Call) (choice : Choice) (result : Section) (u : Sys C)
      (idle : (s.cpu c).cur = none) (top : (s.cpu c).calls = call :: rest)
      (next : callStep s c call choice = some result) (done : result.op.apply s c = some u) :
      Move s c (u.setCpu c { u.cpu c with calls := result.calls ++ rest })
  | call (p : Slot) (call : Call) (rest : List Call) (choice : Choice) (result : Section)
      (u : Sys C) (on : (s.cpu c).cur = some p) (running : (s.thread p).phase = .running)
      (top : (s.thread p).calls = call :: rest)
      (next : callStep s c call choice = some result) (done : result.op.apply s c = some u) :
      Move s c (u.setThread p { u.thread p with
        calls := result.calls ++ rest, a0 := result.ret.getD (u.thread p).a0 })
  | base (p : Slot) (choice : Choice) (base : Base) (op : Op) (calls : List Call) (u : Sys C)
      (on : (s.cpu c).cur = some p) (running : (s.thread p).phase = .running)
      (empty : (s.thread p).calls = [])
      (next : baseStep s p (s.thread p).base choice = some (base, op, calls))
      (done : op.apply s c = some u) :
      Move s c (u.setThread p { u.thread p with base := base, calls := calls })

theorem interruptStep_move {cause : Cause} (moved : interruptStep s c cause = some t) :
    Move s c t := by
  unfold interruptStep at moved
  obtain ⟨off, moved⟩ := Option.ite_none_right_eq_some.mp moved
  split at moved
  next idle =>
    obtain ⟨quiet, ⟨⟩⟩ := Option.ite_none_right_eq_some.mp moved
    exact .interruptIdle cause off idle quiet
  next p on =>
    simp only [List.all_eq_true, Bool.not_eq_eq_eq_not] at moved
    obtain ⟨allowed, moved⟩ := Option.ite_none_right_eq_some.mp moved
    split at moved
    next user =>
      cases moved
      exact .interruptUser cause p off on allowed.1 user allowed.2.2
    next kernel =>
      cases moved
      exact .interruptKernel cause p off on allowed.1 kernel allowed.2.1 allowed.2.2

theorem idleStep_move {choice : Choice} (idle : (s.cpu c).cur = none)
    (moved : idleStep s c choice = some t) : Move s c t := by
  unfold idleStep at moved
  split at moved
  next quiet =>
    split at moved
    next => exact .sched t idle quiet (schedStep_move moved)
    next => cases moved
  next call rest top =>
    obtain ⟨result, next, moved⟩ := Option.bind_eq_some_iff.mp moved
    obtain ⟨u, done, rfl⟩ := Option.map_eq_some_iff.mp moved
    exact .idleCall call rest choice result u idle top next done

theorem threadStep_move {p : Slot} {choice : Choice} (on : (s.cpu c).cur = some p)
    (moved : threadStep s c p choice = some t) : Move s c t := by
  unfold threadStep at moved
  split at moved
  next running =>
    split at moved
    next empty =>
      obtain ⟨⟨base, op, calls⟩, next, moved⟩ := Option.bind_eq_some_iff.mp moved
      obtain ⟨u, done, rfl⟩ := Option.map_eq_some_iff.mp moved
      exact .base p choice base op calls u on running empty next done
    next call rest top =>
      obtain ⟨result, next, moved⟩ := Option.bind_eq_some_iff.mp moved
      obtain ⟨u, done, rfl⟩ := Option.map_eq_some_iff.mp moved
      exact .call p call rest choice result u on running top next done
  next =>
    split at moved
    next => exact .switch p t on (switchStep_move moved)
    next => cases moved

theorem step_move {action : Action C} (moved : step s action = some t) :
    Move s action.cpu t := by
  unfold step at moved
  split at moved
  next => exact interruptStep_move moved
  next => exact interruptStep_move moved
  next =>
    split at moved
    next idle => exact idleStep_move idle moved
    next on => exact threadStep_move on moved

end Xv6Monitor.Process.Moves
