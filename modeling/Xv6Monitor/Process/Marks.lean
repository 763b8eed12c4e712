import Xv6Monitor.Process.Clock
import Xv6Monitor.Process.Holding

/-! Positions inside a critical section. What a section has done so far can be read off the stack
of the CPU that executes it; as a lock has one holder, there is at most one such position
in the system, and only the steps of that CPU change it. -/

namespace Xv6Monitor.Process.Marks
open Table Machine Step Moves Lifecycle Children Invariant Clock Locks Holding Stacks

variable {C : Nat} {s t u : Sys C} {c d : Fin C}

/-- The stack that a CPU executes. The handlers above the scheduler loop have no process. -/
structure Frame where
  who : Option Slot
  base : Base
  calls : List Call

def frameOf (s : Sys C) (c : Fin C) : Frame :=
  match (s.cpu c).cur with
  | none => ⟨none, .user, (s.cpu c).calls⟩
  | some p => ⟨some p, (s.thread p).base, (s.thread p).calls⟩

theorem frame_idle (idle : (s.cpu c).cur = none) : frameOf s c = ⟨none, .user, (s.cpu c).calls⟩ := by
  rw [frameOf, idle]

theorem frame_active {p : Slot} (on : (s.cpu c).cur = some p) :
    frameOf s c = ⟨some p, (s.thread p).base, (s.thread p).calls⟩ := by
  rw [frameOf, on]

theorem frame_who {p : Slot} (who : (frameOf s c).who = some p) :
    (s.cpu c).cur = some p ∧ (s.thread p).base = (frameOf s c).base := by
  unfold frameOf at who ⊢
  cases on : (s.cpu c).cur with
  | none =>
    rw [on] at who
    cases who
  | some _ =>
    rw [on] at who
    cases who
    exact ⟨rfl, rfl⟩

theorem frame_lock (s : Sys C) (c : Fin C) :
    lockOf s c = held (baseLock (frameOf s c).base) (frameOf s c).calls := by
  unfold lockOf frameOf
  cases (s.cpu c).cur <;> rfl

theorem frame_tidy (locking : Locking s) (c : Fin C) :
    Tidy (baseLock (frameOf s c).base) (frameOf s c).calls := by
  unfold frameOf
  split
  next => exact locking.handlers c
  next p _ => exact (locking.threads p).tidy

theorem frame_others (inv : Coherent s) (moved : Move s c t) (other : d ≠ c) : frameOf t d = frameOf s d := by
  unfold frameOf
  rw [move_others moved other]
  cases on : (s.cpu d).cur with
  | none => rfl
  | some _ =>
    obtain ⟨base, calls⟩ := stack_others inv moved other on
    simp only [base, calls]

section Marker

variable {l : Lock} {β : Type}

section Calls

variable {below : Option Lock} {pick : Call → Option β} (own : ∀ call x, pick call = some x → callLock call = some l)

include own

theorem pick_lock {calls : List Call} {x : β} (tidy : Tidy below calls) (found : calls.findSome? pick = some x) :
    held below calls = some l := by
  induction calls with
  | nil => cases found
  | cons call _ ih =>
    have deeper := ih (tidy_rest tidy)
    rw [List.findSome?_cons] at found
    cases here : pick call with
    | some y =>
      have lock := own call y here
      cases call <;> first
        | exact lock
        | cases lock
    | none =>
      rw [here] at found
      cases call <;> first
        | exact deeper found
        | (have free := tidy.1
           rw [deeper found] at free
           cases free)

theorem pick_rest {call : Call} {rest : List Call} (tidy : Tidy below (call :: rest))
    (plain : ∀ chan k, call ≠ .wakeup chan k) : rest.findSome? pick = none := by
  have free := tidy_plain tidy plain
  cases found : rest.findSome? pick with
  | none => rfl
  | some _ =>
    rw [pick_lock own (tidy_rest tidy) found] at free
    cases free

end Calls

/-- A way to read a position off a stack that holds `l`. -/
structure Marker (l : Lock) (β : Type) where
  find : Frame → Option β
  locked : ∀ frame x, Tidy (baseLock frame.base) frame.calls → find frame = some x →
    held (baseLock frame.base) frame.calls = some l

def Marker.current (m : Marker l β) (s : Sys C) : Option β := (holder s l).bind fun c => m.find (frameOf s c)

variable (m : Marker l β)

theorem Marker.holds (locking : Locking s) {x : β} (found : m.find (frameOf s c) = some x) :
    holder s l = some c := by
  apply (locking.holds c l).mpr
  rw [frame_lock]
  exact m.locked _ x (frame_tidy locking c) found

theorem Marker.current_iff (locking : Locking s) {x : β} :
    m.current s = some x ↔ ∃ c, m.find (frameOf s c) = some x := by
  unfold Marker.current
  rw [Option.bind_eq_some_iff]
  constructor
  · rintro ⟨c, -, found⟩
    exact ⟨c, found⟩
  · rintro ⟨c, found⟩
    exact ⟨c, m.holds locking found, found⟩

theorem Marker.current_some (locking : Locking s) {x : β} (found : m.find (frameOf s c) = some x) :
    m.current s = some x :=
  (m.current_iff locking).mpr ⟨c, found⟩

theorem Marker.current_own (mine : holder s l = some c) : m.current s = m.find (frameOf s c) := by
  rw [Marker.current, mine]
  rfl

theorem Marker.current_none (free : holder s l = none) : m.current s = none := by
  rw [Marker.current, free]
  rfl

theorem Marker.unlocked (locking : Locking s) (free : lockOf s c = none) : m.find (frameOf s c) = none := by
  cases found : m.find (frameOf s c) with
  | none => rfl
  | some x =>
    have lock := m.locked _ x (frame_tidy locking c) found
    rw [← frame_lock, free] at lock
    cases lock

theorem Marker.current_move (inv : Coherent s) (locking : Locking s) (moved : Move s c t)
    (same : m.find (frameOf t c) = m.find (frameOf s c)) : m.current t = m.current s := by
  apply Option.ext
  intro x
  rw [m.current_iff locking, m.current_iff (locking_move inv moved locking)]
  refine exists_congr fun d => ?_
  by_cases here : d = c
  · rw [here, same]
  · rw [frame_others inv moved here]

theorem Marker.current_left (inv : Coherent s) (locking : Locking s) (moved : Move s c t) {x : β}
    (before : m.find (frameOf s c) = some x) (after : m.find (frameOf t c) = none) : m.current t = none := by
  refine Option.eq_none_iff_forall_ne_some.mpr fun y found => ?_
  obtain ⟨d, found⟩ := (m.current_iff (locking_move inv moved locking)).mp found
  by_cases here : d = c
  · rw [here, after] at found
    cases found
  · rw [frame_others inv moved here] at found
    exact here (Option.some.inj ((m.holds locking found).symm.trans (m.holds locking before)))

end Marker

/-- A step with the code it executes. In the first case the CPU holds no global lock and changes
nothing but stacks, scheduler positions and the entry of a process that it switches. -/
inductive Progress (s : Sys C) (c : Fin C) (t : Sys C) : Prop where
  | rest (unlocked : lockOf s c = none) (holders : ∀ l, holder t l = holder s l) (ticks : t.ticks = s.ticks)
      (metrics : t.totalTurnaroundTime = s.totalTurnaroundTime ∧
        t.totalWaitingTimeSum = s.totalWaitingTimeSum ∧ t.finishedProcesses = s.finishedProcesses)
      (entries : ∀ q, Turned s.ticks (s.proc q) (t.proc q))
  | call (who : Option Slot) (base : Base) (call : Call) (rest : List Call) (choice : Choice)
      (result : Section) (u : Sys C) (before : frameOf s c = ⟨who, base, call :: rest⟩)
      (after : frameOf t c = ⟨who, base, result.calls ++ rest⟩)
      (next : callStep s c call choice = some result) (done : result.op.apply s c = some u)
      (shared : t = { u with cpu := t.cpu, thread := t.thread })
  | base (p : Slot) (base next : Base) (choice : Choice) (op : Op) (calls : List Call) (u : Sys C)
      (before : frameOf s c = ⟨some p, base, []⟩) (after : frameOf t c = ⟨some p, next, calls⟩)
      (next : baseStep s p base choice = some (next, op, calls)) (done : op.apply s c = some u)
      (shared : t = { u with cpu := t.cpu, thread := t.thread })

theorem sched_metrics (moved : SchedMove s c t) : t.totalTurnaroundTime = s.totalTurnaroundTime ∧
    t.totalWaitingTimeSum = s.totalWaitingTimeSum ∧ t.finishedProcesses = s.finishedProcesses := by
  cases moved with
  | scanTake _ _ cand _ _ _ _ => cases cand <;> exact ⟨rfl, rfl, rfl⟩
  | _ => exact ⟨rfl, rfl, rfl⟩

theorem switch_metrics {p : Slot} {phase : Phase} (moved : SwitchMove s c p phase t) :
    t.totalTurnaroundTime = s.totalTurnaroundTime ∧
    t.totalWaitingTimeSum = s.totalWaitingTimeSum ∧ t.finishedProcesses = s.finishedProcesses := by
  cases moved <;> exact ⟨rfl, rfl, rfl⟩

theorem move_progress (inv : Coherent s) (locking : Locking s) (moved : Move s c t) : Progress s c t := by
  cases moved with
  | interruptIdle cause off idle quiet =>
    exact .rest (locking.unlocked off) (fun _ => rfl) rfl ⟨rfl, rfl, rfl⟩ fun q => Or.inl rfl
  | interruptUser cause p off on running _ quiet =>
    exact .rest (locking.unlocked off) (fun _ => rfl) rfl ⟨rfl, rfl, rfl⟩ fun q => Or.inl rfl
  | interruptKernel cause p off on running _ _ quiet =>
    exact .rest (locking.unlocked off) (fun _ => rfl) rfl ⟨rfl, rfl, rfl⟩ fun q => Or.inl rfl
  | sched t idle quiet moved =>
    refine .rest ?_ (sched_holder moved) (sched_shared moved).1 (sched_metrics moved) fun q =>
      (sched_entry inv.owned moved q).imp_right Or.inl
    simp [lockOf, idle, quiet, held]
  | switch p t on moved =>
    refine .rest ?_ (switch_holder moved) (switch_shared moved).1 (switch_metrics moved) fun q =>
      (switch_entry inv.owned on moved q).imp_right Or.inr
    simpa [lockOf, on] using (locking.threads p).parked (switch_phase moved)
  | idleCall call rest choice result u idle top next done =>
    refine .call none .user call rest choice result u (by rw [frame_idle idle, top]) ?_ next done rfl
    rw [frame_idle (by simp [apply_cpu done, idle])]
    simp
  | call p call rest choice result u on running top next done =>
    have legal := inv.call_legal on top next
    refine .call (some p) (s.thread p).base call rest choice result u (by rw [frame_active on, top]) ?_ next
      done rfl
    rw [frame_active (p := p) (by simp [apply_cpu done, on])]
    have base : (u.thread p).base = (s.thread p).base := by
      rcases apply_thread legal done p with same | ⟨alloc, -⟩ | ⟨-, -, resume, -, after⟩
      · rw [same]
      · rw [alloc] at legal
        exact absurd legal (cur_live inv on)
      · rw [after]
    simp [base]
  | base p choice base op calls u on running empty next done =>
    refine .base p (s.thread p).base base choice op calls u (by rw [frame_active on, empty]) ?_ next done rfl
    rw [frame_active (p := p) (by simp [apply_cpu done, on])]
    simp

theorem Marker.current_rest {l : Lock} {β : Type} (m : Marker l β) (inv : Coherent s) (locking : Locking s)
    (moved : Move s c t) (unlocked : lockOf s c = none) (holders : ∀ l, holder t l = holder s l) :
    m.current t = m.current s := by
  have locking' := locking_move inv moved locking
  have after : lockOf t c = none := by
    rw [← unlocked]
    apply Option.ext
    intro l
    rw [← locking.holds c l, ← locking'.holds c l, holders l]
  exact m.current_move inv locking moved (by rw [m.unlocked locking' after, m.unlocked locking unlocked])

end Xv6Monitor.Process.Marks
