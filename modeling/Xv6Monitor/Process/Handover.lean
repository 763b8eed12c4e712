import Xv6Monitor.Process.Ownership
import Xv6Monitor.Process.Lifecycle

/-! Every move of the machine keeps the ownership of processes: the scheduler's scans, the
switches in both directions, and the operations of the running threads. -/

namespace Xv6Monitor.Process.Handover
open Table Machine Moves Sections Ownership Lifecycle

variable {C : Nat} {s t u : Sys C} {v : View C} {c : Fin C}

theorem plock_ne_of_noff (off : s.noff c = 0) (q : Slot) : s.plock q ≠ some c := by
  unfold Sys.noff at off
  have none_held := (Nat.add_eq_zero_iff.mp off).1
  rw [List.countP_eq_zero] at none_held
  intro held
  exact none_held q (List.mem_finRange q) (by simpa using held)

variable {k : Nat} {p q old : Slot} {branch : Branch} {cursor : Option Nat}

section Scheduler

variable (owned : Owned v) (idle : (v.cpu c).cur = none) (quiet : (v.cpu c).calls = [])
include owned idle quiet

/-- The scheduler takes on, dispatches or gives up the process in slot `q`, which no other
CPU answers for. -/
theorem owned_take (q : Slot) (loc : SchedLoc) (state : Procstate) (lock : Option (Fin C)) (live : v.state q ≠ .unused)
    (mine : ∀ d, d ≠ c → Away (v.cpu d).loc q)
    (before : ∀ r, r ≠ q → targetOf (v.cpu c).loc ≠ some r)
    (after : ∀ r, r ≠ q → targetOf loc ≠ some r)
    (dispatched : state = .running → targetOf loc = some q)
    (fits : Idle (v.put q state lock) c loc) :
    Owned ((v.put q state lock).move c { v.cpu c with proc := targetOf loc, loc := loc }) := by
  have resting : ∃ resume, v.phase q = .parked resume := by
    apply owned.parked q live
    intro d on
    by_cases here : d = c
    · rw [here, idle] at on
      cases on
    · obtain ⟨⟨_, place⟩, -⟩ := owned.active d q on
      exact (mine d here).1 (by rw [place]; rfl)
  have result := owned_update owned c q { v.cpu c with proc := targetOf loc, loc := loc } state lock
    (v.phase q) mine (fun r other => iff_of_false (after r other) (before r other)) rfl
    (fun busy => absurd quiet busy) dispatched
    (fun r _ on => absurd (idle.symm.trans on) (by simp)) (fun _ _ => resting) (fun _ => fits)
    (fun p on => absurd (idle.symm.trans on) (by simp))
  exact View.turn_self (v.put q state lock) q ▸ result

theorem owned_candidate (branch : Branch) (loc : (v.cpu c).loc = .scan branch k none) (free : v.plock q = none)
    (ready : v.state q = .runnable) :
    Owned ((v.put q .runnable (some c)).move c
      { v.cpu c with proc := none, loc := .scan branch (q.val + 1) (some q) }) := by
  apply owned_take owned idle quiet q (.scan branch (q.val + 1) (some q))
  case live => rw [ready]; simp
  case mine => exact fun d _ => owned.unowned free (by rw [ready]; simp) d
  case before => simp [loc, targetOf]
  case after => simp [targetOf]
  case dispatched => simp
  case fits => simp [Idle, View.put]

theorem owned_release (loc : (v.cpu c).loc = .scan branch k (some old)) :
    Owned ((v.put old .runnable none).move c
      { v.cpu c with proc := none, loc := .scan branch k none }) := by
  obtain ⟨held, ready, -⟩ := owned.cand (c := c) (q := old) (by rw [loc]; rfl)
  apply owned_take owned idle quiet old (.scan branch k none)
  case live => rw [ready]; simp
  case mine => exact fun d other => owned.mine held other
  case before => simp [loc, targetOf]
  case after => simp [targetOf]
  case dispatched => simp
  case fits => simp [Idle]

theorem owned_exchange (loc : (v.cpu c).loc = .scan branch k (some old)) (free : v.plock q = none)
    (ready : v.state q = .runnable) :
    Owned (((v.put old .runnable none).put q .runnable (some c)).move c
      { v.cpu c with proc := none, loc := .scan branch (q.val + 1) (some q) }) := by
  have held := (owned.cand (c := c) (q := old) (by rw [loc]; rfl)).1
  have other : q ≠ old := by
    rintro rfl
    rw [free] at held
    cases held
  have dropped := owned_release owned idle quiet loc
  have taken := owned_candidate (c := c) (k := k) (q := q) dropped
    (by simp [View.move, idle]) (by simp [View.move, quiet]) branch (by simp [View.move])
    (by simp [View.move, View.put, other, free]) (by simp [View.move, View.put, other, ready])
  rw [View.move_put] at taken
  simpa [View.move] using taken

theorem owned_dispatch (cursor : Option Nat) (ready : v.state q = .runnable)
    (mine : ∀ d, d ≠ c → Away (v.cpu d).loc q)
    (before : targetOf (v.cpu c).loc = none) :
    Owned ((v.put q .running (some c)).move c
      { v.cpu c with proc := some q, loc := .swtchIn cursor q }) := by
  apply owned_take owned idle quiet q (.swtchIn cursor q)
  case live => rw [ready]; simp
  case mine => exact mine
  case before => simp [before]
  case after => exact fun r other same => other (Option.some.inj same).symm
  case dispatched => exact fun _ => rfl
  case fits => simp [Idle, View.put]

theorem owned_enter (loc : (v.cpu c).loc = .swtchIn cursor p) :
    (∃ resume, v.phase p = .parked resume) ∧
    Owned (v.move c { v.cpu c with cur := some p, loc := .swtchOut cursor p }) := by
  have here := owned.idle c idle
  rw [loc] at here
  have resting : ∃ resume, v.phase p = .parked resume := by
    apply owned.parked p (by rw [here.2]; simp)
    intro d on
    obtain ⟨⟨_, place⟩, -⟩ := owned.active d p on
    have same := owned.unique d c p (by rw [place]; rfl) (by rw [loc]; rfl)
    rw [same, idle] at on
    cases on
  refine ⟨resting, ?_⟩
  obtain ⟨resume, parked⟩ := resting
  apply owned_cursor owned c
  case kept =>
    intro r
    rw [loc]
    rfl
  case named =>
    rw [owned.named c, loc]
    rfl
  case handler => exact fun busy => absurd quiet busy
  case stays => exact fun r on => absurd (idle.symm.trans on) (by simp)
  case idle => exact fun off => by cases off
  case active =>
    intro r on
    cases on
    refine ⟨⟨cursor, rfl⟩, ?_⟩
    rw [parked]
    exact ⟨here.2, here.1⟩

theorem owned_back (loc : (v.cpu c).loc = .swtchOut cursor p) :
    Owned ((v.put p (v.state p) none).move c { v.cpu c with proc := none, loc := afterSwtch cursor }) := by
  have here := owned.idle c idle
  rw [loc] at here
  have target : targetOf (afterSwtch cursor) = none := by cases cursor <;> rfl
  have result := owned_take owned idle quiet p (afterSwtch cursor) (v.state p) none
  rw [target] at result
  apply result
  case live =>
    intro unused
    simp [Idle, Left, unused] at here
  case mine => exact fun d other => owned.mine here.1 other
  case before =>
    intro r other
    rw [loc]
    exact fun same => other (Option.some.inj same).symm
  case after => simp
  case dispatched =>
    intro running
    simp [Idle, Left, running] at here
  case fits => cases cursor <;> trivial

end Scheduler

variable (owned : Owned (view s))
include owned

theorem unburdened (off : s.noff c = 0) (idle : (s.cpu c).cur = none) :
    targetOf (s.cpu c).loc = none ∧ candOf (s.cpu c).loc = none := by
  constructor
  · by_contra burden
    obtain ⟨q, target⟩ := Option.ne_none_iff_exists'.mp burden
    rcases owned.target target with mine | running
    · exact plock_ne_of_noff off q mine.1
    · exact absurd (idle.symm.trans running.2.2) (by simp)
  · by_contra burden
    obtain ⟨q, cand⟩ := Option.ne_none_iff_exists'.mp burden
    exact plock_ne_of_noff off q (owned.cand cand).1

theorem owned_calls (free : targetOf (s.cpu c).loc = none ∧ candOf (s.cpu c).loc = none) (calls : List Call) :
    Owned (view (s.setCpu c { s.cpu c with calls := calls })) := by
  apply owned_cursor owned c
  case kept => exact fun r => Iff.rfl
  case named => exact owned.named c
  case handler => exact fun _ => free
  case stays => exact fun r cur => cur
  case idle => exact owned.idle c
  case active => exact owned.active c

theorem owned_loc (idle : (s.cpu c).cur = none) (quiet : (s.cpu c).calls = []) (loc : SchedLoc)
    (target : targetOf loc = targetOf (s.cpu c).loc)
    (fits : Idle (view s) c loc) : Owned (view (s.setCpu c { s.cpu c with loc := loc })) := by
  apply owned_cursor owned c
  case kept =>
    intro r
    rw [target]
    rfl
  case named =>
    rw [target]
    exact owned.named c
  case handler => exact fun busy => absurd quiet busy
  case stays => exact fun r cur => cur
  case idle => exact fun _ => fits
  case active => exact fun p on => absurd (idle.symm.trans on) (by simp)

omit owned

theorem owned_sched (owned : Owned (view s)) (idle : (s.cpu c).cur = none)
    (quiet : (s.cpu c).calls = []) (moved : SchedMove s c t) : Owned (view t) := by
  have here := owned.idle c idle
  have named := owned.named c
  cases moved with
  | reread loc =>
    apply owned_loc owned idle quiet <;> cases s.schedMode <;> simp [branchOf, loc, targetOf, Idle]
  | passEnd k loc last => apply owned_loc owned idle quiet <;> simp [loc, targetOf, Idle]
  | passSkip q loc free other => apply owned_loc owned idle quiet <;> simp [loc, targetOf, Idle]
  | scanNone branch k loc last => apply owned_loc owned idle quiet <;> simp [loc, targetOf, Idle]
  | scanSkip branch q cand loc free _ =>
    apply owned_loc owned idle quiet
    · simp [loc, targetOf]
    · intro r found
      rw [view_cpu, loc] at here
      obtain ⟨held, ready, passed⟩ := here r found
      exact ⟨held, ready, Nat.lt_succ_of_lt passed⟩
  | passDispatch q loc free ready =>
    have result := owned_dispatch owned idle quiet (some q.val) ready
      (fun d _ => owned.unowned free (by simp [ready]) d) (by simp [loc, targetOf])
    simpa [Proc.dispatch] using result
  | scanTake branch q cand loc free ready _ =>
    have free_cpu : (s.cpu c).proc = none := by
      simpa [loc, targetOf] using named
    cases cand with
    | none =>
      have result := owned_candidate owned idle quiet branch loc free ready
      simpa [dropCand, ready, free_cpu] using result
    | some old =>
      have result := owned_exchange owned idle quiet loc free ready
      have was := (owned.cand (c := c) (q := old) (by simp [loc, candOf])).2.1
      rw [view_state] at was
      simpa [dropCand, ready, was, free_cpu] using result
  | scanDispatch branch k q loc last =>
    obtain ⟨held, ready, -⟩ := owned.cand (c := c) (q := q) (by simp [loc, candOf])
    have result := owned_dispatch owned idle quiet none ready (fun d other => owned.mine held other)
      (by simp [loc, targetOf])
    rw [view_plock] at held
    simpa [Proc.dispatch, held] using result
  | swtchIn cursor p loc => exact (owned_enter owned idle quiet loc).2
  | swtchOut cursor p loc held =>
    have result := owned_back owned idle quiet loc
    simpa using result

theorem owned_self (owned : Owned v) (on : (v.cpu c).cur = some p) (state : Procstate)
    (lock : Option (Fin C)) (phase : Phase) (fits : Fits (v.put p state lock) c p phase) :
    Owned ((v.put p state lock).turn p phase) := by
  obtain ⟨⟨cursor, loc⟩, _⟩ := owned.active c p on
  have target : targetOf (v.cpu c).loc = some p := by rw [loc]; rfl
  have mine : ∀ d, d ≠ c → Away (v.cpu d).loc p := by
    intro d other
    refine ⟨fun target' => other (owned.unique d c p target' target), fun cand => ?_⟩
    obtain ⟨held, _, -⟩ := owned.cand cand
    rcases owned.target target with mine | running
    · exact other (Option.some.inj (held.symm.trans mine.1))
    · simp [held] at running
  have result := owned_update owned c p (v.cpu c) state lock phase mine (fun r other => Iff.rfl)
    (owned.named c) (owned.handler c) (fun _ => target)
    (fun r _ cur => cur) (fun _ away => absurd on away) (fun idle => absurd (idle.symm.trans on) (by simp))
  simp only [View.move, View.turn, View.put, Function.update_eq_self] at result ⊢
  apply result
  intro r cur
  obtain rfl := Option.some.inj (on.symm.trans cur)
  refine ⟨⟨cursor, loc⟩, ?_⟩
  rw [Function.update_self]
  exact fits

theorem owned_park (owned : Owned v) {resume : Resume} (on : (v.cpu c).cur = some p)
    (phase : v.phase p = .swtch resume) :
    Owned ((v.turn p (.parked resume)).move c { v.cpu c with cur := none }) := by
  obtain ⟨⟨_, loc⟩, before⟩ := owned.active c p on
  rw [phase] at before
  have target : targetOf (v.cpu c).loc = some p := by rw [loc]; rfl
  have result := owned_update owned c p { v.cpu c with cur := none } (v.state p) (v.plock p)
    (.parked resume) (fun d other => owned.mine before.2 other) (fun r other => Iff.rfl)
    (owned.named c) (owned.handler c) (fun _ => target)
    (fun r other cur => absurd (Option.some.inj (cur.symm.trans on)) other)
    (fun _ _ => ⟨resume, rfl⟩)
  rw [View.put_self] at result
  apply result
  · intro _
    rw [loc]
    exact ⟨before.2, before.1⟩
  · intro r cur
    cases cur

include owned

theorem owned_switch (on : (s.cpu c).cur = some p)
    (moved : SwitchMove s c p (s.thread p).phase t) : Owned (view t) := by
  obtain ⟨-, fits⟩ := owned.active c p on
  rw [view_phase] at fits
  generalize phase : (s.thread p).phase = ph at moved fits
  cases moved with
  | ready =>
    have result := owned_self owned on .runnable (s.plock p) (.sched .yield) ⟨by simp [View.put, Left],
      by simpa [View.put] using fits.2⟩
    simpa [Proc.makeRunnable] using result
  | save resume held _ _ =>
    have result := owned_self owned on (s.proc p).state (s.plock p) (.swtch resume)
    rw [← view_state, ← view_plock, View.put_self] at result
    rw [view_setThread]
    exact result fits
  | load resume =>
    rw [view_setCpu, view_setThread]
    exact owned_park owned on phase
  | resume resume held _ =>
    have state : (wokenEntry resume (s.proc p)).state = .running := by
      have running : (s.proc p).state = .running := fits.1
      cases resume <;> exact running
    have result := owned_self owned on .running none .running (by simp [Fits, View.put])
    simpa [state] using result

theorem executing_of_owned
    (running : ∀ p, (s.cpu c).cur = some p → (s.thread p).phase = .running) : Executing s c := by
  intro p on
  obtain ⟨-, fits⟩ := owned.active c p on
  rw [view_phase, running p on] at fits
  exact fits

theorem owned_leave (same : view u = view s) {entry : Proc}
    {resume : Resume} (on : (s.cpu c).cur = some p) (left : Left entry.state) :
    Owned (view (u.leave c p entry resume)) := by
  have result := owned_self owned on entry.state (some c) (.sched resume) (by simp [Fits, View.put, left])
  simpa [Sys.leave, same] using result

omit owned

theorem owned_put (owned : Owned v) (state : Procstate)
    (away : ∀ d, Away (v.cpu d).loc q)
    (live : v.state q ≠ .unused) (after : state ≠ .running) :
    Owned (v.put q state none) := by
  apply owned_slot (q := q) (w := v.put q state none) owned rfl
  · intro r other
    simp [View.put, other]
  · exact away
  · simpa [View.put] using after
  intro _
  apply owned.parked q live
  intro d on
  obtain ⟨⟨_, loc⟩, -⟩ := owned.active d q on
  exact (away d).1 (by rw [loc]; rfl)

theorem owned_alloc (owned : Owned v) (resume : Resume)
    (unused : v.state q = .unused) : Owned ((v.put q .used (some c)).turn q (.parked resume)) := by
  apply owned_slot (q := q) (w := (v.put q .used (some c)).turn q (.parked resume)) owned rfl
  · intro r other
    simp [View.put, View.turn, other]
  · exact owned.unborn (Or.inl unused)
  · simp [View.put, View.turn]
  · intro _
    exact ⟨resume, by simp [View.turn]⟩

include owned

theorem owned_congr (proc : u.proc = s.proc) (plock : u.plock = s.plock)
    (cpu : u.cpu = s.cpu) (thread : u.thread = s.thread) : Owned (view u) := by
  have same : view u = view s := by simp only [view, proc, plock, cpu, thread]
  rw [same]
  exact owned

theorem owned_setProc {entry : Proc}
    (same : entry.state = (s.proc q).state) : Owned (view (s.setProc q entry)) := by
  rw [view_setProc, same, ← view_state, ← view_plock, View.put_self]
  exact owned

omit owned

theorem view_releaseFor (s : Sys C) (lk : SleepLock) : view (s.releaseFor lk) = view s := by
  cases lk <;> rfl

theorem owned_apply {op : Op} (owned : Owned (view s)) (executing : Executing s c)
    (legal : Legal s c op) (done : op.apply s c = some u) : Owned (view u) := by
  cases op <;> simp only [Op.apply, Option.some.injEq, Option.ite_none_right_eq_some] at done <;>
    (try obtain ⟨guard, rfl⟩ := done) <;> simp only [Legal] at legal
  case alloc q =>
    have result := owned_alloc (c := c) owned .forkret legal
    simp only [view_setThread, view_setLock, view_setProc, View.put_put, Sys.setProc_proc, Function.update_self]
    exact result
  case allocTime q =>
    have result := owned_put owned .used (owned.unborn (Or.inr legal)) (by simp [legal]) (by simp)
    simpa [Proc.allocTime, legal] using result
  case allocFail q late =>
    exact owned_setProc (s := { s with nextpid := s.nextpid + 1 }) owned legal.symm
  case forkRunnable q =>
    have result := owned_put owned .runnable (owned.unborn (Or.inr legal)) (by simp [legal]) (by simp)
    simpa [Proc.makeRunnable, guard] using result
  case wake q =>
    have result := owned_put owned .runnable (owned.unowned guard (by simp [legal])) (by simp [legal]) (by simp)
    simpa [Proc.makeRunnable, guard] using result
  case reap q =>
    have result := owned_put owned .unused (owned.unowned guard.1 (by simp [legal])) (by simp [legal]) (by simp)
    rw [← guard.1] at result
    rw [view_setProc]
    exact result
  case kill q =>
    by_cases asleep : (s.proc q).state = .sleeping
    · have result := owned_put owned .runnable (owned.unowned guard (by simp [asleep])) (by simp [asleep]) (by simp)
      simpa [Proc.kill, Proc.makeRunnable, asleep, guard] using result
    · exact owned_setProc owned (by simp [asleep])
  case yield p =>
    have result := owned_self owned legal .running (some c) .yielding (by simp [Fits, View.put])
    simpa [(executing p legal).1] using result
  case sleep p chan lk => exact owned_leave owned (view_releaseFor s lk) legal trivial
  case zombie p status => exact owned_leave (u := { s with waitLock := none }) owned rfl legal trivial
  all_goals first
    | exact owned_congr owned rfl rfl rfl rfl
    | exact owned_setProc owned rfl

end Xv6Monitor.Process.Handover
