import Xv6Monitor.Process.Sections

/-! Which CPU answers for a process. A CPU holds the lock of the candidate it carries
through a scan, of the process it is about to enter or has just left, and hands the
lock over to the thread it enters; while that thread runs, the lock is free and the
state is RUNNING. The invariant says this for every CPU, and that no process is
answered for twice. -/

namespace Xv6Monitor.Process.Ownership
open Function Table Machine

variable {C : Nat} {s t : Sys C} {c : Fin C}

structure View (C : Nat) where
  state : Slot → Procstate
  plock : Slot → Option (Fin C)
  cpu : Fin C → Cpu
  phase : Slot → Phase

@[simps] def view (s : Sys C) : View C where
  state := fun q => (s.proc q).state
  plock := s.plock
  cpu := s.cpu
  phase := fun q => (s.thread q).phase

namespace View

def put (v : View C) (q : Slot) (state : Procstate) (lock : Option (Fin C)) : View C :=
  { v with state := update v.state q state, plock := update v.plock q lock }

def move (v : View C) (c : Fin C) (cpu : Cpu) : View C :=
  { v with cpu := update v.cpu c cpu }

def turn (v : View C) (q : Slot) (phase : Phase) : View C :=
  { v with phase := update v.phase q phase }

variable (v : View C) (q : Slot)

@[simp] theorem put_put (state state' : Procstate) (lock lock' : Option (Fin C)) :
    (v.put q state lock).put q state' lock' = v.put q state' lock' := by
  simp only [put, update_idem]

@[simp] theorem put_self : v.put q (v.state q) (v.plock q) = v := by
  simp only [put, update_eq_self]

@[simp] theorem turn_self : v.turn q (v.phase q) = v := by
  simp only [turn, update_eq_self]

theorem move_put (c : Fin C) (cpu : Cpu) (state : Procstate) (lock : Option (Fin C)) :
    (v.move c cpu).put q state lock = (v.put q state lock).move c cpu :=
  rfl

end View

def Left : Procstate → Prop
  | .runnable | .sleeping | .zombie => True
  | _ => False

def candOf : SchedLoc → Option Slot
  | .scan _ _ cand => cand
  | _ => none

/-- The process whose lock or CPU time a scheduler position answers for. -/
def targetOf : SchedLoc → Option Slot
  | .swtchIn _ p | .swtchOut _ p => some p
  | _ => none

/-- The scheduler position does not answer for the process in slot `q`. -/
abbrev Away (loc : SchedLoc) (q : Slot) : Prop := targetOf loc ≠ some q ∧ candOf loc ≠ some q

/-- What the executing thread `p` of CPU `c` guarantees, by how far it is in a switch. -/
def Fits (v : View C) (c : Fin C) (p : Slot) : Phase → Prop
  | .running => v.state p = .running ∧ v.plock p = none
  | .yielding => v.state p = .running ∧ v.plock p = some c
  | .sched _ | .swtch _ => Left (v.state p) ∧ v.plock p = some c
  | .parked _ => v.state p = .running ∧ v.plock p = some c

def Idle (v : View C) (c : Fin C) : SchedLoc → Prop
  | .top | .roundRobin _ => True
  | .scan _ k cand => ∀ q ∈ cand, v.plock q = some c ∧ v.state q = .runnable ∧ q.val < k
  | .swtchIn _ p => v.plock p = some c ∧ v.state p = .running
  | .swtchOut _ p => v.plock p = some c ∧ Left (v.state p)

structure Owned (v : View C) : Prop where
  named : ∀ c, (v.cpu c).proc = targetOf (v.cpu c).loc
  idle : ∀ c, (v.cpu c).cur = none → Idle v c (v.cpu c).loc
  active : ∀ c p, (v.cpu c).cur = some p →
    (∃ cursor, (v.cpu c).loc = .swtchOut cursor p) ∧ Fits v c p (v.phase p)
  handler : ∀ c, (v.cpu c).calls ≠ [] →
    targetOf (v.cpu c).loc = none ∧ candOf (v.cpu c).loc = none
  dispatched : ∀ q, v.state q = .running → ∃ c, targetOf (v.cpu c).loc = some q
  unique : ∀ c d q, targetOf (v.cpu c).loc = some q → targetOf (v.cpu d).loc = some q → c = d
  parked : ∀ q, v.state q ≠ .unused → (∀ c, (v.cpu c).cur ≠ some q) →
    ∃ resume, v.phase q = .parked resume

variable {v : View C} {q : Slot}

theorem Owned.target (owned : Owned v) (target : targetOf (v.cpu c).loc = some q) :
    (v.plock q = some c ∧ v.state q ≠ .unused ∧ v.state q ≠ .used) ∨
    (v.plock q = none ∧ v.state q = .running ∧ (v.cpu c).cur = some q) := by
  cases cur : (v.cpu c).cur with
  | none =>
    have idle := owned.idle c cur
    cases loc : (v.cpu c).loc <;> rw [loc] at target idle <;> simp only [targetOf, reduceCtorEq, Option.some.injEq] at target <;> subst target
    · left; simp only [Idle] at idle; simp [idle]
    · left; simp only [Idle] at idle; refine ⟨idle.1, ?_, ?_⟩ <;> intro h <;> simp [h, Left] at idle
  | some p =>
    obtain ⟨⟨_, loc⟩, fits⟩ := owned.active c p cur
    rw [loc] at target
    cases target
    cases phase : v.phase q <;> rw [phase] at fits <;> simp only [Fits] at fits
    · right; simp [fits]
    · left; simp [fits]
    · left; refine ⟨fits.2, ?_, ?_⟩ <;> intro h <;> simp [h, Left] at fits
    · left; refine ⟨fits.2, ?_, ?_⟩ <;> intro h <;> simp [h, Left] at fits
    · left; simp [fits]

theorem Owned.cand (owned : Owned v) (cand : candOf (v.cpu c).loc = some q) :
    v.plock q = some c ∧ v.state q = .runnable ∧ (v.cpu c).cur = none := by
  cases cur : (v.cpu c).cur with
  | none =>
    have idle := owned.idle c cur
    cases loc : (v.cpu c).loc <;> rw [loc] at cand idle <;> simp only [candOf, reduceCtorEq] at cand
    have := idle q cand
    simp [this]
  | some p =>
    obtain ⟨⟨_, loc⟩, -⟩ := owned.active c p cur
    rw [loc] at cand
    cases cand

theorem Owned.mine (owned : Owned v) {d : Fin C} (held : v.plock q = some c) (other : d ≠ c) :
    Away (v.cpu d).loc q := by
  constructor
  · intro target
    rcases owned.target target with mine | running
    · exact other (Option.some.inj (mine.1.symm.trans held))
    · simp [held] at running
  · intro cand
    exact other (Option.some.inj ((owned.cand cand).1.symm.trans held))

theorem Owned.unowned (owned : Owned v) (free : v.plock q = none) (stopped : v.state q ≠ .running) (d : Fin C) :
    Away (v.cpu d).loc q := by
  constructor
  · intro target
    rcases owned.target target with mine | running
    · simp [free] at mine
    · exact stopped running.2.1
  · intro cand
    have held := owned.cand cand
    simp [free] at held

theorem Owned.unborn (owned : Owned v) (young : v.state q = .unused ∨ v.state q = .used) (d : Fin C) :
    Away (v.cpu d).loc q := by
  constructor
  · intro target
    rcases owned.target target with mine | running
    · exact young.elim mine.2.1 mine.2.2
    · simp [running.2.1] at young
  · intro cand
    simp [(owned.cand cand).2.1] at young

/-- At most one CPU moves, and with it at most one slot, one that no other CPU answers for. -/
theorem owned_change {w : View C} (owned : Owned v) (mover : Option (Fin C)) (slot : Option Slot)
    (cpus : ∀ d, d ∉ mover → w.cpu d = v.cpu d)
    (slots : ∀ r, r ∉ slot → w.state r = v.state r ∧ w.plock r = v.plock r ∧ w.phase r = v.phase r)
    (mine : ∀ d, d ∉ mover → ∀ q ∈ slot, Away (v.cpu d).loc q)
    (kept : ∀ c ∈ mover, ∀ r, r ∉ slot →
      (targetOf (w.cpu c).loc = some r ↔ targetOf (v.cpu c).loc = some r))
    (named : ∀ c ∈ mover, (w.cpu c).proc = targetOf (w.cpu c).loc)
    (idle : ∀ c ∈ mover, (w.cpu c).cur = none → Idle w c (w.cpu c).loc)
    (active : ∀ c ∈ mover, ∀ p, (w.cpu c).cur = some p →
      (∃ cursor, (w.cpu c).loc = .swtchOut cursor p) ∧ Fits w c p (w.phase p))
    (handler : ∀ c ∈ mover, (w.cpu c).calls ≠ [] →
      targetOf (w.cpu c).loc = none ∧ candOf (w.cpu c).loc = none)
    (dispatched : ∀ q ∈ slot, w.state q = .running → ∃ c ∈ mover, targetOf (w.cpu c).loc = some q)
    (stays : ∀ c ∈ mover, ∀ r, r ∉ slot → (v.cpu c).cur = some r → (w.cpu c).cur = some r)
    (parked : ∀ q ∈ slot, w.state q ≠ .unused → (∀ c, (w.cpu c).cur ≠ some q) →
      ∃ resume, w.phase q = .parked resume) : Owned w := by
  have others : ∀ d, d ∉ mover → ∀ r,
      targetOf (v.cpu d).loc = some r ∨ candOf (v.cpu d).loc = some r → r ∉ slot := by
    rintro d other r (target | cand) changed
    · exact (mine d other r changed).1 target
    · exact (mine d other r changed).2 cand
  constructor
  · intro d
    by_cases here : d ∈ mover
    · exact named d here
    · rw [cpus d here]
      exact owned.named d
  · intro d cur
    by_cases here : d ∈ mover
    · exact idle d here cur
    rw [cpus d here] at cur ⊢
    have before := owned.idle d cur
    have away := others d here
    cases loc : (v.cpu d).loc with
    | top => trivial
    | roundRobin k => trivial
    | scan _ k cand =>
      intro r found
      rw [loc] at before away
      obtain ⟨sameState, sameLock, -⟩ := slots r (away r (Or.inr found))
      rw [sameState, sameLock]
      exact before r found
    | swtchIn cursor p | swtchOut cursor p =>
      rw [loc] at before away
      obtain ⟨sameState, sameLock, -⟩ := slots p (away p (Or.inl rfl))
      simpa only [Idle, sameState, sameLock] using before
  · intro d p cur
    by_cases here : d ∈ mover
    · exact active d here p cur
    rw [cpus d here] at cur ⊢
    obtain ⟨⟨cursor, loc⟩, fits⟩ := owned.active d p cur
    have away : p ∉ slot := others d here p (Or.inl (by rw [loc]; rfl))
    obtain ⟨sameState, sameLock, samePhase⟩ := slots p away
    refine ⟨⟨cursor, loc⟩, ?_⟩
    rw [samePhase]
    cases phase : v.phase p <;> rw [phase] at fits <;>
      simpa only [Fits, sameState, sameLock] using fits
  · intro d calls
    by_cases here : d ∈ mover
    · exact handler d here calls
    · rw [cpus d here] at calls ⊢
      exact owned.handler d calls
  · intro r running
    by_cases changed : r ∈ slot
    · obtain ⟨d, -, target⟩ := dispatched r changed running
      exact ⟨d, target⟩
    rw [(slots r changed).1] at running
    obtain ⟨d, target⟩ := owned.dispatched r running
    by_cases here : d ∈ mover
    · exact ⟨d, (kept d here r changed).mpr target⟩
    · exact ⟨d, by rw [cpus d here]; exact target⟩
  · have before : ∀ d r, r ∉ slot → targetOf (w.cpu d).loc = some r →
        targetOf (v.cpu d).loc = some r := by
      intro d r changed target
      by_cases here : d ∈ mover
      · exact (kept d here r changed).mp target
      · rwa [cpus d here] at target
    have movers : ∀ d, ∀ q ∈ slot, targetOf (w.cpu d).loc = some q → d ∈ mover := by
      intro d q changed target
      by_contra here
      rw [cpus d here] at target
      exact (mine d here q changed).1 target
    intro d e r first second
    by_cases changed : r ∈ slot
    · exact Option.some.inj ((movers d r changed first).symm.trans (movers e r changed second))
    · exact owned.unique d e r (before d r changed first) (before e r changed second)
  · intro r live away
    by_cases changed : r ∈ slot
    · exact parked r changed live away
    obtain ⟨sameState, -, samePhase⟩ := slots r changed
    rw [sameState] at live
    rw [samePhase]
    apply owned.parked r live
    intro d cur
    by_cases here : d ∈ mover
    · exact away d (stays d here r changed cur)
    · exact away d (by rw [cpus d here]; exact cur)

theorem owned_slot {w : View C} (owned : Owned v) (cpus : w.cpu = v.cpu)
    (slots : ∀ r, r ≠ q → w.state r = v.state r ∧ w.plock r = v.plock r ∧ w.phase r = v.phase r)
    (away : ∀ d, Away (v.cpu d).loc q)
    (after : w.state q ≠ .running)
    (parked : w.state q ≠ .unused → ∃ resume, w.phase q = .parked resume) : Owned w := by
  apply owned_change owned none (some q) <;> grind

@[simp] theorem view_setProc (s : Sys C) (q : Slot) (p : Proc) :
    view (s.setProc q p) = (view s).put q p.state (s.plock q) := by
  have lock : update s.plock q (s.plock q) = s.plock := update_eq_self q s.plock
  simp only [view, Sys.setProc, View.put, View.mk.injEq, lock, and_true]
  funext r
  exact Function.apply_update (fun _ entry => entry.state) s.proc q p r

@[simp] theorem view_setLock (s : Sys C) (q : Slot) (holder : Option (Fin C)) :
    view (s.setLock q holder) = (view s).put q (s.proc q).state holder := by
  have state : update (view s).state q (s.proc q).state = (view s).state :=
    update_eq_self q (view s).state
  simp only [View.put, state]
  rfl

@[simp] theorem view_setCpu (s : Sys C) (c : Fin C) (cpu : Cpu) :
    view (s.setCpu c cpu) = (view s).move c cpu :=
  rfl

@[simp] theorem view_setThread (s : Sys C) (q : Slot) (thread : Thread) :
    view (s.setThread q thread) = (view s).turn q thread.phase := by
  simp only [view, Sys.setThread, View.turn, View.mk.injEq, true_and]
  funext r
  exact Function.apply_update (fun _ entry => entry.phase) s.thread q thread r

theorem owned_update (owned : Owned v) (c : Fin C) (q : Slot) (cpu : Cpu)
    (state : Procstate) (lock : Option (Fin C)) (phase : Phase)
    (mine : ∀ d, d ≠ c → Away (v.cpu d).loc q)
    (kept : ∀ r, r ≠ q → (targetOf cpu.loc = some r ↔ targetOf (v.cpu c).loc = some r))
    (named : cpu.proc = targetOf cpu.loc)
    (handler : cpu.calls ≠ [] → targetOf cpu.loc = none ∧ candOf cpu.loc = none)
    (dispatched : state = .running → targetOf cpu.loc = some q)
    (stays : ∀ r, r ≠ q → (v.cpu c).cur = some r → cpu.cur = some r)
    (parked : state ≠ .unused → cpu.cur ≠ some q → ∃ resume, phase = .parked resume)
    (idle : cpu.cur = none → Idle (v.put q state lock) c cpu.loc)
    (active : ∀ p, cpu.cur = some p → (∃ cursor, cpu.loc = .swtchOut cursor p) ∧
      Fits (v.put q state lock) c p (update v.phase q phase p)) :
    Owned (((v.put q state lock).turn q phase).move c cpu) := by
  unfold View.put View.turn View.move at *
  apply owned_change owned (some c) (some q)
  case idle =>
    intro d here cur
    cases here
    simp only [update_self] at cur ⊢
    have := idle cur
    cases loc : cpu.loc <;> rw [loc] at this <;> exact this
  case active =>
    intro d here p cur
    cases here
    simp only [update_self] at cur ⊢
    obtain ⟨at', fits⟩ := active p cur
    refine ⟨at', ?_⟩
    cases ph : update v.phase q phase p <;> rw [ph] at fits <;> exact fits
  case dispatched =>
    intro r here running
    cases here
    exact ⟨c, rfl, by simpa using dispatched (by simpa using running)⟩
  case parked =>
    intro r here live away
    cases here
    simpa using parked (by simpa using live) (by simpa using away c)
  all_goals grind

theorem owned_cursor (owned : Owned v) (c : Fin C) (cpu : Cpu)
    (kept : ∀ r, targetOf cpu.loc = some r ↔ targetOf (v.cpu c).loc = some r)
    (named : cpu.proc = targetOf cpu.loc)
    (handler : cpu.calls ≠ [] → targetOf cpu.loc = none ∧ candOf cpu.loc = none)
    (stays : ∀ r, (v.cpu c).cur = some r → cpu.cur = some r)
    (idle : cpu.cur = none → Idle v c cpu.loc)
    (active : ∀ p, cpu.cur = some p →
      (∃ cursor, cpu.loc = .swtchOut cursor p) ∧ Fits v c p (v.phase p)) :
    Owned (v.move c cpu) := by
  unfold View.move
  apply owned_change owned (some c) none
  case idle =>
    intro d here cur
    cases here
    simp only [update_self] at cur ⊢
    have := idle cur
    cases loc : cpu.loc <;> rw [loc] at this <;> exact this
  case active =>
    intro d here p cur
    cases here
    simp only [update_self] at cur ⊢
    obtain ⟨place, fits⟩ := active p cur
    refine ⟨place, ?_⟩
    cases phase : v.phase p <;> rw [phase] at fits <;> exact fits
  all_goals grind

end Xv6Monitor.Process.Ownership
