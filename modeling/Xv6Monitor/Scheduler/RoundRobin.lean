import Xv6Monitor.Scheduler.Policy

/-! Round robin bypasses nobody. Between two dispatches of one slot the cursor of the table
pass goes once around, and it does not go past a RUNNABLE process without dispatching it. -/

namespace Xv6Monitor.Scheduler.RoundRobin
open Function Lib.Transition Process.Table Process.Machine Process.Step Process.Moves
open Process.Children Process.Invariant Scan Policy

variable {s t : Sys 1} {c : Fin 1} {p q : Slot}

/-- The slot that the round robin loop looks at next; at its top a new pass begins. -/
def upcoming : SchedLoc → Option Nat
  | .top => some 0
  | .roundRobin k => some k
  | .swtchIn (some k) _ | .swtchOut (some k) _ => some (k + 1)
  | _ => none

/-- Positions of the cursor after a dispatch of `p` from which it reaches `q` before it
reaches `p` again. -/
def Before (p q : Slot) (n : Nat) : Prop :=
  (p.val < q.val ∧ p.val < n ∧ n ≤ q.val) ∨ (q.val < p.val ∧ (p.val < n ∨ n ≤ q.val))

theorem before_start (other : q ≠ p) : Before p q (p.val + 1) := by
  have apart : q.val ≠ p.val := fun same => other (Fin.ext same)
  unfold Before
  omega

theorem before_succ {r : Slot} (before : Before p q r.val) (other : r ≠ q) :
    Before p q (r.val + 1) := by
  have apart : r.val ≠ q.val := fun same => other (Fin.ext same)
  unfold Before at *
  omega

theorem before_wrap {k : Nat} (before : Before p q k) (last : NPROC ≤ k) : Before p q 0 := by
  unfold Before at *
  omega

theorem not_before_self (p q : Slot) : ¬Before p q p.val := by
  unfold Before
  omega

/-- The process that had pid `pid` in slot `q` is still RUNNABLE, and the cursor comes to `q`
before it comes to `p`. -/
structure Pending (p q : Slot) (pid : Int) (s : Sys 1) : Prop where
  ready : Ready s q
  same : (s.proc q).pid = pid
  ahead : ∃ n, upcoming (s.cpu 0).loc = some n ∧ Before p q n

theorem pending_move {pid : Int} (inv : Coherent s) (moved : Move s c t)
    (mode : s.schedMode = .roundRobin) (pending : Pending p q pid s) :
    Pending p q pid t ∨ Dispatches s t c q := by
  rcases ready_kept inv moved pending.ready with ⟨ready, pid'⟩ | dispatched
  · left
    refine ⟨ready, pid'.trans pending.same, ?_⟩
    obtain ⟨n, next, before⟩ := pending.ahead
    obtain rfl := Subsingleton.elim c 0
    rcases move_loc moved 0 with ⟨-, loc⟩ | ⟨-, idle, quiet, sched⟩
    · exact ⟨n, by rw [loc, next], before⟩
    cases sched with
    | reread loc =>
      rw [loc] at next
      exact ⟨n, by simp [mode, branchOf, upcoming, ← next], before⟩
    | passEnd k loc last =>
      rw [loc] at next
      cases next
      exact ⟨0, by simp [upcoming], before_wrap before last⟩
    | passSkip r loc free other =>
      rw [loc] at next
      cases next
      have apart : r ≠ q := fun same => other (same ▸ pending.ready)
      exact ⟨r.val + 1, by simp [upcoming], before_succ before apart⟩
    | passDispatch r loc free _ =>
      rw [loc] at next
      cases next
      have apart : r ≠ q := by
        rintro rfl
        simp [Ready, Proc.dispatch] at ready
      exact ⟨r.val + 1, by simp [upcoming], before_succ before apart⟩
    | swtchIn cursor r loc =>
      rw [loc] at next
      cases cursor with
      | none => cases next
      | some k => exact ⟨n, by simpa [upcoming] using next, before⟩
    | swtchOut cursor r loc _ =>
      rw [loc] at next
      cases cursor with
      | none => cases next
      | some k => exact ⟨n, by simpa [upcoming, afterSwtch] using next, before⟩
    | scanSkip branch r cand loc | scanTake branch r cand loc | scanNone branch r loc
    | scanDispatch branch k r loc =>
      rw [loc] at next
      cases next
  · exact Or.inr dispatched

/-- Along a stretch of round robin the process is dispatched or still pending. -/
theorem pending_stretch {pid : Int} {s₁ s₂ : Sys 1} (inv : Coherent s₁)
    (stretch : Path (kernel 1) s₁ s₂) (stays : stretch.Throughout fun x => x.schedMode = .roundRobin)
    (pending : Pending p q pid s₁) :
    (Coherent s₂ ∧ Pending p q pid s₂) ∨
    ∃ x a y d, stretch.Takes x a y ∧ Dispatches x y d q ∧ (x.proc q).pid = pid := by
  induction stretch with
  | nil => exact Or.inl ⟨inv, pending⟩
  | snoc _ a moved ih =>
    obtain ⟨earlier, -⟩ := Path.throughout_snoc.mp stays
    rcases ih earlier with ⟨inv', still⟩ | ⟨x, b, y, d, taken, dispatched, same⟩
    · rcases pending_move inv' (step_move moved) earlier.last still with next | dispatched
      · exact Or.inl ⟨inv_move inv' (step_move moved), next⟩
      · exact Or.inr ⟨_, a, _, _, Or.inr ⟨rfl, rfl, rfl⟩, dispatched, still.same⟩
    · exact Or.inr ⟨x, b, y, d, Or.inl taken, dispatched, same⟩

/-- On one CPU a scan runs under the policy it was started for. -/
def Current (s : Sys 1) : Prop :=
  ∀ c branch k cand, (s.cpu c).loc = .scan branch k cand → s.schedMode = branch.mode

theorem current_move (inv : Coherent s) (moved : Move s c t) (current : Current s) : Current t := by
  intro d branch k cand after
  rcases move_loc moved d with ⟨-, loc⟩ | ⟨rfl, idle, quiet, sched⟩
  · have before := loc.symm.trans after
    rw [(alone_of_scan inv moved before).1]
    exact current d branch k cand before
  rw [(idle_policy inv moved idle).1]
  cases sched with
  | reread loc =>
    simp only [Sys.setCpu_cpu, update_self] at after
    cases mode : s.schedMode <;> rw [mode] at after <;> cases after <;> rfl
  | scanSkip branch' r cand' loc free _ =>
    simp only [Sys.setCpu_cpu, update_self] at after
    cases after
    exact current d branch r.val cand loc
  | scanTake branch' r cand' loc free _ _ =>
    simp only [Sys.setCpu_cpu, update_self] at after
    cases after
    exact current d branch r.val cand' loc
  | swtchOut cursor r loc _ => cases cursor <;> simp [afterSwtch] at after
  | _ => simp at after

theorem current_reachable (reachable : Reachable (kernel 1) s) : Current s :=
  invariant_over (fun _ _ _ _ loc => by cases loc)
    (fun _ _ _ inv moved current => current_move inv moved current) reachable

theorem pass_of_dispatch (current : Current s) (mode : s.schedMode = .roundRobin)
    (aimed : aim (s.cpu c).loc = some p) : (s.cpu c).loc = .roundRobin p.val := by
  cases loc : (s.cpu c).loc with
  | roundRobin k =>
    rw [loc] at aimed
    rw [slotAt_some aimed]
  | scan branch k cand =>
    have other := current c branch k cand loc
    rw [mode] at other
    cases branch <;> cases other
  | _ => rw [loc] at aimed; cases aimed

theorem pass_dispatched (moved : Move s c t) (dispatched : Dispatches s t c p)
    (loc : (s.cpu c).loc = .roundRobin p.val) :
    (t.cpu c).loc = .swtchIn (some p.val) p ∧ ∀ q, q ≠ p → t.proc q = s.proc q := by
  obtain ⟨before, after⟩ := dispatched
  rcases move_loc moved c with ⟨same, -⟩ | ⟨-, idle, quiet, sched⟩
  · rw [same, before] at after
    cases after
  cases sched with
  | passDispatch r loc' _ _ =>
    rw [loc] at loc'
    obtain rfl : p = r := Fin.ext (SchedLoc.roundRobin.inj loc')
    exact ⟨by simp, fun q other => by simp [other]⟩
  | passEnd | passSkip => simp [before] at after
  | reread loc' | swtchIn _ _ loc' | swtchOut _ _ loc' | scanSkip _ _ _ loc'
  | scanTake _ _ _ loc' | scanNone _ _ loc' | scanDispatch _ _ _ loc' =>
    rw [loc] at loc'
    cases loc'

/-- Between two dispatches of `p` under round robin every other process that was RUNNABLE at
the first of them has been dispatched. -/
theorem round_robin_bypasses_nobody {s₀ s₁ s₂ s₃ : Sys 1} {a b : Action 1} {c d : Fin 1}
    (reachable : Reachable (kernel 1) s₀) (first : step s₀ a = some s₁)
    (mode : s₀.schedMode = .roundRobin) (dispatched : Dispatches s₀ s₁ c p)
    (stretch : Path (kernel 1) s₁ s₂)
    (stays : stretch.Throughout fun x => x.schedMode = .roundRobin)
    (second : step s₂ b = some s₃) (again : Dispatches s₂ s₃ d p)
    (other : q ≠ p) (waiting : Ready s₀ q) :
    ∃ x e y f, stretch.Takes x e y ∧ Dispatches x y f q ∧ (x.proc q).pid = (s₀.proc q).pid := by
  have inv := inv_reachable reachable
  have move := step_move first
  obtain ⟨rfl, _, -, aimed⟩ := move_dispatch inv move dispatched
  have loc := pass_of_dispatch (current_reachable reachable) mode aimed
  have reached : Reachable (kernel 1) s₁ := reachable.step first
  have pending : Pending p q (s₀.proc q).pid s₁ := by
    obtain ⟨entered, others⟩ := pass_dispatched move dispatched loc
    refine ⟨by rw [Ready, others q other]; exact waiting, by rw [others q other], p.val + 1, ?_,
      before_start other⟩
    rw [← Subsingleton.elim a.cpu 0, entered]
    rfl
  rcases pending_stretch (inv_reachable reached) stretch stays pending with ⟨inv₂, still⟩ | found
  · exfalso
    obtain ⟨rfl, -, -, aimed⟩ := move_dispatch inv₂ (step_move second) again
    have reached₂ : Reachable (kernel 1) s₂ := reached.elim fun run => ⟨run.append stretch⟩
    have loc := pass_of_dispatch (current_reachable reached₂) stays.last aimed
    obtain ⟨_, next, before⟩ := still.ahead
    rw [← Subsingleton.elim b.cpu 0, loc] at next
    cases next
    exact not_before_self p q before
  · exact found

/-- Two processes take turns through `setscheduler`: between two dispatches of the second one,
the first one is dispatched. -/
theorem round_robin_bypasses_nobody_two : ∃ (s₀ s₁ s₂ s₃ : Sys 1) (stretch : Path (kernel 1) s₁ s₂),
    Dispatches s₀ s₁ 0 1 ∧ Dispatches s₂ s₃ 0 1 ∧ Ready s₀ 0 ∧
    ∃ x e y f, stretch.Takes x e y ∧ Dispatches x y f 0 ∧ (x.proc 0).pid = (s₀.proc 0).pid := by
  obtain ⟨s₀, reachable, mode, waiting, s₁, first, dispatched, mode', ends⟩ :=
    reachable_exec (M := kernel 1)
    (Q := fun s₀ => s₀.schedMode = .roundRobin ∧ Ready s₀ 0 ∧
      ∃ s₁ ∈ step s₀ ⟨0, .go⟩, Dispatches s₀ s₁ 0 1 ∧ s₁.schedMode = .roundRobin ∧
        (execUnder (kernel 1) (fun _ _ y => y.schedMode = .roundRobin) s₁
          (steps 0 3 ++ syscall 0 (.setscheduler 0) 11 ++ steps 0 64 ++ steps 0 5 ++
            syscall 0 (.setscheduler 0) 11)).any
          (fun s₂ : Sys 1 => decide (∃ s₃ ∈ step s₂ ⟨0, .go⟩, Dispatches s₂ s₃ 0 1)) = true)
    (steps 0 6 ++ syscall 0 .fork 8 ++ syscall 0 (.setscheduler 0) 11) (by decide +kernel)
  obtain ⟨s₂, stretch, stays, s₃, second, again⟩ := execUnder_path _ ends
  exact ⟨s₀, s₁, s₂, s₃, stretch, dispatched, again, waiting,
    round_robin_bypasses_nobody reachable first mode dispatched stretch ⟨mode', stays⟩ second again
      (by decide) waiting⟩

end Xv6Monitor.Scheduler.RoundRobin
