import Xv6Monitor.Lib.Selection
import Xv6Monitor.Process.Invariant

/-! Dispatches, and the scans that lead to them. A scan that no process slips past carries
the first least entry of the slots behind it, on any number of CPUs. -/

namespace Xv6Monitor.Scheduler.Scan
open Function (update update_self)
open Lib.Selection Process.Table Process.Machine Process.Step Process.Moves
open Process.Lifecycle Process.Ownership Process.Children Process.Invariant

variable {C : Nat} {s t u : Sys C} {c d : Fin C} {q r : Slot}

def Dispatches (s t : Sys C) (c : Fin C) (q : Slot) : Prop :=
  (s.cpu c).proc = none ∧ (t.cpu c).proc = some q

instance : Decidable (Dispatches s t c q) := inferInstanceAs (Decidable (_ ∧ _))

def Ready (s : Sys C) (q : Slot) : Prop := (s.proc q).state = .runnable

instance : Decidable (Ready s q) := inferInstanceAs (Decidable (_ = _))

theorem move_loc (moved : Move s c t) (d : Fin C) :
    ((t.cpu d).proc = (s.cpu d).proc ∧ (t.cpu d).loc = (s.cpu d).loc) ∨
    (d = c ∧ (s.cpu c).cur = none ∧ (s.cpu c).calls = [] ∧ SchedMove s c t) := by
  have kept : ∀ cpu : Cpu, cpu.proc = (s.cpu c).proc → cpu.loc = (s.cpu c).loc →
      (update s.cpu c cpu d).proc = (s.cpu d).proc ∧
      (update s.cpu c cpu d).loc = (s.cpu d).loc :=
    fun _ proc loc => ⟨update_field Cpu.proc proc d, update_field Cpu.loc loc d⟩
  cases moved with
  | interruptIdle => exact Or.inl (kept _ rfl rfl)
  | interruptUser | interruptKernel => exact Or.inl ⟨rfl, rfl⟩
  | sched t idle quiet moved =>
    by_cases here : d = c
    · exact Or.inr ⟨here, idle, quiet, moved⟩
    · left
      cases moved with
      | scanTake _ _ cand loc _ _ _ => cases cand <;> simp [dropCand, here]
      | _ => simp [here]
  | switch p t on moved =>
    generalize (s.thread p).phase = phase at moved
    cases moved with
    | load _ => exact Or.inl (kept _ rfl rfl)
    | _ => exact Or.inl ⟨rfl, rfl⟩
  | idleCall call rest choice result u idle top next done =>
    rw [Sys.setCpu_cpu, apply_cpu done]
    exact Or.inl (kept _ rfl rfl)
  | call p call rest choice result u on running top next done =>
    rw [Sys.setThread_cpu, apply_cpu done]
    exact Or.inl ⟨rfl, rfl⟩
  | base p choice base _ _ u on running _ next done =>
    rw [Sys.setThread_cpu, apply_cpu done]
    exact Or.inl ⟨rfl, rfl⟩

def aim : SchedLoc → Option Slot
  | .roundRobin k => slotAt k
  | .scan _ k (some q) => if NPROC ≤ k then some q else none
  | _ => none

def policy : SchedLoc → Option SchedMode
  | .roundRobin _ => some .roundRobin
  | .scan branch _ _ => some branch.mode
  | _ => none

theorem dispatch_sched (moved : Move s c t) (dispatched : Dispatches s t d q) :
    d = c ∧ (s.cpu c).cur = none ∧ SchedMove s c t := by
  obtain ⟨before, after⟩ := dispatched
  rcases move_loc moved d with ⟨same, -⟩ | ⟨here, idle, -, moved⟩
  · rw [same, before] at after
    cases after
  · exact ⟨here, idle, moved⟩

theorem sched_dispatch (owned : Owned (view s)) (moved : SchedMove s c t) (dispatched : Dispatches s t c q) :
    Ready s q ∧ aim (s.cpu c).loc = some q ∧ t.proc q = (s.proc q).dispatch s.ticks := by
  obtain ⟨before, after⟩ := dispatched
  cases moved with
  | passDispatch q' loc free ready =>
    simp only [Sys.setCpu_cpu, update_self, Option.some.injEq] at after
    subst after
    exact ⟨ready, by rw [loc]; exact slotAt_val q', by simp⟩
  | scanDispatch branch _ q' loc last =>
    simp only [Sys.setCpu_cpu, update_self, Option.some.injEq] at after
    subst after
    refine ⟨(owned.cand (c := c) (q := q') (by simp [loc, candOf])).2.1, ?_, by simp⟩
    rw [loc]
    exact if_pos last
  | scanTake branch q' cand loc free ready _ =>
    cases cand <;> simp [before] at after
  | _ => simp [before] at after

theorem move_dispatch (inv : Coherent s) (moved : Move s c t) (dispatched : Dispatches s t d q) :
    d = c ∧ (s.cpu c).cur = none ∧ Ready s q ∧ aim (s.cpu c).loc = some q := by
  obtain ⟨rfl, idle, sched⟩ := dispatch_sched moved dispatched
  obtain ⟨ready, aimed, -⟩ := sched_dispatch inv.owned sched dispatched
  exact ⟨rfl, idle, ready, aimed⟩

theorem dispatch_runs (inv : Coherent s) (moved : Move s c t) (dispatched : Dispatches s t d q) :
    (t.proc q).state = .running := by
  obtain ⟨rfl, -, sched⟩ := dispatch_sched moved dispatched
  rw [(sched_dispatch inv.owned sched dispatched).2.2]
  rfl

theorem ready_kept (inv : Coherent s) (moved : Move s c t) (ready : Ready s q) :
    (Ready t q ∧ (t.proc q).pid = (s.proc q).pid) ∨ Dispatches s t c q := by
  have birth : Ready t q → (t.proc q).pid = (s.proc q).pid := fun after =>
    ((move_edge inv moved q).identity (by rw [ready]; simp) (by rw [after]; simp)).1
  cases move_effect inv moved with
  | sched t _ moved =>
    have named := inv.owned.named c
    rw [view_cpu] at named
    cases moved with
    | passDispatch r loc free ready' =>
      by_cases here : q = r
      · rw [here]
        exact Or.inr ⟨by rw [named, loc]; rfl, by simp⟩
      · have still : (s.proc q).state = .runnable := ready
        exact Or.inl (by simp [Ready, here, still])
    | scanDispatch branch _ r loc _ =>
      by_cases here : q = r
      · rw [here]
        exact Or.inr ⟨by rw [named, loc]; rfl, by simp⟩
      · have still : (s.proc q).state = .runnable := ready
        exact Or.inl (by simp [Ready, here, still])
    | scanTake branch r cand loc free ready' _ =>
      cases cand <;> exact Or.inl ⟨ready, rfl⟩
    | _ => exact Or.inl ⟨ready, rfl⟩
  | switch _ t on moved =>
    have after : Ready t q := by
      rcases switch_entry inv.owned on moved q with same | same | ⟨-, same⟩ <;> rw [Ready, same]
      · exact ready
      · exact ready
      · rfl
    exact Or.inl ⟨after, birth after⟩
  | op op _ executing legal done _ _ =>
    have after := apply_runnable executing legal done ready
    exact Or.inl ⟨after, birth after⟩

def key : Branch → Proc → Int ×ₗ Nat
  | .fcfs, p => toLex (0, p.creationTime)
  | .priority, p => toLex (p.priority, p.creationTime)

theorem better_iff (branch : Branch) (p q : Proc) :
    branch.better p q = true ↔ key branch p < key branch q := by
  cases branch <;> simp [Branch.better, key, Prod.Lex.toLex_lt_toLex]

theorem key_fcfs_le {p p' : Proc} (least : toLex (key .fcfs p, q) ≤ toLex (key .fcfs p', r)) :
    p.creationTime < p'.creationTime ∨ (p.creationTime = p'.creationTime ∧ q ≤ r) := by
  simpa only [key, Prod.Lex.toLex_le_toLex, Prod.Lex.toLex_lt_toLex, toLex_inj, Prod.mk.injEq, true_and,
    lt_self_iff_false, false_or] using least

theorem key_priority_le {p p' : Proc} (least : toLex (key .priority p, q) ≤ toLex (key .priority p', r)) :
    p.priority < p'.priority ∨ (p.priority = p'.priority ∧ p.creationTime ≤ p'.creationTime) := by
  simp only [key, Prod.Lex.toLex_le_toLex, Prod.Lex.toLex_lt_toLex, toLex_inj, Prod.mk.injEq] at least
  omega

/-- The scans of one branch carry the first least entry of the slots they have passed. -/
def Scanning (branch : Branch) (s : Sys C) : Prop :=
  ∀ c k cand, (s.cpu c).loc = .scan branch k cand →
    Least (Ready s) (fun r => key branch (s.proc r)) k cand

def passed (branch : Branch) : SchedLoc → Nat
  | .scan b k _ => if b = branch then k else 0
  | _ => 0

/-- A process becomes RUNNABLE in a slot that a scan under way has already passed. -/
def Overtakes (branch : Branch) (s t : Sys C) : Prop :=
  ∃ c r, r.val < passed branch (s.cpu c).loc ∧ ¬Ready s r ∧ Ready t r

instance {branch : Branch} : Decidable (Overtakes branch s t) :=
  decidable_of_iff (∃ c, 0 < passed branch (s.cpu c).loc ∧
      ∃ r : Slot, r.val < passed branch (s.cpu c).loc ∧ ¬Ready s r ∧ Ready t r)
    ⟨fun ⟨c, _, found⟩ => ⟨c, found⟩,
      fun ⟨c, r, below, found⟩ => ⟨c, Nat.zero_lt_of_lt below, r, below, found⟩⟩

/-- No process that stays RUNNABLE gets another key. -/
def Keyed (branch : Branch) (s t : Sys C) : Prop :=
  ∀ r, Ready s r → Ready t r → key branch (t.proc r) = key branch (s.proc r)

theorem keyed_fcfs (inv : Coherent s) (moved : Move s c t) : Keyed .fcfs s t := by
  intro r before after
  have birth := (move_edge inv moved r).identity (by rw [before]; simp) (by rw [after]; simp)
  rw [key, key, birth.2 (by rw [after]; simp)]

theorem scanning_kept {branch : Branch} (inv : Coherent s) (moved : Move s c t)
    (scanning : Scanning branch s) (timely : ¬Overtakes branch s t) (keyed : Keyed branch s t)
    {k : Nat} {cand : Option Slot}
    (before : (s.cpu d).loc = .scan branch k cand) (after : (t.cpu d).loc = .scan branch k cand) :
    Least (Ready t) (fun r => key branch (t.proc r)) k cand := by
  apply (scanning d k cand before).change
  · intro r below ready
    have was : Ready s r := by
      by_contra idle
      refine timely ⟨d, r, ?_, idle, ready⟩
      rw [before, passed, if_pos rfl]
      exact below
    exact ⟨was, keyed r was ready⟩
  · intro q found
    subst found
    exact ((inv_move inv moved).owned.cand (c := d) (q := q) (by simp [after, candOf])).2.1

theorem scanning_move {branch : Branch} (inv : Coherent s) (moved : Move s c t)
    (timely : ¬Overtakes branch s t)
    (keyed : ∀ d k cand, (s.cpu d).loc = .scan branch k cand → Keyed branch s t)
    (scanning : Scanning branch s) : Scanning branch t := by
  intro d k cand after
  rcases move_loc moved d with ⟨-, loc⟩ | ⟨rfl, idle, quiet, sched⟩
  · have before := loc.symm.trans after
    exact scanning_kept inv moved scanning timely (keyed d k cand before) before after
  cases sched with
  | reread loc =>
    simp only [Sys.setCpu_cpu, update_self] at after
    cases mode : s.schedMode <;> rw [mode] at after <;> cases after <;> exact least_start
  | scanSkip branch' q cand' loc free worse =>
    simp only [Sys.setCpu_cpu, update_self] at after
    cases after
    apply (scanning d q.val cand loc).skip
    simp only [← better_iff]
    exact worse
  | scanTake branch' q cand' loc free ready better =>
    simp only [Sys.setCpu_cpu, update_self] at after
    cases after
    have least := scanning d q.val cand' loc
    have taken := least.take ready (by simpa only [← better_iff] using better)
    cases cand' <;> exact taken
  | swtchOut cursor _ loc _ =>
    cases cursor <;> simp [afterSwtch] at after
  | _ => simp at after

theorem scanning_boot (branch : Branch) : Scanning branch (boot C) := by
  intro c k cand loc
  cases loc

/-- A dispatch of the branch takes the first least RUNNABLE process of the whole table. -/
theorem scan_dispatch {branch : Branch} (scanning : Scanning branch s)
    (aimed : aim (s.cpu c).loc = some q) (here : policy (s.cpu c).loc = some branch.mode)
    (ready : Ready s r) :
    toLex (key branch (s.proc q), q) ≤ toLex (key branch (s.proc r), r) := by
  cases loc : (s.cpu c).loc with
  | roundRobin k =>
    rw [loc] at here
    cases branch <;> cases here
  | scan b k cand =>
    rw [loc] at here aimed
    have same : b = branch := by cases b <;> cases branch <;> first | rfl | cases here
    subst same
    cases cand with
    | none => cases aimed
    | some q' =>
      simp only [aim, Option.ite_none_right_eq_some, Option.some.injEq] at aimed
      obtain ⟨last, rfl⟩ := aimed
      exact (scanning c k (some q') loc).minimal last ready
  | _ => rw [loc] at here; cases here

end Xv6Monitor.Scheduler.Scan
