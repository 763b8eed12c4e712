import Xv6Monitor.Process.Invariant

/-! Time and identity along a run: the tick counter counts the clock interrupts, pids are
handed out in order, and creation times are past. -/

namespace Xv6Monitor.Process.Clock
open Lib.Transition Table Machine Step Moves Sections Lifecycle Children Invariant

variable {C : Nat} {s t u : Sys C} {c : Fin C}

def allocates : Op → Bool
  | .alloc _ | .allocFail _ _ => true
  | _ => false

theorem apply_nextpid {op : Op} (done : op.apply s c = some u) :
    u.nextpid = if allocates op then s.nextpid + 1 else s.nextpid := by
  cases op <;> simp only [Op.apply, Option.some.injEq, Option.ite_none_right_eq_some] at done <;>
    (try obtain ⟨-, rfl⟩ := done)
  case sleep lk => cases lk <;> rfl
  all_goals rfl

theorem apply_bounded {op : Op} (done : op.apply s c = some u) (bounded : s.nextpid ≤ INT_MAX) :
    u.nextpid ≤ INT_MAX := by
  have next := apply_nextpid done
  cases op <;> first
    | exact next.trans_le bounded
    | (simp only [Op.apply, Option.ite_none_right_eq_some] at done
       exact next.trans_le done.1.2)

theorem apply_ticks {op : Op} (done : op.apply s c = some u) :
    u.ticks = s.ticks ∨ (u.ticks = uint (s.ticks + 1) ∧ u.proc = s.proc) := by
  cases op <;> simp only [Op.apply, Option.some.injEq, Option.ite_none_right_eq_some] at done <;>
    (try obtain ⟨-, rfl⟩ := done)
  case sleep lk => cases lk <;> exact Or.inl rfl
  case tick => exact Or.inr ⟨rfl, rfl⟩
  all_goals exact Or.inl rfl

theorem sched_shared (moved : SchedMove s c t) : t.ticks = s.ticks ∧ t.nextpid = s.nextpid := by
  cases moved with
  | scanTake _ _ cand _ _ _ _ => cases cand <;> exact ⟨rfl, rfl⟩
  | _ => exact ⟨rfl, rfl⟩

theorem switch_shared {p : Slot} {phase : Phase} (moved : SwitchMove s c p phase t) :
    t.ticks = s.ticks ∧ t.nextpid = s.nextpid := by
  cases moved <;> exact ⟨rfl, rfl⟩

theorem move_ticks (inv : Coherent s) (moved : Move s c t) :
    t.ticks = s.ticks ∨ (t.ticks = uint (s.ticks + 1) ∧ t.proc = s.proc) := by
  cases move_effect inv moved with
  | sched t _ moved => exact Or.inl (sched_shared moved).1
  | switch _ t _ moved => exact Or.inl (switch_shared moved).1
  | op op _ _ _ done _ _ =>
    have ticks := apply_ticks done
    exact ticks

theorem apply_birth {op : Op} (executing : Executing s c) (legal : Legal s c op)
    (done : op.apply s c = some u) {q : Slot} (before : (s.proc q).state = .unused)
    (after : (u.proc q).state ≠ .unused) : op = .alloc q := by
  rcases apply_writes done q with same | wrote
  · rw [same] at after
    exact absurd before after
  generalize u.proc q = entry at wrote after
  cases op <;> simp only [writes, Option.some.injEq, Prod.mk.injEq] at wrote <;>
    obtain ⟨rfl, rfl⟩ := wrote <;> simp only [Legal] at legal
  case alloc => rfl
  case sleep p chan lk => simp [(executing p legal).1] at before
  case zombie p status => simp [(executing p legal).1] at before
  all_goals simp_all [Proc.freeproc]

theorem move_birth (inv : Coherent s) (moved : Move s c t) {q : Slot}
    (before : (s.proc q).state = .unused) (after : (t.proc q).state ≠ .unused) :
    t.nextpid = s.nextpid + 1 ∧ t.proc q = (s.proc q).allocproc s.nextpid ∧
    ∀ r, r ≠ q → t.proc r = s.proc r := by
  cases move_effect inv moved with
  | sched t _ moved =>
    rcases sched_entry inv.owned moved q with same | ⟨ready, -⟩
    · rw [same] at after
      exact absurd before after
    · rw [before] at ready
      cases ready
  | switch _ t on moved =>
    rcases switch_entry inv.owned on moved q with same | same | ⟨running, -⟩
    · rw [same] at after
      exact absurd before after
    · rw [same] at after
      exact absurd before after
    · rw [before] at running
      cases running
  | op op _ executing legal done _ _ =>
    obtain rfl := apply_birth executing legal done before after
    simp only [Op.apply, Option.ite_none_right_eq_some, Option.some.injEq] at done
    obtain ⟨-, rfl⟩ := done
    exact ⟨rfl, by simp, fun r other => by simp [other]⟩

theorem move_nextpid (inv : Coherent s) (moved : Move s c t) : s.nextpid ≤ t.nextpid := by
  cases move_effect inv moved with
  | sched t _ moved => exact (sched_shared moved).2.ge
  | switch _ t _ moved => exact (switch_shared moved).2.ge
  | op op u executing legal done cpu thread =>
    have next := apply_nextpid done
    rw [next]
    split <;> omega

def noteTick (x : Sys C) (_ : Action C) (y : Sys C) (n : Nat) : Nat :=
  if y.ticks = x.ticks then n else n + 1

def clock {origin : Sys C} (path : Path (kernel C) origin s) : Nat := path.fold noteTick 0

theorem uint_succ_ne (n : Nat) : uint (n + 1) ≠ n := by
  unfold uint
  omega

theorem ticks_eq_clock (run : Run (kernel C) s) : s.ticks = uint (clock run) := by
  refine history_over (J := fun s n => s.ticks = uint n) rfl ?_ run
  intro x a y n inv moved same
  unfold noteTick
  rcases move_ticks inv moved with kept | ⟨next, -⟩
  · rw [if_pos kept, kept, same]
  have changed : y.ticks ≠ x.ticks := by
    rw [next]
    exact uint_succ_ne x.ticks
  rw [if_neg changed, next, same]
  unfold uint
  omega

theorem clock_mono {x : Sys C} {a : Action C} (path : Path (kernel C) s x)
    (moved : (kernel C).step x a = some t) : clock path ≤ clock (path.snoc a moved) := by
  show clock path ≤ if t.ticks = x.ticks then clock path else clock path + 1
  split <;> omega

/-- In a run of fewer than 2^32 ticks the counter never wraps. -/
theorem ticks_mono (run : Run (kernel C) s) (short : clock run < 4294967296) :
    run.Every fun x _ y => x.ticks ≤ y.ticks := by
  induction run with
  | nil => exact Path.every_nil _
  | snoc path a moved ih =>
    have before := lt_of_le_of_lt (clock_mono path moved) short
    refine Path.every_snoc.mpr ⟨ih before, ?_⟩
    rw [ticks_eq_clock path, ticks_eq_clock (path.snoc a moved), uint_of_lt before, uint_of_lt short]
    exact clock_mono path moved

theorem clock_of_mono (run : Run (kernel C) s) (later : run.Every fun x _ y => x.ticks ≤ y.ticks) :
    clock run = s.ticks := by
  induction run with
  | nil => rfl
  | snoc path a moved ih =>
    obtain ⟨earlier, last⟩ := Path.every_snoc.mp later
    have before := ih earlier
    have count := ticks_eq_clock path
    show (if _ = _ then clock path else clock path + 1) = _
    rcases move_ticks (inv_reachable ⟨path⟩) (step_move moved) with same | ⟨next, -⟩
    · rw [if_pos same, same, before]
    · have changed := uint_succ_ne
      rw [if_neg (by rw [next]; exact changed _), before]
      unfold uint at next count
      omega

theorem short_move {x : Sys C} {a : Action C} (path : Run (kernel C) x)
    (moved : (kernel C).step x a = some t) (short : clock (path.snoc a moved) < 4294967296) :
    x.ticks < 4294967296 ∧ (t.ticks = x.ticks ∨ (t.ticks = x.ticks + 1 ∧ t.proc = x.proc)) := by
  have before := lt_of_le_of_lt (clock_mono path moved) short
  have small : x.ticks < 4294967296 := by
    rw [ticks_eq_clock path, uint_of_lt before]
    exact before
  refine ⟨small, ?_⟩
  rcases move_ticks (inv_reachable ⟨path⟩) (step_move moved) with same | ⟨next, table⟩
  · exact Or.inl same
  refine Or.inr ⟨?_, table⟩
  have later := (Path.every_snoc.mp (ticks_mono (path.snoc a moved) short)).2
  rw [next] at later ⊢
  unfold uint at later ⊢
  omega

structure Births (s : Sys C) : Prop where
  issued : ∀ q, (s.proc q).state ≠ .unused → 0 < (s.proc q).pid ∧ (s.proc q).pid < s.nextpid
  unique : ∀ p q, (s.proc p).state ≠ .unused → (s.proc q).state ≠ .unused →
    (s.proc p).pid = (s.proc q).pid → p = q
  started : 0 < s.nextpid

theorem move_live (inv : Coherent s) (moved : Move s c t) {q : Slot} (live : (t.proc q).state ≠ .unused) :
    ((s.proc q).state ≠ .unused ∧ (t.proc q).pid = (s.proc q).pid) ∨
    ((s.proc q).state = .unused ∧ (t.proc q).pid = s.nextpid ∧
      t.nextpid = s.nextpid + 1 ∧ ∀ r, r ≠ q → t.proc r = s.proc r) := by
  by_cases before : (s.proc q).state = .unused
  · obtain ⟨next, born, others⟩ := move_birth inv moved before live
    exact Or.inr ⟨before, by rw [born]; rfl, next, others⟩
  · exact Or.inl ⟨before, ((move_edge inv moved q).identity before live).1⟩

theorem births_move (inv : Coherent s) (moved : Move s c t) (births : Births s) : Births t := by
  have next := move_nextpid inv moved
  constructor
  · intro q live
    rcases move_live inv moved live with ⟨was, pid⟩ | ⟨-, pid, more, -⟩
    · have issued := births.issued q was
      omega
    · have started := births.started
      omega
  · intro p q first second same
    rcases move_live inv moved first with ⟨was, pid⟩ | ⟨-, pid, -, others⟩
    · rcases move_live inv moved second with ⟨was', pid'⟩ | ⟨-, pid', -, -⟩
      · exact births.unique p q was was' (by rw [← pid, ← pid', same])
      · have issued := births.issued p was
        omega
    · by_contra other
      rw [others q (Ne.symm other)] at second same
      have issued := births.issued q second
      omega
  · exact lt_of_lt_of_le births.started next

theorem births_boot : Births (boot C) := by
  constructor
  · intro q live
    rw [boot_proc] at live ⊢
    split at live
    next here =>
      rw [if_pos here]
      show (0 : Int) < 1 ∧ (1 : Int) < 2
      decide
    next => exact absurd rfl live
  · intro p q first second _
    rw [boot_proc] at first second
    split at first
    next here =>
      split at second
      next here' => rw [here, here']
      next => exact absurd rfl second
    next => exact absurd rfl first
  · show (0 : Int) < 2
    decide

theorem births_reachable (reachable : Reachable (kernel C) s) : Births s :=
  invariant_over births_boot (fun _ _ _ inv moved births => births_move inv moved births) reachable

theorem nextpid_reachable (reachable : Reachable (kernel C) s) : s.nextpid ≤ INT_MAX := by
  refine invariant_over (I := fun s => s.nextpid ≤ INT_MAX) (by show (2 : Int) ≤ 2147483647; decide) ?_ reachable
  intro s c t inv moved bounded
  cases move_effect inv moved with
  | sched t _ moved => exact (sched_shared moved).2.trans_le bounded
  | switch _ t _ moved => exact (switch_shared moved).2.trans_le bounded
  | op op _ _ _ done _ _ =>
    have after := apply_bounded done bounded
    exact after

/-- The creation time of an entry is past, and a child in the making has been charged nothing. -/
structure Dated (ticks : Nat) (p : Proc) : Prop where
  past : p.creationTime ≤ ticks
  fresh : p.state = .used → p.runTime = 0 ∧ p.totalWaitingTime = 0

theorem Dated.edge {ticks : Nat} {pid : Int} {p p' : Proc} (dated : Dated ticks p)
    (edge : Edge ticks pid p p') : Dated ticks p' := by
  cases edge with
  | same => exact dated
  | alloc unused => exact ⟨dated.past, fun _ => ⟨rfl, rfl⟩⟩
  | created used => exact ⟨Nat.le_refl _, fun _ => dated.fresh used⟩
  | abandon | reap => exact ⟨Nat.le_refl _, fun used => by cases used⟩
  | adopt | setPriority | clearChan | setKilled => exact ⟨dated.past, dated.fresh⟩
  | ready | dispatch | sleep | exit => exact ⟨dated.past, fun used => by cases used⟩
  | charge running => exact ⟨dated.past, fun used => by cases running.symm.trans used⟩
  | kill =>
    refine ⟨by simpa using dated.past, fun used => ?_⟩
    rw [Proc.kill_state] at used
    split at used
    next => cases used
    next => simpa using dated.fresh used

theorem dated_along (run : Run (kernel C) s) (later : run.Every fun x _ y => x.ticks ≤ y.ticks) (q : Slot) :
    Dated s.ticks (s.proc q) := by
  refine invariant_along (I := fun s => ∀ q, Dated s.ticks (s.proc q)) ?_ ?_ run later q
  · intro q
    rw [boot_proc]
    split
    next => exact ⟨Nat.le_refl 0, fun used => by cases used⟩
    next => exact ⟨Nat.le_refl 0, fun used => by cases used⟩
  · intro x a y inv moved later dated q
    rcases move_ticks inv moved with same | ⟨-, table⟩
    · rw [same]
      exact (dated q).edge (move_edge inv moved q)
    · rw [table]
      exact ⟨(dated q).past.trans later, (dated q).fresh⟩

end Xv6Monitor.Process.Clock
