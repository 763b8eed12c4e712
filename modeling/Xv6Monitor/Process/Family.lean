import Xv6Monitor.Process.Holding
import Xv6Monitor.Process.Parents

/-! Parents and children. A process that exits gives its children to the first process under
`wait_lock` before it becomes a zombie, so every parent link names a process that can
still call `wait`. -/

namespace Xv6Monitor.Process.Family
open Lib.Transition Table Machine Step Moves Ownership Handover Children Invariant Clock Locks Holding Stacks Exits
  Parents

variable {C : Nat} {s t u : Sys C} {c d : Fin C}

/-- How many slots have been given away in an `exit` under way. -/
def cleared : Base → Nat
  | .reparent _ k => k
  | .exitZombie _ => NPROC
  | _ => 0

structure Kin (s : Sys C) : Prop where
  init : (s.proc s.initproc).state ≠ .unused ∧ (s.proc s.initproc).state ≠ .zombie ∧
    stage (s.thread s.initproc).base ≤ 1
  orphan : ∀ q, (s.proc q).state = .unused → (s.proc q).parent = none
  forked : ∀ p np pid, .forkRunnable np pid ∈ (s.thread p).calls → (s.proc np).parent ≠ none
  parented : ∀ q, q ≠ s.initproc → (s.proc q).state ≠ .unused → (s.proc q).state ≠ .used →
    (s.proc q).parent ≠ none
  alive : ∀ q r, (s.proc q).parent = some r → (s.proc r).state ≠ .unused ∧ (s.proc r).state ≠ .zombie
  given : ∀ c r, (s.cpu c).cur = some r → ∀ q : Slot, q.val < cleared (s.thread r).base →
    (s.proc q).parent ≠ some r

theorem baseStep_init {base after : Base} {choice : Choice} {op : Op} {calls : List Call}
    (next : baseStep s s.initproc base choice = some (after, op, calls)) (low : stage base ≤ 1) :
    stage after ≤ 1 := by
  rcases baseStep_exit next with ⟨-, zero⟩ | ⟨-, status, rfl⟩ | ⟨status, rfl, -⟩ | ⟨-, -, exiting, -⟩
  · omega
  · exact Nat.le_refl 1
  · simp [stage] at low
  · cases base <;> simp [stage, statusOf] at low exiting
    cases choice <;> simp [baseStep] at next

theorem Kin.init_move (kin : Kin s) (inv : Coherent s) (moved : Move s c t) :
    (t.proc t.initproc).state ≠ .unused ∧ (t.proc t.initproc).state ≠ .zombie ∧
    stage (t.thread t.initproc).base ≤ 1 := by
  rw [move_initproc inv moved]
  obtain ⟨live, alive, low⟩ := kin.init
  have stays := move_stays inv moved ⟨live, alive⟩ fun status _ base => by simp [base, stage] at low
  refine ⟨stays.1, stays.2, ?_⟩
  cases move_advance inv moved s.initproc with
  | stay same => rwa [same]
  | born unused _ => exact absurd unused live
  | trap on _ _ trapped =>
    rw [trapped]
    exact Nat.zero_le 1
  | base on _ _ _ _ _ next _ _ => exact baseStep_init next low

theorem Kin.orphan_move (kin : Kin s) (inv : Coherent s) (moved : Move s c t) (q : Slot)
    (free : (t.proc q).state = .unused) : (t.proc q).parent = none := by
  rcases move_free inv moved free with unused | ⟨-, orphan⟩
  · have before := kin.orphan q unused
    cases move_adoption inv moved q with
    | keep same => rw [same, before]
    | cleared _ unused orphan => exact orphan
    | forked p on _ free used child =>
      rw [unused] at used
      cases used
    | inherited p _ on _ child _ =>
      rw [before] at child
      cases child
  · exact orphan

theorem move_linked (inv : Coherent s) (moved : Move s c t) {q : Slot}
    (before : (s.proc q).parent ≠ none) (live : (t.proc q).state ≠ .unused) : (t.proc q).parent ≠ none := by
  cases move_adoption inv moved q with
  | keep same => rwa [same]
  | cleared _ unused _ => exact absurd unused live
  | forked p on _ _ _ child => simp [child]
  | inherited p _ on _ child given => simp [given]

theorem Kin.forked_move (kin : Kin s) (inv : Coherent s) (moved : Move s c t) (p np : Slot) (pid : Int)
    (there : .forkRunnable np pid ∈ (t.thread p).calls) : (t.proc np).parent ≠ none := by
  rcases move_forked inv moved there with before | parent
  · have used := inv.forking.used p np (List.mem_filterMap.mpr ⟨_, before, rfl⟩)
    refine move_linked inv moved (kin.forked p np pid before) fun free => ?_
    rcases move_free inv moved free with unused | ⟨zombie, -⟩
    · rw [used] at unused
      cases unused
    · rw [used] at zombie
      cases zombie
  · exact parent

theorem Kin.parented_move (kin : Kin s) (inv : Coherent s) (moved : Move s c t) (q : Slot)
    (other : q ≠ t.initproc) (live : (t.proc q).state ≠ .unused) (started : (t.proc q).state ≠ .used) :
    (t.proc q).parent ≠ none := by
  rw [move_initproc inv moved] at other
  by_cases used : (s.proc q).state = .used
  · rcases move_used inv moved used with still | ⟨p, pid, fork⟩
    · exact absurd still started
    · exact move_linked inv moved (kin.forked p q pid fork) live
  by_cases unused : (s.proc q).state = .unused
  · obtain ⟨-, born, -⟩ := move_birth inv moved unused live
    rw [born] at started
    exact absurd rfl started
  · exact move_linked inv moved (kin.parented q other unused used) live

/-- While `p` gives its children away it gets no new ones. -/
theorem Kin.no_new_child (kin : Kin s) (inv : Coherent s) (moved : Move s c t) {p q : Slot}
    (held : s.waitLock ≠ none) (late : 1 < stage (s.thread p).base)
    (child : (t.proc q).parent = some p) : (s.proc q).parent = some p := by
  cases move_adoption inv moved q with
  | keep same => rwa [← same]
  | cleared _ _ orphan =>
    rw [orphan] at child
    cases child
  | forked p on _ free _ child => exact absurd free held
  | inherited p' status on exiting before given =>
    rw [given] at child
    have first := kin.init.2.2
    rw [Option.some.inj child] at first
    omega

theorem Kin.alive_move (kin : Kin s) (inv : Coherent s) (locking : Locking s) (moved : Move s c t)
    (q r : Slot) (child : (t.proc q).parent = some r) :
    (t.proc r).state ≠ .unused ∧ (t.proc r).state ≠ .zombie := by
  cases move_adoption inv moved q with
  | keep same =>
    rw [same] at child
    refine move_stays inv moved (kin.alive q r child) fun status on base => ?_
    refine kin.given c r on q ?_ child
    rw [base]
    exact q.isLt
  | cleared _ _ orphan =>
    rw [orphan] at child
    cases child
  | forked p on running free _ parent =>
    obtain rfl := Option.some.inj (parent.symm.trans child)
    refine move_stays inv moved (by simp [running]) fun status _ base => ?_
    have held := locking.held on (locking.exiting (l := .wait) (by rw [base]; rfl))
    rw [show holder s .wait = s.waitLock from rfl, free] at held
    cases held
  | inherited p status on _ _ given =>
    obtain rfl := Option.some.inj (given.symm.trans child)
    obtain ⟨live, alive, low⟩ := kin.init
    exact move_stays inv moved ⟨live, alive⟩ fun status _ base => by simp [base, stage] at low

theorem baseStep_cleared {p q : Slot} {base after : Base} {choice : Choice} {op : Op} {calls : List Call}
    (next : baseStep s p base choice = some (after, op, calls)) (passed : q.val < cleared after) :
    baseLock base = some .wait ∧
    (q.val < cleared base ∨ op = .reparent q ∨ (s.proc q).parent ≠ some p) := by
  unfold baseStep at next
  split at next <;> (try split at next) <;> (try split at next) <;>
    obtain ⟨rfl, rfl, rfl⟩ := next <;> simp only [cleared, Nat.not_lt_zero] at passed
  next call _ => cases call <;> simp [Syscall.entry] at passed
  next status k _ pp found parent =>
    obtain rfl := slotAt_some found
    refine ⟨rfl, ?_⟩
    rcases Nat.lt_succ_iff_lt_or_eq.mp passed with earlier | here
    · exact Or.inl earlier
    · exact Or.inr (Or.inl (by rw [Fin.ext here]))
  next status k _ pp found parent =>
    obtain rfl := slotAt_some found
    refine ⟨rfl, ?_⟩
    rcases Nat.lt_succ_iff_lt_or_eq.mp passed with earlier | here
    · exact Or.inl earlier
    · exact Or.inr (Or.inr (by rw [Fin.ext here]; exact parent))
  next status k _ absent => exact ⟨rfl, Or.inl (passed.trans_le (slotAt_none absent))⟩

theorem baseLock_of_cleared {base : Base} {k : Nat} (passed : k < cleared base) :
    baseLock base = some .wait := by
  cases base <;> simp [cleared] at passed <;> rfl

theorem stage_of_baseLock {base : Base} (lock : baseLock base = some .wait) : 1 < stage base := by
  cases base <;> simp [baseLock] at lock <;> simp [stage]

theorem Kin.given_move (kin : Kin s) (inv : Coherent s) (locking : Locking s) (moved : Move s c t)
    (d : Fin C) (r : Slot) (on : (t.cpu d).cur = some r) (q : Slot)
    (passed : q.val < cleared (t.thread r).base) : (t.proc q).parent ≠ some r := by
  have before : (s.cpu d).cur = some r := by
    by_contra elsewhere
    obtain ⟨rfl, idle, quiet, cursor, loc⟩ := move_enters moved elsewhere on
    obtain ⟨resume, parked⟩ := (owned_enter inv.owned idle quiet loc).1
    cases move_advance inv moved r with
    | stay same =>
      rw [same] at passed
      have lock := locking.exiting (baseLock_of_cleared passed)
      rw [(locking.threads r).parked (by rw [← view_phase, parked]; simp)] at lock
      cases lock
    | born unused fresh =>
      rw [fresh] at passed
      exact absurd passed (Nat.not_lt_zero _)
    | trap here | base here => exact elsewhere here
  have kept : baseLock (s.thread r).base = some .wait →
      (s.proc q).parent ≠ some r → (t.proc q).parent ≠ some r := by
    intro lock absent child
    refine absent (kin.no_new_child inv moved ?_ (stage_of_baseLock lock) child)
    have held := locking.held before (locking.exiting lock)
    rw [show s.waitLock = holder s .wait from rfl, held]
    simp
  cases move_advance inv moved r with
  | stay same =>
    rw [same] at passed
    exact kept (baseLock_of_cleared passed) (kin.given d r before q passed)
  | born unused fresh => exact absurd unused (cur_live inv before)
  | trap here _ _ trapped =>
    rw [trapped] at passed
    exact absurd passed (Nat.not_lt_zero _)
  | base here running choice op calls u next done table =>
    obtain ⟨lock, earlier | rfl | other⟩ := baseStep_cleared next passed
    · exact kept lock (kin.given d r before q earlier)
    · intro child
      cases done
      rw [table] at child
      have first := kin.init.2.2
      rw [show s.initproc = r by simpa using child] at first
      have late := stage_of_baseLock lock
      omega
    · exact kept lock other

theorem kin_move (inv : Coherent s) (locking : Locking s) (moved : Move s c t) (kin : Kin s) : Kin t where
  init := kin.init_move inv moved
  orphan := kin.orphan_move inv moved
  forked := kin.forked_move inv moved
  parented := kin.parented_move inv moved
  alive := kin.alive_move inv locking moved
  given := kin.given_move inv locking moved

theorem kin_boot : Kin (boot C) := by
  have orphans : ∀ q, ((boot C).proc q).parent = none := by
    intro q
    rw [boot_proc]
    split <;> rfl
  constructor
  · refine ⟨?_, ?_, Nat.zero_le 1⟩ <;> simp [boot, Proc.makeRunnable]
  · exact fun q _ => orphans q
  · intro p np pid there
    cases there
  · intro q other live _
    rw [boot_proc, if_neg (show q ≠ firstSlot from other)] at live
    exact absurd rfl live
  · intro q r child
    rw [orphans q] at child
    cases child
  · intro d r on
    cases on

theorem kin_reachable (reachable : Reachable (kernel C) s) : Kin s := by
  have both : Locking s ∧ Kin s := by
    refine invariant_over (I := fun s => Locking s ∧ Kin s) ⟨locking_boot, kin_boot⟩ ?_ reachable
    rintro x d y inv moved ⟨locking, kin⟩
    exact ⟨locking_move inv moved locking, kin_move inv locking moved kin⟩
  exact both.2

theorem Kin.parent_alive (kin : Kin s) (q : Slot) (other : q ≠ s.initproc) (live : (s.proc q).state ≠ .unused)
    (started : (s.proc q).state ≠ .used) :
    ∃ r, (s.proc q).parent = some r ∧ (s.proc r).state ≠ .unused ∧ (s.proc r).state ≠ .zombie := by
  obtain ⟨r, parent⟩ := Option.ne_none_iff_exists'.mp (kin.parented q other live started)
  exact ⟨r, parent, kin.alive q r parent⟩

/-- The first process is alive, and every other process that has started has a parent that is alive. -/
theorem parents_alive (run : Run (kernel C) s) :
    ((s.proc s.initproc).state ≠ .unused ∧ (s.proc s.initproc).state ≠ .zombie) ∧
    ∀ q, q ≠ s.initproc → (s.proc q).state ≠ .unused → (s.proc q).state ≠ .used →
      ∃ r, (s.proc q).parent = some r ∧ (s.proc r).state ≠ .unused ∧ (s.proc r).state ≠ .zombie := by
  have kin := kin_reachable ⟨run⟩
  exact ⟨⟨kin.init.1, kin.init.2.1⟩, kin.parent_alive⟩

end Xv6Monitor.Process.Family
