import Xv6Monitor.Disk.Commit

/-! Crash atomicity. The updates of an operation never spread over two transactions, and recovery
restores the home locations after a prefix of the transactions. -/

namespace Xv6Monitor.Disk.Crash
open Function Lib.Transition Lib.Redo Buffers Journal Replay Recovery Commit

variable {layout : Layout} {s t : Sys} {h : History}

/-- The updates of one operation all belong to one transaction. -/
structure Ordered (s : Sys) (h : History) : Prop where
  apart : (h.committed ++ [h.current]).Pairwise fun first second => ∀ u ∈ first, ∀ v ∈ second, u.op < v.op
  issued : ∀ updates ∈ h.committed ++ [h.current], ∀ u ∈ updates, u.op < h.nextOp
  running : ∀ w ∈ s.ops, h.opOf w < h.nextOp ∧ ∀ updates ∈ h.committed, ∀ u ∈ updates, u.op < h.opOf w

/-- A step of `commit` or `recover_from_log` leaves the operations alone and, but for the end of `commit`, all of the
log but its header. -/
theorem work_keeps (done : work s = some t) :
    t.ops = s.ops ∧ (s.job ≠ .finish → ∃ lh, t.log = { s.log with lh := lh }) := by
  have head : ∀ {s t : Sys}, writeHead s = some t → t.ops = s.ops ∧ t.log = s.log := by
    intro s t done
    simp only [writeHead, Option.bind_eq_bind, Option.bind_eq_some_iff, Option.some.injEq] at done
    obtain ⟨_, _, -, _, -, _, -, rfl⟩ := done
    exact ⟨rfl, rfl⟩
  unfold work at done
  split at done
  · cases done
  · cases done
    exact ⟨rfl, fun _ => ⟨_, rfl⟩⟩
  · split at done
    · obtain ⟨u, wrote, rfl⟩ := Option.map_eq_some_iff.mp done
      simp only [writeLogBlock, Option.bind_eq_bind, Option.bind_eq_some_iff, Option.some.injEq] at wrote
      obtain ⟨_, _, -, _, _, -, _, -, _, -, _, -, rfl⟩ := wrote
      exact ⟨rfl, fun _ => ⟨_, rfl⟩⟩
    · cases done
      exact ⟨rfl, fun _ => ⟨_, rfl⟩⟩
  · obtain ⟨u, wrote, rfl⟩ := Option.map_eq_some_iff.mp done
    obtain ⟨ops, log⟩ := head wrote
    exact ⟨ops, fun _ => ⟨_, log⟩⟩
  · split at done
    · obtain ⟨u, wrote, rfl⟩ := Option.map_eq_some_iff.mp done
      simp only [installBlock, Option.bind_eq_bind, Option.bind_eq_some_iff, Option.some.injEq] at wrote
      obtain ⟨_, _, -, _, _, -, _, -, _, -, _, -, rfl⟩ := wrote
      exact ⟨rfl, fun _ => ⟨_, rfl⟩⟩
    · cases done
      exact ⟨rfl, fun _ => ⟨_, rfl⟩⟩
  · obtain ⟨u, wrote, rfl⟩ := Option.map_eq_some_iff.mp done
    obtain ⟨ops, log⟩ := head wrote
    exact ⟨ops, fun _ => ⟨_, log⟩⟩
  next job =>
    cases done
    exact ⟨rfl, fun more => absurd job more⟩
  · obtain ⟨u, read, rfl⟩ := Option.map_eq_some_iff.mp done
    simp only [readHeadBlock, Option.bind_eq_bind, Option.bind_eq_some_iff, Option.some.injEq] at read
    obtain ⟨_, _, -, _, -, rfl⟩ := read
    exact ⟨rfl, fun _ => ⟨_, rfl⟩⟩

theorem Ordered.extend (ordered : Ordered s h) {w : Tid} (member : w ∈ s.ops) (n : Nat) (data : Block) :
    Ordered s { h with current := h.current ++ [⟨h.opOf w, n, data⟩] } := by
  obtain ⟨below, later⟩ := ordered.running w member
  obtain ⟨earlier, -, last⟩ := List.pairwise_append.mp ordered.apart
  refine ⟨List.pairwise_append.mpr ⟨earlier, by simp, ?_⟩, ?_, ordered.running⟩
  · intro first mem second same u made v also
    rw [List.mem_singleton.mp same] at also
    rcases List.mem_append.mp also with old | new
    · exact last first mem h.current List.mem_cons_self u made v old
    · rw [List.mem_singleton.mp new]
      exact later first mem u made
  · intro updates mem u made
    rcases List.mem_append.mp mem with old | new
    · exact ordered.issued updates (List.mem_append_left _ old) u made
    rw [List.mem_singleton.mp new] at made
    rcases List.mem_append.mp made with before | now
    · exact ordered.issued h.current (List.mem_append_right _ List.mem_cons_self) u before
    · rw [List.mem_singleton.mp now]
      exact below

theorem Ordered.close (ordered : Ordered s h) (ended : t.ops = []) : Ordered t h.close := by
  refine ⟨List.pairwise_append.mpr ⟨ordered.apart, by simp, ?_⟩, ?_, by simp [ended]⟩
  · intro first mem second same u made v also
    rw [List.mem_singleton.mp same] at also
    cases also
  intro updates mem u made
  rcases List.mem_append.mp mem with old | new
  · exact ordered.issued updates old u made
  · rw [List.mem_singleton.mp new] at made
    cases made

theorem ordered_step {a : Action} (inv : Consistent layout s h) (ordered : Ordered s h) (done : step s a = some t) :
    Ordered t (observe s a t h) := by
  cases a with
  | beginOp w =>
    simp only [step, Option.ite_none_left_eq_some, Option.map_eq_some_iff] at done
    obtain ⟨_, _, -, rfl⟩ := done
    refine ⟨ordered.apart, fun updates mem u made => Nat.lt_succ_of_lt (ordered.issued updates mem u made), ?_⟩
    intro w' member
    by_cases here : w' = w
    · subst here
      simp only [observe, update_self]
      exact ⟨Nat.lt_succ_self _, fun updates mem u made => ordered.issued updates (List.mem_append_left _ mem) u made⟩
    · simp only [observe, update_of_ne here]
      obtain ⟨below, later⟩ := ordered.running w' ((List.mem_cons.mp member).resolve_left here)
      exact ⟨Nat.lt_succ_of_lt below, later⟩
  | bread w _ =>
    simp only [step, Option.ite_none_left_eq_some, Option.map_eq_some_iff] at done
    obtain ⟨-, _, -, rfl⟩ := done
    exact ⟨ordered.apart, ordered.issued, ordered.running⟩
  | brelse w b =>
    simp only [step, Option.map_eq_some_iff] at done
    obtain ⟨_, -, rfl⟩ := done
    exact ⟨ordered.apart, ordered.issued, ordered.running⟩
  | write w b data =>
    simp only [step, Option.ite_none_right_eq_some] at done
    obtain ⟨⟨member, -⟩, done⟩ := done
    have extended := ordered.extend member (s.cache.buf b).blockno data
    split at done
    · cases done
      exact ⟨extended.apart, extended.issued, extended.running⟩
    · cases done
  | endOp w =>
    have after := consistent_end inv done
    simp only [step, Option.ite_none_right_eq_some] at done
    obtain ⟨member, done⟩ := done
    have kept : ∀ w' ∈ t.ops, w' ∈ s.ops := by
      split at done
      · cases done
        exact fun w' => List.mem_of_mem_erase
      · cases done
    simp only [observe] at after ⊢
    split
    next committing =>
      refine ordered.close (by_contra fun busy => ?_)
      have running := (Consistent.running after busy).2.committing
      rw [committing] at running
      cases running
    next => exact ⟨ordered.apart, ordered.issued, fun w' here => ordered.running w' (kept w' here)⟩
  | work =>
    have same := (work_keeps done).1
    simp only [observe]
    split
    · refine ⟨by simp, by simp, fun w member => ⟨(ordered.running w (same ▸ member)).1, by simp⟩⟩
    · split <;> exact ⟨ordered.apart, ordered.issued, fun w member => ordered.running w (same ▸ member)⟩
  | crash =>
    cases done
    exact ⟨ordered.apart, ordered.issued, by simp [reboot]⟩

theorem work_erase {recovering : Bool} (job : s.job = .erase recovering) :
    work s = (writeHead { s with log := { s.log with lh := [] } }).map
      (·.goto (if recovering then .idle else .finish)) := by
  obtain ⟨_, _, log, now, _, _⟩ := s
  obtain rfl : now = .erase recovering := job
  rfl

def history {disk : Nat → Block} (run : Run (journal layout disk) s) : History := run.fold observe (History.start disk)

theorem consistent_along {disk : Nat → Block} (empty : disk layout.start 0 = 0) (run : Run (journal layout disk) s) :
    Consistent layout s (history run) ∧ Ordered s (history run) := by
  refine Path.fold_invariant (I := fun s h => Consistent layout s h ∧ Ordered s h) ?_ ?_ run
  · rintro x a y h moved ⟨inv, ordered⟩
    exact ⟨consistent_step inv moved, ordered_step inv ordered moved⟩
  · refine ⟨consistent_start empty, ?_⟩
    exact ⟨by simp [History.start], by simp [History.start], by simp [journal, reboot]⟩

/-- Crash atomicity of the log. Whenever recovery completes, after any number of crashes at any
points of operations, of `commit` or of recovery itself, the home locations hold what the first `k`
of the transactions made of the disk that the last recovery left, those `k` have among them every
transaction whose `commit` had returned, no operation has updates both among them and outside, and
the header on disk has `n` = 0. -/
theorem crash_atomic {disk : Nat → Block} (empty : disk layout.start 0 = 0) (run : Run (journal layout disk) s)
    (last : s.job = .erase true) (done : step s .work = some t) :
    (∃ k, (history run).returned ≤ k ∧ k ≤ (history run).committed.length ∧
      (∀ n, (n < layout.start ∨ layout.start + layout.size ≤ n) →
        t.disk n = write (writes ((history run).committed.take k).flatten) (history run).base n) ∧
      ∀ u ∈ ((history run).committed.take k).flatten,
        ∀ v ∈ ((history run).committed.drop k).flatten ++ (history run).current, u.op ≠ v.op) ∧
    t.disk layout.start 0 = 0 := by
  obtain ⟨inv, ordered⟩ := consistent_along empty run
  generalize history run = h at inv ordered
  rw [step, work_erase last] at done
  obtain ⟨u, wrote, rfl⟩ := Option.map_eq_some_iff.mp done
  obtain ⟨cache, head, rfl, -, cleared, elsewhere⟩ := erase_spec inv (by rw [last]; rfl) wrote
  have stage := inv.stage
  simp only [last] at stage
  obtain ⟨-, header, k, low, high, restores⟩ := stage
  refine ⟨⟨k, low, high, fun n out => ?_, ?_⟩, ?_⟩
  · have home : s.log.home n := by
      rw [← inv.start, ← inv.size] at out
      exact out
    refine (elsewhere n home).trans ?_
    have now := (restores n home).2
    rwa [List.drop_eq_nil_of_le (by simp [entries, header]), write_nil] at now
  · intro u made v other same
    rw [List.mem_flatten] at made
    obtain ⟨first, mem, made⟩ := made
    have pairs := ordered.apart
    rw [← List.take_append_drop k h.committed, List.append_assoc] at pairs
    have later : ∃ second ∈ h.committed.drop k ++ [h.current], v ∈ second := by
      rcases List.mem_append.mp other with old | new
      · obtain ⟨second, mem, made⟩ := List.mem_flatten.mp old
        exact ⟨second, List.mem_append_left _ mem, made⟩
      · exact ⟨h.current, List.mem_append_right _ List.mem_cons_self, new⟩
    obtain ⟨second, mem', made'⟩ := later
    have less := (List.pairwise_append.mp pairs).2.2 first mem second mem' u made v made'
    omega
  · have zero : (readHead head).length = head 0 := by simp [readHead]
    rw [cleared] at zero
    show update s.disk s.log.start head layout.start 0 = 0
    rw [inv.start, update_self]
    exact zero.symm

/-- An operation writes block 40; the first crash falls between the header and the home location, the
second into the recovery from the first. -/
theorem crash_atomic_twice : ∃ s t, ∃ _ : Run (journal .mkfs fun _ _ => 0) s,
    step s .work = some t ∧ t.disk 40 0 = 7 ∧ t.disk 2 0 = 0 := by
  obtain ⟨s, run, -, last, value⟩ := execUnder_path (M := journal .mkfs fun _ _ => 0) (P := fun _ _ _ => True)
    (s := (journal .mkfs fun _ _ => 0).init)
    (Q := fun s => s.job = .erase true ∧ (step s .work).any (fun t => t.disk 40 0 = 7) = true)
    [.work, .work, .work, .beginOp 1, .bread 1 40, .write 1 ⟨1, by decide⟩ (fun _ => 7), .brelse 1 ⟨1, by decide⟩,
      .endOp 1,
      .work, .work, .work, .work, .crash, .work, .work, .crash, .work, .work, .work] (by decide +kernel)
  obtain ⟨t, done, value⟩ := (Option.any_eq_true _ _).mp value
  exact ⟨s, t, run, done, by simpa using value, (crash_atomic rfl run last done).2⟩

end Xv6Monitor.Disk.Crash
