import Mathlib.Algebra.Order.BigOperators.Group.List
import Mathlib.Algebra.Order.Ring.Nat
import Mathlib.Algebra.Group.Action.Defs
import Xv6Monitor.Disk.Crash

/-! The reservation of log space. `begin_op` admits an operation when `LOGSIZE` slots cover what is
logged and `MAXOPBLOCKS` for each operation in progress, and operations that keep to their share
never need more. But the log that `mkfs` makes has only `LOGSIZE - 1` slots behind its header. -/

namespace Xv6Monitor.Disk.Reservation
open Function Lib.Transition Buffers Journal Recovery Commit Crash

variable {s t : Sys} {disk : Nat → Block}

/-- The distinct blocks that the operation of each thread has recorded, and whether no operation has
recorded more than `MAXOPBLOCKS`. -/
structure Ledger where
  used : Tid → List Nat
  within : Bool

def Ledger.record (l : Ledger) (w : Tid) (n : Nat) : Ledger :=
  let used := if n ∈ l.used w then l.used w else n :: l.used w
  ⟨update l.used w used, l.within && used.length ≤ MAXOPBLOCKS⟩

def note (x : Sys) (a : Action) (_ : Sys) (l : Ledger) : Ledger :=
  match a with
  | .beginOp w => { l with used := update l.used w [] }
  | .write w b _ => l.record w (x.cache.buf b).blockno
  | _ => l

def ledger (run : Run (journal .mkfs disk) s) : Ledger := run.fold note ⟨fun _ => [], true⟩

/-- The slots that the operations in progress may still need. -/
def reserved (s : Sys) (l : Ledger) : Nat := (s.ops.map fun w => MAXOPBLOCKS - (l.used w).length).sum

structure Reserved (s : Sys) (l : Ledger) : Prop where
  logged : ∀ w ∈ s.ops, ∀ n ∈ l.used w, n ∈ s.log.lh
  fits : l.within = true → s.log.lh.length + reserved s l ≤ LOGSIZE

theorem reserved_bound (s : Sys) (l : Ledger) : reserved s l ≤ s.ops.length * MAXOPBLOCKS := by
  have bound := List.sum_le_card_nsmul (s.ops.map fun w => MAXOPBLOCKS - (l.used w).length) MAXOPBLOCKS fun x mem => by
    obtain ⟨w, -, rfl⟩ := List.mem_map.mp mem
    omega
  simpa [reserved, smul_eq_mul] using bound

theorem record_other {l : Ledger} {w v : Tid} {n : Nat} (other : v ≠ w) : (l.record w n).used v = l.used v :=
  update_of_ne other ..

theorem record_self (l : Ledger) (w : Tid) (n : Nat) :
    (l.record w n).used w = if n ∈ l.used w then l.used w else n :: l.used w :=
  update_self ..

theorem record_length (l : Ledger) (w v : Tid) (n : Nat) : (l.used v).length ≤ ((l.record w n).used v).length := by
  by_cases here : v = w
  · rw [here, record_self]
    split
    · exact Nat.le_refl _
    · exact Nat.le_succ _
  · rw [record_other here]

/-- A block that is new to the log takes a slot from the share of the operation that records it. -/
theorem reserved_record {l : Ledger} {w : Tid} {n : Nat} (member : w ∈ s.ops) (new : n ∉ l.used w)
    (within : (l.record w n).within = true) : reserved s (l.record w n) < reserved s l := by
  have length : ((l.record w n).used w).length = (l.used w).length + 1 := by
    rw [record_self, if_neg new, List.length_cons]
  have share : (l.used w).length + 1 ≤ MAXOPBLOCKS := by
    simp only [Ledger.record, if_neg new, Bool.and_eq_true, decide_eq_true_eq] at within
    exact within.2
  refine List.sum_lt_sum _ _ (fun v _ => ?_) ⟨w, member, ?_⟩
  · have grows := record_length l w v n
    omega
  · omega

theorem reserved_le {l : Ledger} {w : Tid} {n : Nat} : reserved s (l.record w n) ≤ reserved s l := by
  refine List.sum_le_sum fun v _ => ?_
  have grows := record_length l w v n
  omega

theorem reserved_step {a : Action} {h : History} {l : Ledger} (inv : Consistent .mkfs s h) (good : Reserved s l)
    (done : step s a = some t) : Reserved t (note s a t l) := by
  have after := consistent_step inv done
  have short : t.log.lh.length < LOGSIZE := by
    have := after.placed.short
    rwa [after.size] at this
  have quiet : t.ops = [] → Reserved t (note s a t l) := by
    intro ended
    exact ⟨by simp [ended], fun _ => by simp [reserved, ended]; omega⟩
  cases a with
  | beginOp w =>
    simp only [step, Option.ite_none_left_eq_some, Option.map_eq_some_iff, Log.beginOp, Option.some.injEq] at done
    obtain ⟨fresh, log, ⟨-, room, rfl⟩, rfl⟩ := done
    refine ⟨fun v member n used => ?_, fun _ => ?_⟩
    · by_cases here : v = w
      · subst here
        simp [note] at used
      · simp only [note, update_of_ne here] at used
        exact good.logged v ((List.mem_cons.mp member).resolve_left here) n used
    · have bound := reserved_bound { s with
        log := { s.log with outstanding := s.log.outstanding + 1 }, ops := w :: s.ops } (note s (.beginOp w) s l)
      have count := inv.outstanding
      simp only [List.length_cons, ← count] at bound
      refine Nat.le_trans (Nat.add_le_add_left bound _) (Nat.le_of_not_lt ?_)
      exact room
  | bread w n =>
    simp only [step, Option.ite_none_left_eq_some, Option.map_eq_some_iff] at done
    obtain ⟨-, got, -, rfl⟩ := done
    exact ⟨good.logged, good.fits⟩
  | brelse w b =>
    simp only [step, Option.map_eq_some_iff] at done
    obtain ⟨cache, -, rfl⟩ := done
    exact ⟨good.logged, good.fits⟩
  | write w b data =>
    simp only [step, Option.ite_none_right_eq_some] at done
    obtain ⟨⟨member, -⟩, done⟩ := done
    split at done
    next log wrote =>
      cases done
      have lh : log.lh = if (s.cache.buf b).blockno ∈ s.log.lh then s.log.lh else s.log.lh ++ [(s.cache.buf b).blockno] :=
        congrArg Log.lh (Log.logWrite_ok wrote).2
      simp only [note]
      generalize (s.cache.buf b).blockno = n at lh
      constructor
      · intro v mem m used
        have old : ∀ m ∈ s.log.lh, m ∈ log.lh := by
          intro m mem
          rw [lh]
          split
          · exact mem
          · exact List.mem_append_left _ mem
        by_cases here : v = w
        · subst here
          rw [record_self] at used
          split at used
          · exact old m (good.logged v mem m used)
          rcases List.mem_cons.mp used with rfl | before
          · show m ∈ log.lh
            rw [lh]
            split
            · assumption
            · simp
          · exact old m (good.logged v mem m before)
        · rw [record_other here] at used
          exact old m (good.logged v mem m used)
      · intro within
        have before : l.within = true := (Bool.and_eq_true _ _ ▸ within).1
        have fits := good.fits before
        show log.lh.length + reserved s (l.record w n) ≤ LOGSIZE
        rw [lh]
        split
        next absorbed =>
          have less : reserved s (l.record w n) ≤ reserved s l := reserved_le
          omega
        next fresh =>
          have new : n ∉ l.used w := fun used => fresh (good.logged w member n used)
          have less := reserved_record member new within
          simp only [List.length_append, List.length_singleton]
          omega
    next => cases done
  | endOp w =>
    simp only [step, Option.ite_none_right_eq_some] at done
    obtain ⟨member, done⟩ := done
    have less : (((s.ops.erase w).map fun v => MAXOPBLOCKS - (l.used v).length)).sum ≤ reserved s l :=
      (List.erase_sublist.map _).sum_le_sum fun _ _ => Nat.zero_le _
    have same : ∀ log flag, s.log.endOp = .ok (log, flag) → log.lh = s.log.lh := by
      intro log flag ended
      simp only [Log.endOp] at ended
      split at ended
      · cases ended
      · split at ended <;> cases ended <;> rfl
    split at done
    next log flag ended =>
      cases done
      have lh := same log flag ended
      refine ⟨fun v mem n used => ?_, fun within => ?_⟩
      · show n ∈ log.lh
        rw [lh]
        exact good.logged v (List.mem_of_mem_erase mem) n used
      · have fits := good.fits within
        rw [lh]
        exact Nat.le_trans (Nat.add_le_add_left less _) fits
    next => cases done
  | work =>
    refine quiet ?_
    rw [(work_keeps done).1]
    by_contra busy
    simp only [step, work, (Consistent.running inv busy).1] at done
    cases done
  | crash =>
    cases done
    exact quiet rfl

theorem reserved_along (empty : disk 2 0 = 0) (run : Run (journal .mkfs disk) s) : Reserved s (ledger run) := by
  induction run with
  | nil => exact ⟨by simp [journal, reboot], fun _ => by simp [reserved, journal, reboot]⟩
  | snoc path _ moved ih => exact reserved_step (consistent_along empty path).1 ih moved

/-- The reservation, on the log that `mkfs` makes, in a run whose operations all keep to
`MAXOPBLOCKS` distinct blocks. What is logged and what running operations may still log fits
`LOGSIZE`; no block is logged twice; `end_op` does not panic; and `log_write` in an operation
panics exactly when `LOGSIZE - 1` blocks are logged already. -/
theorem log_reservation (empty : disk 2 0 = 0) (run : Run (journal .mkfs disk) s) (within : (ledger run).within = true) :
    s.log.lh.length + reserved s (ledger run) ≤ LOGSIZE ∧ s.log.lh.Nodup ∧
    ∀ w ∈ s.ops, (∃ result, s.log.endOp = .ok result) ∧
      ∀ n, (∃ log, s.log.logWrite n = .ok log) ↔ s.log.lh.length < LOGSIZE - 1 := by
  have inv := (consistent_along empty run).1
  have size : s.log.size = LOGSIZE := inv.size
  refine ⟨(reserved_along empty run).fits within, inv.placed.distinct, fun w member => ⟨?_, fun n => ?_⟩⟩
  · have free := (Consistent.running inv (List.ne_nil_of_mem member)).2.committing
    unfold Log.endOp
    simp only [free, Bool.false_eq_true, if_false]
    split <;> exact ⟨_, rfl⟩
  have busy : ¬s.log.outstanding < 1 := by
    have positive := List.length_pos_of_mem member
    rw [inv.outstanding]
    omega
  unfold Log.logWrite
  rw [if_neg busy]
  constructor
  · rintro ⟨log, wrote⟩
    split at wrote
    · cases wrote
    · omega
  · intro room
    rw [if_neg (by omega)]
    split <;> exact ⟨_, rfl⟩

/-- One operation that logs one block. -/
theorem log_reservation_one : ∃ s, ∃ run : Run (journal .mkfs fun _ _ => 0) s,
    (ledger run).within = true ∧ s.log.lh.length = 1 ∧ ∃ log, s.log.logWrite 41 = .ok log := by
  obtain ⟨s, run, within, member, length⟩ := execFold_path (M := journal .mkfs fun _ _ => 0) note
    (Q := fun s l => l.within = true ∧ 1 ∈ s.ops ∧ s.log.lh.length = 1)
    (s := (journal .mkfs fun _ _ => 0).init) (h := ⟨fun _ => [], true⟩)
    [.work, .work, .work, .beginOp 1, .bread 1 40, .write 1 ⟨1, by decide⟩ (fun _ => 7)] (by decide +kernel)
  refine ⟨s, run, within, length, ((log_reservation rfl run within).2.2 1 member).2 41 |>.mpr ?_⟩
  rw [length]
  decide

/-- Thread `k / 10` reads, modifies and logs block `40 + k`. -/
def logs (k : Fin 29) : List Action :=
  [.bread (k / 10) (40 + k), .write (k / 10) k.succ (fun _ => 7), .brelse (k / 10) k.succ]

/-- Three operations overlap and log ten, ten and nine blocks; the tenth of the third panics. -/
theorem log_write_thirtieth : ∃ s, ∃ run : Run (journal .mkfs fun _ _ => 0) s,
    (ledger run).within = true ∧ 2 ∈ s.ops ∧ ((ledger run).used 2).length < MAXOPBLOCKS ∧
    s.log.logWrite 69 = .error .tooBigATransaction := by
  obtain ⟨s, run, within, member, share, size, full⟩ := execFold_path (M := journal .mkfs fun _ _ => 0) note
    (Q := fun s l => l.within = true ∧ 2 ∈ s.ops ∧ (l.used 2).length < MAXOPBLOCKS ∧
      s.log.size = LOGSIZE ∧ s.log.lh.length = LOGSIZE - 1)
    (s := (journal .mkfs fun _ _ => 0).init) (h := ⟨fun _ => [], true⟩)
    ([.work, .work, .work, .beginOp 0, .beginOp 1, .beginOp 2] ++ (List.finRange 29).flatMap logs ++ [.bread 2 69])
    (by decide +kernel)
  refine ⟨s, run, within, member, share, ?_⟩
  rw [Log.logWrite, if_pos (by rw [full, size]; decide)]

end Xv6Monitor.Disk.Reservation
