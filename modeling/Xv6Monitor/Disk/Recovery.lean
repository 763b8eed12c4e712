import Xv6Monitor.Disk.Replay

/-! Transactions seen from outside: which updates each operation made, which transactions were
committed, and the invariant that ties them to the header in memory, the header and the blocks of
the log on disk, the home locations and the pinned buffers. -/

namespace Xv6Monitor.Disk.Recovery
open Lib.Redo Buffers Journal Replay

/-- A modification recorded with `log_write`, and the operation that made it. -/
structure Update where
  op : Nat
  blockno : Nat
  data : Block

def writes (updates : List Update) : List (Nat × Block) := updates.map fun u => (u.blockno, u.data)

/-- What has happened since the last recovery was complete. -/
structure History where
  /-- The disk that recovery left. -/
  base : Nat → Block
  /-- The transactions for which `commit` was called, in order. -/
  committed : List (List Update)
  current : List Update
  /-- How many of the calls of `commit` have returned. -/
  returned : Nat
  opOf : Tid → Nat
  nextOp : Nat

def History.start (disk : Nat → Block) : History := ⟨disk, [], [], 0, fun _ => 0, 0⟩

def History.close (h : History) : History := { h with committed := h.committed ++ [h.current], current := [] }

def observe (x : Sys) (a : Action) (y : Sys) (h : History) : History :=
  match a with
  | .beginOp t => { h with opOf := Function.update h.opOf t h.nextOp, nextOp := h.nextOp + 1 }
  | .write t b data => { h with current := h.current ++ [⟨h.opOf t, (x.cache.buf b).blockno, data⟩] }
  | .endOp _ =>
      if y.log.committing then h.close else h
  | .work =>
      if x.job = .erase true then { h with base := y.disk, committed := [], current := [], returned := 0 }
      else if y.job = .finish then { h with returned := h.returned + 1 }
      else h
  | _ => h

def History.after (h : History) (k : Nat) : Nat → Block := write (writes (h.committed.take k).flatten) h.base

/-- The home locations as running operations see them. -/
def History.logical (h : History) : Nat → Block := write (writes (h.committed.flatten ++ h.current)) h.base

variable {s t : Sys} {h : History} {log : Log} {disk : Nat → Block} {ops : List Tid} {pins : List Nat}

/-- The blocks that `log_write` has pinned and `install_trans` has not yet let go. -/
def pinned (job : Job) (log : Log) : List Nat :=
  match job with
  | .idle | .commit | .writeLog _ | .writeHead => log.lh
  | .install false tail => log.lh.drop tail
  | _ => []

def view (disk : Nat → Block) (pins : List Nat) (h : History) (n : Nat) : Block :=
  if n ∈ pins then h.logical n else disk n

/-- The disk can be recovered: it stands for a prefix of the transactions that has all those whose
`commit` has returned. -/
structure Durable (disk : Nat → Block) (log : Log) (h : History) : Prop where
  placed : Placed log (readHead (disk log.start))
  restores : ∃ k, h.returned ≤ k ∧ k ≤ h.committed.length ∧ ∀ n, log.home n → recovered log disk n = h.after k n

/-- Between operations, or while they run. -/
structure Running (disk : Nat → Block) (log : Log) (h : History) : Prop where
  committing : log.committing = false
  empty : readHead (disk log.start) = []
  settled : ∀ n, log.home n → disk n = h.after h.committed.length n
  returned : h.returned = h.committed.length
  dirty : ∀ n, n ∈ log.lh ↔ ∃ u ∈ h.current, u.blockno = n

/-- Inside `commit`, for the last transaction. -/
structure Committing (disk : Nat → Block) (log : Log) (ops : List Tid) (pins : List Nat) (h : History) : Prop where
  committing : log.committing = true
  ops : ops = []
  current : h.current = []
  returned : h.returned + 1 = h.committed.length
  clean : ∀ n, log.home n → n ∉ pins → disk n = h.logical n

/-- The first `k` blocks of the log are written. -/
def Copied (disk : Nat → Block) (log : Log) (h : History) (k : Nat) : Prop :=
  ∀ i n, i < k → log.lh[i]? = some n → disk (log.start + i + 1) = h.logical n

/-- Before the header is written, the transaction is not there. -/
structure Pending (disk : Nat → Block) (log : Log) (h : History) (k : Nat) : Prop where
  empty : readHead (disk log.start) = []
  settled : ∀ n, log.home n → disk n = h.after (h.committed.length - 1) n
  copied : Copied disk log h k

/-- Once the header is written, it is. -/
structure Committed (disk : Nat → Block) (log : Log) (h : History) : Prop where
  header : readHead (disk log.start) = log.lh
  copied : Copied disk log h log.lh.length

/-- `commit` has returned. -/
structure Returned (disk : Nat → Block) (log : Log) (ops : List Tid) (h : History) : Prop where
  committing : log.committing = true
  ops : ops = []
  current : h.current = []
  erased : log.lh = []
  empty : readHead (disk log.start) = []
  returned : h.returned = h.committed.length
  settled : ∀ n, log.home n → disk n = h.after h.committed.length n

/-- In `recover_from_log`. -/
structure Restoring (disk : Nat → Block) (log : Log) (ops : List Tid) (h : History) : Prop where
  committing : log.committing = false
  ops : ops = []
  durable : Durable disk log h

/-- `install_trans` has installed the first `k` entries. -/
structure Installed (disk : Nat → Block) (log : Log) (h : History) (k : Nat) : Prop where
  header : log.lh = readHead (disk log.start)
  restores : ∃ j, h.returned ≤ j ∧ j ≤ h.committed.length ∧ ∀ n, log.home n →
    recovered log disk n = h.after j n ∧ write ((entries log disk).drop k) disk n = h.after j n

def Stage (disk : Nat → Block) (log : Log) (ops : List Tid) (h : History) (job : Job) : Prop :=
  match job with
  | .idle => Running disk log h
  | .commit => Committing disk log ops log.lh h ∧ Pending disk log h 0
  | .writeLog tail => Committing disk log ops log.lh h ∧ Pending disk log h tail
  | .writeHead => Committing disk log ops log.lh h ∧ Pending disk log h log.lh.length
  | .install false tail => Committing disk log ops (log.lh.drop tail) h ∧ Committed disk log h
  | .erase false => Committing disk log ops [] h ∧ Committed disk log h
  | .finish => Returned disk log ops h
  | .readHead => Restoring disk log ops h
  | .install true tail => Restoring disk log ops h ∧ Installed disk log h tail
  | .erase true => Restoring disk log ops h ∧ Installed disk log h log.lh.length

structure Consistent (layout : Layout) (s : Sys) (h : History) : Prop where
  start : s.log.start = layout.start
  size : s.log.size = layout.size
  placed : Placed s.log s.log.lh
  outstanding : s.log.outstanding = s.ops.length
  sound : Sound s.cache (view s.disk (pinned s.job s.log) h) (pinned s.job s.log)
  stage : Stage s.disk s.log s.ops h s.job

theorem logical_settled (current : h.current = []) : h.logical = h.after h.committed.length := by
  simp [History.logical, History.after, current]

/-- Where the running operations wrote nothing, the last transaction is what they see. -/
theorem logical_other {n : Nat} (untouched : ∀ u ∈ h.current, u.blockno ≠ n) :
    h.logical n = h.after h.committed.length n := by
  unfold History.logical History.after
  rw [writes, List.map_append, write_append, write_other, List.take_length]
  · rfl
  · intro w mem
    obtain ⟨u, made, rfl⟩ := List.mem_map.mp mem
    exact untouched u made

theorem logical_push (h : History) (u : Update) :
    History.logical { h with current := h.current ++ [u] } = Function.update h.logical u.blockno u.data := by
  simp [History.logical, writes, write_append]

theorem logical_close (h : History) : h.close.logical = h.logical := by
  simp [History.logical, History.close]

theorem after_close (h : History) : h.close.after h.committed.length = h.after h.committed.length := by
  simp [History.after, History.close]

theorem view_clean (disk : Nat → Block) (pins : List Nat) (h : History) (m : Nat) (loose : m ∉ pins) :
    view disk pins h m = disk m := if_neg loose

section Positions

variable {layout : Layout}

theorem Consistent.start_out (inv : Consistent layout s h) : ¬s.log.home s.log.start := by
  have room := layout.header
  rw [← inv.size] at room
  unfold Log.home
  omega

theorem Consistent.slot_out (inv : Consistent layout s h) {i : Nat} (inside : i < s.log.lh.length) :
    ¬s.log.home (s.log.start + i + 1) := by
  have short := inv.placed.short
  unfold Log.home
  omega

/-- After the commit point recovery completes the transaction. -/
theorem Committed.recovers (committed : Committed disk log h)
    (clean : ∀ n, log.home n → n ∉ log.lh → disk n = h.logical n) {n : Nat} (home : log.home n) :
    recovered log disk n = h.logical n := by
  have value : ∀ w ∈ entries log disk, w.2 = h.logical w.1 := by
    intro w mem
    obtain ⟨i, found, value⟩ := mem_entries.mp mem
    rw [committed.header] at found
    obtain ⟨inside, -⟩ := List.getElem?_eq_some_iff.mp found
    rw [value]
    exact committed.copied i w.1 inside found
  by_cases mem : n ∈ log.lh
  · refine write_value ?_ (fun w mem here => by rw [value w mem, here]) _
    obtain ⟨i, found⟩ := List.mem_iff_getElem?.mp mem
    exact ⟨(n, disk (log.start + i + 1)), mem_entries.mpr ⟨i, by rw [committed.header]; exact found, rfl⟩, rfl⟩
  rw [recovered, write_other, clean n home mem]
  intro w present here
  obtain ⟨i, found, -⟩ := mem_entries.mp present
  rw [committed.header, here] at found
  exact mem (List.mem_of_getElem? found)

/-- Whatever the kernel is doing, the disk can be recovered. -/
theorem Consistent.durable (inv : Consistent layout s h) : Durable s.disk s.log h := by
  have stage := inv.stage
  have unlogged : readHead (s.disk s.log.start) = [] → ∀ k, h.returned ≤ k → k ≤ h.committed.length →
      (∀ n, s.log.home n → s.disk n = h.after k n) → Durable s.disk s.log h := by
    intro empty k low high settled
    refine ⟨by rw [empty]; exact ⟨by rw [inv.size]; exact layout.header, by simp, List.nodup_nil⟩, k, low, high, ?_⟩
    rw [recovered_nil empty]
    exact settled
  have logged : ∀ pins, (∀ n ∈ pins, n ∈ s.log.lh) → Committing s.disk s.log s.ops pins h →
      Committed s.disk s.log h → Durable s.disk s.log h := by
    intro pins sub committing committed
    refine ⟨by rw [committed.header]; exact inv.placed, h.committed.length, ?_, Nat.le_refl _, fun n home => ?_⟩
    · have := committing.returned
      omega
    · rw [← logical_settled committing.current]
      exact committed.recovers (fun m home out => committing.clean m home fun mem => out (sub m mem)) home
  unfold Stage at stage
  split at stage
  · exact unlogged stage.empty _ (Nat.le_of_eq stage.returned) (Nat.le_refl _) stage.settled
  · have := stage.1.returned
    exact unlogged stage.2.empty _ (by omega) (by omega) stage.2.settled
  · have := stage.1.returned
    exact unlogged stage.2.empty _ (by omega) (by omega) stage.2.settled
  · have := stage.1.returned
    exact unlogged stage.2.empty _ (by omega) (by omega) stage.2.settled
  · exact logged _ (fun n mem => List.mem_of_mem_drop mem) stage.1 stage.2
  · exact logged [] (by simp) stage.1 stage.2
  · exact unlogged stage.empty _ (Nat.le_of_eq stage.returned) (Nat.le_refl _) stage.settled
  · exact stage.durable
  · exact stage.1.durable
  · exact stage.1.durable

end Positions

end Xv6Monitor.Disk.Recovery
