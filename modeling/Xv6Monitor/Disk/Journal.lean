import Xv6Monitor.Lib.Transition
import Xv6Monitor.Disk.Buffers

/-! The log, `kernel/log.c`, over the buffer cache and a disk. Threads begin and end operations and
lock, change and release buffers in any order; the last operation to end commits. One step of
`commit` or `recover_from_log` is one iteration of its loops: the buffers an iteration uses are
locked from its `bread` to its `brelse`, and it ends with one disk write. The machine may crash
between any two steps; what is left is the disk. -/

namespace Xv6Monitor.Disk.Journal
open Lib.Transition Buffers

abbrev Block := Nat → Nat

def readHead (data : Block) : List Nat := (List.range (data 0)).map fun i => data (i + 1)

/-- A header block with `n` and `block[0..n)` stored; the words behind them stay. -/
def storeHead (blocks : List Nat) (data : Block) : Block
  | 0 => blocks.length
  | i + 1 => blocks.getD i (data (i + 1))

theorem readHead_storeHead (blocks : List Nat) (data : Block) : readHead (storeHead blocks data) = blocks := by
  apply List.ext_getElem
  · simp [readHead, storeHead]
  · intro i short inside
    simp [readHead, storeHead, inside]

def LOGSIZE : Nat := MAXOPBLOCKS * 3

/-- `struct log`, with `lh.block[0..lh.n)` as a list. -/
structure Log where
  start : Nat
  size : Nat
  outstanding : Nat
  committing : Bool
  lh : List Nat

inductive Panic where
  | tooBigATransaction
  | outsideOfTrans
  | committing
  deriving DecidableEq, Repr

/-- `begin_op`, which sleeps while it has no result. -/
def Log.beginOp (log : Log) : Option Log :=
  if log.committing then none
  else if LOGSIZE < log.lh.length + (log.outstanding + 1) * MAXOPBLOCKS then none
  else some { log with outstanding := log.outstanding + 1 }

/-- The first part of `end_op`, with `do_commit`. -/
def Log.endOp (log : Log) : Except Panic (Log × Bool) :=
  let outstanding := log.outstanding - 1
  if log.committing then .error .committing
  else if outstanding = 0 then .ok ({ log with outstanding := outstanding, committing := true }, true)
  else .ok ({ log with outstanding := outstanding }, false)

def Log.logWrite (log : Log) (blockno : Nat) : Except Panic Log :=
  if LOGSIZE ≤ log.lh.length ∨ log.size - 1 ≤ log.lh.length then .error .tooBigATransaction
  else if log.outstanding < 1 then .error .outsideOfTrans
  -- log absorption
  else if blockno ∈ log.lh then .ok log
  else .ok { log with lh := log.lh ++ [blockno] }

theorem Log.logWrite_ok {log log' : Log} {n : Nat} (done : log.logWrite n = .ok log') :
    log.lh.length < log.size - 1 ∧ log' = { log with lh := if n ∈ log.lh then log.lh else log.lh ++ [n] } := by
  unfold Log.logWrite at done
  split at done
  · exact nomatch done
  next room =>
    split at done
    · exact nomatch done
    refine ⟨by omega, ?_⟩
    split at done
    next old =>
      cases done
      rw [if_pos old]
    next new =>
      cases done
      rw [if_neg new]

/-- Where the thread is that commits, or that recovers at boot. -/
inductive Job where
  | idle
  | commit
  | writeLog (tail : Nat)
  | writeHead
  | install (recovering : Bool) (tail : Nat)
  | erase (recovering : Bool)
  | finish
  | readHead
  deriving DecidableEq, Repr

def Job.recovering : Job → Bool
  | .readHead | .install true _ | .erase true => true
  | _ => false

structure Sys where
  disk : Nat → Block
  cache : Bcache Block
  log : Log
  job : Job
  worker : Tid
  /-- The threads between `begin_op` and `end_op`. -/
  ops : List Tid

/-- Where the super block puts the log. Its first block is the header. -/
structure Layout where
  start : Nat
  size : Nat
  header : 0 < size

/-- The super block that `mkfs` writes: `nlog = LOGSIZE`. -/
def Layout.mkfs : Layout := ⟨2, LOGSIZE, by decide⟩

def Log.home (log : Log) (n : Nat) : Prop := n < log.start ∨ log.start + log.size ≤ n

instance (log : Log) (n : Nat) : Decidable (log.home n) := inferInstanceAs (Decidable (_ ∨ _))

inductive Action where
  | beginOp (t : Tid)
  | bread (t : Tid) (n : Nat)
  | write (t : Tid) (b : Handle) (data : Block)
  | brelse (t : Tid) (b : Handle)
  | endOp (t : Tid)
  | work
  | crash

def writeLogBlock (s : Sys) (tail n : Nat) : Option Sys := do
  let (dst, cache) ← bread s.disk s.cache s.worker ROOTDEV (s.log.start + tail + 1)
  let (src, cache) ← bread s.disk cache s.worker ROOTDEV n
  let cache := memmove cache dst (cache.buf src).data
  let disk ← bwrite s.disk cache s.worker dst
  let cache ← brelse cache s.worker src
  let cache ← brelse cache s.worker dst
  some { s with disk := disk, cache := cache }

def writeHead (s : Sys) : Option Sys := do
  let (b, cache) ← bread s.disk s.cache s.worker ROOTDEV s.log.start
  let cache := memmove cache b (storeHead s.log.lh (cache.buf b).data)
  let disk ← bwrite s.disk cache s.worker b
  let cache ← brelse cache s.worker b
  some { s with disk := disk, cache := cache }

def installBlock (s : Sys) (recovering : Bool) (tail n : Nat) : Option Sys := do
  let (lbuf, cache) ← bread s.disk s.cache s.worker ROOTDEV (s.log.start + tail + 1)
  let (dbuf, cache) ← bread s.disk cache s.worker ROOTDEV n
  let cache := memmove cache dbuf (cache.buf lbuf).data
  let disk ← bwrite s.disk cache s.worker dbuf
  let cache := if recovering then cache else bunpin cache dbuf
  let cache ← brelse cache s.worker lbuf
  let cache ← brelse cache s.worker dbuf
  some { s with disk := disk, cache := cache }

def readHeadBlock (s : Sys) : Option Sys := do
  let (b, cache) ← bread s.disk s.cache s.worker ROOTDEV s.log.start
  let lh := readHead (cache.buf b).data
  let cache ← brelse cache s.worker b
  some { s with cache := cache, log := { s.log with lh := lh } }

def Sys.goto (s : Sys) (job : Job) : Sys := { s with job := job }

def work (s : Sys) : Option Sys :=
  match s.job with
  | .idle => none
  | .commit => some (s.goto (if 0 < s.log.lh.length then .writeLog 0 else .finish))
  | .writeLog tail =>
      match s.log.lh[tail]? with
      | some n => (writeLogBlock s tail n).map (·.goto (.writeLog (tail + 1)))
      | none => some (s.goto .writeHead)
  | .writeHead => (writeHead s).map (·.goto (.install false 0))
  | .install recovering tail =>
      match s.log.lh[tail]? with
      | some n => (installBlock s recovering tail n).map (·.goto (.install recovering (tail + 1)))
      | none => some (s.goto (.erase recovering))
  | .erase recovering =>
      (writeHead { s with log := { s.log with lh := [] } }).map (·.goto (if recovering then .idle else .finish))
  | .finish => some { s with log := { s.log with committing := false }, job := .idle }
  | .readHead => (readHeadBlock s).map (·.goto (.install true 0))

def reboot (start size : Nat) (disk : Nat → Block) : Sys where
  disk := disk
  cache := binit fun _ => 0
  log := ⟨start, size, 0, false, []⟩
  job := .readHead
  worker := 0
  ops := []

def step (s : Sys) : Action → Option Sys
  | .beginOp t =>
      if s.job.recovering ∨ t ∈ s.ops then none
      else s.log.beginOp.map fun log => { s with log := log, ops := t :: s.ops }
  | .bread t n =>
      if s.job.recovering then none
      else (bread s.disk s.cache t ROOTDEV n).map fun got => { s with cache := got.2 }
  | .write t b data =>
      -- modify b->data; log_write(b)
      let n := (s.cache.buf b).blockno
      if t ∈ s.ops ∧ (s.cache.buf b).lock = some t ∧ (s.cache.buf b).dev = ROOTDEV ∧ s.log.home n then
        match s.log.logWrite n with
        | .ok log =>
            let cache := memmove s.cache b data
            some { s with log := log, cache := if n ∈ s.log.lh then cache else bpin cache b }
        | .error _ => none
      else none
  | .brelse t b => (brelse s.cache t b).map fun cache => { s with cache := cache }
  | .endOp t =>
      if t ∈ s.ops then
        match s.log.endOp with
        | .ok (log, doCommit) =>
            some { s with
              log := log, ops := s.ops.erase t, worker := t
              job := if doCommit then .commit else s.job }
        | .error _ => none
      else none
  | .work => work s
  | .crash => some (reboot s.log.start s.log.size s.disk)

def journal (layout : Layout) (disk : Nat → Block) : Machine Sys Action :=
  ⟨reboot layout.start layout.size disk, step⟩

end Xv6Monitor.Disk.Journal
