import Xv6Monitor.Lib.Links
import Xv6Monitor.Lib.Program
import Xv6Monitor.Disk.Journal
import Xv6Monitor.Process.Table

/-! The buffer cache and the log, `kernel/bio.c` and `kernel/log.c`, with every interleaving of the processes.
What a process does under `bcache.lock` is one step, and so are taking and releasing a sleep-lock and the transfer
of a block; a process may wait for the lock of a buffer that it has counted. The commit is made of such steps too. -/

namespace Xv6Monitor.Disk.Concurrent
open Function Lib.Links Lib.Program Lib.Transition Process.Table
open Buffers (NBUF ROOTDEV Handle)
open Journal (Block Log Layout readHead storeHead)

/-- `struct buf *` as a link of the list, where `none` is `&bcache.head`. -/
abbrev Node : Type := Option Handle

structure Links where
  next : Node → Node
  prev : Node → Node

/-- `b->next->prev = b->prev; b->prev->next = b->next` -/
def Links.unlink (l : Links) (b : Handle) : Links :=
  let l := { l with prev := update l.prev (l.next b) (l.prev b) }
  { l with next := update l.next (l.prev b) (l.next b) }

/-- `b->next = head.next; b->prev = &head; head.next->prev = b; head.next = b` -/
def Links.push (l : Links) (b : Handle) : Links :=
  let l := { l with next := update l.next b (l.next none) }
  let l := { l with prev := update l.prev b none }
  let l := { l with prev := update l.prev (l.next none) b }
  { l with next := update l.next none b }

/-- `for(b = head.next; b != &head; b = b->next)` up to the first buffer that is wanted, and the same with `prev`. -/
def search (next : Node → Node) (wanted : Handle → Bool) : Option Handle :=
  (walk next (fun b => b.all wanted) (NBUF + 1) (next none)).join

structure Buf where
  dev : Nat
  blockno : Nat
  valid : Bool
  refcnt : Nat
  /-- The process that holds the sleep-lock. -/
  lock : Option Slot
  data : Block

/-- Where a process is in `bread` of block `n`, or in `brelse`. -/
inductive Pc where
  | ready
  /-- In `acquiresleep` of `bget`. -/
  | locking (b : Handle) (n : Nat)
  /-- In `virtio_disk_rw` of `bread`. -/
  | filling (b : Handle) (n : Nat)
  /-- In `brelse`, with the lock released. -/
  | dropping (b : Handle)
  deriving DecidableEq

structure Cache where
  buf : Handle → Buf
  links : Links
  pc : Slot → Pc
  /-- The buffers that were changed and neither logged nor written since. -/
  dirty : Handle → Bool

@[simps] def Cache.put (c : Cache) (b : Handle) (entry : Buf) : Cache := { c with buf := update c.buf b entry }

@[simps] def Cache.goto (c : Cache) (p : Slot) (pc : Pc) : Cache := { c with pc := update c.pc p pc }

@[simps] def Cache.mark (c : Cache) (b : Handle) (dirty : Bool) : Cache := { c with dirty := update c.dirty b dirty }

def binit : Cache where
  buf := fun _ => ⟨0, 0, false, 0, none, fun _ => 0⟩
  links := (List.finRange NBUF).foldl Links.push ⟨fun _ => none, fun _ => none⟩
  pc := fun _ => .ready
  dirty := fun _ => false

def Cache.bget (c : Cache) (p : Slot) (n : Nat) : Option (Handle × Cache) :=
  match search c.links.next fun b => (c.buf b).dev = ROOTDEV ∧ (c.buf b).blockno = n with
  | some b => some (b, (c.put b { c.buf b with refcnt := (c.buf b).refcnt + 1 }).goto p (.locking b n))
  | none =>
    match search c.links.prev fun b => (c.buf b).refcnt = 0 with
    | some b =>
      some (b, (c.put b { c.buf b with dev := ROOTDEV, blockno := n, valid := false, refcnt := 1 }).goto p (.locking b n))
    | none => none

def Cache.acquiresleep (c : Cache) (p : Slot) : Option Cache :=
  match c.pc p with
  | .locking b n =>
    if (c.buf b).lock = none then
      some ((c.put b { c.buf b with lock := some p }).goto p (if (c.buf b).valid then .ready else .filling b n))
    else none
  | _ => none

def Cache.fill (disk : Nat → Block) (c : Cache) (p : Slot) : Option Cache :=
  match c.pc p with
  | .filling b _ => some ((c.put b { c.buf b with data := disk (c.buf b).blockno, valid := true }).goto p .ready)
  | _ => none

def Cache.releasesleep (c : Cache) (p : Slot) (b : Handle) : Cache :=
  (c.put b { c.buf b with lock := none }).goto p (.dropping b)

def Cache.drop (c : Cache) (p : Slot) : Option Cache :=
  match c.pc p with
  | .dropping b =>
    let refcnt := (c.buf b).refcnt - 1
    let links := if refcnt = 0 then (c.links.unlink b).push b else c.links
    some (({ c with links := links }.put b { c.buf b with refcnt := refcnt }).goto p .ready)
  | _ => none

def Cache.bpin (c : Cache) (b : Handle) : Cache := c.put b { c.buf b with refcnt := (c.buf b).refcnt + 1 }

def Cache.bunpin (c : Cache) (b : Handle) : Cache := c.put b { c.buf b with refcnt := (c.buf b).refcnt - 1 }

def Cache.memmove (c : Cache) (b : Handle) (data : Block) : Cache := (c.put b { c.buf b with data := data }).mark b true

/-- Where an iteration of `write_log` or `install_trans` is, with its buffers of the log and of the home block. -/
inductive Copying where
  | start
  | first (l : Handle)
  | both (l d : Handle)
  | copied (l d : Handle)
  | written (l d : Handle)
  | released (b : Handle)
  deriving DecidableEq

inductive Heading where
  | start
  | first (b : Handle)
  | filled (b : Handle)
  | written (b : Handle)
  deriving DecidableEq

/-- Where the process is that commits, or that recovers at boot. -/
inductive Job where
  | idle
  | readHead
  | loadHead (b : Handle)
  | commit
  | writeLog (tail : Nat) (place : Copying)
  | writeHead (place : Heading)
  | install (recovering : Bool) (tail : Nat) (place : Copying)
  | erase (recovering : Bool) (place : Heading)
  | finish
  deriving DecidableEq

def Job.recovering : Job → Bool
  | .readHead | .loadHead _ | .install true _ _ | .erase true _ => true
  | _ => false

inductive Panic where
  | noBuffers
  | brelse
  | bwrite
  | log (reason : Journal.Panic)
  deriving DecidableEq

structure Sys where
  disk : Nat → Block
  cache : Cache
  log : Log
  job : Job
  worker : Slot
  /-- The processes between `begin_op` and `end_op`. -/
  ops : List Slot
  panicked : Option Panic

abbrev Section (α : Type) : Type := Prog Panic Sys α

def bget (p : Slot) (n : Nat) : Section Handle := do
  let s ← get
  match s.cache.bget p n with
  | some (b, cache) => do
    set { s with cache := cache }
    pure b
  | none => stop .noBuffers

def bwrite (p : Slot) (b : Handle) : Section Unit := do
  let s ← get
  let entry := s.cache.buf b
  if entry.lock = some p then
    set { s with disk := update s.disk entry.blockno entry.data, cache := s.cache.mark b false }
  else stop .bwrite

def brelse (p : Slot) (b : Handle) : Section Unit := do
  let s ← get
  if (s.cache.buf b).lock = some p then set { s with cache := s.cache.releasesleep p b } else stop .brelse

def memmove (b : Handle) (data : Block) : Section Unit := modify fun s => { s with cache := s.cache.memmove b data }

def bunpin (b : Handle) : Section Unit := modify fun s => { s with cache := s.cache.bunpin b }

def logWrite (b : Handle) : Section Unit := do
  let s ← get
  let n := (s.cache.buf b).blockno
  match s.log.logWrite n with
  | .ok log =>
    set { s with log := log, cache := (if n ∈ s.log.lh then s.cache else s.cache.bpin b).mark b false }
  | .error reason => stop (.log reason)

def goto (job : Job) : Section Unit := modify fun s => { s with job := job }

def writeLog (tail : Nat) : Copying → Section Unit
  | .start => do
    let s ← get
    if tail < s.log.lh.length then do
      let l ← bget s.worker (s.log.start + tail + 1)
      goto (.writeLog tail (.first l))
    else goto (.writeHead .start)
  | .first l => do
    let s ← get
    let d ← bget s.worker (s.log.lh.getD tail 0)
    goto (.writeLog tail (.both l d))
  | .both l d => do
    let s ← get
    memmove l (s.cache.buf d).data
    goto (.writeLog tail (.copied l d))
  | .copied l d => do
    let s ← get
    bwrite s.worker l
    goto (.writeLog tail (.written l d))
  | .written l d => do
    let s ← get
    brelse s.worker d
    goto (.writeLog tail (.released l))
  | .released l => do
    let s ← get
    brelse s.worker l
    goto (.writeLog (tail + 1) .start)

/-- An iteration of `install_trans`. The buffer that `bunpin` counts down is locked until its `brelse`. -/
def install (recovering : Bool) (tail : Nat) : Copying → Section Unit
  | .start => do
    let s ← get
    if tail < s.log.lh.length then do
      let l ← bget s.worker (s.log.start + tail + 1)
      goto (.install recovering tail (.first l))
    else do
      -- log.lh.n = 0
      modify fun s => { s with log := { s.log with lh := [] } }
      goto (.erase recovering .start)
  | .first l => do
    let s ← get
    let d ← bget s.worker (s.log.lh.getD tail 0)
    goto (.install recovering tail (.both l d))
  | .both l d => do
    let s ← get
    memmove d (s.cache.buf l).data
    goto (.install recovering tail (.copied l d))
  | .copied l d => do
    let s ← get
    bwrite s.worker d
    goto (.install recovering tail (.written l d))
  | .written l d => do
    let s ← get
    if recovering then pure () else bunpin d
    brelse s.worker l
    goto (.install recovering tail (.released d))
  | .released d => do
    let s ← get
    brelse s.worker d
    goto (.install recovering (tail + 1) .start)

def writeHead (next : Job) (here : Heading → Job) : Heading → Section Unit
  | .start => do
    let s ← get
    let b ← bget s.worker s.log.start
    goto (here (.first b))
  | .first b => do
    let s ← get
    memmove b (storeHead s.log.lh (s.cache.buf b).data)
    goto (here (.filled b))
  | .filled b => do
    let s ← get
    bwrite s.worker b
    goto (here (.written b))
  | .written b => do
    let s ← get
    brelse s.worker b
    goto next

def work : Job → Section Unit
  | .idle => pure ()
  | .readHead => do
    let s ← get
    let b ← bget s.worker s.log.start
    goto (.loadHead b)
  | .loadHead b => do
    modify fun s => { s with log := { s.log with lh := readHead (s.cache.buf b).data } }
    let s ← get
    brelse s.worker b
    goto (.install true 0 .start)
  | .commit => do
    let s ← get
    if 0 < s.log.lh.length then goto (.writeLog 0 .start) else goto .finish
  | .writeLog tail place => writeLog tail place
  | .writeHead place => writeHead (.install false 0 .start) .writeHead place
  | .install recovering tail place => install recovering tail place
  | .erase recovering place => writeHead (if recovering then .idle else .finish) (.erase recovering) place
  | .finish => do
    modify fun s => { s with log := { s.log with committing := false } }
    goto .idle

inductive Action where
  | beginOp (p : Slot)
  | bread (p : Slot) (n : Nat)
  | acquiresleep (p : Slot)
  | fill (p : Slot)
  | change (p : Slot) (b : Handle) (data : Block)
  | logWrite (p : Slot) (b : Handle)
  | brelse (p : Slot) (b : Handle)
  | drop (p : Slot)
  | endOp (p : Slot)
  | work

def Sys.idle (s : Sys) (p : Slot) : Prop :=
  s.cache.pc p = .ready ∧ (s.job = .idle ∨ s.worker ≠ p) ∧ s.job.recovering = false

instance (s : Sys) (p : Slot) : Decidable (s.idle p) := inferInstanceAs (Decidable (_ ∧ _))

/-- The process has the lock of a buffer of a block that is not in the log. -/
def Sys.holds (s : Sys) (p : Slot) (b : Handle) : Prop :=
  (s.cache.buf b).lock = some p ∧ s.log.home (s.cache.buf b).blockno

instance (s : Sys) (p : Slot) (b : Handle) : Decidable (s.holds p b) := inferInstanceAs (Decidable (_ ∧ _))

def Sys.exec (s : Sys) (x : Section Unit) : Sys :=
  match x s with
  | .ok (_, t) => t
  | .error e => { s with panicked := some e }

def act (s : Sys) : Action → Option Sys
  | .beginOp p =>
    if s.idle p ∧ p ∉ s.ops then s.log.beginOp.map fun log => { s with log := log, ops := p :: s.ops } else none
  | .bread p n => if s.idle p then some (s.exec do let _ ← bget p n) else none
  | .acquiresleep p => (s.cache.acquiresleep p).map fun cache => { s with cache := cache }
  | .fill p => (s.cache.fill s.disk p).map fun cache => { s with cache := cache }
  | .change p b data =>
    if s.idle p ∧ p ∈ s.ops ∧ s.holds p b then some { s with cache := s.cache.memmove b data } else none
  | .logWrite p b => if s.idle p ∧ p ∈ s.ops ∧ s.holds p b then some (s.exec (logWrite b)) else none
  | .brelse p b =>
    if s.idle p ∧ (s.cache.buf b).lock = some p ∧ s.cache.dirty b = false then some (s.exec (brelse p b)) else none
  | .drop p => (s.cache.drop p).map fun cache => { s with cache := cache }
  | .endOp p =>
    -- what was changed has been logged
    if s.idle p ∧ p ∈ s.ops ∧ ∀ b, (s.cache.buf b).lock = some p → s.cache.dirty b = false then
      match s.log.endOp with
      | .ok (log, doCommit) =>
        some { s with
          log := log, ops := s.ops.erase p, worker := if doCommit then p else s.worker
          job := if doCommit then .commit else s.job }
      | .error reason => some { s with panicked := some (.log reason) }
    else none
  | .work => if s.cache.pc s.worker = .ready ∧ s.job ≠ .idle then some (s.exec (work s.job)) else none

def step (s : Sys) (a : Action) : Option Sys := if s.panicked = none then act s a else none

/-- A disk on which no transaction waits to be installed. -/
structure Clean (layout : Layout) where
  disk : Nat → Block
  clean : readHead (disk layout.start) = []

def boot (layout : Layout) (disk : Nat → Block) : Sys where
  disk := disk
  cache := binit
  log := ⟨layout.start, layout.size, 0, false, []⟩
  job := .readHead
  worker := 0
  ops := []
  panicked := none

def machine (layout : Layout) (start : Clean layout) : Machine Sys Action := ⟨boot layout start.disk, step⟩

end Xv6Monitor.Disk.Concurrent
