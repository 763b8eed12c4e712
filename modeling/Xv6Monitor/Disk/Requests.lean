import Xv6Monitor.Lib.Program
import Xv6Monitor.Lib.Ring
import Xv6Monitor.Lib.Transition

/-! The driver of the disk, `kernel/virtio_disk.c`, and the device on the other side of the two rings.
A process runs `virtio_disk_rw` in steps that end where the device must see a new entry or where it sleeps;
the interrupt handler takes a round of its loop in a step, and the device works at any time. -/

namespace Xv6Monitor.Disk.Requests
open Function (update)
open Lib.Program Lib.Ring Lib.Transition

/-- `kernel/virtio.h` -/
def NUM : Nat := 8
def VRING_DESC_F_NEXT : UInt16 := 1
def VRING_DESC_F_WRITE : UInt16 := 2
def VIRTIO_BLK_T_IN : Nat := 0
def VIRTIO_BLK_T_OUT : Nat := 1

def BSIZE : Nat := 1024

inductive Addr where
  | null
  | op (i : Nat)
  | data (b : Nat)
  | status (i : Nat)
  deriving DecidableEq

structure Desc where
  addr : Addr
  len : Nat
  flags : UInt16
  next : Nat

structure BlkReq where
  type : Nat
  sector : BitVec 64

structure Info where
  b : Option Nat
  status : UInt8

structure Idx where
  i0 : Nat
  i1 : Nat
  i2 : Nat
  deriving DecidableEq

def Idx.toList (idx : Idx) : List Nat := [idx.i0, idx.i1, idx.i2]

inductive Thread where
  | idle
  /-- It has not got its descriptors. -/
  | calling (b : Nat) (blockno : BitVec 32) (write : Bool)
  /-- Its request is in the ring, but the index is not moved yet. -/
  | publishing (b : Nat) (idx : Idx)
  /-- The device has been told. -/
  | submitted (b : Nat) (idx : Idx)
  deriving DecidableEq

inductive Holder where
  | process (p : Nat)
  | handler
  deriving DecidableEq

inductive Panic where
  | freeDesc1
  | freeDesc2
  | status
  /-- The handler follows a null pointer. -/
  | null
  deriving DecidableEq

structure Sys where
  desc : Nat → Desc
  /-- `avail->ring` and `avail->idx` -/
  ring : Nat → Nat
  avail : BitVec 16
  /-- `used->ring` and `used->idx` -/
  usedRing : Nat → Nat
  used : BitVec 16
  free : Nat → Bool
  usedIdx : BitVec 16
  info : Nat → Info
  ops : Nat → BlkReq
  /-- The field `disk` of every buffer. -/
  disk : Nat → Bool
  /-- The holder of the sleep lock of every buffer. -/
  owner : Nat → Option Nat
  /-- `vdisk_lock` -/
  lock : Option Holder
  thread : Nat → Thread
  asleep : Nat → Bool
  /-- How far the device has read the ring, and the requests that it works on. -/
  seen : BitVec 16
  device : List Nat
  panicked : Option Panic

abbrev DiskProg (α : Type) : Type := Prog Panic Sys α

def Sys.put (s : Sys) (p : Nat) (t : Thread) : Sys := { s with thread := update s.thread p t }

def Sys.sleep (s : Sys) (p : Nat) : Sys := { s with asleep := update s.asleep p true, lock := none }

def Thread.starved : Thread → Bool
  | .calling _ _ _ => true
  | _ => false

def Thread.awaits (b : Nat) : Thread → Bool
  | .submitted c _ => c = b
  | _ => false

def Sys.wakeup (s : Sys) (on : Thread → Bool) : Sys := { s with asleep := fun p => s.asleep p && !on (s.thread p) }

def Sys.claimed (s : Sys) (i : Nat) : Sys := { s with free := update s.free i false }

def allocDesc : DiskProg (Option Nat) := do
  let s ← get
  match (List.range NUM).find? s.free with
  | some i => do
    modify fun s => s.claimed i
    pure (some i)
  | none => pure none

def Sys.freed (s : Sys) (i : Nat) : Sys :=
  { s with desc := update s.desc i ⟨.null, 0, 0, 0⟩, free := update s.free i true }.wakeup Thread.starved

def freeDesc (i : Nat) : DiskProg Unit := do
  let s ← get
  if NUM ≤ i then stop .freeDesc1
  else if s.free i then stop .freeDesc2
  else modify fun s => s.freed i

/-- The loop of `free_chain`; as every round frees a descriptor, there are no more than `NUM` of them. -/
def freeChain : (rounds : Nat) → (i : Nat) → DiskProg Unit
  | 0, _ => pure ()
  | rounds + 1, i => do
    let s ← get
    let flag := (s.desc i).flags
    let nxt := (s.desc i).next
    freeDesc i
    if flag &&& VRING_DESC_F_NEXT ≠ 0 then freeChain rounds nxt else pure ()

def alloc3Desc : DiskProg (Option Idx) := do
  match ← allocDesc with
  | none => pure none
  | some i0 =>
    match ← allocDesc with
    | none => do
      freeDesc i0
      pure none
    | some i1 =>
      match ← allocDesc with
      | none => do
        freeDesc i0
        freeDesc i1
        pure none
      | some i2 => pure (some ⟨i0, i1, i2⟩)

def sector (blockno : BitVec 32) : BitVec 64 := (blockno * 2).setWidth 64

def formatDesc (desc : Nat → Desc) (b : Nat) (write : Bool) (idx : Idx) : Nat → Desc :=
  let flags := (if write then 0 else VRING_DESC_F_WRITE) ||| VRING_DESC_F_NEXT
  let desc := update desc idx.i0 ⟨.op idx.i0, 16, VRING_DESC_F_NEXT, idx.i1⟩
  let desc := update desc idx.i1 ⟨.data b, BSIZE, flags, idx.i2⟩
  update desc idx.i2 ⟨.status idx.i0, 1, VRING_DESC_F_WRITE, 0⟩

def Sys.format (s : Sys) (b : Nat) (blockno : BitVec 32) (write : Bool) (idx : Idx) : Sys :=
  { s with
    ops := update s.ops idx.i0 ⟨if write then VIRTIO_BLK_T_OUT else VIRTIO_BLK_T_IN, sector blockno⟩,
    desc := formatDesc s.desc b write idx, info := update s.info idx.i0 ⟨some b, 0xff⟩,
    disk := update s.disk b true, ring := update s.ring (slot NUM s.avail) idx.i0 }

def request (p b : Nat) (blockno : BitVec 32) (write : Bool) : DiskProg Unit := do
  match ← alloc3Desc with
  | none => modify fun s => s.sleep p
  | some idx => modify fun s => { (s.format b blockno write idx).put p (.publishing b idx) with lock := some (.process p) }

def await (p b : Nat) (idx : Idx) : DiskProg Unit := do
  let s ← get
  if s.disk b then modify fun s => s.sleep p
  else do
    modify fun s => { s with info := update s.info idx.i0 ⟨none, (s.info idx.i0).status⟩ }
    freeChain (NUM + 1) idx.i0
    modify fun s => { s.put p .idle with lock := none }

def handle : DiskProg Unit := do
  let s ← get
  if s.usedIdx = s.used then modify fun s => { s with lock := none }
  else
    let id := s.usedRing (slot NUM s.usedIdx)
    if (s.info id).status ≠ 0 then stop .status
    else match (s.info id).b with
      | none => stop .null
      | some b => modify fun s =>
        { s with disk := update s.disk b false, usedIdx := s.usedIdx + 1 }.wakeup (Thread.awaits b)

inductive Action where
  | acquiresleep (p b : Nat)
  | releasesleep (p b : Nat)
  /-- The call, as `bread` and `bwrite` make it with the buffer's lock. -/
  | virtioDiskRw (p b : Nat) (blockno : BitVec 32) (write : Bool)
  | run (p : Nat)
  /-- Wakes the process if it sleeps. -/
  | kill (p : Nat)
  | virtioDiskIntr
  | handle
  /-- The device takes a request from the ring. -/
  | fetch
  /-- The device has finished the request, with a status. -/
  | post (head : Nat) (status : UInt8)

/-- The status byte that the last descriptor of a chain points to. -/
def Sys.report (s : Sys) (head : Nat) (status : UInt8) : Nat → Info :=
  match (s.desc (s.desc (s.desc head).next).next).addr with
  | .status i => update s.info i ⟨(s.info i).b, status⟩
  | _ => s.info

def Sys.exec (s : Sys) (x : DiskProg Unit) : Sys :=
  match x s with
  | .ok (_, t) => t
  | .error e => { s with panicked := some e }

def Sys.runThread (s : Sys) (p : Nat) : Option Sys :=
  match s.thread p, s.lock with
  | .calling b blockno write, none => some (s.exec (request p b blockno write))
  | .publishing b idx, some (.process q) =>
    if q = p then some (({ s with avail := s.avail + 1 }.put p (.submitted b idx)).exec (await p b idx)) else none
  | .submitted b idx, none => some (s.exec (await p b idx))
  | _, _ => none

def act (s : Sys) : Action → Option Sys
  | .acquiresleep p b => if s.owner b = none then some { s with owner := update s.owner b (some p) } else none
  | .releasesleep p b =>
    if s.owner b = some p ∧ s.thread p = .idle then some { s with owner := update s.owner b none } else none
  | .virtioDiskRw p b blockno write =>
    if s.owner b = some p ∧ s.thread p = .idle then some (s.put p (.calling b blockno write)) else none
  | .run p => if s.asleep p then none else s.runThread p
  | .kill p => some { s with asleep := update s.asleep p false }
  | .virtioDiskIntr => if s.lock = none then some { s with lock := some .handler } else none
  | .handle => if s.lock = some .handler then some (s.exec handle) else none
  | .fetch =>
    if s.seen = s.avail then none
    else some { s with device := s.ring (slot NUM s.seen) :: s.device, seen := s.seen + 1 }
  | .post head status =>
    if head ∈ s.device then
      some { s with
        device := s.device.erase head, info := s.report head status,
        usedRing := update s.usedRing (slot NUM s.used) head, used := s.used + 1 }
    else none

def start : Sys where
  desc _ := ⟨.null, 0, 0, 0⟩
  ring _ := 0
  avail := 0
  usedRing _ := 0
  used := 0
  free i := decide (i < NUM)
  usedIdx := 0
  info _ := ⟨none, 0⟩
  ops _ := ⟨0, 0⟩
  disk _ := false
  owner _ := none
  lock := none
  thread _ := .idle
  asleep _ := false
  seen := 0
  device := []
  panicked := none

/-- After a panic nothing runs. -/
def machine : Machine Sys Action := ⟨start, fun s a => if s.panicked = none then act s a else none⟩

def Thread.inFlight : Thread → Option (Nat × Idx)
  | .publishing b idx | .submitted b idx => some (b, idx)
  | _ => none

def Thread.buf : Thread → Option Nat
  | .idle => none
  | .calling b _ _ | .publishing b _ | .submitted b _ => some b

def Sys.pending (s : Sys) : List Nat := between NUM s.ring s.seen s.avail

def Sys.posted (s : Sys) : List Nat := between NUM s.usedRing s.usedIdx s.used

def Sys.heads (s : Sys) : Multiset Nat := ↑s.pending + (↑s.device + ↑s.posted)

end Xv6Monitor.Disk.Requests
