import Xv6Monitor.FileSystem.Format
import Xv6Monitor.Stops
import Xv6Monitor.Lib.Program

/-! The lower half of `kernel/fs.c`: blocks, the inodes on disk and the contents of a file. One system
call runs at a time. The buffer cache shows each block as it was last modified, and `log_write` is the
log's record of a modification; what a crash would leave is the disk of the last commit. -/

namespace Xv6Monitor.FileSystem.Blocks
open Function Lib.Bytes Lib.Program Stops Format
open Disk.Buffers (ROOTDEV)
open Disk.Journal (Log)

/-- `kernel/param.h` -/
def NINODE : Nat := 50

theorem ninode_pos : 0 < NINODE := by decide

abbrev Ip : Type := Fin NINODE

/-- `struct inode`. The sleep-lock is held by the call that runs or by nobody. -/
structure Inode where
  dev : Nat
  inum : Nat
  ref : Int
  locked : Bool
  valid : Bool
  /-- Copy of disk inode. -/
  copy : Dinode

structure Fs where
  disk : Nat → Data
  /-- The blocks as they are on the disk itself once the log is installed. -/
  durable : Nat → Data
  log : Log
  inode : Ip → Inode
  /-- How many commits there are before the one after which the power fails, if it does. -/
  power : Option Nat

/-- The inode numbers that are referred to in memory. -/
def Fs.referenced (s : Fs) : List Nat :=
  ((List.finRange NINODE).filter fun ip => 0 < (s.inode ip).ref).map fun ip => (s.inode ip).inum

abbrev FsProg (α : Type) : Type := Prog FsStop Fs α

def setInode (ip : Ip) (f : Inode → Inode) : FsProg Unit :=
  modify fun s => { s with inode := update s.inode ip (f (s.inode ip)) }

def setCopy (ip : Ip) (f : Dinode → Dinode) : FsProg Unit := setInode ip fun i => { i with copy := f i.copy }

def beginOp : FsProg Unit := do
  match (← get).log.beginOp with
  | none => stop .asleep
  | some log => modify fun s => { s with log := log }

/-- The end of the last operation commits the transaction. A crash before the next commit leaves what this
one has written. -/
def endOp : FsProg Unit := do
  let s ← get
  match s.log.endOp with
  | .error panic => stop (.log panic)
  | .ok (log, doCommit) =>
    if doCommit then
      let durable := fun b => if b ∈ log.lh then s.disk b else s.durable b
      match s.power with
      | some 0 => stop (.crash durable s.referenced)
      | power =>
        modify fun s => { s with
          log := { log with lh := [], committing := false }, durable := durable, power := power.map (· - 1) }
    else
      modify fun s => { s with log := log }

/-- Change a buffer, and have the log record it. -/
def logWrite (b : Nat) (data : Data) : FsProg Unit := do
  match (← get).log.logWrite b with
  | .error panic => stop (.log panic)
  | .ok log => modify fun s => { s with disk := update s.disk b data, log := log }

def bzero (b : Nat) : FsProg Unit := logWrite b fun _ => 0

variable [sb : Superblock]

def used (disk : Nat → Data) (b : Nat) : Bool := bit (disk (BBLOCK b)) (b % BPB)

/-- A zeroed disk block, or `0` if there is none. The two loops of the source run over the block numbers
in order. -/
def balloc : FsProg Nat := do
  let s ← get
  match (List.range sb.size).find? fun b => !used s.disk b with
  | none => pure 0
  | some b =>
    logWrite (BBLOCK b) (setBit (s.disk (BBLOCK b)) (b % BPB))
    bzero b
    pure b

def bfree (b : Nat) : FsProg Unit := do
  let s ← get
  if used s.disk b then
    logWrite (BBLOCK b) (clearBit (s.disk (BBLOCK b)) (b % BPB))
  else
    stop (.panic .freeingFreeBlock)

def dinode (disk : Nat → Data) (inum : Nat) : Dinode := Dinode.read (disk (IBLOCK inum)) (64 * (inum % IPB))

def setDinode (inum : Nat) (n : Dinode) : FsProg Unit := do
  let s ← get
  logWrite (IBLOCK inum) (Dinode.write (s.disk (IBLOCK inum)) (64 * (inum % IPB)) n)

def iupdate (ip : Ip) : FsProg Unit := do
  let i := (← get).inode ip
  setDinode i.inum i.copy

def entry (b : Data) (n : Nat) : UInt32 := load32 b (4 * n)

def bmapDirect (ip : Ip) (bn : Fin 13) : FsProg Nat := do
  let addr := (((← get).inode ip).copy.addrs bn).toNat
  if addr = 0 then
    let addr ← balloc
    if addr = 0 then
      pure 0
    else
      setCopy ip fun n => { n with addrs := update n.addrs bn (UInt32.ofNat addr) }
      pure addr
  else
    pure addr

/-- The disk block address of the nth block of an inode, allocated if there is none; `0` if out of disk
space. -/
def bmap (ip : Ip) (bn : Nat) : FsProg Nat := do
  if direct : bn < NDIRECT then
    bmapDirect ip ⟨bn, by simp only [NDIRECT] at direct; omega⟩
  else if bn - NDIRECT < NINDIRECT then
    let block ← bmapDirect ip 12
    if block = 0 then
      pure 0
    else
      let addr := (entry ((← get).disk block) (bn - NDIRECT)).toNat
      if addr = 0 then
        let addr ← balloc
        if addr = 0 then
          pure 0
        else
          logWrite block (store32 ((← get).disk block) (4 * (bn - NDIRECT)) (UInt32.ofNat addr))
          pure addr
      else
        pure addr
  else
    stop (.panic .bmapOutOfRange)

def truncDirect (ip : Ip) (i : Fin 13) : FsProg Unit := do
  let addr := (((← get).inode ip).copy.addrs i).toNat
  if addr ≠ 0 then
    bfree addr
    setCopy ip fun n => { n with addrs := update n.addrs i 0 }

def itrunc (ip : Ip) : FsProg Unit := do
  (List.finRange 12).forM fun i => truncDirect ip i.castSucc
  let block := (((← get).inode ip).copy.addrs 12).toNat
  if block ≠ 0 then
    (List.range NINDIRECT).forM fun j => do
      let addr := (entry ((← get).disk block) j).toNat
      if addr ≠ 0 then bfree addr
    bfree block
    setCopy ip fun n => { n with addrs := update n.addrs 12 0 }
  setCopy ip fun n => { n with size := 0 }
  iupdate ip

/-- How far a copy of `m` bytes from or to a place comes, and the bytes that a source has there. A copy
that does not come to its end has failed. -/
structure Place where
  reach : (tot m : Nat) → Nat
  bytes : (tot : Nat) → Data

/-- The user's memory at some address, as far as it can be read. -/
def Place.user (src : Nat → Option UInt8) : Place where
  reach := fun tot m => ((List.range m).takeWhile fun i => (src (tot + i)).isSome).length
  bytes := fun tot i => (src (tot + i)).getD 0

/-- A buffer of the kernel, where no copy fails. -/
def Place.kernel (data : Data) : Place := ⟨fun _ m => m, fun tot i => data (tot + i)⟩

/-- What `readi` returns, with the bytes that it delivered and how many they are. -/
structure Got where
  /-- `none` for `-1`, when a copy failed. -/
  total : Option Nat
  bytes : Data
  len : Nat

def readFrom (ip : Ip) (dst : Place) (n : Nat) : (rounds tot off : Nat) → Data → FsProg Got
  | 0, tot, _, bytes => pure ⟨some tot, bytes, tot⟩
  | rounds + 1, tot, off, bytes => do
    if tot < n then
      let addr ← bmap ip (off / BSIZE)
      if addr = 0 then
        pure ⟨some tot, bytes, tot⟩
      else
        let m := min (n - tot) (BSIZE - off % BSIZE)
        let block := (← get).disk addr
        let bytes := splice bytes tot m fun i => block (off % BSIZE + i)
        if dst.reach tot m < m then
          pure ⟨none, bytes, tot + dst.reach tot m⟩
        else
          readFrom ip dst n rounds (tot + m) (off + m) bytes
    else
      pure ⟨some tot, bytes, tot⟩

def readi (ip : Ip) (dst : Place) (off n : Nat) : FsProg Got := do
  let size := ((← get).inode ip).copy.size.toNat
  if size < off ∨ 2 ^ 32 ≤ off + n then
    pure ⟨some 0, fun _ => 0, 0⟩
  else
    let n := if size < off + n then size - off else n
    readFrom ip dst n n 0 off fun _ => 0

/-- The loop of `writei`: the total and the offset that it ends at. The bytes of a failing copy stay in
the buffer and are not logged. -/
def writeFrom (ip : Ip) (src : Place) (n : Nat) : (rounds tot off : Nat) → FsProg (Nat × Nat)
  | 0, tot, off => pure (tot, off)
  | rounds + 1, tot, off => do
    if tot < n then
      let addr ← bmap ip (off / BSIZE)
      if addr = 0 then
        pure (tot, off)
      else
        let m := min (n - tot) (BSIZE - off % BSIZE)
        let reach := src.reach tot m
        if reach < m then
          modify fun s => { s with
            disk := update s.disk addr (splice (s.disk addr) (off % BSIZE) reach (src.bytes tot)) }
          pure (tot, off)
        else
          logWrite addr (splice ((← get).disk addr) (off % BSIZE) m (src.bytes tot))
          writeFrom ip src n rounds (tot + m) (off + m)
    else
      pure (tot, off)

/-- Write `n` bytes at `off`: how many were written, or `none` when there is no room for them. -/
def writei (ip : Ip) (src : Place) (off n : Nat) : FsProg (Option Nat) := do
  let size := ((← get).inode ip).copy.size.toNat
  if size < off ∨ 2 ^ 32 ≤ off + n ∨ MAXFILE * BSIZE < off + n then
    pure none
  else
    let (tot, off) ← writeFrom ip src n n 0 off
    if size < off then setCopy ip fun c => { c with size := UInt32.ofNat off }
    iupdate ip
    pure (some tot)

end Xv6Monitor.FileSystem.Blocks
