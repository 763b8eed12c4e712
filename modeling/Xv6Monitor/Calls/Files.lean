import Xv6Monitor.Calls.State

/-! The file table and pipes: `kernel/file.c`, `kernel/pipe.c` and the calls of `kernel/sysfile.c` on file
descriptors. -/

namespace Xv6Monitor.Calls.Files
open Lib.Bytes Lib.Program Process.Table Memory.Frames Memory.Tables FileSystem.Format FileSystem.Blocks
  FileSystem.Inodes State

variable [image : Image] [sb : Superblock]

/-- `kernel/file.c` -/
def filealloc : KProg (Option Fp) := do
  let k ← get
  match (List.finRange NFILE).find? fun f => (k.file f).ref = 0 with
  | none => pure none
  | some f =>
    setFile f fun g => { g with ref := 1 }
    pure (some f)

def filedup (f : Fp) : KProg Unit := do
  if ((← get).file f).ref < 1 then
    stop (.file .filedup)
  else
    setFile f fun g => { g with ref := g.ref + 1 }

def pipeclose (pi : Nat) (writable : Bool) : KProg Unit := do
  if writable then setPipeField pi pipeWriteopen 0 else setPipeField pi pipeReadopen 0
  let k ← get
  if pipeField k pi pipeReadopen = 0 ∧ pipeField k pi pipeWriteopen = 0 then onRam (kfree pi)

def release (ff : File) : KProg Unit :=
  match ff.type with
  | .none => pure ()
  | .pipe => pipeclose ff.pipe ff.writable
  | .inode | .device =>
    match ff.ip with
    | none => stop .nullPointer
    | some ip => onFs do
      beginOp
      iput ip
      endOp

def fileclose (f : Fp) : KProg Unit := do
  let ff := (← get).file f
  if ff.ref < 1 then
    stop (.file .fileclose)
  else if 0 < ff.ref - 1 then
    setFile f fun g => { g with ref := g.ref - 1 }
  else
    setFile f fun g => { g with ref := 0, type := .none }
    release ff

def pipealloc : KProg (Option (Fp × Fp)) := do
  match ← filealloc with
  | none => pure none
  | some f0 =>
    match ← filealloc with
    | none =>
      fileclose f0
      pure none
    | some f1 =>
      match ← onRam kalloc with
      | none =>
        fileclose f0
        fileclose f1
        pure none
      | some pi =>
        setPipeField pi pipeReadopen 1
        setPipeField pi pipeWriteopen 1
        setPipeField pi pipeNwrite 0
        setPipeField pi pipeNread 0
        setFile f0 fun g => { g with type := .pipe, readable := true, writable := false, pipe := pi }
        setFile f1 fun g => { g with type := .pipe, readable := false, writable := true, pipe := pi }
        pure (some (f0, f1))

def argfd (k : Kernel) (p : Slot) (fd : Int) : Option (Fin NOFILE × Fp) :=
  if inside : 0 ≤ fd ∧ fd < 16 then
    let n : Fin NOFILE := ⟨fd.toNat, by simp only [NOFILE]; omega⟩
    ((k.proc p).ofile n).map fun f => (n, f)
  else
    none

def fdalloc (p : Slot) (f : Fp) : KProg (Option (Fin NOFILE)) := do
  let k ← get
  match (List.finRange NOFILE).find? fun fd => ((k.proc p).ofile fd).isNone with
  | none => pure none
  | some fd =>
    setFd p fd (some f)
    pure (some fd)

def sysDup (p : Slot) (fd : Int) : KProg Int := do
  match argfd (← get) p fd with
  | none => pure (-1)
  | some (_, f) =>
    match ← fdalloc p f with
    | none => pure (-1)
    | some fd =>
      filedup f
      pure fd

def sysClose (p : Slot) (fd : Int) : KProg Int := do
  match argfd (← get) p fd with
  | none => pure (-1)
  | some (fd, f) =>
    setFd p fd none
    fileclose f
    pure 0

def intBytes (v : Nat) : Data := fun i => digit v i

def sysPipe (p : Slot) (fdarray : Nat) : KProg Int := do
  match ← pipealloc with
  | none => pure (-1)
  | some (rf, wf) =>
    match ← fdalloc p rf with
    | none =>
      fileclose rf
      fileclose wf
      pure (-1)
    | some fd0 =>
      match ← fdalloc p wf with
      | none =>
        setFd p fd0 none
        fileclose rf
        fileclose wf
        pure (-1)
      | some fd1 =>
        let pt := ((← get).proc p).pagetable
        let first ← onRam (copyout pt fdarray (intBytes fd0) 4)
        let both ← (if first then onRam (copyout pt (fdarray + 4) (intBytes fd1) 4) else pure false)
        if both then
          pure 0
        else
          setFd p fd0 none
          setFd p fd1 none
          fileclose rf
          fileclose wf
          pure (-1)

def pipereadFrom (pi pt addr : Nat) : (left i : Nat) → KProg Nat
  | 0, i => pure i
  | left + 1, i => do
    let k ← get
    let nread := pipeField k pi pipeNread
    if nread = pipeField k pi pipeNwrite then
      pure i
    else
      let ch := k.ram.page pi (pipeData + nread % PIPESIZE)
      setPipeField pi pipeNread (nread + 1)
      if ← onRam (copyout pt (addr + i) (fun _ => ch) 1) then pipereadFrom pi pt addr left (i + 1) else pure i

def piperead (p : Slot) (pi addr : Nat) (n : Int) : KProg Int := do
  let k ← get
  if pipeField k pi pipeNread = pipeField k pi pipeNwrite ∧ pipeField k pi pipeWriteopen ≠ 0 then
    stop .asleep
  else
    let i ← pipereadFrom pi (k.proc p).pagetable addr n.toNat 0
    pure i

/-- The loop of `pipewrite`; `src` gives the bytes, `none` where the user's memory has none. -/
def pipewriteFrom (pi : Nat) (src : Nat → Option UInt8) : (left i : Nat) → KProg Int
  | 0, i => pure i
  | left + 1, i => do
    let k ← get
    if pipeField k pi pipeReadopen = 0 then
      pure (-1)
    else
      let nwrite := pipeField k pi pipeNwrite
      if nwrite = uint (pipeField k pi pipeNread + PIPESIZE) then
        stop .asleep
      else
        match src i with
        | none => pure i
        | some ch =>
          setPage pi fun b => Function.update b (pipeData + nwrite % PIPESIZE) ch
          setPipeField pi pipeNwrite (nwrite + 1)
          pipewriteFrom pi src left (i + 1)

/-- What a device's `read` or `write` returns: only the console has them. -/
def device (major : Int16) (result : Int) : Int := if major = 1 then result else -1

def reach (m : Ram) (pt va len : Nat) : Nat :=
  ((List.range len).takeWhile fun i =>
    match copyout pt (va + i) (fun _ => 0) 1 m with
    | .ok (done, _) => done
    | .error _ => false).length

def uintArg (n : Int) : Nat := (n % 4294967296).toNat

def sysRead (p : Slot) (fd : Int) (addr : Nat) (n : Int) (console : Int) : KProg Int := do
  match argfd (← get) p fd with
  | none => pure (-1)
  | some (_, f) =>
    let k ← get
    let pt := (k.proc p).pagetable
    if (k.file f).readable = false then
      pure (-1)
    else
      match (k.file f).type, (k.file f).ip with
      | .pipe, _ => piperead p (k.file f).pipe addr n
      | .device, _ => pure (device (k.file f).major console)
      | .inode, some ip =>
        onFs (ilock ip)
        let got ← onFs (readi ip ⟨fun tot m => reach k.ram pt (addr + tot) m, fun _ _ => 0⟩ (k.file f).off (uintArg n))
        let _ ← onRam (copyout pt addr got.bytes got.len)
        match got.total with
        | none =>
          onFs (iunlock ip)
          pure (-1)
        | some r =>
          if 0 < r then setFile f fun g => { g with off := g.off + r }
          onFs (iunlock ip)
          pure r
      | _, _ => stop (.file .fileread)

def maxWrite : Nat := ((Disk.Buffers.MAXOPBLOCKS - 1 - 1 - 2) / 2) * BSIZE

/-- The loop of `filewrite` on an inode; `i` bytes are written. -/
def filewriteFrom (f : Fp) (ip : Ip) (src : Nat → Option UInt8) (n : Nat) : (rounds i : Nat) → KProg Nat
  | 0, i => pure i
  | rounds + 1, i => do
    if i < n then
      let n1 := min (n - i) maxWrite
      onFs beginOp
      onFs (ilock ip)
      let off := ((← get).file f).off
      let r ← onFs (writei ip (.user fun j => src (i + j)) off n1)
      if 0 < r.getD 0 then setFile f fun g => { g with off := g.off + r.getD 0 }
      onFs (iunlock ip)
      onFs endOp
      if r = some n1 then filewriteFrom f ip src n rounds (i + n1) else pure i
    else
      pure i

/-- `src` is what the user's memory holds from the address on. -/
def sysWrite (p : Slot) (fd : Int) (src : Nat → Option UInt8) (n : Int) (console : Int) : KProg Int := do
  match argfd (← get) p fd with
  | none => pure (-1)
  | some (_, f) =>
    let g := (← get).file f
    if g.writable = false then
      pure (-1)
    else
      match g.type, g.ip with
      | .pipe, _ => pipewriteFrom g.pipe src n.toNat 0
      | .device, _ => pure (device g.major console)
      | .inode, some ip =>
        let i ← filewriteFrom f ip src n.toNat n.toNat 0
        pure (if (i : Int) = n then n else -1)
      | _, _ => stop (.file .filewrite)

end Xv6Monitor.Calls.Files
