import Xv6Monitor.Calls.Names

/-! The life of a process: `kernel/proc.c` without scheduling, and `kernel/exec.c`. -/

namespace Xv6Monitor.Calls.Processes
open Lib.Bytes Lib.Program Process.Table Memory.Frames Memory.Tables FileSystem.Format FileSystem.Blocks
  FileSystem.Inodes State Files Names

variable [image : Image] [sb : Superblock]

def tfEpc : Nat := 24
def tfSp : Nat := 48
def tfA0 : Nat := 112
def tfA1 : Nat := 120

def tfSize : Nat := 288

def setReg (trapframe o v : Nat) : KProg Unit := setPage trapframe fun b => store 8 b o v

def nameSize : Nat := 16

/-- The string that `safestrcpy` leaves in a buffer of `n` bytes. -/
def safestrcpy (t : List UInt8) (n : Nat) : List UInt8 := t.take (n - 1)

/-- What `freeproc` leaves of a process. -/
def cleared (q : State.Proc) : State.Proc :=
  { q with trapframe := 0, pagetable := 0, sz := 0, pid := 0, parent := none, name := [], xstate := 0, state := .unused }

def freeproc (p : Slot) : KProg Unit := do
  let q := (← get).proc p
  if q.trapframe ≠ 0 then onRam (kfree q.trapframe)
  if q.pagetable ≠ 0 then onRam (procFreepagetable q.pagetable q.sz)
  setProc p cleared

/-- A process that is set up to run in the kernel; `none` when the table is full or there is no memory. -/
def allocproc : KProg (Option Slot) := do
  let k ← get
  match (List.finRange NPROC).find? fun p => (k.proc p).state = .unused with
  | none => pure none
  | some p =>
    modify fun k => { k with nextpid := k.nextpid + 1 }
    setProc p fun q => { q with pid := k.nextpid, state := .used }
    let trapframe ← onRam kalloc
    setProc p fun q => { q with trapframe := trapframe.getD 0 }
    match trapframe with
    | none =>
      freeproc p
      pure none
    | some trapframe =>
      let pagetable ← onRam (procPagetable trapframe)
      setProc p fun q => { q with pagetable := pagetable.getD 0 }
      match pagetable with
      | none =>
        freeproc p
        pure none
      | some _ => pure (some p)

def initcodeName : List UInt8 := [105, 110, 105, 116, 99, 111, 100, 101]

/-- `initcode` has 52 bytes. -/
def userinit (initcode : Data) : KProg Unit := do
  match ← allocproc with
  | none => stop .nullPointer
  | some p =>
    modify fun k => { k with initproc := some p }
    let q := (← get).proc p
    onRam (uvmfirst q.pagetable initcode 52)
    setProc p fun q => { q with sz := PGSIZE }
    setReg q.trapframe tfEpc 0
    setReg q.trapframe tfSp PGSIZE
    let cwd ← onFs (namei none [slash])
    setProc p fun q => { q with name := safestrcpy initcodeName nameSize, cwd := cwd, state := .runnable }

def growproc (p : Slot) (n : Int) : KProg Int := do
  let q := (← get).proc p
  let newsz := ((q.sz + n) % 18446744073709551616).toNat
  if 0 < n then
    let sz ← onRam (uvmalloc q.pagetable q.sz newsz PTE_W)
    if sz = 0 then
      pure (-1)
    else
      setProc p fun q => { q with sz := sz }
      pure 0
  else if n < 0 then
    let sz ← onRam (uvmdealloc q.pagetable q.sz newsz)
    setProc p fun q => { q with sz := sz }
    pure 0
  else
    pure 0

def sysSbrk (p : Slot) (n : Int) : KProg Int := do
  let addr := ((← get).proc p).sz
  if (← growproc p n) < 0 then pure (-1) else pure addr

def inheritFd (p np : Slot) (fd : Fin NOFILE) : KProg Unit := do
  match ((← get).proc p).ofile fd with
  | none => pure ()
  | some f =>
    filedup f
    setFd np fd (some f)

/-- The second half of `fork`: size, registers, files, current directory and name of the child. -/
def adopt (p np : Slot) : KProg Int := do
  let k ← get
  setProc np fun c => { c with sz := (k.proc p).sz }
  setPage (k.proc np).trapframe fun b => splice b 0 tfSize (k.ram.page (k.proc p).trapframe)
  -- Cause fork to return `0` in the child.
  setReg (k.proc np).trapframe tfA0 0
  (List.finRange NOFILE).forM (inheritFd p np)
  match (k.proc p).cwd with
  | none => stop .nullPointer
  | some ip =>
    onFs (idup ip)
    setProc np fun c =>
      { c with cwd := some ip, name := safestrcpy (k.proc p).name nameSize, parent := some p, state := .runnable }
    pure (k.proc np).pid

def fork (p : Slot) : KProg Int := do
  match ← allocproc with
  | none => pure (-1)
  | some np =>
    let k ← get
    if ← onRam (uvmcopy (k.proc p).pagetable (k.proc np).pagetable (k.proc p).sz) then
      adopt p np
    else
      freeproc np
      pure (-1)

def closeFd (p : Slot) (fd : Fin NOFILE) : KProg Unit := do
  match ((← get).proc p).ofile fd with
  | none => pure ()
  | some f =>
    fileclose f
    setFd p fd none

def reparent (k : Kernel) (p : Slot) : Kernel :=
  { k with proc := fun c => if (k.proc c).parent = some p then { k.proc c with parent := k.initproc } else k.proc c }

/-- The process remains in the zombie state until its parent calls `wait`. -/
def exit (p : Slot) (status : Int) : KProg Unit := do
  if (← get).initproc = some p then
    stop .initExiting
  else
    (List.finRange NOFILE).forM (closeFd p)
    let cwd := ((← get).proc p).cwd
    onFs do
      beginOp
      putCwd cwd
      endOp
    setProc p fun q => { q with cwd := none }
    modify fun k => reparent k p
    setProc p fun q => { q with xstate := status, state := .zombie }

/-- `addr` is where the exit status goes, unless it is `0`. -/
def wait (p : Slot) (addr : Nat) : KProg Int := do
  let k ← get
  match (List.finRange NPROC).find? fun c => (k.proc c).parent = some p ∧ (k.proc c).state = .zombie with
  | some c =>
    let xstate := intBytes (uintArg (k.proc c).xstate)
    let told ← (if addr = 0 then pure true else onRam (copyout (k.proc p).pagetable addr xstate 4))
    if told then
      freeproc c
      pure (k.proc c).pid
    else
      pure (-1)
  | none => if ∃ c, (k.proc c).parent = some p then stop .asleep else pure (-1)

/-- `kernel/elf.h` -/
def ELF_MAGIC : Nat := 0x464C457F
def ELF_PROG_LOAD : Nat := 1

/-- `struct elfhdr`, which has 64 bytes: the fields that `exec` uses. -/
structure Elfhdr where
  magic : Nat
  entry : Nat
  phoff : Nat
  phnum : Nat

def Elfhdr.read (b : Data) : Elfhdr := ⟨load 4 b 0, load 8 b 24, load 8 b 32, load 2 b 56⟩

/-- `struct proghdr`, which has 56 bytes: the fields that `exec` uses. -/
structure Proghdr where
  type : Nat
  flags : Nat
  off : Nat
  vaddr : Nat
  filesz : Nat
  memsz : Nat

def Proghdr.read (b : Data) : Proghdr := ⟨load 4 b 0, load 4 b 4, load 8 b 8, load 8 b 16, load 8 b 32, load 8 b 40⟩

def flags2perm (flags : Nat) : Nat :=
  (if flags &&& 1 ≠ 0 then PTE_X else 0) ||| (if flags &&& 2 ≠ 0 then PTE_W else 0)

def loadsegFrom (pagetable va : Nat) (ip : Ip) (offset sz : Nat) : (rounds i : Nat) → KProg Bool
  | 0, i => if i < sz then stop .endless else pure true
  | rounds + 1, i => do
    if i < sz then
      let pa ← onRam (walkaddr pagetable (uint64 (va + i)))
      if pa = 0 then
        stop (.vm .loadseg)
      else
        let n := min (sz - i) PGSIZE
        let got ← onFs (readi ip (.kernel fun _ => 0) (uint (offset + i)) n)
        setPage pa fun b => splice b 0 got.len got.bytes
        if got.total = some n then loadsegFrom pagetable va ip offset sz rounds (uint (i + PGSIZE)) else pure false
    else
      pure true

def loadseg (pagetable va : Nat) (ip : Ip) (offset sz : Nat) : KProg Bool :=
  loadsegFrom pagetable va ip offset sz ((sz + PGSIZE - 1) / PGSIZE) 0

/-- The loop of `exec` that loads the program, with `n` headers to go: whether it was loaded, and the
size that the memory has come to. -/
def loadFrom (pagetable : Nat) (ip : Ip) : (n off sz : Nat) → KProg (Bool × Nat)
  | 0, _, sz => pure (true, sz)
  | n + 1, off, sz => do
    let got ← onFs (readi ip (.kernel fun _ => 0) off 56)
    let ph := Proghdr.read got.bytes
    if got.total ≠ some 56 then
      pure (false, sz)
    else if ph.type ≠ ELF_PROG_LOAD then
      loadFrom pagetable ip n (uint (off + 56)) sz
    else if ph.memsz < ph.filesz ∨ uint64 (ph.vaddr + ph.memsz) < ph.vaddr ∨ ph.vaddr % PGSIZE ≠ 0 then
      pure (false, sz)
    else
      let sz1 ← onRam (uvmalloc pagetable sz (uint64 (ph.vaddr + ph.memsz)) (flags2perm ph.flags))
      if sz1 = 0 then
        pure (false, sz)
      else if ← loadseg pagetable ph.vaddr ip (uint ph.off) (uint ph.filesz) then
        loadFrom pagetable ip n (uint (off + 56)) sz1
      else
        pure (false, sz1)

def push (sp n : Nat) : Nat :=
  let sp := uint64 (sp + 18446744073709551616 - n)
  sp - sp % 16

def stringBytes (s : List UInt8) : Data := fun i => (s[i]?).getD 0

/-- Push the argument strings: the stack pointer and the addresses of the strings. -/
def pushArgs (pagetable stackbase : Nat) : List (List UInt8) → (sp : Nat) → (ustack : List Nat) →
    KProg (Option (Nat × List Nat))
  | [], sp, ustack => pure (some (sp, ustack))
  | s :: rest, sp, ustack => do
    if MAXARG ≤ ustack.length ∨ push sp (s.length + 1) < stackbase then
      pure none
    else if ← onRam (copyout pagetable (push sp (s.length + 1)) (stringBytes s) (s.length + 1)) then
      pushArgs pagetable stackbase rest (push sp (s.length + 1)) (ustack ++ [push sp (s.length + 1)])
    else
      pure none

def ustackBytes (ustack : List Nat) : Data := fun i => digit ((ustack[i / 8]?).getD 0) (i % 8)

/-- Make the user stack above `sz`: the size that the memory has come to, and the stack pointer and the
number of arguments unless something went wrong. -/
def makeStack (pagetable sz : Nat) (argv : List (List UInt8)) : KProg (Nat × Option (Nat × Nat)) := do
  let sz := PGROUNDUP sz
  let sz1 ← onRam (uvmalloc pagetable sz (uint64 (sz + (USERSTACK + 1) * PGSIZE)) PTE_W)
  if sz1 = 0 then
    pure (sz, none)
  else
    onRam (uvmclear pagetable (sz1 - (USERSTACK + 1) * PGSIZE))
    let stackbase := sz1 - USERSTACK * PGSIZE
    match ← pushArgs pagetable stackbase argv sz1 [] with
    | none => pure (sz1, none)
    | some (sp, ustack) =>
      let sp := push sp ((ustack.length + 1) * 8)
      if sp < stackbase then
        pure (sz1, none)
      else if ← onRam (copyout pagetable sp (ustackBytes ustack) ((ustack.length + 1) * 8)) then
        pure (sz1, some (sp, ustack.length))
      else
        pure (sz1, none)

def lastElement (path : Path) : List UInt8 := (path.reverse.takeWhile (· ≠ slash)).reverse

def commitImage (p : Slot) (path : Path) (pagetable sz sp entry : Nat) : KProg Unit := do
  let q := (← get).proc p
  setReg q.trapframe tfA1 sp
  setProc p fun q => { q with name := safestrcpy (lastElement path) nameSize, pagetable := pagetable, sz := sz }
  setReg q.trapframe tfEpc entry
  setReg q.trapframe tfSp sp
  onRam (procFreepagetable q.pagetable q.sz)

def putProgram (ip : Ip) : FsProg Unit := do
  iunlockput ip
  endOp

def exec (p : Slot) (path : Path) (argv : List (List UInt8)) : KProg Int := do
  let q := (← get).proc p
  onFs beginOp
  match ← onFs (namei q.cwd path) with
  | none =>
    onFs endOp
    pure (-1)
  | some ip =>
    onFs (ilock ip)
    let got ← onFs (readi ip (.kernel fun _ => 0) 0 64)
    let elf := Elfhdr.read got.bytes
    match ← onRam (if got.total ≠ some 64 ∨ elf.magic ≠ ELF_MAGIC then pure none else procPagetable q.trapframe) with
    | none =>
      onFs (putProgram ip)
      pure (-1)
    | some pagetable =>
      let (loaded, sz) ← loadFrom pagetable ip elf.phnum (uint elf.phoff) 0
      if loaded then
        onFs (putProgram ip)
        match ← makeStack pagetable sz argv with
        | (sz, none) =>
          onRam (procFreepagetable pagetable sz)
          pure (-1)
        | (sz, some (sp, argc)) =>
          commitImage p path pagetable sz sp elf.entry
          pure argc
      else
        onRam (procFreepagetable pagetable sz)
        onFs (putProgram ip)
        pure (-1)

/-- What the user's array of arguments has at an index: nothing that can be read, the null pointer, or
the address of a string that may not be readable itself. -/
inductive Arg where
  | fault
  | null
  | string (s : Option (List UInt8))

/-- The pages that `sys_exec` takes for the arguments, each with the string in it, and whether it got
them all. -/
def fetchArgs (uargv : Nat → Arg) : (left i : Nat) → (argv : List (Nat × List UInt8)) →
    KProg (Bool × List (Nat × List UInt8))
  | 0, _, argv => pure (false, argv)
  | left + 1, i, argv => do
    match uargv i with
    | .fault => pure (false, argv)
    | .null => pure (true, argv)
    | .string s =>
      match ← onRam kalloc with
      | none => pure (false, argv)
      | some pa =>
        match s.filter fun s => s.length < PGSIZE with
        | none => pure (false, argv ++ [(pa, [])])
        | some s => fetchArgs uargv left (i + 1) (argv ++ [(pa, s)])

def sysExec (p : Slot) (path : Option Path) (uargv : Nat → Arg) : KProg Int := do
  match argstr path with
  | none => pure (-1)
  | some path =>
    let (fetched, argv) ← fetchArgs uargv MAXARG 0 []
    let ret ← (if fetched then exec p path (argv.map Prod.snd) else pure (-1))
    (argv.map Prod.fst).forM fun pa => onRam (kfree pa)
    pure ret

end Xv6Monitor.Calls.Processes
