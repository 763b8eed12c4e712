import Xv6Monitor.Calls.Processes

/-! The kernel as a machine whose steps are completed system calls, from the state that booting leaves.
What a call reads from the user's memory is part of the call, and so is what the console returns. -/

namespace Xv6Monitor.Calls.Machine
open Lib.Bytes Lib.Transition Process.Table Memory.Frames Memory.Tables FileSystem.Format FileSystem.Blocks State Files
  Names Processes

inductive Call where
  | userinit (initcode : Data)
  /-- A store instruction of the user program. -/
  | store (p : Slot) (va : Nat) (byte : UInt8)
  | fork (p : Slot)
  | exit (p : Slot) (status : Int)
  | wait (p : Slot) (addr : Nat)
  | sbrk (p : Slot) (n : Int)
  | exec (p : Slot) (path : Option FileSystem.Format.Path) (uargv : Nat → Arg)
  | dup (p : Slot) (fd : Int)
  | close (p : Slot) (fd : Int)
  | pipe (p : Slot) (fdarray : Nat)
  | read (p : Slot) (fd : Int) (addr : Nat) (n : Int) (console : Int)
  | write (p : Slot) (fd : Int) (src : Nat → Option UInt8) (n : Int) (console : Int)
  | fstat (p : Slot) (fd : Int) (addr : Nat) (stack : Data)
  | openat (p : Slot) (path : Option FileSystem.Format.Path) (omode : UInt32)
  | link (p : Slot) (old new : Option FileSystem.Format.Path)
  | unlink (p : Slot) (path : Option FileSystem.Format.Path)
  | mkdir (p : Slot) (path : Option FileSystem.Format.Path)
  | mknod (p : Slot) (path : Option FileSystem.Format.Path) (major minor : Int16)
  | chdir (p : Slot) (path : Option FileSystem.Format.Path)

def Call.caller : Call → Option Slot
  | .userinit _ => none
  | .store p _ _ | .fork p | .exit p _ | .wait p _ | .sbrk p _ | .exec p _ _ | .dup p _ | .close p _ | .pipe p _
  | .read p _ _ _ _ | .write p _ _ _ _ | .fstat p _ _ _ | .openat p _ _ | .link p _ _ | .unlink p _ | .mkdir p _
  | .mknod p _ _ _ | .chdir p _ => some p

variable [image : Image] [sb : Superblock]

def syscall : Call → KProg Int
  | .userinit initcode => do
    userinit initcode
    pure 0
  | .store p va byte => do
    let stored ← onRam (copyout ((← get).proc p).pagetable va (fun _ => byte) 1)
    pure (if stored then 0 else -1)
  | .fork p => fork p
  | .exit p status => do
    exit p status
    pure 0
  | .wait p addr => wait p addr
  | .sbrk p n => sysSbrk p n
  | .exec p path uargv => sysExec p path uargv
  | .dup p fd => sysDup p fd
  | .close p fd => sysClose p fd
  | .pipe p fdarray => sysPipe p fdarray
  | .read p fd addr n console => sysRead p fd addr n console
  | .write p fd src n console => sysWrite p fd src n console
  | .fstat p fd addr stack => sysFstat p fd addr stack
  | .openat p path omode => sysOpen p path omode
  | .link p old new => sysLink p old new
  | .unlink p path => sysUnlink p path
  | .mkdir p path => sysMkdir p path
  | .mknod p path major minor => sysMknod p path major minor
  | .chdir p path => sysChdir p path

def Allowed (k : Kernel) (c : Call) : Prop :=
  match c.caller with
  | none => k.initproc = none
  | some p => (k.proc p).state = .runnable

instance (k : Kernel) (c : Call) : Decidable (Allowed k c) := by
  unfold Allowed
  split <;> infer_instance

def step (k : Kernel) (c : Call) : Option Kernel :=
  if Allowed k c then
    match syscall c k with
    | .ok (_, t) => some t
    | .error _ => none
  else
    none

def Proc.zero : State.Proc := ⟨.unused, 0, none, 0, 0, 0, 0, fun _ => none, none, []⟩

def File.zero : File := ⟨.none, 0, false, false, 0, none, 0, 0⟩

def Inode.zero : Inode := ⟨0, 0, 0, false, false, Dinode.zero⟩

def start (m : Ram) (disk : Nat → Data) (power : Option Nat) : Kernel where
  ram := m
  fs := ⟨disk, disk, ⟨sb.logstart, sb.nlog, 0, false, []⟩, fun _ => Inode.zero, power⟩
  file := fun _ => File.zero
  proc := fun _ => Proc.zero
  initproc := none
  nextpid := 1

def machine (m : Ram) (disk : Nat → Data) (power : Option Nat) : Machine Kernel Call := ⟨start m disk power, step⟩

theorem step_ran {k t : Kernel} {c : Call} (moved : step k c = some t) :
    Allowed k c ∧ ∃ r, syscall c k = .ok (r, t) := by
  unfold step at moved
  split at moved
  next allowed =>
    refine ⟨allowed, ?_⟩
    cases ran : syscall c k with
    | error _ =>
      rw [ran] at moved
      exact absurd moved (by simp)
    | ok result =>
      rw [ran] at moved
      obtain ⟨r, _⟩ := result
      exact ⟨r, by rw [Option.some.inj moved]⟩
  · exact absurd moved (by simp)

end Xv6Monitor.Calls.Machine
