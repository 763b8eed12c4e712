import Mathlib.Algebra.Group.Int.Defs
import Mathlib.Algebra.GroupWithZero.Nat
import Mathlib.Data.Fintype.Basic

/-! The process table of `kernel/proc.c` and what the lock-protected sections of
that file do to one of its entries. Addresses of table entries are slot numbers;
the private fields of a process (memory, files, name, saved registers) are not
read by any function below and are left out. -/

namespace Xv6Monitor.Process.Table

/-- `kernel/param.h` -/
def NPROC : Nat := 64

instance : NeZero NPROC := ⟨by decide⟩

abbrev Slot : Type := Fin NPROC

/-- `uint` arithmetic: 32 bits, wrapping. -/
def uint (n : Nat) : Nat := n % 4294967296

def uintSub (a b : Nat) : Nat := (a + 4294967296 - b) % 4294967296

/-- `uint64` arithmetic: 64 bits, wrapping. -/
def uint64 (n : Nat) : Nat := n % 18446744073709551616

/-- Largest `int`. Incrementing it is undefined in C. -/
def INT_MAX : Int := 2147483647

inductive Procstate where
  | unused
  | used
  | sleeping
  | runnable
  | running
  | zombie
  deriving DecidableEq, Repr

/-- Addresses that occur as sleep channels. -/
inductive Chan where
  | proc (slot : Slot)
  | ticks
  | other (address : Nat)
  deriving DecidableEq, Repr

inductive SchedMode where
  | roundRobin
  | fcfs
  | priority
  deriving DecidableEq, Repr

structure Proc where
  state : Procstate
  chan : Option Chan
  killed : Bool
  xstate : Int
  pid : Int
  parent : Option Slot
  creationTime : Nat
  runTime : Nat
  priority : Int
  lastRunnableTime : Nat
  totalWaitingTime : Nat
  deriving DecidableEq, Repr

/-- An entry of the zero-initialised table after `procinit`. -/
def Proc.zero : Proc where
  state := .unused
  chan := none
  killed := false
  xstate := 0
  pid := 0
  parent := none
  creationTime := 0
  runTime := 0
  priority := 0
  lastRunnableTime := 0
  totalWaitingTime := 0

namespace Proc

/-- What `allocproc` assigns once it found an unused entry, up to the creation time. `killed`,
`chan`, `parent` and `xstate` keep the values `freeproc` or `kill` left there. -/
def allocproc (p : Proc) (pid : Int) : Proc :=
  { p with
    pid := pid
    state := .used
    runTime := 0
    priority := 10
    totalWaitingTime := 0
    lastRunnableTime := 0 }

/-- `p->creation_time = ticks` in `allocproc`, where `ticks` is read without its lock. -/
def allocTime (p : Proc) (ticks : Nat) : Proc :=
  { p with creationTime := ticks }

/-- `freeproc`: the waiting statistics and the priority survive. -/
def freeproc (p : Proc) (ticks : Nat) : Proc :=
  { p with
    pid := 0
    parent := none
    chan := none
    killed := false
    xstate := 0
    state := .unused
    creationTime := ticks
    runTime := 0 }

/-- The assignment pair with which `fork`, `userinit`, `yield`, `wakeup` and `kill` open
a waiting stretch. -/
def makeRunnable (p : Proc) (ticks : Nat) : Proc :=
  { p with state := .runnable, lastRunnableTime := ticks }

/-- The statements before `swtch` in all three branches of `scheduler`. -/
def dispatch (p : Proc) (ticks : Nat) : Proc :=
  { p with
    totalWaitingTime :=
      if p.lastRunnableTime > 0 then uint (p.totalWaitingTime + uintSub ticks p.lastRunnableTime)
      else p.totalWaitingTime
    state := .running }

def sleepOn (p : Proc) (chan : Option Chan) : Proc :=
  { p with chan := chan, state := .sleeping }

def zombify (p : Proc) (status : Int) : Proc :=
  { p with xstate := status, state := .zombie }

def kill (p : Proc) (ticks : Nat) : Proc :=
  if p.state = .sleeping then { p.makeRunnable ticks with killed := true }
  else { p with killed := true }

@[simp] theorem kill_state (p : Proc) (ticks : Nat) :
    (p.kill ticks).state = if p.state = .sleeping then .runnable else p.state := by
  unfold kill
  split <;> rfl

@[simp] theorem kill_frame (p : Proc) (ticks : Nat) :
    (p.kill ticks).pid = p.pid ∧ (p.kill ticks).parent = p.parent ∧
    (p.kill ticks).creationTime = p.creationTime ∧ (p.kill ticks).runTime = p.runTime ∧
    (p.kill ticks).priority = p.priority ∧ (p.kill ticks).totalWaitingTime = p.totalWaitingTime := by
  unfold kill
  split <;> exact ⟨rfl, rfl, rfl, rfl, rfl, rfl⟩

def charge (p : Proc) : Proc :=
  { p with runTime := uint (p.runTime + 1) }

end Proc

/-- The two branches of `scheduler` that look for a best candidate. -/
inductive Branch where
  | fcfs
  | priority
  deriving DecidableEq, Repr

def Branch.better : Branch → Proc → Proc → Bool
  | .fcfs, p, q => p.creationTime < q.creationTime
  | .priority, p, q =>
      p.priority < q.priority || (p.priority == q.priority && p.creationTime < q.creationTime)

def Branch.mode : Branch → SchedMode
  | .fcfs => .fcfs
  | .priority => .priority

def decodePolicy (policy : Int) : Option SchedMode :=
  if policy = 0 then some .roundRobin
  else if policy = 1 then some .fcfs
  else if policy = 2 then some .priority
  else none

theorem uint_of_lt {n : Nat} (small : n < 4294967296) : uint n = n := Nat.mod_eq_of_lt small

theorem uint64_of_lt {n : Nat} (small : n < 18446744073709551616) : uint64 n = n := Nat.mod_eq_of_lt small

theorem uintSub_of_le {a b : Nat} (ordered : b ≤ a) (small : a < 4294967296) :
    uintSub a b = a - b := by
  unfold uintSub
  omega

end Xv6Monitor.Process.Table
