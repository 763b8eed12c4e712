import Xv6Monitor.Lib.Transition
import Xv6Monitor.Process.Table

/-! The kernel as a machine: any number of CPUs, each running its scheduler loop or
the kernel thread of one process. One step is one section between two lock
operations of `kernel/proc.c`, `kernel/trap.c` or `kernel/sysproc.c`, cut once more
where it reads a second variable that the locks it holds do not protect (`nextpid` and
`ticks` in `allocproc`, `sched_mode` and `ticks` in `yield`); a lock that a step keeps
past its end stays recorded with the CPU that holds it. An allocation that fails only
draws a pid, and is one step. The choice in an action stands for what the code does not
decide: which system call user code makes, whether memory is left, when an interrupt
arrives. -/

namespace Xv6Monitor.Process.Machine
open Function Table

inductive Syscall where
  | fork
  | exit (status : Int)
  | wait (addr : Nat)
  | sleep (n : Int)
  | kill (pid : Int)
  | setpriority (pid priority : Int)
  | setscheduler (policy : Int)
  | getmetrics
  | other
  deriving DecidableEq, Repr

/-- The cases of `usertrap`; the last two are the values 1 and 2 of `which_dev`. -/
inductive Cause where
  | syscall
  | fault
  | device
  | timer
  deriving DecidableEq, Repr

/-- Where a process is in `usertrap` or `exit`, the functions that nothing calls or that
do not return. -/
inductive Base where
  | user
  | usertrap (call : Syscall)
  | usertrapTail (cause : Cause)
  | usertrapret
  | exit (status : Int)
  | exitTurnaround (status : Int)
  | exitWaiting (status : Int)
  | exitFinished (status : Int)
  | exitFiles (status : Int)
  | exitLock (status : Int)
  | reparent (status : Int) (k : Nat)
  | exitZombie (status : Int)
  | gone
  deriving DecidableEq, Repr

/-- An active call above the base, with the position it has reached. Loops over the
table carry their cursor `k`. `busy` is kernel code outside these files (files,
pipes, disk, console, memory), of which only the calls of `sleep` and `wakeup`
matter here. -/
inductive Call where
  | busy
  | fsinit
  | allocproc (k : Nat)
  | allocTime (np : Slot) (pid : Int)
  | forkParent (np : Slot) (pid : Int)
  | forkRunnable (np : Slot) (pid : Int)
  | wait (addr : Nat)
  | waitScan (addr : Nat) (k : Nat) (havekids : Bool)
  | waitSleep (addr : Nat)
  | kill (pid : Int) (k : Nat)
  | setpriority (pid priority : Int) (k : Nat)
  | setpriorityYield
  | setscheduler (policy : Int)
  | resetTurnaround (mode : SchedMode)
  | resetWaiting (mode : SchedMode)
  | resetFinished (mode : SchedMode)
  | setMode (mode : SchedMode)
  | getmetrics
  | sysSleep (n : Int)
  | sleepLoop (n ticks0 : Nat)
  | sleepTicks (n ticks0 : Nat)
  | sleepRelock (n ticks0 : Nat)
  | yield
  | wakeup (chan : Option Chan) (k : Nat)
  | clockintr
  | updateTime (k : Nat)
  | clockRelease
  | kerneltrap (cause : Cause)
  | devintr
  deriving DecidableEq, Repr

/-- What `usertrap` leaves on the stack when it enters the system call. -/
def Syscall.entry : Syscall → Base × List Call
  | .fork => (.usertrapTail .syscall, [.allocproc 0])
  | .exit status => (.exit status, [])
  | .wait addr => (.usertrapTail .syscall, [.wait addr])
  | .sleep n => (.usertrapTail .syscall, [.sysSleep n])
  | .kill pid => (.usertrapTail .syscall, [.kill pid 0])
  | .setpriority pid priority => (.usertrapTail .syscall, [.setpriority pid priority 0])
  | .setscheduler policy => (.usertrapTail .syscall, [.setscheduler policy])
  | .getmetrics => (.usertrapTail .syscall, [.getmetrics])
  | .other => (.usertrapTail .syscall, [.busy])

/-- Calls that run with interrupts off. -/
def Call.interrupt : Call → Bool
  | .clockintr | .updateTime _ | .clockRelease | .kerneltrap _ | .devintr => true
  | _ => false

/-- Between the trap and `intr_on`, and from `intr_off` to the return, no interrupt is taken. -/
def Base.interruptible : Base → Bool
  | .usertrap _ | .usertrapTail .fault | .usertrapTail .device | .usertrapTail .timer
  | .usertrapret => false
  | _ => true

/-- The return address saved by a `swtch` away from a process. -/
inductive Resume where
  | forkret
  | yield
  | sleep
  | zombie
  deriving DecidableEq, Repr

/-- How far a kernel thread is in giving up its CPU: in `yield`, after the check of `sched_mode`;
in `sched`, before its registers are stored; in `swtch`, after they are stored; parked in its
saved context. -/
inductive Phase where
  | running
  | yielding
  | sched (resume : Resume)
  | swtch (resume : Resume)
  | parked (resume : Resume)
  deriving DecidableEq, Repr

structure Thread where
  base : Base
  calls : List Call
  phase : Phase
  /-- `trapframe->a0`, the result of the last system call. -/
  a0 : Int
  deriving DecidableEq, Repr

/-- Where the scheduler thread is. `swtchIn` and `swtchOut` stand before and after its
`swtch`; their first argument is the cursor of the round robin loop, if it is in it. -/
inductive SchedLoc where
  | top
  | roundRobin (k : Nat)
  | scan (branch : Branch) (k : Nat) (cand : Option Slot)
  | swtchIn (cursor : Option Nat) (p : Slot)
  | swtchOut (cursor : Option Nat) (p : Slot)
  deriving DecidableEq, Repr

/-- `struct cpu`, with the thread it executes (`none` is the scheduler's own), the position
of the scheduler loop and the interrupt handlers running above that loop. -/
structure Cpu where
  proc : Option Slot
  cur : Option Slot
  loc : SchedLoc
  calls : List Call
  deriving DecidableEq, Repr

structure Sys (C : Nat) where
  proc : Slot → Proc
  ticks : Nat
  nextpid : Int
  schedMode : SchedMode
  totalTurnaroundTime : Nat
  totalWaitingTimeSum : Nat
  finishedProcesses : Nat
  initproc : Slot
  /-- The static of `forkret`. -/
  first : Bool
  plock : Slot → Option (Fin C)
  waitLock : Option (Fin C)
  tickslock : Option (Fin C)
  metricsLock : Option (Fin C)
  cpu : Fin C → Cpu
  thread : Slot → Thread

variable {C : Nat}

@[simps] def Sys.setProc (s : Sys C) (q : Slot) (p : Proc) : Sys C :=
  { s with proc := update s.proc q p }

@[simps] def Sys.setThread (s : Sys C) (q : Slot) (thread : Thread) : Sys C :=
  { s with thread := update s.thread q thread }

@[simps] def Sys.setCpu (s : Sys C) (c : Fin C) (cpu : Cpu) : Sys C :=
  { s with cpu := update s.cpu c cpu }

@[simps] def Sys.setLock (s : Sys C) (q : Slot) (holder : Option (Fin C)) : Sys C :=
  { s with plock := update s.plock q holder }

theorem update_field {ι α β : Type} [DecidableEq ι] (field : α → β) {table : ι → α} {i : ι} {entry : α}
    (same : field entry = field (table i)) (j : ι) : field (update table i entry j) = field (table j) := by
  by_cases here : j = i
  · rw [here, update_self, same]
  · rw [update_of_ne here]

/-- Depth of `push_off` nesting: one for each spinlock the CPU holds. -/
def Sys.noff (s : Sys C) (c : Fin C) : Nat :=
  (List.finRange NPROC).countP (fun q => s.plock q = some c) +
    [s.waitLock, s.tickslock, s.metricsLock].countP (fun holder => holder = some c)

inductive SleepLock where
  | waitLock
  | tickslock
  | other
  deriving DecidableEq, Repr

def Sys.releaseFor (s : Sys C) : SleepLock → Sys C
  | .waitLock => { s with waitLock := none }
  | .tickslock => { s with tickslock := none }
  | .other => s

/-- The sections as operations on the shared state. `look` takes and drops a process lock
without changing anything. -/
inductive Op where
  | nop
  | look (q : Slot)
  | alloc (q : Slot)
  | allocTime (q : Slot)
  | allocFail (q : Slot) (late : Bool)
  | setParent (np p : Slot)
  | forkRunnable (np : Slot)
  | acquireMetrics
  | addTurnaround (p : Slot)
  | addWaiting (p : Slot)
  | addFinished
  | zeroTurnaround
  | zeroWaiting
  | zeroFinished
  | readMetrics
  | setMode (mode : SchedMode)
  | acquireWait
  | releaseWait (inside : Option Slot)
  | reparent (q : Slot)
  | wake (q : Slot)
  | kill (q : Slot)
  | setKilled (q : Slot)
  | setPriority (q : Slot) (priority : Int)
  | reap (q : Slot)
  | acquireTicks
  | releaseTicks (inside : Option Slot)
  | tick
  | charge (q : Slot)
  | yield (p : Slot)
  | sleep (p : Slot) (chan : Option Chan) (lk : SleepLock)
  | zombie (p : Slot) (status : Int)
  | fsinitDone
  deriving DecidableEq, Repr

/-- The state in which `fork` and `userinit` leave a new kernel thread: its context returns
to `forkret`, which ends in `usertrapret`. -/
def Thread.fresh : Thread := ⟨.usertrapret, [], .parked .forkret, 0⟩

def Sys.leave (s : Sys C) (c : Fin C) (p : Slot) (entry : Proc) (resume : Resume) : Sys C :=
  ((s.setProc p entry).setLock p (some c)).setThread p
    { s.thread p with phase := .sched resume }

/-- An acquire of a lock that is taken does not return, and a release of a lock that is
not held panics: both have no successor. -/
def Op.apply (s : Sys C) (c : Fin C) : Op → Option (Sys C)
  | .nop => some s
  | .look q => if s.plock q = none then some s else none
  | .alloc q =>
      -- nextpid is an int: past INT_MAX its increment is undefined
      if s.plock q = none ∧ s.nextpid < INT_MAX then
        some ((({ s with nextpid := s.nextpid + 1 }.setProc q
          ((s.proc q).allocproc s.nextpid)).setLock q (some c)).setThread q .fresh)
      else none
  | .allocTime q =>
      if s.plock q = some c then
        some ((s.setProc q ((s.proc q).allocTime s.ticks)).setLock q none)
      else none
  | .allocFail q late =>
      if s.plock q = none ∧ s.nextpid < INT_MAX then
        some ({ s with nextpid := s.nextpid + 1 }.setProc q
          ((if late then (s.proc q).allocproc s.nextpid else s.proc q).freeproc s.ticks))
      else none
  | .setParent np p =>
      if s.waitLock = none then some (s.setProc np { s.proc np with parent := some p }) else none
  | .forkRunnable np =>
      if s.plock np = none then some (s.setProc np ((s.proc np).makeRunnable s.ticks)) else none
  | .acquireMetrics =>
      if s.metricsLock = none then some { s with metricsLock := some c } else none
  | .addTurnaround p =>
      let age := uintSub s.ticks (s.proc p).creationTime
      some { s with totalTurnaroundTime := uint64 (s.totalTurnaroundTime + age) }
  | .addWaiting p =>
      let waiting := (s.proc p).totalWaitingTime
      some { s with totalWaitingTimeSum := uint64 (s.totalWaitingTimeSum + waiting) }
  | .addFinished =>
      if s.metricsLock = some c then
        some { s with finishedProcesses := uint64 (s.finishedProcesses + 1), metricsLock := none }
      else none
  | .zeroTurnaround => some { s with totalTurnaroundTime := 0 }
  | .zeroWaiting => some { s with totalWaitingTimeSum := 0 }
  | .zeroFinished =>
      if s.metricsLock = some c then
        some { s with finishedProcesses := 0, metricsLock := none }
      else none
  | .readMetrics => if s.metricsLock = none then some s else none
  | .setMode mode => some { s with schedMode := mode }
  | .acquireWait => if s.waitLock = none then some { s with waitLock := some c } else none
  | .releaseWait inside =>
      if s.waitLock = some c ∧ (∀ q ∈ inside, s.plock q = none) then
        some { s with waitLock := none }
      else none
  | .reparent q => some (s.setProc q { s.proc q with parent := some s.initproc })
  | .wake q =>
      if s.plock q = none then some (s.setProc q ((s.proc q).makeRunnable s.ticks)) else none
  | .kill q => if s.plock q = none then some (s.setProc q ((s.proc q).kill s.ticks)) else none
  | .setKilled q =>
      if s.plock q = none then some (s.setProc q { s.proc q with killed := true }) else none
  | .setPriority q priority =>
      if s.plock q = none then some (s.setProc q { s.proc q with priority := priority }) else none
  | .reap q =>
      if s.plock q = none ∧ s.waitLock = some c then
        some ({ s with waitLock := none }.setProc q ((s.proc q).freeproc s.ticks))
      else none
  | .acquireTicks => if s.tickslock = none then some { s with tickslock := some c } else none
  | .releaseTicks inside =>
      if s.tickslock = some c ∧ (∀ q ∈ inside, s.plock q = none) then
        some { s with tickslock := none }
      else none
  | .tick =>
      if s.tickslock = none then some { s with tickslock := some c, ticks := uint (s.ticks + 1) }
      else none
  | .charge q => if s.plock q = none then some (s.setProc q (s.proc q).charge) else none
  | .yield p =>
      if s.plock p = none then
        some ((s.setLock p (some c)).setThread p { s.thread p with phase := .yielding })
      else none
  | .sleep p chan lk =>
      if s.plock p = none then
        some ((s.releaseFor lk).leave c p ((s.proc p).sleepOn chan) .sleep)
      else none
  | .zombie p status =>
      if s.plock p = none ∧ s.waitLock = some c then
        some ({ s with waitLock := none }.leave c p ((s.proc p).zombify status) .zombie)
      else none
  | .fsinitDone => some { s with first := false }

end Xv6Monitor.Process.Machine
