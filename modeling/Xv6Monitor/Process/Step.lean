import Xv6Monitor.Process.Machine

/-! Which section comes next. Each case of the functions below is one position in the
source, with the operation performed there, the calls that replace the current one
and the value it returns, if it returns. -/

namespace Xv6Monitor.Process.Step
open Table Machine Lib.Transition

/-- What the environment decides. `go` is the only way on where the code leaves nothing
open. -/
inductive Choice where
  | go
  | fail
  | failLate
  | timer
  | device
  | fault
  | call (call : Syscall)
  | sleepOn (chan : Chan)
  | wakeOn (chan : Chan)
  deriving DecidableEq, Repr

structure Action (C : Nat) where
  cpu : Fin C
  choice : Choice
  deriving DecidableEq, Repr

structure Section where
  op : Op
  calls : List Call
  ret : Option Int
  deriving DecidableEq, Repr

variable {C : Nat}

/-- `p < &proc[NPROC]` -/
def slotAt (k : Nat) : Option Slot := if h : k < NPROC then some ⟨k, h⟩ else none

/-- Calls made on behalf of the process `p = myproc()`. -/
def processCall (s : Sys C) (p : Slot) : Call → Option Section
  | .busy => some ⟨.nop, [], none⟩
  | .fsinit => some ⟨.fsinitDone, [], none⟩
  | .allocproc k =>
      match slotAt k with
      | none => some ⟨.nop, [], some (-1)⟩
      | some q =>
          if (s.proc q).state = .unused then some ⟨.alloc q, [.allocTime q s.nextpid], none⟩
          else some ⟨.look q, [.allocproc (k + 1)], none⟩
  | .allocTime np pid => some ⟨.allocTime np, [.forkParent np pid], none⟩
  | .forkParent np pid => some ⟨.setParent np p, [.forkRunnable np pid], none⟩
  | .forkRunnable np pid => some ⟨.forkRunnable np, [], some pid⟩
  | .wait addr => some ⟨.acquireWait, [.waitScan addr 0 false], none⟩
  | .waitScan addr k havekids =>
      match slotAt k with
      | some pp =>
          if (s.proc pp).parent = some p then
            if (s.proc pp).state = .zombie then some ⟨.reap pp, [], some (s.proc pp).pid⟩
            else some ⟨.look pp, [.waitScan addr (k + 1) true], none⟩
          else some ⟨.nop, [.waitScan addr (k + 1) havekids], none⟩
      | none =>
          if havekids = false then some ⟨.releaseWait none, [], some (-1)⟩
          else if (s.proc p).killed then some ⟨.releaseWait (some p), [], some (-1)⟩
          else some ⟨.look p, [.waitSleep addr], none⟩
  | .waitSleep addr => some ⟨.sleep p (some (.proc p)) .waitLock, [.wait addr], none⟩
  | .kill pid k =>
      match slotAt k with
      | none => some ⟨.nop, [], some (-1)⟩
      | some q =>
          if (s.proc q).pid = pid then some ⟨.kill q, [], some 0⟩
          else some ⟨.look q, [.kill pid (k + 1)], none⟩
  | .setpriority pid priority k =>
      match slotAt k with
      | none => some ⟨.nop, [], some (-1)⟩
      | some q =>
          if (s.proc q).pid = pid ∧ (s.proc q).state ≠ .unused then
            some ⟨.setPriority q priority, [.setpriorityYield], none⟩
          else some ⟨.look q, [.setpriority pid priority (k + 1)], none⟩
  | .setpriorityYield =>
      some ⟨.nop, if s.schedMode = .priority then [.yield] else [], some 0⟩
  | .setscheduler policy =>
      match decodePolicy policy with
      | none => some ⟨.nop, [], some (-1)⟩
      | some mode => some ⟨.acquireMetrics, [.resetTurnaround mode], none⟩
  | .resetTurnaround mode => some ⟨.zeroTurnaround, [.resetWaiting mode], none⟩
  | .resetWaiting mode => some ⟨.zeroWaiting, [.resetFinished mode], none⟩
  | .resetFinished mode => some ⟨.zeroFinished, [.setMode mode], none⟩
  | .setMode mode => some ⟨.setMode mode, [.yield], some 0⟩
  | .getmetrics => some ⟨.readMetrics, [], some 0⟩
  | .sysSleep n => some ⟨.acquireTicks, [.sleepLoop n.toNat s.ticks], none⟩
  | .sleepLoop n ticks0 =>
      if uintSub s.ticks ticks0 < n then
        if (s.proc p).killed then some ⟨.releaseTicks (some p), [], some (-1)⟩
        else some ⟨.look p, [.sleepTicks n ticks0], none⟩
      else some ⟨.releaseTicks none, [], some 0⟩
  | .sleepTicks n ticks0 => some ⟨.sleep p (some .ticks) .tickslock, [.sleepRelock n ticks0], none⟩
  | .sleepRelock n ticks0 => some ⟨.acquireTicks, [.sleepLoop n ticks0], none⟩
  | .yield => some ⟨if s.schedMode = .fcfs then .look p else .yield p, [], none⟩
  | _ => none

/-- Calls that interrupt handlers make as well; `myproc()` may be null in them. -/
def handlerCall (s : Sys C) (c : Fin C) : Call → Option Section
  | .wakeup chan k =>
      match slotAt k with
      | none => some ⟨.nop, [], none⟩
      | some q =>
          if (s.cpu c).proc = some q then some ⟨.nop, [.wakeup chan (k + 1)], none⟩
          else if (s.proc q).state = .sleeping ∧ (s.proc q).chan = chan then
            some ⟨.wake q, [.wakeup chan (k + 1)], none⟩
          else some ⟨.look q, [.wakeup chan (k + 1)], none⟩
  | .clockintr =>
      if c.val = 0 then some ⟨.tick, [.updateTime 0], none⟩ else some ⟨.nop, [], none⟩
  | .updateTime k =>
      match slotAt k with
      | none => some ⟨.nop, [.wakeup (some .ticks) 0, .clockRelease], none⟩
      | some q =>
          if (s.proc q).state = .running then some ⟨.charge q, [.updateTime (k + 1)], none⟩
          else some ⟨.look q, [.updateTime (k + 1)], none⟩
  | .clockRelease => some ⟨.releaseTicks none, [], none⟩
  | .kerneltrap cause =>
      some ⟨.nop, if cause = .timer ∧ (s.cpu c).proc ≠ none then [.yield] else [], none⟩
  | .devintr => some ⟨.nop, [], none⟩
  | _ => none

def callStep (s : Sys C) (c : Fin C) (call : Call) : Choice → Option Section
  | .go =>
      match handlerCall s c call with
      | some result => some result
      | none => (s.cpu c).proc.bind fun p => processCall s p call
  | .sleepOn chan =>
      match call, (s.cpu c).proc with
      | .busy, some p => some ⟨.sleep p (some chan) .other, [.busy], none⟩
      | .fsinit, some p => some ⟨.sleep p (some chan) .other, [.fsinit], none⟩
      | _, _ => none
  | .wakeOn chan =>
      match call with
      | .busy | .fsinit | .devintr => some ⟨.nop, [.wakeup (some chan) 0, call], none⟩
      | _ => none
  | .fail =>
      match call, (s.cpu c).proc with
      | .allocproc k, some _ =>
          -- kalloc or proc_pagetable failed
          match slotAt k with
          | some q =>
              if (s.proc q).state = .unused then some ⟨.allocFail q false, [], some (-1)⟩ else none
          | none => none
      | .waitScan addr k _, some p =>
          -- copyout failed: the zombie stays
          match slotAt k with
          | some pp =>
              if addr ≠ 0 ∧ (s.proc pp).parent = some p ∧ (s.proc pp).state = .zombie then
                some ⟨.releaseWait (some pp), [], some (-1)⟩
              else none
          | none => none
      | _, _ => none
  | .failLate =>
      match call, (s.cpu c).proc with
      | .allocproc k, some _ =>
          -- uvmcopy failed
          match slotAt k with
          | some q =>
              if (s.proc q).state = .unused then some ⟨.allocFail q true, [], some (-1)⟩ else none
          | none => none
      | _, _ => none
  | _ => none

def baseStep (s : Sys C) (p : Slot) : Base → Choice → Option (Base × Op × List Call)
  | .user, .call call => some (.usertrap call, .nop, [])
  | .user, .fault => some (.usertrapTail .fault, .setKilled p, [])
  | .usertrap call, .go =>
      if (s.proc p).killed then some (.exit (-1), .look p, [])
      else some (call.entry.1, .look p, call.entry.2)
  | .usertrapTail cause, .go =>
      if (s.proc p).killed then some (.exit (-1), .look p, [])
      else some (.usertrapret, .look p, if cause = .timer then [.yield] else [])
  | .usertrapret, .go => some (.user, .nop, [])
  | .exit status, .go =>
      -- panic("init exiting")
      if p = s.initproc then none else some (.exitTurnaround status, .acquireMetrics, [])
  | .exitTurnaround status, .go => some (.exitWaiting status, .addTurnaround p, [])
  | .exitWaiting status, .go => some (.exitFinished status, .addWaiting p, [])
  | .exitFinished status, .go => some (.exitFiles status, .addFinished, [])
  | .exitFiles status, .sleepOn chan => some (.exitFiles status, .sleep p (some chan) .other, [])
  | .exitFiles status, .wakeOn chan => some (.exitFiles status, .nop, [.wakeup (some chan) 0])
  | .exitFiles status, .go => some (.exitLock status, .nop, [])
  | .exitLock status, .go => some (.reparent status 0, .acquireWait, [])
  | .reparent status k, .go =>
      match slotAt k with
      | some pp =>
          if (s.proc pp).parent = some p then
            some (.reparent status (k + 1), .reparent pp, [.wakeup (some (.proc s.initproc)) 0])
          else some (.reparent status (k + 1), .nop, [])
      | none => some (.exitZombie status, .nop, [.wakeup ((s.proc p).parent.map .proc) 0])
  | .exitZombie status, .go => some (.gone, .zombie p status, [])
  | _, _ => none

def schedStep (s : Sys C) (c : Fin C) : Option (Sys C) :=
  let cpu := s.cpu c
  match cpu.loc with
  | .top =>
      let loc := match s.schedMode with
        | .roundRobin => .roundRobin 0
        | .fcfs => .scan .fcfs 0 none
        | .priority => .scan .priority 0 none
      some (s.setCpu c { cpu with loc := loc })
  | .roundRobin k =>
      match slotAt k with
      | none => some (s.setCpu c { cpu with loc := .top })
      | some q =>
          if s.plock q = none then
            if (s.proc q).state = .runnable then
              some (((s.setLock q (some c)).setProc q ((s.proc q).dispatch s.ticks)).setCpu c
                { cpu with proc := some q, loc := .swtchIn (some k) q })
            else some (s.setCpu c { cpu with loc := .roundRobin (k + 1) })
          else none
  | .scan branch k cand =>
      match slotAt k with
      | some q =>
          if s.plock q = none then
            if (s.proc q).state = .runnable ∧
                (∀ old ∈ cand, branch.better (s.proc q) (s.proc old) = true) then
              let released := match cand with
                | some old => s.setLock old none
                | none => s
              some ((released.setLock q (some c)).setCpu c
                { cpu with loc := .scan branch (k + 1) (some q) })
            else some (s.setCpu c { cpu with loc := .scan branch (k + 1) cand })
          else none
      | none =>
          match cand with
          | none => some (s.setCpu c { cpu with loc := .top })
          | some q =>
              some ((s.setProc q ((s.proc q).dispatch s.ticks)).setCpu c
                { cpu with proc := some q, loc := .swtchIn none q })
  | .swtchIn cursor p => some (s.setCpu c { cpu with cur := some p, loc := .swtchOut cursor p })
  | .swtchOut cursor p =>
      if s.plock p = some c then
        let loc := match cursor with
          | some k => .roundRobin (k + 1)
          | none => .top
        some ((s.setLock p none).setCpu c { cpu with proc := none, loc := loc })
      else none

/-- Leaving and entering the context of `p`, on the CPU that executes it. -/
def switchStep (s : Sys C) (c : Fin C) (p : Slot) : Phase → Option (Sys C)
  | .running => none
  | .yielding =>
      some ((s.setProc p ((s.proc p).makeRunnable s.ticks)).setThread p
        { s.thread p with phase := .sched .yield })
  | .sched resume =>
      -- the panics of sched()
      if s.plock p = some c ∧ s.noff c = 1 ∧ (s.proc p).state ≠ .running then
        some (s.setThread p { s.thread p with phase := .swtch resume })
      else none
  | .swtch resume =>
      some ((s.setThread p { s.thread p with phase := .parked resume }).setCpu c
        { s.cpu c with cur := none })
  | .parked resume =>
      if s.plock p = some c then
        let thread := { s.thread p with phase := .running }
        match resume with
        | .forkret =>
            some ((s.setLock p none).setThread p
              { thread with calls := if s.first then [.fsinit] else [] })
        | .yield => some ((s.setLock p none).setThread p thread)
        | .sleep =>
            some (((s.setProc p { s.proc p with chan := none }).setLock p none).setThread p thread)
        -- panic("zombie exit")
        | .zombie => none
      else none

def threadStep (s : Sys C) (c : Fin C) (p : Slot) (choice : Choice) : Option (Sys C) :=
  match (s.thread p).phase with
  | .running =>
      match (s.thread p).calls with
      | [] =>
          (baseStep s p (s.thread p).base choice).bind fun next =>
            (next.2.1.apply s c).map fun t =>
              t.setThread p { t.thread p with base := next.1, calls := next.2.2 }
      | call :: rest =>
          (callStep s c call choice).bind fun result =>
            (result.op.apply s c).map fun t =>
              t.setThread p { t.thread p with
                calls := result.calls ++ rest
                a0 := result.ret.getD (t.thread p).a0 }
  | phase => if choice = .go then switchStep s c p phase else none

def idleStep (s : Sys C) (c : Fin C) (choice : Choice) : Option (Sys C) :=
  match (s.cpu c).calls with
  | [] => if choice = .go then schedStep s c else none
  | call :: rest =>
      (callStep s c call choice).bind fun result =>
        (result.op.apply s c).map fun t =>
          t.setCpu c { t.cpu c with calls := result.calls ++ rest }

def handler : Cause → Call
  | .timer => .clockintr
  | _ => .devintr

/-- An interrupt is taken only while the CPU holds no spinlock and no handler is active. -/
def interruptStep (s : Sys C) (c : Fin C) (cause : Cause) : Option (Sys C) :=
  if s.noff c = 0 then
    match (s.cpu c).cur with
    | none =>
        if (s.cpu c).calls = [] then
          some (s.setCpu c { s.cpu c with calls := [handler cause, .kerneltrap cause] })
        else none
    | some p =>
        let thread := s.thread p
        if thread.phase = .running ∧ thread.base.interruptible ∧
            thread.calls.all (fun call => !call.interrupt) then
          if thread.base = .user then
            some (s.setThread p { thread with
              base := .usertrapTail cause, calls := handler cause :: thread.calls })
          else
            some (s.setThread p { thread with
              calls := handler cause :: .kerneltrap cause :: thread.calls })
        else none
  else none

def step (s : Sys C) (action : Action C) : Option (Sys C) :=
  match action.choice with
  | .timer => interruptStep s action.cpu .timer
  | .device => interruptStep s action.cpu .device
  | choice =>
      match (s.cpu action.cpu).cur with
      | none => idleStep s action.cpu choice
      | some p => threadStep s action.cpu p choice

def firstSlot : Slot := ⟨0, by decide⟩

/-- After `main`: `userinit` made the first process, every CPU enters `scheduler`. -/
def boot (C : Nat) : Sys C where
  proc := Function.update (fun _ => Proc.zero) firstSlot ((Proc.zero.allocproc 1).makeRunnable 0)
  ticks := 0
  nextpid := 2
  schedMode := .roundRobin
  totalTurnaroundTime := 0
  totalWaitingTimeSum := 0
  finishedProcesses := 0
  initproc := firstSlot
  first := true
  plock := fun _ => none
  waitLock := none
  tickslock := none
  metricsLock := none
  cpu := fun _ => ⟨none, none, .top, []⟩
  thread := fun _ => .fresh

theorem boot_proc (C : Nat) (q : Slot) : (boot C).proc q =
    if q = firstSlot then (Proc.zero.allocproc 1).makeRunnable 0 else Proc.zero := by
  simp only [boot, Function.update_apply]

def kernel (C : Nat) : Machine (Sys C) (Action C) := ⟨boot C, step⟩

/-- Schedules for concrete runs: `n` steps of CPU `c` that leave nothing open. -/
def steps (c : Fin C) (n : Nat) : List (Action C) := List.replicate n ⟨c, .go⟩

def syscall (c : Fin C) (call : Syscall) (n : Nat) : List (Action C) := ⟨c, .call call⟩ :: steps c n

end Xv6Monitor.Process.Step
