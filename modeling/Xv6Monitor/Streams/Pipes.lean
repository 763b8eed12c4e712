import Xv6Monitor.Calls.State
import Xv6Monitor.Lib.Ring

/-! One pipe of `kernel/pipe.c`, used by any number of processes. A process that holds the lock of the pipe
takes one round of a loop of `pipewrite` or `piperead` in a step, and gives up the lock when it sleeps or
returns. What `copyin` and `copyout` meet in the user's memory is part of the step. -/

namespace Xv6Monitor.Streams.Pipes
open Function Lib.Ring Lib.Transition
open Calls.State (PIPESIZE)

structure Pipe where
  data : Nat → UInt8
  nread : BitVec 32
  nwrite : BitVec 32
  readopen : Bool
  writeopen : Bool

/-- Where a process is in `pipewrite` or `piperead`, with the arguments and variables it needs. -/
inductive Call where
  | write (n : Int) (i : Nat)
  /-- The first loop of `piperead`. -/
  | await (n : Int)
  /-- The second loop of `piperead`. -/
  | copy (n : Int) (i : Nat)
  deriving DecidableEq

inductive Thread where
  | idle
  /-- Waits for the lock. -/
  | entering (c : Call)
  /-- Has the lock. -/
  | inside (c : Call)
  | asleep (c : Call)
  | returned (r : Int)
  deriving DecidableEq

structure Sys where
  pipe : Pipe
  lock : Option Nat
  thread : Nat → Thread
  killed : Nat → Bool
  /-- The page of the pipe was given back. -/
  freed : Bool

inductive Event where
  | stored (ch : UInt8)
  | taken (ch : UInt8)
  deriving DecidableEq

def Sys.put (s : Sys) (p : Nat) (t : Thread) : Sys := { s with thread := update s.thread p t }

def Sys.leave (s : Sys) (p : Nat) (t : Thread) : Sys := { s.put p t with lock := none }

/-- Processes sleep on `nread` in `piperead` and on `nwrite` in `pipewrite`. -/
def Thread.wake (reader : Bool) : Thread → Thread
  | .asleep (.write n i) => if reader then .asleep (.write n i) else .entering (.write n i)
  | .asleep c => if reader then .entering c else .asleep c
  | t => t

def Sys.wakeup (s : Sys) (reader : Bool) : Sys := { s with thread := fun p => (s.thread p).wake reader }

def runWrite (s : Sys) (p : Nat) (n : Int) (i : Nat) (copyin : Option UInt8) : Sys × Option Event :=
  if (i : Int) < n then
    if s.pipe.readopen = false ∨ s.killed p then
      (s.leave p (.returned (-1)), none)
    else if s.pipe.nwrite = s.pipe.nread + BitVec.ofNat 32 PIPESIZE then
      ((s.wakeup true).leave p (.asleep (.write n i)), none)
    else
      match copyin with
      | none => ((s.wakeup true).leave p (.returned i), none)
      | some ch =>
        let pipe := { s.pipe with
          data := update s.pipe.data (slot PIPESIZE s.pipe.nwrite) ch, nwrite := s.pipe.nwrite + 1 }
        ({ s with pipe := pipe }.put p (.inside (.write n (i + 1))), some (.stored ch))
  else
    ((s.wakeup true).leave p (.returned i), none)

def runAwait (s : Sys) (p : Nat) (n : Int) : Sys :=
  if s.pipe.nread = s.pipe.nwrite ∧ s.pipe.writeopen then
    if s.killed p then s.leave p (.returned (-1)) else s.leave p (.asleep (.await n))
  else
    s.put p (.inside (.copy n 0))

def runCopy (s : Sys) (p : Nat) (n : Int) (i : Nat) (copyout : Bool) : Sys × Option Event :=
  if (i : Int) < n ∧ s.pipe.nread ≠ s.pipe.nwrite then
    let ch := s.pipe.data (slot PIPESIZE s.pipe.nread)
    let s := { s with pipe := { s.pipe with nread := s.pipe.nread + 1 } }
    if copyout then
      (s.put p (.inside (.copy n (i + 1))), some (.taken ch))
    else
      ((s.wakeup false).leave p (.returned i), some (.taken ch))
  else
    ((s.wakeup false).leave p (.returned i), none)

def pipeclose (s : Sys) (writable : Bool) : Sys :=
  let s :=
    if writable then { s with pipe := { s.pipe with writeopen := false } }.wakeup true
    else { s with pipe := { s.pipe with readopen := false } }.wakeup false
  { s with freed := s.pipe.readopen = false ∧ s.pipe.writeopen = false }

inductive Action where
  /-- A process calls one of the functions. -/
  | pipewrite (p : Nat) (n : Int)
  | piperead (p : Nat) (n : Int)
  | acquire (p : Nat)
  /-- The process that has the lock goes on; `copyin` is the byte it gets from the user, `copyout` whether
  it can store one. -/
  | run (p : Nat) (copyin : Option UInt8) (copyout : Bool)
  | kill (p : Nat)
  | pipeclose (writable : Bool)

def Thread.free : Thread → Bool
  | .idle | .returned _ => true
  | _ => false

def act (s : Sys) (a : Action) : Option (Sys × Option Event) :=
  if s.freed then none
  else
    match a with
    | .pipewrite p n => if (s.thread p).free then some (s.put p (.entering (.write n 0)), none) else none
    | .piperead p n => if (s.thread p).free then some (s.put p (.entering (.await n)), none) else none
    | .acquire p =>
      match s.thread p, s.lock with
      | .entering c, none => some ({ s.put p (.inside c) with lock := some p }, none)
      | _, _ => none
    | .run p copyin copyout =>
      match s.thread p with
      | .inside (.write n i) => some (runWrite s p n i copyin)
      | .inside (.await n) => some (runAwait s p n, none)
      | .inside (.copy n i) => some (runCopy s p n i copyout)
      | _ => none
    | .kill p =>
      -- A process that sleeps is made runnable.
      let t := match s.thread p with
        | .asleep c => Thread.entering c
        | t => t
      some ({ s.put p t with killed := update s.killed p true }, none)
    | .pipeclose writable => if s.lock = none then some (pipeclose s writable, none) else none

/-- The pipe as `pipealloc` sets it up in a page. -/
def start (data : Nat → UInt8) : Sys := ⟨⟨data, 0, 0, true, true⟩, none, fun _ => .idle, fun _ => false, false⟩

def machine (data : Nat → UInt8) : Machine Sys Action := ⟨start data, fun s a => (act s a).map Prod.fst⟩

/-- The bytes that were stored into the ring, and those that were taken out. -/
structure History where
  stored : List UInt8
  taken : List UInt8

def History.note (h : History) : Event → History
  | .stored ch => { h with stored := h.stored ++ [ch] }
  | .taken ch => { h with taken := h.taken ++ [ch] }

def observe (s : Sys) (a : Action) (_ : Sys) (h : History) : History :=
  match act s a with
  | some (_, some e) => h.note e
  | _ => h

inductive Touch (s t : Pipe) : Option Event → Prop where
  | none (data : t.data = s.data) (nread : t.nread = s.nread) (nwrite : t.nwrite = s.nwrite) : Touch s t none
  | stored (ch : UInt8) (room : s.nwrite ≠ s.nread + BitVec.ofNat 32 PIPESIZE)
      (data : t.data = update s.data (slot PIPESIZE s.nwrite) ch) (nread : t.nread = s.nread)
      (nwrite : t.nwrite = s.nwrite + 1) : Touch s t (some (.stored ch))
  | taken (nonempty : s.nread ≠ s.nwrite) (data : t.data = s.data) (nread : t.nread = s.nread + 1)
      (nwrite : t.nwrite = s.nwrite) : Touch s t (some (.taken (s.data (slot PIPESIZE s.nread))))

variable {s t : Sys} {a : Action} {e : Option Event} {p : Nat} {n : Int}

theorem touch_refl (s : Pipe) : Touch s s none := .none rfl rfl rfl

theorem runWrite_touch (s : Sys) (p : Nat) (n : Int) (i : Nat) (copyin : Option UInt8) :
    Touch s.pipe (runWrite s p n i copyin).1.pipe (runWrite s p n i copyin).2 := by
  unfold runWrite
  split
  · split
    · exact touch_refl _
    split
    · exact touch_refl _
    next room =>
    cases copyin with
    | none => exact touch_refl _
    | some ch => exact .stored ch room rfl rfl rfl
  · exact touch_refl _

theorem runAwait_touch : Touch s.pipe (runAwait s p n).pipe none := by
  unfold runAwait
  split
  · split <;> exact touch_refl _
  · exact touch_refl _

theorem runCopy_touch (s : Sys) (p : Nat) (n : Int) (i : Nat) (copyout : Bool) :
    Touch s.pipe (runCopy s p n i copyout).1.pipe (runCopy s p n i copyout).2 := by
  unfold runCopy
  split
  next more =>
    cases copyout with
    | true => exact .taken more.2 rfl rfl rfl
    | false => exact .taken more.2 rfl rfl rfl
  · exact touch_refl _

theorem pipeclose_touch {writable : Bool} : Touch s.pipe (pipeclose s writable).pipe none := by
  cases writable <;> exact .none rfl rfl rfl

theorem act_touch (moved : act s a = some (t, e)) : Touch s.pipe t.pipe e := by
  unfold act at moved
  split at moved
  · exact nomatch moved
  cases a with
  | pipewrite p n =>
    obtain ⟨-, ⟨⟩⟩ := Option.ite_none_right_eq_some.mp moved
    exact touch_refl _
  | piperead p n =>
    obtain ⟨-, ⟨⟩⟩ := Option.ite_none_right_eq_some.mp moved
    exact touch_refl _
  | acquire p =>
    dsimp only at moved
    split at moved
    · cases moved
      exact touch_refl _
    · exact nomatch moved
  | run p copyin copyout =>
    dsimp only at moved
    split at moved
    next n i _ =>
      have touched := runWrite_touch s p n i copyin
      rw [Option.some.inj moved] at touched
      exact touched
    · cases moved
      exact runAwait_touch
    next n i _ =>
      have touched := runCopy_touch s p n i copyout
      rw [Option.some.inj moved] at touched
      exact touched
    · exact nomatch moved
  | kill p =>
    cases moved
    exact touch_refl _
  | pipeclose writable =>
    obtain ⟨-, ⟨⟩⟩ := Option.ite_none_right_eq_some.mp moved
    exact pipeclose_touch

def contents (s : Pipe) : List UInt8 := between PIPESIZE s.data s.nread s.nwrite

/-- The ring is not overfull and holds what was stored and not taken yet. -/
structure Sound (s : Pipe) (h : History) : Prop where
  bound : (s.nwrite - s.nread).toNat ≤ PIPESIZE
  stored : h.stored = h.taken ++ contents s

theorem size_dvd : PIPESIZE ∣ 2 ^ 32 := by decide

theorem sound_none {s t : Pipe} {h : History} (sound : Sound s h) (data : t.data = s.data) (nread : t.nread = s.nread)
    (nwrite : t.nwrite = s.nwrite) : Sound t h := by
  refine ⟨?_, ?_⟩
  · rw [nread, nwrite]
    exact sound.bound
  · rw [contents, data, nread, nwrite]
    exact sound.stored

theorem sound_stored {s t : Pipe} {h : History} (sound : Sound s h) (ch : UInt8)
    (room : s.nwrite ≠ s.nread + BitVec.ofNat 32 PIPESIZE)
    (data : t.data = update s.data (slot PIPESIZE s.nwrite) ch) (nread : t.nread = s.nread)
    (nwrite : t.nwrite = s.nwrite + 1) : Sound t (h.note (.stored ch)) := by
  have bound := sound.bound
  have less : (s.nwrite - s.nread).toNat < PIPESIZE := by
    refine lt_of_le_of_ne bound fun full => room ?_
    rw [← full]
    exact (offset s.nread s.nwrite).symm
  have more : (s.nwrite + 1 - s.nread).toNat = (s.nwrite - s.nread).toNat + 1 := distance_succ (by
    unfold PIPESIZE at less
    omega)
  refine ⟨?_, ?_⟩
  · rw [nread, nwrite, more]
    exact less
  · rw [contents, data, nread, nwrite, between_push size_dvd (by decide) less, History.note, sound.stored,
      List.append_assoc]
    rfl

theorem sound_taken {s t : Pipe} {h : History} (sound : Sound s h) (nonempty : s.nread ≠ s.nwrite) (data : t.data = s.data)
    (nread : t.nread = s.nread + 1) (nwrite : t.nwrite = s.nwrite) :
    Sound t (h.note (.taken (s.data (slot PIPESIZE s.nread)))) := by
  have bound := sound.bound
  have less := distance_pred nonempty
  refine ⟨?_, ?_⟩
  · rw [nread, nwrite]
    omega
  rw [contents, data, nread, nwrite, History.note]
  have stored := sound.stored
  rw [contents, between_pop nonempty] at stored
  rw [stored, List.append_assoc]
  rfl

theorem act_sound {h : History} (sound : Sound s.pipe h) (moved : act s a = some (t, e)) :
    Sound t.pipe (observe s a t h) := by
  unfold observe
  rw [moved]
  cases act_touch moved with
  | none data nread nwrite => exact sound_none sound data nread nwrite
  | stored ch room data nread nwrite => exact sound_stored sound ch room data nread nwrite
  | taken nonempty data nread nwrite => exact sound_taken sound nonempty data nread nwrite

/-- In every run the ring holds at most `PIPESIZE` bytes, and what was taken out of it is what was stored
first; what is left are the bytes between the two counters. -/
theorem pipe_fifo {data : Nat → UInt8} (run : Run (machine data) s) :
    let h := run.fold observe ⟨[], []⟩
    (contents s.pipe).length ≤ PIPESIZE ∧ h.taken <+: h.stored ∧ h.stored = h.taken ++ contents s.pipe := by
  have empty : Sound (start data).pipe ⟨[], []⟩ := by
    refine ⟨?_, (between_self ..).symm⟩
    show ((0 : BitVec 32) - 0).toNat ≤ PIPESIZE
    decide
  have sound : Sound s.pipe (run.fold observe ⟨[], []⟩) := by
    refine Path.fold_invariant (I := fun s h => Sound s.pipe h) (fun s a t h moved sound => ?_) empty run
    obtain ⟨⟨_, e⟩, acted, rfl⟩ := Option.map_eq_some_iff.mp moved
    exact act_sound sound acted
  refine ⟨?_, ⟨_, sound.stored.symm⟩, sound.stored⟩
  rw [contents, between_length]
  exact sound.bound

/-! ### Who sleeps -/

def Thread.sleeps (reader : Bool) : Thread → Prop
  | .asleep (.write _ _) => reader = false
  | .asleep _ => reader = true
  | _ => False

def Thread.writes : Thread → Bool
  | .inside (.write _ _) => true
  | _ => false

/-- What this side sleeps for is not there, and the other side is open. -/
def Pipe.waits (s : Pipe) : Bool → Prop
  | true => s.nread = s.nwrite ∧ s.writeopen = true
  | false => s.nwrite = s.nread + BitVec.ofNat 32 PIPESIZE ∧ s.readopen = true

/-- The call wakes this side up before it gives up the lock. -/
def Pipe.owes (s : Pipe) (c : Call) : Bool → Prop
  | true => (∃ n i, c = .write n i) ∧ s.readopen = true
  | false => ∃ n i, c = .copy n i

/-- Nobody sleeps in vain, unless the process with the lock owes a wakeup. -/
structure Sleepers (reader : Bool) (s : Sys) : Prop where
  lock : ∀ p c, s.thread p = .inside c → s.lock = some p
  asleep : ∀ p, (s.thread p).sleeps reader → s.pipe.waits reader ∨ ∃ q c, s.thread q = .inside c ∧ s.pipe.owes c reader

/-- Not a round of `pipewrite` whose process is killed. -/
def Spares (s : Sys) (a : Action) (_ : Sys) : Prop :=
  match a with
  | .run p _ _ => (s.thread p).writes = true → s.killed p = false
  | _ => True

instance : Decidable (Spares s a t) := by
  unfold Spares
  split <;> infer_instance

variable {reader side : Bool} {c d : Call} {q : Nat} {pipe : Pipe} {u : Thread}

theorem wake_sleeps (t : Thread) : (t.wake side).sleeps reader ↔ reader ≠ side ∧ t.sleeps reader := by
  rcases t with _ | _ | _ | (_ | _ | _) | _ <;> cases reader <;> cases side <;> simp [Thread.wake, Thread.sleeps]

theorem wake_inside (t : Thread) : t.wake side = .inside c ↔ t = .inside c := by
  rcases t with _ | _ | _ | (_ | _ | _) | _ <;> cases side <;> simp [Thread.wake]

theorem put_thread (s : Sys) (p q : Nat) (u : Thread) :
    (q = p ∧ (s.put p u).thread q = u) ∨ q ≠ p ∧ (s.put p u).thread q = s.thread q := by
  obtain rfl | other := eq_or_ne q p
  · exact .inl ⟨rfl, update_self ..⟩
  · exact .inr ⟨other, update_of_ne other ..⟩

theorem owes_write (s : Pipe) {i : Nat} (owes : s.owes (.write n i) reader) : reader = true ∧ s.readopen = true := by
  cases reader with
  | true => exact ⟨rfl, owes.2⟩
  | false => exact nomatch owes

theorem owes_copy (s : Pipe) {i : Nat} (owes : s.owes (.copy n i) reader) : reader = false := by
  cases reader with
  | true => exact nomatch owes.1
  | false => rfl

theorem free_outside {t : Thread} (free : t.free = true) (c : Call) : t ≠ .inside c := by
  rintro rfl
  cases free

variable (before : Sleepers reader s)
include before

theorem Sleepers.unlocked (free : s.lock = none) (asleep : (s.thread q).sleeps reader) :
    s.pipe.waits reader := by
  refine (before.asleep q asleep).resolve_right fun ⟨p, c, inside, _⟩ => ?_
  cases (before.lock p c inside).symm.trans free

theorem Sleepers.alone (inside : s.thread p = .inside c) (other : s.thread q = .inside d) :
    q = p :=
  Option.some.inj ((before.lock q d other).symm.trans (before.lock p c inside))

theorem Sleepers.locked (inside : s.thread p = .inside c)
    (asleep : (s.thread q).sleeps reader) : s.pipe.waits reader ∨ s.pipe.owes c reader := by
  obtain waits | ⟨r, d, other, owes⟩ := before.asleep q asleep
  · exact .inl waits
  · cases before.alone inside other
    cases inside.symm.trans other
    exact .inr owes

theorem Sleepers.put (outside : ∀ c, s.thread p ≠ .inside c) (out : ∀ c, u ≠ .inside c)
    (awake : ¬ u.sleeps reader) : Sleepers reader (s.put p u) := by
  refine ⟨fun q c inside => ?_, fun q asleep => ?_⟩
  · obtain ⟨-, now⟩ | ⟨-, now⟩ := put_thread s p q u
    · exact absurd (now.symm.trans inside) (out c)
    · exact before.lock q c (now.symm.trans inside)
  · obtain ⟨-, now⟩ | ⟨-, now⟩ := put_thread s p q u
    · exact absurd (now ▸ asleep) awake
    refine (before.asleep q (now ▸ asleep)).imp_right fun ⟨r, c, inside, owes⟩ => ?_
    have other : r ≠ p := fun same => outside c (same ▸ inside)
    exact ⟨r, c, (update_of_ne other ..).trans inside, owes⟩

theorem Sleepers.acquire (free : s.lock = none) :
    Sleepers reader { s.put p (.inside c) with lock := some p } := by
  refine ⟨fun q d inside => ?_, fun q (asleep : ((s.put p (.inside c)).thread q).sleeps reader) => ?_⟩
  · obtain ⟨rfl, -⟩ | ⟨-, now⟩ := put_thread s p q (.inside c)
    · rfl
    · cases (before.lock q d (now.symm.trans inside)).symm.trans free
  · obtain ⟨-, now⟩ | ⟨-, now⟩ := put_thread s p q (.inside c)
    · exact False.elim (now ▸ asleep :)
    · exact .inl (before.unlocked free (now ▸ asleep))

theorem Sleepers.touch (inside : s.thread p = .inside c)
    (kept : s.pipe.waits reader ∨ s.pipe.owes c reader → pipe.waits reader ∨ pipe.owes c reader) :
    Sleepers reader { s with pipe := pipe } := by
  refine ⟨before.lock, fun q asleep => ?_⟩
  exact (kept (before.locked inside asleep)).imp_right fun owes => ⟨p, c, inside, owes⟩

theorem Sleepers.stay (inside : s.thread p = .inside c)
    (kept : s.pipe.owes c reader → s.pipe.owes d reader) : Sleepers reader (s.put p (.inside d)) := by
  refine ⟨fun q e here => ?_, fun q asleep => ?_⟩
  · obtain ⟨rfl, -⟩ | ⟨-, now⟩ := put_thread s p q (.inside d)
    · exact before.lock q c inside
    · exact before.lock q e (now.symm.trans here)
  · obtain ⟨-, now⟩ | ⟨-, now⟩ := put_thread s p q (.inside d)
    · exact False.elim (now ▸ asleep :)
    refine (before.locked inside (now ▸ asleep)).imp_right fun owes => ?_
    exact ⟨p, d, update_self .., kept owes⟩

theorem Sleepers.leave (inside : s.thread p = .inside c)
    (quiet : ∀ q, (s.thread q).sleeps reader → s.pipe.waits reader) (out : ∀ c, u ≠ .inside c)
    (self : u.sleeps reader → s.pipe.waits reader) : Sleepers reader (s.leave p u) := by
  refine ⟨fun q d here => ?_, fun q (asleep : ((s.put p u).thread q).sleeps reader) => .inl ?_⟩
  · obtain ⟨-, now⟩ | ⟨other, now⟩ := put_thread s p q u
    · exact absurd (now.symm.trans here) (out d)
    · exact absurd (before.alone inside (now.symm.trans here)) other
  · obtain ⟨-, now⟩ | ⟨-, now⟩ := put_thread s p q u
    · exact self (now ▸ asleep)
    · exact quiet q (now ▸ asleep)

theorem Sleepers.wakeup : Sleepers reader (s.wakeup side) := by
  refine ⟨fun q c inside => before.lock q c ((wake_inside _).mp inside), fun q asleep => ?_⟩
  refine (before.asleep q ((wake_sleeps _).mp asleep).2).imp_right fun ⟨r, c, inside, owes⟩ => ?_
  exact ⟨r, c, (wake_inside _).mpr inside, owes⟩

theorem Sleepers.leave_wakeup (inside : s.thread p = .inside c)
    (paid : s.pipe.owes c reader → reader = side) (out : ∀ c, u ≠ .inside c)
    (self : u.sleeps reader → s.pipe.waits reader) : Sleepers reader ((s.wakeup side).leave p u) := by
  refine before.wakeup.leave ((wake_inside _).mpr inside) (fun q asleep => ?_) out self
  obtain ⟨unpaid, asleep⟩ := (wake_sleeps _).mp asleep
  exact (before.locked inside asleep).resolve_right fun owes => unpaid (paid owes)

theorem runWrite_sleepers {i : Nat} (inside : s.thread p = .inside (.write n i))
    (spared : reader = true → s.killed p = false) (copyin : Option UInt8) :
    Sleepers reader (runWrite s p n i copyin).1 := by
  have paid : s.pipe.owes (.write n i) reader → reader = true := fun owes => (owes_write _ owes).1
  unfold runWrite
  split
  swap
  · exact before.leave_wakeup inside paid nofun nofun
  split
  next gone =>
    refine before.leave inside (fun q asleep => ?_) nofun nofun
    -- A writer that stops here owes the readers nothing: the read end is closed.
    refine (before.locked inside asleep).resolve_right fun owes => ?_
    obtain ⟨side, opened⟩ := owes_write _ owes
    simp [opened, spared side] at gone
  next opened =>
  split
  next full =>
    refine before.leave_wakeup inside paid nofun fun (side : reader = false) => ?_
    subst side
    exact ⟨full, by simpa using fun closed => opened (.inl closed)⟩
  next room =>
  cases copyin with
  | none => exact before.leave_wakeup inside paid nofun nofun
  | some ch =>
    refine (before.touch inside fun asleep => ?_).stay inside fun owes => ?_
    · cases reader with
      | true => exact .inr ⟨⟨n, i, rfl⟩, by simpa using fun closed => opened (.inl closed)⟩
      | false => exact asleep.elim (fun waits => absurd waits.1 room) nofun
    · cases reader with
      | true => exact ⟨⟨n, i + 1, rfl⟩, owes.2⟩
      | false => exact nomatch owes

theorem runAwait_sleepers (inside : s.thread p = .inside (.await n)) :
    Sleepers reader (runAwait s p n) := by
  have nothing : ¬ s.pipe.owes (.await n) reader := by
    cases reader with
    | true => exact fun owes => nomatch owes.1
    | false => exact fun owes => nomatch owes
  unfold runAwait
  split
  next empty =>
    have quiet : ∀ q, (s.thread q).sleeps reader → s.pipe.waits reader := fun q asleep =>
      (before.locked inside asleep).resolve_right nothing
    split
    · exact before.leave inside quiet nofun nofun
    · refine before.leave inside quiet nofun fun (side : reader = true) => ?_
      subst side
      exact empty
  · exact before.stay inside fun owes => absurd owes nothing

theorem runCopy_sleepers {i : Nat} (inside : s.thread p = .inside (.copy n i)) (copyout : Bool) :
    Sleepers reader (runCopy s p n i copyout).1 := by
  have paid : ∀ pipe : Pipe, pipe.owes (.copy n i) reader → reader = false := fun _ => owes_copy _
  unfold runCopy
  split
  next more =>
    have taken : Sleepers reader { s with pipe := { s.pipe with nread := s.pipe.nread + 1 } } := by
      refine before.touch inside fun asleep => ?_
      cases reader with
      | true => exact asleep.elim (fun waits => absurd waits.1 more.2) fun owes => nomatch owes.1
      | false => exact .inr ⟨n, i, rfl⟩
    cases copyout with
    | true =>
      refine taken.stay inside fun owes => ?_
      cases paid _ owes
      exact ⟨n, i + 1, rfl⟩
    | false => exact taken.leave_wakeup inside (paid _) nofun nofun
  · exact before.leave_wakeup inside (paid _) nofun nofun

theorem pipeclose_sleepers (free : s.lock = none) (writable : Bool) :
    Sleepers reader (pipeclose s writable) := by
  have quiet : ∀ q, (s.thread q).sleeps reader → s.pipe.waits reader := fun q => before.unlocked free
  cases writable with
  | true =>
    refine ⟨fun q c inside => before.lock q c ((wake_inside _).mp inside), fun q asleep => .inl ?_⟩
    obtain ⟨side, asleep⟩ := (wake_sleeps _).mp asleep
    cases eq_false_of_ne_true side
    exact quiet q asleep
  | false =>
    refine ⟨fun q c inside => before.lock q c ((wake_inside _).mp inside), fun q asleep => .inl ?_⟩
    obtain ⟨side, asleep⟩ := (wake_sleeps _).mp asleep
    cases eq_true_of_ne_false side
    exact quiet q asleep

theorem act_sleepers (moved : act s a = some (t, e)) (spared : reader = true → Spares s a t) :
    Sleepers reader t := by
  unfold act at moved
  split at moved
  · exact nomatch moved
  cases a with
  | pipewrite p n =>
    obtain ⟨free, ⟨⟩⟩ := Option.ite_none_right_eq_some.mp moved
    exact before.put (free_outside free) nofun nofun
  | piperead p n =>
    obtain ⟨free, ⟨⟩⟩ := Option.ite_none_right_eq_some.mp moved
    exact before.put (free_outside free) nofun nofun
  | acquire p =>
    dsimp only at moved
    split at moved
    next entering unlocked =>
      cases moved
      exact before.acquire unlocked
    · exact nomatch moved
  | run p copyin copyout =>
    dsimp only at moved
    split at moved
    next n i inside =>
      have after := runWrite_sleepers before inside (fun side => spared side (by rw [inside]; rfl)) copyin
      rwa [Option.some.inj moved] at after
    next n inside =>
      cases moved
      exact runAwait_sleepers before inside
    next n i inside =>
      have after := runCopy_sleepers before inside copyout
      rwa [Option.some.inj moved] at after
    · exact nomatch moved
  | kill p =>
    cases moved
    split
    next c asleep =>
      have woken : Sleepers reader (s.put p (.entering c)) := before.put (fun d inside => nomatch asleep.symm.trans inside) nofun nofun
      exact ⟨woken.lock, woken.asleep⟩
    · rw [Sys.put, update_eq_self]
      exact ⟨before.lock, before.asleep⟩
  | pipeclose writable =>
    obtain ⟨free, ⟨⟩⟩ := Option.ite_none_right_eq_some.mp moved
    exact pipeclose_sleepers before free writable

omit before

/-- While nobody has the lock, a process sleeps in `pipewrite` only if the ring is full and the read end open, and in
`piperead` only if the ring is empty and the write end open; the latter unless a process is killed in the middle of a
`pipewrite`. -/
theorem pipe_sleepers {data : Nat → UInt8} (run : Run (machine data) s) (free : s.lock = none) :
    (∀ p n i, s.thread p = .asleep (.write n i) → s.pipe.waits false) ∧
    (run.Every Spares → ∀ p n, s.thread p = .asleep (.await n) → s.pipe.waits true) := by
  have asleep : ∀ reader, (reader = true → run.Every Spares) → ∀ p, (s.thread p).sleeps reader → s.pipe.waits reader := by
    intro reader spares p asleep
    have quiet : Sleepers reader (start data) := ⟨fun _ _ => nofun, fun _ => False.elim⟩
    have sleepers : Sleepers reader s := by
      refine Path.invariant_under (P := fun s a t => reader = true → Spares s a t) (fun s a t moved spared before => ?_)
        quiet run fun x a y taken side => spares side x a y taken
      obtain ⟨⟨_, e⟩, acted, rfl⟩ := Option.map_eq_some_iff.mp moved
      exact act_sleepers before acted spared
    exact sleepers.unlocked free asleep
  exact ⟨fun p n i here => asleep false nofun p (here ▸ rfl), fun spares p n here => asleep true (fun _ => spares) p (here ▸ rfl)⟩

/-- A reader sleeps for a byte; a writer that is killed after its first byte does not wake it. -/
theorem pipe_sleepers_killed :
    (∃ s, ∃ run : Run (machine fun _ => 0) s, run.Every Spares ∧ s.thread 1 = .asleep (.await 1) ∧ s.pipe.waits true) ∧
    ∃ s, Reachable (machine fun _ => 0) s ∧ s.lock = none ∧ s.thread 1 = .asleep (.await 1) ∧ s.pipe.nread ≠ s.pipe.nwrite := by
  constructor
  · obtain ⟨s, run, spares, free, here⟩ := execUnder_path (M := machine fun _ => 0) (s := start fun _ => 0) (P := Spares)
      (Q := fun s => s.lock = none ∧ s.thread 1 = .asleep (.await 1)) [.piperead 1 1, .acquire 1, .run 1 none true] (by decide)
    exact ⟨s, run, spares, here, (pipe_sleepers run free).2 spares 1 1 here⟩
  · exact reachable_exec [.piperead 1 1, .acquire 1, .run 1 none true, .pipewrite 0 2, .acquire 0, .run 0 (some 7) true,
      .kill 0, .run 0 none true] (by decide)

end Xv6Monitor.Streams.Pipes
