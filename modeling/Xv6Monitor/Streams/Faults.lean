import Mathlib.Algebra.Order.Group.Int
import Xv6Monitor.Streams.Pipes

/-! What a read of a pipe takes out of the ring when the user's memory cannot be written: `piperead` advances
`nread` before it copies the byte, so that a byte that cannot be copied is gone. -/

namespace Xv6Monitor.Streams.Faults
open Function Lib.Ring Lib.Transition Pipes
open Calls.State (PIPESIZE)

/-- How many bytes the last call of each process has taken out of the ring, if that is one of `piperead`. -/
abbrev Tallies : Type := Nat → Option Nat

def removed (s : Sys) (a : Action) (_ : Sys) (h : Tallies) : Tallies :=
  match a with
  | .piperead p _ => update h p (some 0)
  | .pipewrite p _ => update h p none
  | .run p _ _ =>
    match act s a with
    | some (_, some (.taken _)) => update h p ((h p).map (· + 1))
    | _ => h
  | _ => h

/-- Whenever `piperead` has returned, it has taken as many bytes as it says. -/
def Exact (s : Sys) (h : Tallies) : Prop := ∀ p k r, h p = some k → s.thread p = .returned r → (k : Int) = max r 0

/-- When a byte is there for the process, its user's memory can be written at the place where the byte goes. -/
def Stored (s : Sys) (a : Action) (_ : Sys) : Prop :=
  match a with
  | .run p _ copyout => ∀ n i, s.thread p = .inside (.copy n i) → (i : Int) < n → s.pipe.nread ≠ s.pipe.nwrite → copyout = true
  | _ => True

def taken : Call → Option Nat
  | .write _ _ => none
  | .await _ => some 0
  | .copy _ i => some i

def Counted : Thread → Option Nat → Prop
  | .idle, x => x = none
  | .entering c, x | .inside c, x | .asleep c, x => x = taken c
  | .returned r, x => ∀ k, x = some k → (k : Int) = max r 0

variable {s t : Sys} {a : Action} {e : Option Event} {p : Nat} {n : Int} {h : Tallies} {r : Thread}

theorem counted_wake {x : Option Nat} (reader : Bool) (counted : Counted r x) : Counted (r.wake reader) x := by
  unfold Thread.wake
  split
  · split <;> exact counted
  · split <;> exact counted
  · exact counted

variable {thread : Nat → Thread}

theorem counted_put {x : Option Nat} (counted : ∀ q, Counted (thread q) (h q))
    (mine : Counted r x) (q : Nat) : Counted (update thread p r q) (update h p x q) := by
  by_cases here : q = p
  · rw [here, update_self, update_self]
    exact mine
  · rw [update_of_ne here, update_of_ne here]
    exact counted q

theorem counted_same (counted : ∀ q, Counted (thread q) (h q))
    (mine : Counted r (h p)) (q : Nat) : Counted (update thread p r q) (h q) := by
  have both := counted_put (p := p) counted mine q
  rwa [update_eq_self] at both

variable {i : Nat}

theorem returned_count : Counted (.returned i) (some i) := by
  intro k same
  rw [← Option.some.inj same, max_eq_left (Int.natCast_nonneg i)]

theorem runWrite_counted (copyin : Option UInt8) (counted : ∀ q, Counted (s.thread q) (h q))
    (here : s.thread p = .inside (.write n i)) :
    (∀ q, Counted ((runWrite s p n i copyin).1.thread q) (h q)) ∧ ∀ ch, (runWrite s p n i copyin).2 ≠ some (.taken ch) := by
  have none : h p = none := by
    have mine := counted p
    rwa [here] at mine
  have back : ∀ r, Counted (.returned r) (h p) := fun r k same => nomatch none.symm.trans same
  have inside : ∀ j, Counted (.inside (.write n j)) (h p) := fun _ => none
  have woken : ∀ q, Counted ((s.wakeup true).thread q) (h q) := fun q => counted_wake true (counted q)
  unfold runWrite
  split
  · split
    · exact ⟨counted_same counted (back (-1)), nofun⟩
    split
    · exact ⟨counted_same woken none, nofun⟩
    cases copyin with
    | none => exact ⟨counted_same woken (back i), nofun⟩
    | some ch => exact ⟨counted_same counted (inside (i + 1)), nofun⟩
  · exact ⟨counted_same woken (back i), nofun⟩

theorem runAwait_counted (counted : ∀ q, Counted (s.thread q) (h q)) (here : s.thread p = .inside (.await n)) (q : Nat) :
    Counted ((runAwait s p n).thread q) (h q) := by
  have zero : h p = some 0 := by
    have mine := counted p
    rwa [here] at mine
  have killed : Counted (.returned (-1)) (h p) := by
    intro k same
    rw [zero] at same
    rw [← Option.some.inj same]
    rfl
  have waits : Counted (.asleep (.await n)) (h p) := zero
  have copies : Counted (.inside (.copy n 0)) (h p) := zero
  unfold runAwait
  split
  · split
    · exact counted_same counted killed q
    · exact counted_same counted waits q
  · exact counted_same counted copies q

theorem runCopy_takes (copyout : Bool) (more : (i : Int) < n) (nonempty : s.pipe.nread ≠ s.pipe.nwrite) :
    (runCopy s p n i copyout).2 = some (.taken (s.pipe.data (slot PIPESIZE s.pipe.nread))) ∧
      (runCopy s p n i copyout).1.thread p = if copyout then .inside (.copy n (i + 1)) else .returned i := by
  unfold runCopy
  rw [if_pos ⟨more, nonempty⟩]
  cases copyout with
  | true => exact ⟨rfl, update_self ..⟩
  | false => exact ⟨rfl, update_self ..⟩

theorem runCopy_counted (copyout : Bool) (counted : ∀ q, Counted (s.thread q) (h q))
    (here : s.thread p = .inside (.copy n i)) (stored : (i : Int) < n → s.pipe.nread ≠ s.pipe.nwrite → copyout = true) (q : Nat) :
    Counted ((runCopy s p n i copyout).1.thread q)
      ((match (runCopy s p n i copyout).2 with
        | some (.taken _) => update h p ((h p).map (· + 1))
        | _ => h) q) := by
  have mine : h p = some i := by
    have mine := counted p
    rwa [here] at mine
  by_cases more : (i : Int) < n ∧ s.pipe.nread ≠ s.pipe.nwrite
  · obtain rfl := stored more.1 more.2
    unfold runCopy
    rw [if_pos more, mine]
    exact counted_put counted (r := .inside (.copy n (i + 1))) (x := some (i + 1)) rfl q
  · have woken : ∀ q, Counted ((s.wakeup false).thread q) (h q) := fun q => counted_wake false (counted q)
    unfold runCopy
    rw [if_neg more]
    refine counted_same woken ?_ q
    rw [mine]
    exact returned_count

theorem act_counted (counted : ∀ q, Counted (s.thread q) (h q)) (moved : act s a = some (t, e)) (stored : Stored s a t) :
    ∀ q, Counted (t.thread q) (removed s a t h q) := by
  have acted := moved
  unfold act at moved
  split at moved
  · exact nomatch moved
  cases a with
  | pipewrite p n =>
    obtain ⟨-, ⟨⟩⟩ := Option.ite_none_right_eq_some.mp moved
    exact counted_put counted rfl
  | piperead p n =>
    obtain ⟨-, ⟨⟩⟩ := Option.ite_none_right_eq_some.mp moved
    exact counted_put counted rfl
  | acquire p =>
    dsimp only at moved
    split at moved
    next entering _ =>
      cases moved
      refine counted_same counted ?_
      have mine := counted p
      rwa [entering] at mine
    · exact nomatch moved
  | run p copyin copyout =>
    unfold removed
    rw [acted]
    dsimp only at moved
    split at moved
    next n i here =>
      have kept := runWrite_counted copyin counted here
      rw [Option.some.inj moved] at kept
      intro q
      cases e with
      | none => exact kept.1 q
      | some event =>
        cases event with
        | stored ch => exact kept.1 q
        | taken ch => exact absurd rfl (kept.2 ch)
    next n here =>
      cases moved
      exact runAwait_counted counted here
    next n i here =>
      have kept := runCopy_counted copyout counted here (stored n i here)
      rw [Option.some.inj moved] at kept
      intro q
      have mine := kept q
      cases e with
      | none => exact mine
      | some event => cases event <;> exact mine
    · exact nomatch moved
  | kill p =>
    cases moved
    refine counted_same counted ?_
    have mine := counted p
    cases state : s.thread p <;> (rw [state] at mine; exact mine)
  | pipeclose writable =>
    obtain ⟨-, ⟨⟩⟩ := Option.ite_none_right_eq_some.mp moved
    cases writable with
    | true => exact fun q => counted_wake true (counted q)
    | false => exact fun q => counted_wake false (counted q)

/-- A byte that is there and cannot be copied is missing in what `piperead` returns. -/
theorem act_exact (counted : ∀ q, Counted (s.thread q) (h q)) (moved : act s a = some (t, e))
    (exact : Exact t (removed s a t h)) : Stored s a t := by
  cases a with
  | run p copyin copyout =>
    intro n i here more nonempty
    by_contra failed
    obtain rfl : copyout = false := by simpa using failed
    have mine := counted p
    rw [here] at mine
    obtain ⟨took, back⟩ := runCopy_takes (s := s) (p := p) false more nonempty
    have ran : act s (.run p copyin false) = some (runCopy s p n i false) := by
      unfold act at moved ⊢
      split at moved
      · exact nomatch moved
      next alive =>
        rw [if_neg alive]
        dsimp only
        rw [here]
    obtain ⟨rfl, rfl⟩ := Prod.mk.inj (Option.some.inj (ran.symm.trans moved))
    have count : removed s (.run p copyin false) (runCopy s p n i false).1 h p = some (i + 1) := by
      have event : runCopy s p n i false = ((runCopy s p n i false).1, some (.taken (s.pipe.data (slot PIPESIZE s.pipe.nread)))) :=
        Prod.ext rfl took
      unfold removed
      rw [ran, event]
      dsimp only
      rw [update_self, mine]
      rfl
    have wrong := exact p (i + 1) i count back
    omega
  | pipewrite | piperead | acquire | kill | pipeclose => trivial

/-- The tallies are those that the processes have. -/
def Tracks (s : Sys) (h : Tallies) : Prop := ∀ q, Counted (s.thread q) (h q)

theorem run_tracks {data : Nat → UInt8} (run : Run (machine data) s) (stored : run.Every Stored) :
    Tracks s (run.fold removed fun _ => none) := by
  have none : Tracks (start data) fun _ => none := fun _ => rfl
  refine Path.fold_invariant_under (I := Tracks) (fun s a t h moved stored counted => ?_) none run stored
  obtain ⟨⟨_, _⟩, acted, rfl⟩ := Option.map_eq_some_iff.mp moved
  exact act_counted counted acted stored

/-- In a run every call of `piperead` takes exactly the bytes that it returns if and only if the user's memory can be
written wherever a byte is copied to. -/
theorem piperead_exact_iff {data : Nat → UInt8} (run : Run (machine data) s) :
    run.Always (fun {s} path => Exact s (path.fold removed fun _ => none)) ↔ run.Every Stored := by
  induction run with
  | nil =>
    refine iff_of_true ?_ (Path.every_nil _)
    exact fun p k r some _ => nomatch some
  | @snoc s t path a moved ih =>
    obtain ⟨⟨_, e⟩, acted, rfl⟩ := Option.map_eq_some_iff.mp moved
    rw [Path.every_snoc, Path.Always, ih]
    refine and_congr_right fun earlier => ⟨act_exact (run_tracks path earlier) acted, fun stored => ?_⟩
    intro p k r count back
    have mine := act_counted (run_tracks path earlier) acted stored p
    rw [back] at mine
    exact mine k count

/-- Process 1 writes a byte, and process 2 reads it to memory that it cannot write: the read returns nothing, and the
pipe is empty. -/
theorem piperead_loses_byte : ∃ s, ∃ run : Run (machine fun _ => 0) s, s.thread 2 = .returned 0 ∧
    run.fold removed (fun _ => none) 2 = some 1 ∧ contents s.pipe = [] :=
  execFold_path removed (Q := fun s h => s.thread 2 = .returned 0 ∧ h 2 = some 1 ∧ contents s.pipe = [])
    [.pipewrite 1 1, .acquire 1, .run 1 (some 7) true, .run 1 none true, .piperead 2 1, .acquire 2, .run 2 none true,
      .run 2 none false] (by decide +kernel)

end Xv6Monitor.Streams.Faults
