import Xv6Monitor.Calls.Partition

/-! In every run and whatever the files contain, `exec` succeeds or leaves all memory as it was. -/

namespace Xv6Monitor.Calls.Atomicity
open Lib.Bytes Lib.Program Lib.Transition Stops Process.Table Memory.Frames Memory.Boot FileSystem.Format FileSystem.Blocks
  State Processes Machine Sharing Images Exec Runs Calls.Partition

variable [image : Image]

/-- The processes are as they were, with their page tables, user memory and trapframes, and the same pages
are free. -/
structure Untouched (k t : Kernel) : Prop where
  proc : t.proc = k.proc
  memory : ∀ q, ∀ x ∈ processPages k q, t.ram.page x = k.ram.page x
  free : t.ram.freelist.Perm k.ram.freelist

/-- A call succeeds, or it fails and has changed nothing; only the file system can keep it from returning. -/
def Atomic (k : Kernel) (outcome : Except Halt (Int × Kernel)) : Prop :=
  match outcome with
  | .ok (r, t) => 0 ≤ r ∨ (r = -1 ∧ Untouched k t)
  | .error e => ∃ why, e = .fs why

variable {boot : Multiset Nat} {held : Slot → Multiset Nat} {k : Kernel} {p : Slot} {s : Fs}

theorem untouched_failed [origin : Origin] {t : Kernel} (fine : Fine boot k held 0) (done : Executed boot held k (-1) t) : Untouched k t := by
  have beside := done.failed rfl
  refine ⟨beside.proc, fun q x mem => beside.kept x ?_, Multiset.coe_eq_coe.mp (done.free fine)⟩
  rw [← processPages_eq fine] at mem
  exact Multiset.mem_add.mpr (Or.inl (Holdings.mem_all mem))

theorem atomic_of [origin : Origin] {x : KProg Int} (fine : Fine boot k held 0)
    (ends : Ends Filed x { k with fs := s } (Executed boot held { k with fs := s })) : Atomic k (x { k with fs := s }) := by
  unfold Atomic
  cases ran : x { k with fs := s } with
  | error e =>
    have filed := ends.error ran
    cases e with
    | fs why => exact ⟨why, rfl⟩
    | _ => exact filed.elim
  | ok result =>
    obtain ⟨_, _⟩ := result
    have done := ends.ok ran
    rcases done.result with failed | positive
    · subst failed
      obtain ⟨proc, memory, free⟩ := untouched_failed (k := { k with fs := s }) fine done
      exact Or.inr ⟨rfl, proc, memory, free⟩
    · exact Or.inl positive

variable [sb : Superblock] {taken : List Nat} {m : Ram} {disk : Nat → Data} {power : Option Nat}

/-- In every state of a run, with whatever file system, path and arguments, `exec` returns the number of
arguments, or `-1` with all processes, their memory and the free pages as they were. No panic of the
memory functions stops it, and no endless loop. -/
theorem exec_atomic (booted : Booted taken m) (reachable : Reachable (machine m disk power) k)
    (running : (k.proc p).state = .runnable) (s : Fs) :
    (∀ path argv, Atomic k (Processes.exec p path argv { k with fs := s })) ∧
    ∀ path uargv, Atomic k (sysExec p path uargv { k with fs := s }) := by
  let : Origin := ⟨m⟩
  obtain ⟨_, fine⟩ := reachable_fine booted reachable
  exact ⟨fun path argv => atomic_of fine (exec_spec fine running), fun path uargv => atomic_of fine (sysExec_spec fine running)⟩

/-- A disk with the root directory and one file, `a`, of 64 null bytes. -/
def fileDisk : Nat → Data := fun b =>
  if b = 32 then
    Dinode.write (Dinode.write (fun _ => 0) 64 ⟨T_DIR, 0, 0, 1, 16, fun k => if k.val = 0 then 46 else 0⟩) 128
      ⟨T_FILE, 0, 0, 1, 64, fun k => if k.val = 0 then 47 else 0⟩
  else if b = 46 then (Dirent.mk 2 [97]).bytes
  else fun _ => 0

omit image sb in
/-- The first process runs a file that is not a program. -/
theorem exec_atomic_bad_magic :
    letI := smallImage
    letI := Mkfs.Image.superblock
    ∃ k t, Reachable (machine smallRam fileDisk none) k ∧
      sysExec ⟨0, by decide⟩ (some [97]) (fun _ => .null) k = .ok (-1, t) ∧ Untouched k t := by
  let := smallImage
  let := Mkfs.Image.superblock
  obtain ⟨k, reachable, running, fails⟩ := reachable_exec (M := machine smallRam fileDisk none)
    (Q := fun k => (k.proc ⟨0, by decide⟩).state = .runnable ∧
      (sysExec ⟨0, by decide⟩ (some [97]) (fun _ => .null) k).toOption.any (fun r => r.1 == -1) = true)
    [.userinit fun _ => 0] (by decide +kernel)
  have atomic := (exec_atomic smallRam_booted reachable running k.fs).2 (some [97]) fun _ => .null
  unfold Atomic at atomic
  rcases ran : sysExec ⟨0, by decide⟩ (some [97]) (fun _ => .null) k with e | result
  · rw [ran] at fails
    exact nomatch fails
  obtain ⟨r, t⟩ := result
  rw [ran] at fails atomic
  have failed : r = -1 := by simpa [Except.toOption] using fails
  subst failed
  exact ⟨k, t, reachable, ran, (atomic.resolve_left (by decide)).2⟩

end Xv6Monitor.Calls.Atomicity
