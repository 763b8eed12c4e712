import Xv6Monitor.Calls.Exec

/-! What every system call leaves, and so every run of the kernel: the counts of the file table, the
pipes and the partition of memory are in order whenever no call is in progress. -/

namespace Xv6Monitor.Calls.Runs
open Lib.Bytes Lib.Program Lib.Transition Process.Table Memory.Frames Memory.Boot FileSystem.Format State Machine
  Sharing Descriptors Transfers Families Exits Exec

variable [image : Image] [origin : Origin] {boot : Multiset Nat} {held : Slot → Multiset Nat} {k t : Kernel} {p : Slot}

structure Done (boot : Multiset Nat) (k t : Kernel) : Prop where
  fine : ∃ held, Fine boot t held 0
  initproc : t.initproc = k.initproc
  /-- A pipe that is no longer open is free. -/
  freed : ∀ pi ∈ pipePages k.file, pi ∈ pipePages t.file ∨ pi ∈ t.ram.freelist

theorem done_stays (fine : Fine boot k held 0) (stays : Stays boot held k t) : Done boot k t := by
  refine ⟨⟨held, stays.1⟩, stays.2, fun pi mem => ?_⟩
  by_cases still : pi ∈ pipePages t.file
  · exact Or.inl still
  have before := fine.layout.owns
  have after := stays.1.layout.owns
  have inside : pi ∈ (pipePages k.file).val + boot := Multiset.mem_add.mpr (Or.inl mem)
  have real : pi ∈ (↑k.ram.freelist + (∑ q, held q + ((pipePages k.file).val + boot)) : Multiset Nat) :=
    Multiset.mem_add.mpr (Or.inr (Multiset.mem_add.mpr (Or.inr inside)))
  rw [before.all, ← after.all] at real
  have notHeld : pi ∉ ∑ q, held q := fun wrong => before.apart wrong inside
  have notBoot : pi ∉ boot := by
    rw [add_left_comm] at before
    exact fun wrong => before.apart mem (Multiset.mem_add.mpr (Or.inr wrong))
  simp only [Multiset.mem_add, Multiset.mem_coe] at real
  rcases real with free | wrong | wrong | wrong
  · exact Or.inr free
  · exact absurd wrong notHeld
  · exact absurd wrong still
  · exact absurd wrong notBoot

theorem done_moves (moves : Moves boot k t) : Done boot k t := by
  refine ⟨moves.1, moves.2.2, fun pi mem => Or.inl ?_⟩
  rw [moves.2.1]
  exact mem

variable [sb : Superblock]

theorem call_spec {c : Call} (fine : Fine boot k held 0) (caller : c.caller = some p) (running : (k.proc p).state = .runnable) :
    Ends Excused (syscall c) k fun _ t => Done boot k t := by
  have busy := busy_runnable running
  cases c with
  | userinit initcode => exact nomatch caller
  | store r _ _ =>
    cases caller
    unfold syscall
    rw [ends_get_bind]
    exact (store_spec fine busy).bind fun _ t ⟨aside, _, fine'⟩ => done_stays fine ⟨fine', aside.initproc⟩
  | fork r =>
    cases caller
    exact (fork_spec fine running).imp fun _ _ moves => done_moves moves.1
  | exit r _ =>
    cases caller
    exact (exit_spec fine running).bind fun _ _ stays => done_stays fine stays
  | wait r addr =>
    cases caller
    exact (wait_spec fine running).imp fun _ _ moves => done_moves moves
  | sbrk r n =>
    cases caller
    exact (sysSbrk_spec fine running).imp fun _ _ moves => done_moves moves
  | exec r path _ =>
    cases caller
    exact ((sysExec_spec fine running).stops filed_excused).imp fun _ _ done => done_moves done.moves
  | dup r fd =>
    cases caller
    exact (sysDup_spec fine busy).imp fun _ _ stays => done_stays fine stays
  | close r fd =>
    cases caller
    exact (sysClose_spec fine busy).imp fun _ _ stays => done_stays fine stays
  | pipe r _ =>
    cases caller
    exact (sysPipe_spec fine busy).imp fun _ _ stays => done_stays fine stays
  | read r fd addr n console =>
    cases caller
    exact (sysRead_spec fine busy).imp fun _ _ stays => done_stays fine stays
  | write r fd _ n console => exact (sysWrite_spec fine).imp fun _ _ stays => done_stays fine stays
  | fstat r fd addr stack =>
    cases caller
    exact (sysFstat_spec fine busy).imp fun _ _ stays => done_stays fine stays
  | openat r path _ =>
    cases caller
    exact (sysOpen_spec fine busy).imp fun _ _ stays => done_stays fine stays
  | link r _ _ => exact (sysLink_spec fine).imp fun _ _ stays => done_stays fine stays
  | unlink r path => exact (sysUnlink_spec fine).imp fun _ _ stays => done_stays fine stays
  | mkdir r path => exact (makeInode_spec fine).imp fun _ _ stays => done_stays fine stays
  | mknod r path _ _ => exact (makeInode_spec fine).imp fun _ _ stays => done_stays fine stays
  | chdir r path => exact (sysChdir_spec fine).imp fun _ _ stays => done_stays fine stays

variable {taken : List Nat} {m : Ram} {disk : Nat → Data} {power : Option Nat}

def Kept (taken : List Nat) (m : Ram) (disk : Nat → Data) (power : Option Nat) (k : Kernel) : Prop :=
  k = start m disk power ∨ (k.initproc ≠ none ∧ ∃ held, Fine ↑taken k held 0)

theorem Kept.fine (began : Began taken m) (kept : Kept taken m disk power k) : ∃ held, Fine ↑taken k held 0 := by
  rcases kept with rfl | ⟨-, fine⟩
  · exact ⟨_, fine_start began disk power⟩
  · exact fine

theorem allowed_ends {c : Call} (began : Began taken m) (kept : Kept taken m disk power k) (allowed : Allowed k c) :
    Ends Excused (syscall c) k fun _ t => Kept taken m disk power t ∧
      ∀ pi ∈ pipePages k.file, pi ∈ pipePages t.file ∨ pi ∈ t.ram.freelist := by
  unfold Allowed at allowed
  cases caller : c.caller with
  | none =>
    rw [caller] at allowed
    rcases kept with rfl | ⟨made, -⟩
    · cases c with
      | userinit _ =>
        refine (userinit_spec began).bind fun _ t ⟨fine, made, files⟩ => ⟨Or.inr ⟨made, fine⟩, fun pi mem => Or.inl ?_⟩
        rw [files]
        exact mem
      | _ => exact nomatch caller
    · exact absurd allowed made
  | some p =>
    rw [caller] at allowed
    rcases kept with rfl | ⟨made, held, fine⟩
    · exact nomatch allowed
    · refine (call_spec fine caller allowed).imp fun _ t done => ⟨Or.inr ⟨?_, done.fine⟩, done.freed⟩
      rw [done.initproc]
      exact made

theorem reachable_kept (began : Began taken m) (reachable : Reachable (machine m disk power) k) : Kept taken m disk power k := by
  refine reachable.invariant (Or.inl rfl) fun k c t moved kept => ?_
  obtain ⟨allowed, _, ran⟩ := step_ran moved
  exact ((allowed_ends began kept allowed).ok ran).1

omit origin in
theorem reachable_fine (booted : Booted taken m) (reachable : Reachable (machine m disk power) k) :
    letI : Origin := ⟨m⟩
    ∃ held, Fine ↑taken k held 0 := by
  let : Origin := ⟨m⟩
  have began : Began taken m := ⟨booted, id⟩
  exact (reachable_kept began reachable).fine began

def smallRam : Ram := ⟨fun _ _ => 0, (@frames smallImage).reverse⟩

omit image origin sb in
theorem smallRam_booted : @Booted smallImage [] smallRam := by
  let := smallImage
  refine ⟨⟨fun _ _ => 0, 0, ?_⟩, by decide +kernel⟩
  have run : ((kinit >>= fun _ => takePages 0) ⟨fun _ _ => 0, []⟩).toOption.any
      (fun r => decide (r.1 = [] ∧ r.2.freelist = smallRam.freelist)) = true := by decide +kernel
  cases ran : (kinit >>= fun _ => takePages 0) ⟨fun _ _ => 0, []⟩ with
  | error e =>
    rw [ran] at run
    exact nomatch run
  | ok result =>
    rw [ran] at run
    obtain ⟨taken, t⟩ := result
    have both : taken = [] ∧ t.freelist = smallRam.freelist := by simpa [Except.toOption] using run
    exact ⟨t, by rw [both.1], both.2⟩

end Xv6Monitor.Calls.Runs
