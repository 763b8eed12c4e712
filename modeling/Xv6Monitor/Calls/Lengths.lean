import Xv6Monitor.Calls.Reads
import Xv6Monitor.Calls.Runs
import Xv6Monitor.FileSystem.Faults

/-! Reads never deliver more than was asked for, except from an inode with a negative length: `readi` takes it for a large
one, and delivers the rest of the file. -/

namespace Xv6Monitor.Calls.Lengths
open Lib.Program Stops Process.Table Memory.Frames Memory.Tables Memory.Mappings Memory.Access Memory.Copies
  Memory.Bytes FileSystem.Format FileSystem.Blocks FileSystem.Extents FileSystem.Contents FileSystem.Walking State Files
  Processes Machine Holdings Sharing Exits Runs Reads

/-- A process that reads from an open file. Its memory is its own: no page of it is one of the pipe that it reads. -/
structure Caller where
  kernel : Kernel
  proc : Slot
  file : Fp
  entries : Nat → Nat
  backed : Backed kernel.ram (kernel.proc proc).pagetable entries
  pipe : (kernel.file file).type = .pipe →
    Foreign kernel.ram (kernel.proc proc).pagetable entries (kernel.file file).pipe

def Caller.root (c : Caller) : Nat := (c.kernel.proc c.proc).pagetable

theorem layout_backed [image : Image] [origin : Origin] {m : Ram} {proc : Slot → State.Proc} {held : Slot → Multiset Nat} {other : Multiset Nat}
    {p : Slot} (layout : Layout m proc held other) (live : (proc p).state ≠ .unused) :
    ∃ f, Backed m (proc p).pagetable f ∧ ∀ pa ∈ other, Foreign m (proc p).pagetable f pa := by
  obtain ⟨f, mapped⟩ := layout.mapped live
  have owns := mapped.space.owns
  refine ⟨f, mapped_backed mapped, fun pa mem => ?_⟩
  have rest : pa ∈ {(proc p).trapframe} + (others held p + other) :=
    Multiset.mem_add.mpr (.inr (Multiset.mem_add.mpr (.inr mem)))
  refine ⟨fun table => owns.apart table (Multiset.mem_add.mpr (.inr rest)), fun v readable same => ?_⟩
  rw [add_left_comm] at owns
  have leaf : PTE2PA (f v) ∈ leaves f 0 (pages (proc p).sz) := leaf_mem (Shape.below_of_user mapped.shape readable.user)
  rw [same] at leaf
  exact owns.apart leaf (Multiset.mem_add.mpr (.inr rest))

theorem exists_caller [image : Image] [origin : Origin] {boot : Multiset Nat} {k : Kernel} {held : Slot → Multiset Nat} {extra : Fp → Int} {p : Slot}
    (fine : Fine boot k held extra) (live : (k.proc p).state ≠ .unused) (f : Fp) :
    ∃ c : Caller, c.kernel = k ∧ c.proc = p ∧ c.file = f := by
  obtain ⟨entries, backed, foreign⟩ := layout_backed fine.layout live
  refine ⟨⟨k, p, f, entries, backed, fun isPipe => foreign _ ?_⟩, rfl, rfl, rfl⟩
  exact Multiset.mem_add.mpr (.inl (mem_pipePages.mpr ⟨_, f, isPipe, rfl, rfl⟩))

variable [sb : Superblock]

/-- The property: a read of `n` bytes to `addr` returns no more than that, and leaves the rest of the memory alone. -/
def Delivers (c : Caller) (addr : Nat) (n : Int32) (input : Nat → Option UInt8) : Prop :=
  Ends Any (fileread c.proc c.file addr n.toInt input) c.kernel fun r t => r ≤ max n.toInt 0 ∧
    ∀ va, ¬(addr ≤ va ∧ va < addr + (max n.toInt 0).toNat) → userByte t.ram c.root va = userByte c.kernel.ram c.root va

/-- A negative length reaches `readi` at an offset that it does not wrap around at, and before the end of the file. -/
structure Overruns (c : Caller) (n : Int32) (ip : Ip) : Prop where
  readable : (c.kernel.file c.file).readable = true
  inode : (c.kernel.file c.file).type = .inode
  node : (c.kernel.file c.file).ip = some ip
  negative : n.toInt < 0
  early : ((c.kernel.file c.file).off : Int) < -n.toInt
  inside : (c.kernel.file c.file).off < (loaded c.kernel.fs ip).size.toNat

/-- The copy fails before the end of the file, and what it has stored until then was there before. -/
structure Harmless (c : Caller) (addr : Nat) (ip : Ip) : Prop where
  fails : ∃ i < (loaded c.kernel.fs ip).size.toNat - (c.kernel.file c.file).off, ¬userWritable c.kernel.ram c.root (addr + i)
  same : ∀ i, (∀ j ≤ i, userWritable c.kernel.ram c.root (addr + j)) →
    userByte c.kernel.ram c.root (addr + i) =
      some (byte c.kernel.fs.disk (loaded c.kernel.fs ip) ((c.kernel.file c.file).off + i))

variable {c : Caller} {addr : Nat} {n : Int32} {input : Nat → Option UInt8} {ip : Ip}

omit sb in
theorem range (n : Int32) : -2147483648 ≤ n.toInt ∧ n.toInt < 2147483648 := ⟨n.le_toInt, n.toInt_lt⟩

theorem limit_le (safe : ¬Overruns c n ip) (readable : (c.kernel.file c.file).readable = true)
    (inode : (c.kernel.file c.file).type = .inode) (node : (c.kernel.file c.file).ip = some ip) :
    limit c.kernel c.file ip n.toInt ≤ (max n.toInt 0).toNat := by
  by_cases negative : n.toInt < 0
  · have late : ¬(((c.kernel.file c.file).off : Int) < -n.toInt ∧ (c.kernel.file c.file).off < (loaded c.kernel.fs ip).size.toNat) :=
      fun both => safe ⟨readable, inode, node, negative, both.1, both.2⟩
    unfold limit most uintArg
    split <;> omega
  · unfold limit most uintArg
    split <;> omega

theorem delivers_safe (safe : ∀ ip, ¬Overruns c n ip) : Delivers c addr n input := by
  have length : (max n.toInt 0).toNat = n.toInt.toNat := by omega
  unfold Delivers fileread
  rw [ends_get_bind]
  by_cases closed : (c.kernel.file c.file).readable = false
  · rw [if_pos closed]
    exact ⟨by omega, fun _ _ => rfl⟩
  rw [if_neg closed]
  cases type : (c.kernel.file c.file).type with
  | none => trivial
  | pipe =>
    unfold piperead
    rw [ends_get_bind]
    split
    · trivial
    · refine (pipereadFrom_within c.backed (c.pipe type)).bind fun i t ⟨least, leaves⟩ => ⟨by omega, ?_⟩
      rw [length, ← Nat.zero_add n.toInt.toNat]
      exact leaves.same
  | device =>
    dsimp only
    split
    · unfold consoleread
      rw [ends_get_bind]
      refine (consolereadFrom_within c.backed).imp fun r t ⟨least, leaves⟩ => ⟨by omega, ?_⟩
      rw [length, ← Nat.zero_add n.toInt.toNat]
      exact leaves.same
    · exact ⟨by omega, fun _ _ => rfl⟩
  | inode =>
    cases node : (c.kernel.file c.file).ip with
    | none => trivial
    | some ip =>
      have least := limit_le (safe ip) (by simpa using closed) type node
      refine (inoderead_within c.backed).imp fun r t ⟨bound, leaves⟩ => ⟨by omega, ?_⟩
      exact (leaves.mono (Nat.le_refl _) (Nat.add_le_add_left least _)).same

theorem Overruns.limit_eq (overruns : Overruns c n ip) (small : (loaded c.kernel.fs ip).size.toNat ≤ MAXFILE * BSIZE) :
    limit c.kernel c.file ip n.toInt = (loaded c.kernel.fs ip).size.toNat - (c.kernel.file c.file).off := by
  have bounds := range n
  have early := overruns.early
  have inside := overruns.inside
  have most : MAXFILE * BSIZE = 274432 := by decide
  unfold limit Reads.most uintArg
  rw [if_pos (by omega)]
  omega

theorem delivers_overrun (ready : Ready c.kernel.fs ip)
    (whole : Present c.kernel.fs.disk (loaded c.kernel.fs ip) 0 (loaded c.kernel.fs ip).size.toNat) (overruns : Overruns c n ip) :
    Delivers c addr n input ↔ Harmless c addr ip := by
  have length := overruns.limit_eq whole.le
  have inside := overruns.inside
  have none : max n.toInt 0 = 0 := by
    have negative := overruns.negative
    omega
  have writable : ∀ va, userWritable c.kernel.ram c.root va ↔ WritableAt c.entries va := fun va => userWritable_iff c.backed.tree
  have delivered := inoderead_exact c.file addr n.toInt c.backed ready whole
  have call : Delivers c addr n input ↔ Ends Any (inoderead c.proc c.file ip addr n.toInt) c.kernel fun r t => r ≤ 0 ∧
      ∀ va, userByte t.ram c.root va = userByte c.kernel.ram c.root va := by
    unfold Delivers fileread
    rw [ends_get_bind]
    rw [if_neg (by rw [overruns.readable]; decide), overruns.inode, overruns.node, none]
    constructor
    · exact fun ends => ends.imp fun r t ⟨least, same⟩ => ⟨least, fun va => same va (by omega)⟩
    · exact fun ends => ends.imp fun r t ⟨least, same⟩ => ⟨least, fun va _ => same va⟩
  rw [call]
  constructor
  · intro delivers
    refine (((delivers.and delivered).stops fun _ => And.right).imp
      fun r t ⟨⟨least, same⟩, w, reach, value, _, bytes⟩ => ?_).const
    -- If all had been copied, the length would have been returned.
    have short : w ≠ limit c.kernel c.file ip n.toInt := by
      intro all
      omega
    have fails := reach.fails (Nat.lt_of_le_of_ne reach.le short)
    have less : w < limit c.kernel c.file ip n.toInt := Nat.lt_of_le_of_ne reach.le short
    refine ⟨⟨w, by omega, fun works => fails ((writable _).mp works)⟩, fun i works => ?_⟩
    have before : i < w := by
      by_contra late
      exact fails ((writable _).mp (works w (by omega)))
    rw [← same, ← bytes i before]
    rfl
  · intro harmless
    obtain ⟨j, low, broken⟩ := harmless.fails
    refine (delivered.stops fun _ => False.elim).imp fun r t ⟨w, reach, value, leaves, bytes⟩ => ?_
    have stops : w ≤ j := by
      by_contra late
      exact broken ((writable _).mpr (reach.passes j (by omega)))
    refine ⟨by omega, fun va => ?_⟩
    by_cases copied : addr ≤ va ∧ va < addr + w
    · have there := harmless.same (va - addr) fun j le => (writable _).mpr (reach.passes j (by omega))
      have here := bytes (va - addr) (by omega)
      rw [Nat.add_sub_cancel' copied.1] at there here
      exact here.trans there.symm
    · exact leaves.same va copied

/-- Reads deliver at most what was asked for, unless a negative length reaches `readi` before the end of the file at an
offset where it is not noticed. There the rest of the file is delivered. -/
theorem fileread_length (c : Caller) (addr : Nat) (n : Int32) (input : Nat → Option UInt8) :
    ((∀ ip, ¬Overruns c n ip) → Delivers c addr n input) ∧
    ∀ ip, Ready c.kernel.fs ip → Present c.kernel.fs.disk (loaded c.kernel.fs ip) 0 (loaded c.kernel.fs ip).size.toNat →
      Overruns c n ip → (Delivers c addr n input ↔ Harmless c addr ip) :=
  ⟨delivers_safe, fun _ ready whole overruns => delivers_overrun ready whole overruns⟩

/-! The first process reads from a file of five bytes. -/

def smallBoot : Except Halt (Unit × Kernel) :=
  letI := smallImage
  letI := FileSystem.Faults.smallDisk
  userinit (fun _ => 0) (start smallRam (fun _ _ => 0) none)

def smallFs : Fs :=
  let s := FileSystem.Faults.smallFs T_FILE (fun i => UInt8.ofNat (97 + i)) 5
  { s with inode := fun ip => { s.inode ip with locked := false } }

def smallFile : File := ⟨.inode, 1, true, true, 0, some ⟨0, ninode_pos⟩, 0, 0⟩

def smallKernel : Kernel :=
  match smallBoot with
  | .error _ => @start FileSystem.Faults.smallDisk smallRam (fun _ _ => 0) none
  | .ok (_, k) => { k with fs := smallFs, file := fun _ => smallFile }

omit sb in
/-- The process asks for minus one bytes, and gets five. -/
theorem read_minus_one :
    (@fileread FileSystem.Faults.smallDisk ⟨0, by decide⟩ ⟨0, by decide⟩ 0 (-1) (fun _ => none) smallKernel).toOption.map
      (fun result => (result.1, (List.range 6).map (userByte result.2.ram (smallKernel.proc ⟨0, by decide⟩).pagetable))) =
      some (5, [some 97, some 98, some 99, some 100, some 101, some 0]) ∧
    (List.range 6).map (userByte smallKernel.ram (smallKernel.proc ⟨0, by decide⟩).pagetable) = List.replicate 6 (some 0) := by
  decide +kernel

omit sb in
theorem small_caller : ∃ c : Caller, c.kernel = smallKernel ∧ c.proc = ⟨0, by decide⟩ ∧ c.file = ⟨0, by decide⟩ ∧
    c.kernel.fs = smallFs ∧ c.kernel.file c.file = smallFile := by
  have live : (smallKernel.proc ⟨0, by decide⟩).state ≠ .unused := by decide +kernel
  have returned : smallBoot.toOption.isSome = true := by decide +kernel
  rcases ran : smallBoot with e | result
  · rw [ran] at returned
    exact nomatch returned
  obtain ⟨u, k⟩ := result
  have same : smallKernel = { k with fs := smallFs, file := fun _ => smallFile } := by rw [smallKernel, ran]
  let := smallImage
  let := FileSystem.Faults.smallDisk
  let : Origin := ⟨smallRam⟩
  obtain ⟨⟨held, fine⟩, -⟩ := (userinit_spec ⟨smallRam_booted, id⟩).ok ran
  rw [same] at live
  obtain ⟨entries, backed, -⟩ := layout_backed (p := ⟨0, by decide⟩) fine.layout live
  exact ⟨⟨{ k with fs := smallFs, file := fun _ => smallFile }, ⟨0, by decide⟩, ⟨0, by decide⟩, entries, backed, nofun⟩,
    same.symm, rfl, rfl, rfl, rfl⟩

omit sb in
/-- Five bytes can be asked for, and the request for minus one is not harmless. -/
theorem fileread_length_small : ∃ c : Caller, c.kernel = smallKernel ∧
    @Delivers FileSystem.Faults.smallDisk c 0 5 (fun _ => none) ∧ ¬@Harmless FileSystem.Faults.smallDisk c 0 ⟨0, by decide⟩ := by
  let := FileSystem.Faults.smallDisk
  obtain ⟨c, kernel, proc, file, fs, opened⟩ := small_caller
  refine ⟨c, kernel, (fileread_length c 0 5 fun _ => none).1 fun ip overruns => ?_, fun harmless => ?_⟩
  · exact absurd overruns.negative (by decide)
  have content : loaded smallFs ⟨0, by decide⟩ = FileSystem.Faults.smallInode T_FILE 5 := rfl
  have ready : Ready c.kernel.fs ⟨0, by decide⟩ := by
    rw [fs]
    exact ⟨Int.one_pos, rfl, by decide⟩
  have whole : Present c.kernel.fs.disk (loaded c.kernel.fs ⟨0, by decide⟩) 0 (loaded c.kernel.fs ⟨0, by decide⟩).size.toNat := by
    rw [fs]
    intro x _ less
    have below : x < BSIZE := Nat.lt_trans less (by decide)
    rw [Nat.div_eq_of_lt below]
    exact ⟨by decide, (FileSystem.Faults.listed_small _ T_FILE 5 (.addr 0)).trans_ne (by decide)⟩
  have overruns : Overruns c (-1) ⟨0, by decide⟩ := by
    refine ⟨?_, ?_, ?_, by decide, ?_, ?_⟩ <;> rw [opened]
    · rfl
    · rfl
    · rfl
    · decide
    · rw [fs, content]
      decide
  have delivers := ((fileread_length c 0 (-1) fun _ => none).2 _ ready whole overruns).mpr harmless
  have more : (@fileread FileSystem.Faults.smallDisk ⟨0, by decide⟩ ⟨0, by decide⟩ 0 (-1) (fun _ => none) smallKernel).toOption.any
      (fun result => decide (0 < result.1)) = true := by decide +kernel
  unfold Delivers Ends at delivers
  rw [kernel, proc, file] at delivers
  have minus : (-1 : Int32).toInt = -1 := by decide
  rw [minus] at delivers
  cases ran : fileread ⟨0, by decide⟩ ⟨0, by decide⟩ 0 (-1) (fun _ => none) smallKernel with
  | error e =>
    rw [ran] at more
    exact nomatch more
  | ok result =>
    rw [ran] at more delivers
    have positive : 0 < result.1 := of_decide_eq_true more
    omega

end Xv6Monitor.Calls.Lengths
