import Xv6Monitor.Calls.Sharing
import Xv6Monitor.FileSystem.Walking
import Xv6Monitor.Memory.Bytes
import Xv6Monitor.Streams.Consoles

/-! `fileread` on files of all kinds: how many bytes it delivers, and which part of the user's memory it changes. A pipe
and the console take the length as signed, and `readi` takes it as unsigned. -/

namespace Xv6Monitor.Calls.Reads
open Lib.Bytes Lib.Program Lib.Positions Stops Process.Table Memory.Frames Memory.Tables Memory.Trees Memory.Copies
  Memory.Bytes FileSystem.Format FileSystem.Blocks FileSystem.Inodes FileSystem.Extents FileSystem.Contents
  FileSystem.Walking State Files

variable [sb : Superblock]

/-- The loop of `consoleread`. `input` has the character that a round finds in the buffer, or nothing if the process is
killed while it waits for one. -/
def consolereadFrom (pt addr : Nat) (input : Nat → Option UInt8) : (left i : Nat) → KProg Int
  | 0, i => pure i
  | left + 1, i => do
    match input i with
    | none => pure (-1)
    | some c =>
      if c = Streams.Consoles.ctrlD then
        pure i
      else if ← onRam (copyout pt (addr + i) (fun _ => c) 1) then
        -- A whole line has arrived.
        if c = Streams.Consoles.newline then pure (i + 1) else consolereadFrom pt addr input left (i + 1)
      else
        pure i

def consoleread (p : Slot) (addr : Nat) (n : Int) (input : Nat → Option UInt8) : KProg Int := do
  consolereadFrom ((← get).proc p).pagetable addr input n.toNat 0

def inoderead (p : Slot) (f : Fp) (ip : Ip) (addr : Nat) (n : Int) : KProg Int := do
  let k ← get
  let pt := (k.proc p).pagetable
  onFs (ilock ip)
  let got ← onFs (readi ip ⟨fun tot m => reach k.ram pt (addr + tot) m, fun _ _ => 0⟩ (k.file f).off (uintArg n))
  let _ ← onRam (copyout pt addr got.bytes got.len)
  match got.total with
  | none =>
    onFs (iunlock ip)
    pure (-1)
  | some r =>
    if 0 < r then setFile f fun g => { g with off := g.off + r }
    onFs (iunlock ip)
    pure r

/-- `kernel/file.c` -/
def fileread (p : Slot) (f : Fp) (addr : Nat) (n : Int) (input : Nat → Option UInt8) : KProg Int := do
  let g := (← get).file f
  if g.readable = false then
    pure (-1)
  else
    match g.type, g.ip with
    | .pipe, _ => piperead p g.pipe addr n
    | .device, _ => if g.major = 1 then consoleread p addr n input else pure (-1)
    | .inode, some ip => inoderead p f ip addr n
    | _, _ => stop (.file .fileread)

/-- The call of a process reads from the file of its descriptor. -/
theorem sysRead_fileread {p : Slot} {fd n console : Int} {addr : Nat} {input : Nat → Option UInt8} {k : Kernel} {i : Fin NOFILE}
    {f : Fp} (found : argfd k p fd = some (i, f)) (file : (k.file f).type ≠ .device) :
    sysRead p fd addr n console k = fileread p f addr n input k := by
  have bound : ∀ {α : Type} (g : Kernel → KProg α), (get >>= g) k = g k k := fun _ => rfl
  rw [sysRead, bound, found, fileread, bound]
  dsimp only
  rw [bound]
  by_cases closed : (k.file f).readable = false
  · rw [if_pos closed, if_pos closed]
  rw [if_neg closed, if_neg closed]
  cases type : (k.file f).type with
  | none => rfl
  | pipe => rfl
  | device => exact absurd type file
  | inode =>
    cases (k.file f).ip with
    | none => rfl
    | some _ => rfl

section Memory

variable {E : Halt → Prop} {m t u : Ram} {root : Nat} {f : Nat → Nat} {lo hi : Nat}

/-- The user's memory is the same outside of an interval, and so is its page table. -/
structure Leaves (root : Nat) (f : Nat → Nat) (m t : Ram) (lo hi : Nat) : Prop where
  backed : Backed t root f
  tables : nodes t 2 root = nodes m 2 root
  same : ∀ va, ¬(lo ≤ va ∧ va < hi) → userByte t root va = userByte m root va

omit sb

theorem Leaves.refl (backed : Backed m root f) (lo hi : Nat) : Leaves root f m m lo hi := ⟨backed, rfl, fun _ _ => rfl⟩

theorem Leaves.trans (first : Leaves root f m t lo hi) (second : Leaves root f t u lo hi) : Leaves root f m u lo hi :=
  ⟨second.backed, second.tables.trans first.tables, fun va outside => (second.same va outside).trans (first.same va outside)⟩

theorem Leaves.mono {lo' hi' : Nat} (leaves : Leaves root f m t lo hi) (low : lo' ≤ lo) (high : hi ≤ hi') :
    Leaves root f m t lo' hi' := ⟨leaves.backed, leaves.tables, fun va outside => leaves.same va (by omega)⟩

theorem copyout_leaves {dstva len : Nat} {src : Data} (backed : Backed m root f) :
    Ends E (copyout root dstva src len) m fun done t => ∃ k, Reach (fun i => WritableAt f (dstva + i)) len k ∧
      (done = true ↔ k = len) ∧ Leaves root f m t dstva (dstva + k) ∧ ∀ i < k, userByte t root (dstva + i) = some (src i) := by
  refine (copyoutFrom_reach backed (Nat.le_refl len)).imp fun done t ⟨k, reach, all, stored⟩ => ?_
  have view := stored_userByte backed stored reach.passes
  refine ⟨k, reach, all, ⟨stored_tree backed stored reach.passes, nodes_congr (stored_nodes backed stored reach.passes), ?_⟩, ?_⟩
  · intro va outside
    rw [view, if_neg outside]
  · intro i less
    rw [view, if_pos (by omega), Nat.add_sub_cancel_left]

structure Foreign (m : Ram) (root : Nat) (f : Nat → Nat) (pa : Nat) : Prop where
  table : pa ∉ nodes m 2 root
  user : ∀ v, Readable (f v) → PTE2PA (f v) ≠ pa

theorem Foreign.leaves {pa : Nat} (foreign : Foreign m root f pa) (leaves : Leaves root f m t lo hi) : Foreign t root f pa :=
  ⟨by rw [leaves.tables]; exact foreign.table, foreign.user⟩

theorem poke_leaves {pa : Nat} (backed : Backed m root f) (foreign : Foreign m root f pa) (data : Data) (lo hi : Nat) :
    Leaves root f m (poke m pa data) lo hi := by
  have kept : ∀ x ∈ nodes m 2 root, (poke m pa data).page x = m.page x :=
    fun x mem => poke_other fun here => foreign.table (here ▸ mem)
  have tree := backed.tree.congr kept
  refine ⟨⟨tree, fun v readable => ?_, backed.distinct, backed.real⟩, nodes_congr kept, fun va _ => ?_⟩
  · rw [nodes_congr kept]
    exact backed.apart v readable
  · by_cases readable : ReadableAt f va
    · have elsewhere : (poke m pa data).page (frame f va) = m.page (frame f va) := poke_other (foreign.user _ readable.2)
      rw [userByte_some tree readable, userByte_some backed.tree readable, byteAt, byteAt, elsewhere]
    · rw [userByte_none tree readable, userByte_none backed.tree readable]

end Memory

section Streams

variable {k : Kernel} {root : Nat} {f : Nat → Nat} {addr : Nat}

omit sb

theorem pipereadFrom_within {pi left i : Nat} (backed : Backed k.ram root f) (foreign : Foreign k.ram root f pi) :
    Ends Any (pipereadFrom pi root addr left i) k fun r t => r ≤ i + left ∧ Leaves root f k.ram t.ram addr (addr + (i + left)) := by
  induction left generalizing k i with
  | zero => exact ⟨Nat.le_refl _, Leaves.refl backed ..⟩
  | succ left ih =>
    unfold pipereadFrom
    rw [ends_get_bind]
    dsimp only
    split
    · exact ⟨by omega, Leaves.refl backed ..⟩
    rw [setPipeField, ends_setPage_bind, ends_onRam_bind]
    have moved := poke_leaves backed foreign (store 4 (k.ram.page pi) pipeNread (pipeField k pi pipeNread + 1)) addr (addr + (i + (left + 1)))
    refine (copyout_leaves moved.backed).imp fun done t ⟨n, reach, _, copied, _⟩ => ?_
    have bound := reach.le
    have both := moved.trans (copied.mono (Nat.le_add_right ..) (by omega))
    cases done with
    | false => exact ⟨by omega, both⟩
    | true =>
      refine (ih (k := { k with ram := t }) both.backed (foreign.leaves both)).imp fun r u ⟨least, rest⟩ => ⟨by omega, both.trans ?_⟩
      exact rest.mono (Nat.le_refl _) (by omega)

theorem consolereadFrom_within {input : Nat → Option UInt8} {left i : Nat} (backed : Backed k.ram root f) :
    Ends Any (consolereadFrom root addr input left i) k fun r t => r ≤ ((i + left : Nat) : Int) ∧
      Leaves root f k.ram t.ram addr (addr + (i + left)) := by
  induction left generalizing k i with
  | zero => exact ⟨by rw [Nat.add_zero], Leaves.refl backed ..⟩
  | succ left ih =>
    unfold consolereadFrom
    rcases input i with _ | c
    · exact ⟨by omega, Leaves.refl backed ..⟩
    dsimp only
    split
    · exact ⟨by omega, Leaves.refl backed ..⟩
    rw [ends_onRam_bind]
    refine (copyout_leaves backed).imp fun done t ⟨n, reach, _, copied, _⟩ => ?_
    have bound := reach.le
    have wider : Leaves root f k.ram t addr (addr + (i + (left + 1))) := copied.mono (Nat.le_add_right ..) (by omega)
    cases done with
    | false => exact ⟨by omega, wider⟩
    | true =>
      rw [if_pos rfl]
      split
      · exact ⟨by omega, wider⟩
      · refine (ih (k := { k with ram := t }) wider.backed).imp fun r u ⟨least, rest⟩ => ⟨by omega, wider.trans ?_⟩
        exact rest.mono (Nat.le_refl _) (by omega)

end Streams

section Inodes

variable {k : Kernel} {s : Fs} {ip : Ip} {p : Slot} {g : Fp} {f : Nat → Nat} {addr : Nat} {n : Int}

def most (size off len : Nat) : Nat := if off ≤ size ∧ off + len < 2 ^ 32 then min len (size - off) else 0

theorem readFrom_within {dst : Place} {len rounds tot off : Nat} {bytes : Data} (le : tot ≤ len) :
    Ends Any (readFrom ip dst len rounds tot off bytes) s fun got _ =>
      got.len ≤ len ∧ ∀ r, got.total = some r → r ≤ len := by
  have finish : ∀ {tot : Nat}, tot ≤ len → tot ≤ len ∧ ∀ r, some tot = some r → r ≤ len :=
    fun le => ⟨le, fun r same => Option.some.inj same ▸ le⟩
  induction rounds generalizing s tot off bytes with
  | zero => exact finish le
  | succ rounds ih =>
    unfold readFrom
    split
    next more =>
      refine Ends.bind (R := fun _ _ => True) (ends_of (fun _ _ _ => trivial) fun _ _ => trivial) fun address t _ => ?_
      split
      · exact finish le
      have piece := piece_pos off more
      rw [ends_get_bind]
      split
      next short => exact ⟨by show tot + _ ≤ len; omega, by simp⟩
      next => exact ih (by omega)
    next => exact finish le

theorem readi_within {dst : Place} {size off len : Nat} (same : (copy s ip).size.toNat = size) :
    Ends Any (readi ip dst off len) s fun got _ => got.len ≤ most size off len ∧ ∀ r, got.total = some r → r ≤ most size off len := by
  unfold readi
  rw [ends_get_bind]
  rw [same]
  by_cases refused : size < off ∨ 2 ^ 32 ≤ off + len
  · rw [if_pos refused, most, if_neg (by omega)]
    exact ⟨Nat.le_refl 0, fun r same => Nat.le_of_eq (Option.some.inj same).symm⟩
  have inside : off ≤ size ∧ off + len < 2 ^ 32 := by omega
  have clamp : (if size < off + len then size - off else len) = most size off len := by
    rw [most]
    split <;> omega
  rw [if_neg refused, clamp]
  exact readFrom_within (Nat.zero_le _)

def limit (k : Kernel) (g : Fp) (ip : Ip) (n : Int) : Nat := most (loaded k.fs ip).size.toNat (k.file g).off (uintArg n)

theorem inoderead_within (backed : Backed k.ram (k.proc p).pagetable f) :
    Ends Any (inoderead p g ip addr n) k fun r t => r ≤ (limit k g ip n : Int) ∧
      Leaves (k.proc p).pagetable f k.ram t.ram addr (addr + limit k g ip n) := by
  unfold inoderead
  rw [ends_get_bind]
  rw [ends_onFs_bind]
  refine (ilock_loaded.stops fun _ _ => trivial).imp fun _ s lock => ?_
  have size : (copy s ip).size.toNat = (loaded k.fs ip).size.toNat := by rw [copy, lock.here]
  rw [ends_onFs_bind]
  refine (readi_within size).imp ?_
  rintro got s' ⟨len, total⟩
  rw [ends_onRam_bind]
  refine (copyout_leaves backed).imp ?_
  rintro done t ⟨w, reach, _, copied, _⟩
  have bound := reach.le
  have leaves : Leaves (k.proc p).pagetable f k.ram t addr (addr + limit k g ip n) :=
    copied.mono (Nat.le_refl _) (Nat.add_le_add_left (bound.trans len) _)
  rcases value : got.total with _ | r
  · exact onFs_any_bind (fun _ => trivial) fun _ _ => ⟨by omega, leaves⟩
  have least : (r : Int) ≤ (limit k g ip n : Int) := Int.ofNat_le.mpr (total r value)
  dsimp only
  split
  · rw [ends_setFile_bind]
    exact onFs_any_bind (fun _ => trivial) fun _ _ => ⟨least, leaves⟩
  · exact onFs_any_bind (fun _ => trivial) fun _ _ => ⟨least, leaves⟩

omit sb in
theorem copyout_one {m : Ram} {root va : Nat} (backed : Backed m root f) :
    (match copyout root va (fun _ => 0) 1 m with
      | .ok (done, _) => done
      | .error _ => false) = true ↔ WritableAt f va := by
  have spec : Ends (fun _ => False) (copyout root va (fun _ => 0) 1) m fun done t => ∃ w,
      Reach (fun i => WritableAt f (va + i)) 1 w ∧ (done = true ↔ w = 1) ∧ _ := copyout_leaves backed
  unfold Ends at spec
  rcases ran : copyout root va (fun _ => 0) 1 m with _ | result
  · rw [ran] at spec
    exact spec.elim
  rw [ran] at spec
  obtain ⟨w, reach, done, -⟩ := spec
  rw [done, reach.all_iff]
  constructor
  · exact fun all => all 0 Nat.one_pos
  · intro writable i less
    obtain rfl : i = 0 := by omega
    exact writable

omit sb in
theorem reach_writable {m : Ram} {root : Nat} (backed : Backed m root f) (addr tot len : Nat) :
    Reach (fun i => WritableAt f (addr + (tot + i))) len (reach m root (addr + tot) len) := by
  refine (reach_takeWhile _ len).congr fun i _ => ?_
  rw [← Nat.add_assoc]
  exact copyout_one backed

theorem inoderead_exact (g : Fp) (addr : Nat) (n : Int) (backed : Backed k.ram (k.proc p).pagetable f) (ready : Ready k.fs ip)
    (whole : Present k.fs.disk (loaded k.fs ip) 0 (loaded k.fs ip).size.toNat) :
    Ends (fun _ => False) (inoderead p g ip addr n) k fun r t => ∃ w,
      Reach (fun i => WritableAt f (addr + i)) (limit k g ip n) w ∧
      r = (if w = limit k g ip n then (limit k g ip n : Int) else -1) ∧
      Leaves (k.proc p).pagetable f k.ram t.ram addr (addr + w) ∧
      ∀ i < w, userByte t.ram (k.proc p).pagetable (addr + i) = some (byte k.fs.disk (loaded k.fs ip) ((k.file g).off + i)) := by
  unfold inoderead
  rw [ends_get_bind]
  rw [ends_onFs_bind]
  refine (ilock_loaded.stops fun _ stopped => stopped ready).imp fun _ s lock => ?_
  have disk := lock.disk
  have read : copy s ip = loaded k.fs ip := by rw [copy, lock.here]
  have locked : (s.inode ip).locked = true := by rw [lock.here]
  have held : 0 < (s.inode ip).ref := by
    rw [lock.here]
    exact ready.held
  rw [ends_onFs_bind]
  rw [← disk, ← read] at whole
  refine (FileSystem.Volumes.readi_reach (P := fun i => WritableAt f (addr + i)) (fun tot len => reach_writable backed addr tot len)
    rfl whole).imp ?_
  rintro got s' ⟨same, result⟩
  subst same
  have outcome : Reach (fun i => WritableAt f (addr + i)) (limit k g ip n) got.len ∧
      got.total = (if got.len = limit k g ip n then some (limit k g ip n) else none) ∧
      ∀ i < got.len, got.bytes i = byte k.fs.disk (loaded k.fs ip) ((k.file g).off + i) := by
    rw [limit, most, ← read, ← disk]
    split at result
    next inside =>
      simp only [if_pos inside]
      exact result
    next outside =>
      obtain ⟨total, len⟩ := result
      simp only [if_neg outside]
      rw [len, total]
      exact ⟨Reach.none _, (if_pos rfl).symm, fun i less => absurd less (Nat.not_lt_zero i)⟩
  obtain ⟨reached, total, bytes⟩ := outcome
  rw [ends_onRam_bind]
  refine (copyout_leaves backed).imp ?_
  rintro done t ⟨w, reach, _, copied, delivered⟩
  obtain rfl : w = got.len := reach.all_iff.mpr reached.passes
  have rest : ∀ {r : Int} {u : Kernel}, u.ram = t → u.fs = s' → r = (if got.len = limit k g ip n then (limit k g ip n : Int) else -1) →
      Ends (fun _ => False) (do onFs (iunlock ip); pure r) u fun r t => ∃ w,
        Reach (fun i => WritableAt f (addr + i)) (limit k g ip n) w ∧
        r = (if w = limit k g ip n then (limit k g ip n : Int) else -1) ∧
        Leaves (k.proc p).pagetable f k.ram t.ram addr (addr + w) ∧
        ∀ i < w, userByte t.ram (k.proc p).pagetable (addr + i) = some (byte k.fs.disk (loaded k.fs ip) ((k.file g).off + i)) := by
    intro r u ram fs value
    rw [ends_onFs_bind, fs]
    refine (iunlock_ends locked held).imp fun _ s _ => ⟨got.len, reached, value, ?_, fun i less => ?_⟩
    · show Leaves (k.proc p).pagetable f k.ram u.ram addr (addr + got.len)
      rw [ram]
      exact copied
    · show userByte u.ram (k.proc p).pagetable (addr + i) = _
      rw [ram, delivered i less, bytes i less]
  rw [total]
  by_cases all : got.len = limit k g ip n
  · rw [if_pos all]
    dsimp only
    split
    · exact rest rfl rfl (if_pos all).symm
    · exact rest rfl rfl (if_pos all).symm
  · rw [if_neg all]
    exact rest rfl rfl (if_neg all).symm

end Inodes

end Xv6Monitor.Calls.Reads
