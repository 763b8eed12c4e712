import Xv6Monitor.Calls.Runs
import Xv6Monitor.Mkfs.Image

/-! Whenever no call is in progress, the address spaces of all processes have their shape, and every page
of memory has one owner. -/

namespace Xv6Monitor.Calls.Partition
open Lib.Transition Lib.Bytes Process.Table Memory.Frames Memory.Tables Memory.Words Memory.Trees Memory.Spaces
  Memory.Mappings Memory.Growth Memory.Users Memory.Access Memory.Boot FileSystem.Format State Processes Machine Sharing
  Families Exec Runs

/-- The page table at `pt` has the valid leaf entry `w` for page number `v`: an entry above the lowest
level is a leaf when it has one of the flags of one. -/
def LeafEntry (m : Ram) : (level pt v w : Nat) → Prop
  | 0, pt, v, w => v < 512 ∧ Valid w ∧ pte m ⟨pt, v⟩ = w
  | level + 1, pt, v, w => ∃ i < 512, Valid (pte m ⟨pt, i⟩) ∧
      if pte m ⟨pt, i⟩ &&& (PTE_R ||| PTE_W ||| PTE_X) = 0 then
        ∃ u, v = i * 512 ^ (level + 1) + u ∧ LeafEntry m level (PTE2PA (pte m ⟨pt, i⟩)) u w
      else v = i * 512 ^ (level + 1) ∧ pte m ⟨pt, i⟩ = w

theorem leafEntry_iff {m : Ram} {f : Nat → Nat} {level pt v w : Nat} (tree : Tree m level pt f) :
    LeafEntry m level pt v w ↔ v < 512 ^ (level + 1) ∧ Valid w ∧ f v = w := by
  induction level generalizing pt f v with
  | zero =>
    refine and_congr_right fun below => and_congr_right fun _ => ?_
    rw [tree v below]
  | succ level ih =>
    have width : 0 < 512 ^ (level + 1) := Nat.pow_pos (by decide)
    constructor
    · rintro ⟨i, below, valid, found⟩
      rcases tree i below with ⟨-, inner, child⟩ | ⟨zero, -⟩
      · rw [if_pos inner] at found
        obtain ⟨u, rfl, found⟩ := found
        obtain ⟨low, isValid, same⟩ := (ih child).mp found
        refine ⟨?_, isValid, same⟩
        calc i * 512 ^ (level + 1) + u < i * 512 ^ (level + 1) + 512 ^ (level + 1) := Nat.add_lt_add_left low _
          _ = (i + 1) * 512 ^ (level + 1) := (Nat.succ_mul ..).symm
          _ ≤ 512 * 512 ^ (level + 1) := Nat.mul_le_mul_right _ below
          _ = 512 ^ (level + 1 + 1) := by rw [Nat.pow_succ 512 (level + 1), Nat.mul_comm]
      · rw [zero] at valid
        exact absurd valid not_valid_zero
    · rintro ⟨low, isValid, same⟩
      have split : v / 512 ^ (level + 1) * 512 ^ (level + 1) + v % 512 ^ (level + 1) = v := Nat.div_add_mod' ..
      have below : v / 512 ^ (level + 1) < 512 := by
        rw [Nat.pow_succ 512 (level + 1), Nat.mul_comm] at low
        exact (Nat.div_lt_iff_lt_mul width).mpr low
      refine ⟨v / 512 ^ (level + 1), below, ?_⟩
      rcases tree _ below with ⟨valid, inner, child⟩ | ⟨-, none⟩
      · refine ⟨valid, ?_⟩
        rw [if_pos inner]
        refine ⟨v % 512 ^ (level + 1), split.symm, (ih child).mpr ⟨Nat.mod_lt _ width, isValid, ?_⟩⟩
        rw [split, same]
      · have zero := none _ (Nat.mod_lt v width)
        rw [split, same] at zero
        rw [zero] at isValid
        exact absurd isValid not_valid_zero

def entryAt (m : Ram) (pt v : Nat) : Nat :=
  match slot m (v * PGSIZE) 2 pt with
  | none => 0
  | some p => pte m p

def userPages (m : Ram) (q : State.Proc) : Multiset Nat :=
  ∑ v ∈ Finset.range (PGROUNDUP q.sz / PGSIZE), {PTE2PA (entryAt m q.pagetable v)}

def processPages (k : Kernel) (p : Slot) : Multiset Nat :=
  if (k.proc p).state = .unused then 0
  else nodes k.ram 2 (k.proc p).pagetable + (userPages k.ram (k.proc p) + {(k.proc p).trapframe})

theorem entryAt_eq {m : Ram} {f : Nat → Nat} {pt v : Nat} (tree : Tree m 2 pt f) (below : v < 67108864) :
    entryAt m pt v = f v := by
  have page : vpn 2 (v * PGSIZE) = v := by rw [vpn_eq (page_lt below), Nat.mul_div_cancel v PGSIZE_pos]
  unfold entryAt
  cases found : slot m (v * PGSIZE) 2 pt with
  | none =>
    have zero := tree.slot_none found
    rw [page] at zero
    exact zero.symm
  | some _ =>
    dsimp only
    rw [tree.slot_some found, page]

variable [image : Image] {boot : Multiset Nat} {held : Slot → Multiset Nat} {k t : Kernel} {p : Slot}

/-- The valid leaf entries of a process are those of its memory, of the trapframe and of the trampoline. -/
theorem leaf_shape [origin : Origin] (fine : Fine boot k held 0) (live : (k.proc p).state ≠ .unused) (v : Nat) :
    (∃ w, LeafEntry k.ram 2 (k.proc p).pagetable v w) ↔
      v * PGSIZE < PGROUNDUP (k.proc p).sz ∨ v * PGSIZE = TRAPFRAME ∨ v * PGSIZE = TRAMPOLINE := by
  obtain ⟨f, mapped⟩ := fine.layout.mapped live
  have shape := mapped.shape
  have bound := mapped.bound
  have top := ceiling_eq
  have round : PGROUNDUP (k.proc p).sz = pages (k.proc p).sz * PGSIZE := by
    have small := mapped_small mapped
    exact PGROUNDUP_pages (by omega)
  have whole : (512 : Nat) ^ (2 + 1) = 134217728 := by decide
  have leaf : (∃ w, LeafEntry k.ram 2 (k.proc p).pagetable v w) ↔ v < 134217728 ∧ Valid (f v) := by
    simp only [leafEntry_iff mapped.space.tree, whole]
    constructor
    · rintro ⟨w, low, valid, same⟩
      exact ⟨low, same ▸ valid⟩
    · rintro ⟨low, valid⟩
      exact ⟨f v, low, valid, rfl⟩
  have same : ∀ u, v * PGSIZE = u * PGSIZE ↔ v = u := fun u => Nat.mul_left_inj (Nat.ne_of_gt PGSIZE_pos)
  rw [leaf, round, TRAPFRAME_eq, TRAMPOLINE_eq, same, same, Nat.mul_lt_mul_right PGSIZE_pos]
  constructor
  · rintro ⟨-, valid⟩
    by_contra outside
    push Not at outside
    rw [shape.none v outside.1 outside.2.1 outside.2.2] at valid
    exact not_valid_zero valid
  · rintro (low | rfl | rfl)
    · exact ⟨by omega, (shape.user v low).valid⟩
    · exact ⟨by omega, shape.leaf_trapframe.valid⟩
    · exact ⟨by omega, shape.leaf_trampoline.valid⟩

theorem growproc_outcome [origin : Origin] {n : Int} (fine : Fine boot k held 0) (running : (k.proc p).state = .runnable) :
    ∃ r t, growproc p n k = .ok (r, t) ∧ (r = 0 ∨ r = -1 ∧ (t.proc p).sz = (k.proc p).sz ∧
      ∀ v w, LeafEntry t.ram 2 (t.proc p).pagetable v w ↔ LeafEntry k.ram 2 (k.proc p).pagetable v w) := by
  have ends := growproc_spec (E := fun _ => False) (n := n) fine running
  cases ran : growproc p n k with
  | error _ => exact (ends.error ran).elim
  | ok result =>
    obtain ⟨r, t⟩ := result
    refine ⟨r, t, rfl, (ends.ok ran).2.imp_right fun ⟨failed, procs, f, before, after⟩ => ⟨failed, by rw [procs], ?_⟩⟩
    intro v w
    rw [procs, leafEntry_iff before, leafEntry_iff after]

variable [sb : Superblock] {taken : List Nat} {m : Ram} {disk : Nat → Data} {power : Option Nat}

theorem process_small (booted : Booted taken m) (reachable : Reachable (machine m disk power) k)
    (live : (k.proc p).state ≠ .unused) : (k.proc p).sz ≤ 2 ^ 28 := by
  let : Origin := ⟨m⟩
  obtain ⟨_, fine⟩ := reachable_fine booted reachable
  obtain ⟨_, mapped⟩ := fine.layout.mapped live
  exact le_trans (Nat.le_add_right ..) (mapped_small mapped)

/-- In every run each live process has the leaf entries of its memory, the trapframe and the trampoline;
`growproc` either succeeds or changes none of them; and no call ends in a panic of the memory functions. -/
theorem address_spaces (booted : Booted taken m) (reachable : Reachable (machine m disk power) k) :
    (∀ p, (k.proc p).state ≠ .unused → ∀ v, (∃ w, LeafEntry k.ram 2 (k.proc p).pagetable v w) ↔
      v * PGSIZE < PGROUNDUP (k.proc p).sz ∨ v * PGSIZE = TRAPFRAME ∨ v * PGSIZE = TRAMPOLINE) ∧
    (∀ p n, (k.proc p).state = .runnable → ∃ r t, growproc p n k = .ok (r, t) ∧
      (r = 0 ∨ r = -1 ∧ (t.proc p).sz = (k.proc p).sz ∧
        ∀ v w, LeafEntry t.ram 2 (t.proc p).pagetable v w ↔ LeafEntry k.ram 2 (k.proc p).pagetable v w)) ∧
    ∀ c why, Allowed k c → syscall c k ≠ .error (.vm why) := by
  let : Origin := ⟨m⟩
  have began : Began taken m := ⟨booted, id⟩
  have kept := reachable_kept began reachable
  obtain ⟨_, fine⟩ := kept.fine began
  refine ⟨fun p live => leaf_shape fine live, fun p n running => growproc_outcome fine running, fun c why allowed ran => ?_⟩
  exact (allowed_ends began kept allowed).error ran

omit image sb in
/-- The first process has grown its memory by a page and a half. -/
theorem address_spaces_grown :
    letI := smallImage
    letI := Mkfs.Image.superblock
    ∃ k, Reachable (machine smallRam (fun _ _ => 0) none) k ∧ ((k.proc ⟨0, by decide⟩).state = .runnable ∧
      (k.proc ⟨0, by decide⟩).sz = 10240) ∧ ∀ v, (∃ w, LeafEntry k.ram 2 (k.proc ⟨0, by decide⟩).pagetable v w) ↔
      v * PGSIZE < PGROUNDUP 10240 ∨ v * PGSIZE = TRAPFRAME ∨ v * PGSIZE = TRAMPOLINE := by
  let := smallImage
  let := Mkfs.Image.superblock
  obtain ⟨k, reachable, alive, size⟩ := reachable_exec (M := machine smallRam (fun _ _ => 0) none)
    (Q := fun k => (k.proc ⟨0, by decide⟩).state = .runnable ∧ (k.proc ⟨0, by decide⟩).sz = 10240)
    [.userinit fun _ => 0, .sbrk ⟨0, by decide⟩ 6144] (by decide +kernel)
  refine ⟨k, reachable, ⟨alive, size⟩, ?_⟩
  rw [← size]
  exact (address_spaces smallRam_booted reachable).1 _ (by rw [alive]; decide)

omit sb in
theorem processPages_eq [origin : Origin] (fine : Fine boot k held 0) (p : Slot) : held p = processPages k p := by
  rcases fine.layout.holds p with ⟨unused, -, -, -, nothing⟩ | ⟨live, f, shape, tree, all⟩
  · rw [processPages, if_pos unused, nothing]
  obtain ⟨_, mapped⟩ := fine.layout.mapped live
  have small := mapped_small mapped
  have bound := mapped.bound
  have user : userPages k.ram (k.proc p) = leaves f 0 (pages (k.proc p).sz) := by
    rw [userPages, leaves, PGROUNDUP_pages (by omega), Nat.mul_div_cancel _ PGSIZE_pos, Nat.zero_add, Finset.range_eq_Ico]
    refine Finset.sum_congr rfl fun v mem => ?_
    have low := (Finset.mem_Ico.mp mem).2
    rw [entryAt_eq tree (by omega)]
  rw [processPages, if_neg live, user, all]

/-- In every run each page of the allocator is on the free list once, or is one page of one process, of an
open pipe or of those taken at boot; and a failing `fork` or `exec` leaves the same pages free. -/
theorem page_owners (booted : Booted taken m) (reachable : Reachable (machine m disk power) k) :
    (k.ram.freelist + (∑ p, processPages k p + ((pipePages k.file).val + taken)) : Multiset Nat) = frames ∧
    frames.Nodup ∧
    (∀ p t, Allowed k (.fork p) → syscall (.fork p) k = .ok (-1, t) → t.ram.freelist.Perm k.ram.freelist) ∧
    ∀ p path uargv t, Allowed k (.exec p path uargv) → syscall (.exec p path uargv) k = .ok (-1, t) →
      t.ram.freelist.Perm k.ram.freelist := by
  let : Origin := ⟨m⟩
  obtain ⟨_, fine⟩ := reachable_fine booted reachable
  refine ⟨?_, frames_nodup, fun p t running ran => ?_, fun p path uargv t running ran => ?_⟩
  · have owns := fine.layout.owns.all
    rw [Finset.sum_congr rfl fun p _ => processPages_eq fine p] at owns
    exact owns
  · exact Multiset.coe_eq_coe.mp (((fork_spec fine running).ok ran).2 rfl)
  · exact Multiset.coe_eq_coe.mp (((sysExec_spec fine running).ok ran).free fine)

omit image sb in
/-- The first process has forked, which leaves two of the sixteen pages, and fails to fork again. -/
theorem page_owners_forked :
    letI := smallImage
    letI := Mkfs.Image.superblock
    ∃ k t, Reachable (machine smallRam (fun _ _ => 0) none) k ∧ k.ram.freelist.length = 2 ∧
      (k.ram.freelist + (∑ p, processPages k p + ((pipePages k.file).val + ↑([] : List Nat))) : Multiset Nat) = frames ∧
      syscall (.fork ⟨0, by decide⟩) k = .ok (-1, t) ∧ t.ram.freelist.Perm k.ram.freelist := by
  let := smallImage
  let := Mkfs.Image.superblock
  obtain ⟨k, reachable, free, running, again⟩ := reachable_exec (M := machine smallRam (fun _ _ => 0) none)
    (Q := fun k => k.ram.freelist.length = 2 ∧ (k.proc ⟨0, by decide⟩).state = .runnable ∧
      (syscall (.fork ⟨0, by decide⟩) k).toOption.any (fun r => r.1 == -1) = true)
    [.userinit fun _ => 0, .fork ⟨0, by decide⟩] (by decide +kernel)
  have owners := page_owners smallRam_booted reachable
  rcases ran : syscall (.fork ⟨0, by decide⟩) k with e | result
  · rw [ran] at again
    exact nomatch again
  obtain ⟨r, t⟩ := result
  rw [ran] at again
  have failed : r = -1 := by simpa [Except.toOption] using again
  subst failed
  exact ⟨k, t, reachable, free, owners.1, ran, owners.2.2.1 _ t running ran⟩

/-- In every run the links in the free pages lead along the free list, whatever booting has stored in the pages that
it took: nobody writes to a page that is free. -/
theorem free_list_linked {content : Nat → Data} {n : Nat} {t : Ram}
    (ran : (kinit >>= fun _ => takePages n) ⟨content, []⟩ = .ok (taken, t)) (list : m.freelist = t.freelist)
    (free : ∀ x ∈ t.freelist, m.page x = t.page x) (room : 9 ≤ m.freelist.length)
    (reachable : Reachable (machine m disk power) k) : Linked k.ram := by
  let : Origin := ⟨m⟩
  have booted : Booted taken m := ⟨⟨content, n, t, ran, list.symm⟩, room⟩
  obtain ⟨_, fine⟩ := reachable_fine booted reachable
  refine fine.layout.owns.linked ?_
  show Chained m.page m.freelist
  rw [list]
  exact chained_congr free ((boot_linked (E := fun _ => True) content n).ok ran)

end Xv6Monitor.Calls.Partition
