import Xv6Monitor.Memory.Access
import Xv6Monitor.Memory.Copies

/-! The user's memory as bytes at virtual addresses, and the copies of `kernel/vm.c` as operations on them. -/

namespace Xv6Monitor.Memory.Bytes
open Stops Lib.Bytes Lib.Positions Lib.Program Frames Tables Words Trees Spaces Mappings Users Access Lookups Copies

def userByte (m : Ram) (root va : Nat) : Option UInt8 :=
  if va < MAXVA then
    (lookup m root va).bind fun (pa, flags) => if flags &&& PTE_U = 0 then none else some (m.page pa (va % PGSIZE))
  else none

def userWritable (m : Ram) (root va : Nat) : Prop :=
  va < MAXVA ∧ ∃ pa flags, lookup m root va = some (pa, flags) ∧ flags &&& PTE_U ≠ 0 ∧ flags &&& PTE_W ≠ 0

section Views

variable {m : Ram} {root va : Nat} {f : Nat → Nat}

theorem userByte_some (tree : Tree m 2 root f) (readable : ReadableAt f va) : userByte m root va = some (byteAt m f va) := by
  have user : ¬PTE_FLAGS (f (va / PGSIZE)) &&& PTE_U = 0 := by
    rw [PTE_FLAGS_and (by decide)]
    exact readable.2.user
  rw [userByte, if_pos readable.1, lookup_eq tree readable.1, mapping, if_pos readable.2.valid]
  exact if_neg user

theorem userByte_none (tree : Tree m 2 root f) (unreadable : ¬ReadableAt f va) : userByte m root va = none := by
  unfold userByte
  split
  next below =>
    rw [lookup_eq tree below, mapping]
    split
    next valid =>
      refine if_pos (not_not.mp fun user => unreadable ⟨below, valid, ?_⟩)
      rwa [PTE_FLAGS_and (by decide)] at user
    next => rfl
  next => rfl

theorem userByte_isSome (tree : Tree m 2 root f) : (userByte m root va).isSome ↔ ReadableAt f va := by
  by_cases readable : ReadableAt f va
  · rw [userByte_some tree readable]
    exact iff_of_true rfl readable
  · rw [userByte_none tree readable]
    exact iff_of_false nofun readable

theorem userWritable_iff (tree : Tree m 2 root f) : userWritable m root va ↔ WritableAt f va := by
  refine and_congr_right fun below => ?_
  rw [lookup_eq tree below]
  constructor
  · rintro ⟨pa, flags, mapped, user, writable⟩
    obtain ⟨valid, -, same⟩ := mapping_some mapped
    rw [← show PTE_FLAGS (f (va / PGSIZE)) = flags from same, PTE_FLAGS_and (by decide)] at user writable
    exact ⟨⟨valid, user⟩, writable⟩
  · intro writable
    refine ⟨_, _, if_pos writable.valid, ?_, ?_⟩
    · rw [PTE_FLAGS_and (by decide)]
      exact writable.user
    · rw [PTE_FLAGS_and (by decide)]
      exact writable.writable

theorem mapped_backed [image : Image] [origin : Origin] {n trapframe : Nat} {rest : Multiset Nat} (mapped : Mapped f m root n trapframe rest) :
    Backed m root f := by
  have owns := mapped.space.owns
  have below : ∀ v, Readable (f v) → v < n := fun v readable => Shape.below_of_user mapped.shape readable.user
  have leaf : ∀ v, v < n → PTE2PA (f v) ∈ leaves f 0 n + rest := fun v under => Multiset.mem_add.mpr (Or.inl (leaf_mem under))
  refine ⟨mapped.space.tree, fun v readable mem => ?_, fun v w _ _ left right same => ?_, fun v readable => ?_⟩
  · exact owns.apart mem (leaf v (below v readable))
  · by_contra apart
    have nodup : (leaves f 0 n).Nodup := by
      rw [add_left_comm] at owns
      exact owns.part
    rcases Nat.lt_or_gt_of_ne apart with less | more
    · rw [leaves_split f (Nat.le_of_lt (below w right))] at nodup
      refine Multiset.disjoint_left.mp (Multiset.nodup_add.mp nodup).2.2 (leaf_mem less) ?_
      rw [same, show n - w = n - w - 1 + 1 by have := below w right; omega, leaves_head]
      exact Multiset.mem_add.mpr (Or.inl (Multiset.mem_singleton_self _))
    · rw [leaves_split f (Nat.le_of_lt (below v left))] at nodup
      refine Multiset.disjoint_left.mp (Multiset.nodup_add.mp nodup).2.2 (leaf_mem more) ?_
      rw [← same, show n - v = n - v - 1 + 1 by have := below v left; omega, leaves_head]
      exact Multiset.mem_add.mpr (Or.inl (Multiset.mem_singleton_self _))
  · exact Nat.ne_of_gt (frame_pos (owns.mem (Multiset.mem_add.mpr (Or.inr (leaf v (below v readable))))))

end Views

/-- A page table whose user pages are different pages of memory that do not hold the table. -/
structure UserMemory where
  ram : Ram
  root : Nat
  entries : Nat → Nat
  backed : Backed ram root entries

/-- The memory of a process in a kernel where all pages have one owner. -/
def UserMemory.ofMapped [image : Image] [origin : Origin] {f : Nat → Nat} {m : Ram} {root n trapframe : Nat} {rest : Multiset Nat}
    (mapped : Mapped f m root n trapframe rest) : UserMemory := ⟨m, root, f, mapped_backed mapped⟩

theorem smallMemory : ∃ s : UserMemory, s.entries = smallEntries := by
  let := smallImage
  obtain ⟨table, entries⟩ := smallTable
  refine ⟨⟨table.ram, table.root, table.entries, table.tree, fun v readable => table.data v readable.valid, ?_, ?_⟩, entries⟩
  · rw [entries]
    intro v w _ _ left right _
    rw [smallEntries_only left.valid, smallEntries_only right.valid]
  · rw [entries]
    intro v readable
    rw [smallEntries_only readable.valid, smallEntries_one, PTE2PA_word (by decide +kernel) (by decide) (by decide)]
    decide

section Stores

variable {m t : Ram} {root dstva k : Nat} {f : Nat → Nat} {src : Data}

variable (backed : Backed m root f)
include backed

theorem stored_nodes (stored : Stored f m t dstva src k)
    (writable : ∀ i < k, WritableAt f (dstva + i)) : ∀ x ∈ nodes m 2 root, t.page x = m.page x := by
  intro x mem
  funext o
  refine stored.miss x o fun i less same => ?_
  rw [← same] at mem
  exact absurd mem (backed.apart _ (writable i less).2.toReadable)

theorem stored_tree (stored : Stored f m t dstva src k)
    (writable : ∀ i < k, WritableAt f (dstva + i)) : Backed t root f := by
  have kept := stored_nodes backed stored writable
  refine ⟨backed.tree.congr kept, fun v readable => ?_, backed.distinct, backed.real⟩
  rw [nodes_congr kept]
  exact backed.apart v readable

/-- After a store the user reads the new bytes in its range, and elsewhere what was there. -/
theorem stored_userByte (stored : Stored f m t dstva src k)
    (writable : ∀ i < k, WritableAt f (dstva + i)) (va : Nat) :
    userByte t root va = if dstva ≤ va ∧ va < dstva + k then some (src (va - dstva)) else userByte m root va := by
  have after := stored_tree backed stored writable
  by_cases inside : dstva ≤ va ∧ va < dstva + k
  · have reached := writable (va - dstva) (by omega)
    have hit := stored.hit (va - dstva) (by omega)
    rw [Nat.add_sub_cancel' inside.1] at reached hit
    rw [if_pos inside, userByte_some after.tree ⟨reached.1, reached.2.toReadable⟩, hit]
  rw [if_neg inside]
  by_cases readable : ReadableAt f va
  · rw [userByte_some after.tree readable, userByte_some backed.tree readable, byteAt, byteAt]
    congr 1
    refine stored.miss _ _ fun i less same offset => ?_
    have reached := writable i less
    have page := backed.distinct _ _ (page_number_lt reached.1) (page_number_lt readable.1) reached.2.toReadable readable.2 same
    have equal : dstva + i = va := by
      rw [← Nat.div_add_mod (dstva + i) PGSIZE, page, offset, Nat.div_add_mod]
    omega
  · rw [userByte_none after.tree readable, userByte_none backed.tree readable]

variable {E : Halt → Prop} {len : Nat}

theorem copyout_user :
    Ends E (copyout root dstva src len) m fun done t => ∃ k, Reach (fun i => WritableAt f (dstva + i)) len k ∧
      (done = true ↔ k = len) ∧ Backed t root f ∧
      (∀ va, userByte t root va = if dstva ≤ va ∧ va < dstva + k then some (src (va - dstva)) else userByte m root va) ∧
      ∀ pa, (∀ i < len, ∀ flags, lookup m root (dstva + i) ≠ some (pa, flags)) → t.page pa = m.page pa := by
  refine (copyoutFrom_reach backed (Nat.le_refl len)).imp fun done t ⟨k, reach, all, stored⟩ =>
    ⟨k, reach, all, stored_tree backed stored reach.passes, stored_userByte backed stored reach.passes, fun pa away => ?_⟩
  funext o
  refine stored.miss pa o fun i less same => ?_
  have writable := reach.passes i less
  have le := reach.le
  refine absurd ?_ (away i (by omega) (PTE_FLAGS (f ((dstva + i) / PGSIZE))))
  rw [lookup_eq backed.tree writable.1, mapping, if_pos writable.2.valid, ← same]
  rfl

variable {dst : Data}

theorem copyin_user {srcva : Nat} : Ends E (copyin root dst srcva len) m fun r t => t = m ∧
      (r.1 = true ↔ ∀ i < len, (userByte m root (srcva + i)).isSome) ∧
      (r.1 = true → (∀ i < len, userByte m root (srcva + i) = some (r.2 i)) ∧ ∀ i ≥ len, r.2 i = dst i) := by
  refine (copyinFrom_reach backed (Nat.le_refl len)).imp fun r t ⟨same, k, reach, all, bytes⟩ => ⟨same, ?_, fun done => ?_⟩
  · rw [all, reach.all_iff]
    exact forall₂_congr fun i _ => (userByte_isSome backed.tree).symm
  · obtain rfl := all.mp done
    rw [bytes]
    refine ⟨fun i less => ?_, fun i beyond => if_neg (by omega)⟩
    rw [userByte_some backed.tree (reach.passes i less), fetched, splice, if_pos (by omega), Nat.sub_zero]

theorem copyout_copyin : Ends E (do
      let done ← copyout root va src len
      let r ← copyin root dst va len
      pure (done, r)) m fun (done, r) _ => done = true → r.1 = true ∧ ∀ i < len, r.2 i = src i := by
  refine (copyout_user backed).bind fun done t ⟨k, _, all, after, bytes, _⟩ => ?_
  refine (copyin_user after).bind fun r u ⟨_, back, copied⟩ => ?_
  intro stored
  obtain rfl := all.mp stored
  have there : ∀ i < k, userByte t root (va + i) = some (src i) := by
    intro i less
    rw [bytes, if_pos (by omega), Nat.add_sub_cancel_left]
  have done : r.1 = true := back.mpr fun i less => by rw [there i less]; rfl
  refine ⟨done, fun i less => ?_⟩
  have read := (copied done).1 i less
  rw [there i less] at read
  exact (Option.some.inj read).symm

theorem copyinstr_user {srcva max : Nat} : Ends E (copyinstr root dst srcva max) m fun r t => t = m ∧
      (r.1 = true ↔ ∃ k < max, userByte m root (srcva + k) = some 0 ∧ ∀ i < k, (userByte m root (srcva + i)).isSome) ∧
      (r.1 = true → ∃ k < max, (∀ i < k, r.2 i ≠ 0) ∧ r.2 k = 0 ∧
        (∀ i ≤ k, userByte m root (srcva + i) = some (r.2 i)) ∧ ∀ i > k, r.2 i = dst i) ∧
      ∀ i ≥ max, r.2 i = dst i := by
  refine (copyinstrFrom_reach backed (Nat.le_refl max)).imp fun r t ⟨same, k, reach, found, bytes⟩ => ⟨same, ?_, ?_, ?_⟩
  · rw [found]
    constructor
    · rintro ⟨less, readable⟩
      have null : byteAt m f (srcva + k) = 0 := not_not.mp fun some => reach.fails less ⟨readable, some⟩
      refine ⟨k, less, by rw [userByte_some backed.tree readable, null], fun i low => ?_⟩
      exact (userByte_isSome backed.tree).mpr (reach.passes i low).1
    rintro ⟨j, less, null, before⟩
    -- The string has ended at or before the null byte.
    have end' : ReadableAt f (srcva + j) := (userByte_isSome backed.tree).mp (by rw [null]; rfl)
    have zero : byteAt m f (srcva + j) = 0 := by
      rw [userByte_some backed.tree end'] at null
      exact Option.some.inj null
    have le : k ≤ j := Nat.le_of_not_lt fun more => (reach.passes j more).2 zero
    refine ⟨by omega, ?_⟩
    rcases Nat.lt_or_eq_of_le le with earlier | last
    · exact (userByte_isSome backed.tree).mp (before k earlier)
    · rw [last]
      exact end'
  · intro done
    obtain ⟨less, readable⟩ := found.mp done
    have null : byteAt m f (srcva + k) = 0 := not_not.mp fun some => reach.fails less ⟨readable, some⟩
    rw [if_pos done] at bytes
    have copied : ∀ i ≤ k, r.2 i = byteAt m f (srcva + i) := by
      intro i low
      rw [bytes, fetched, splice, if_pos (by omega), Nat.sub_zero]
    refine ⟨k, less, fun i low => ?_, ?_, fun i low => ?_, fun i beyond => ?_⟩
    · rw [copied i (by omega)]
      exact (reach.passes i low).2
    · rw [copied k (Nat.le_refl k), null]
    · rw [copied i low]
      rcases Nat.lt_or_eq_of_le low with earlier | last
      · exact userByte_some backed.tree (reach.passes i earlier).1
      · rw [last]
        exact userByte_some backed.tree readable
    · rw [bytes, fetched, splice, if_neg (by omega)]
  · intro i beyond
    have within : (if r.1 then k + 1 else k) ≤ max := by
      have le := reach.le
      split
      next done => exact (found.mp done).1
      next => exact le
    rw [bytes, fetched, splice, if_neg (by omega)]

omit backed

end Stores

/-- The copies of `kernel/vm.c` are those of a machine that copies byte by byte: they succeed where every byte can be
used, and change exactly the bytes of the range. -/
theorem user_copies (s : UserMemory) :
    (∀ dstva < 2 ^ 64, ∀ src len, Ends (fun _ => False) (copyout s.root dstva src len) s.ram fun done t =>
      (done = true ↔ ∀ i < len, userWritable s.ram s.root (dstva + i)) ∧
      (done = true → ∀ va, userByte t s.root va =
        if dstva ≤ va ∧ va < dstva + len then some (src (va - dstva)) else userByte s.ram s.root va) ∧
      ∀ pa, (∀ i < len, ∀ flags, lookup s.ram s.root (dstva + i) ≠ some (pa, flags)) → t.page pa = s.ram.page pa) ∧
    (∀ srcva < 2 ^ 64, ∀ dst len, Ends (fun _ => False) (copyin s.root dst srcva len) s.ram fun r t => t = s.ram ∧
      (r.1 = true ↔ ∀ i < len, (userByte s.ram s.root (srcva + i)).isSome) ∧
      (r.1 = true → (∀ i < len, userByte s.ram s.root (srcva + i) = some (r.2 i)) ∧ ∀ i ≥ len, r.2 i = dst i)) ∧
    (∀ va < 2 ^ 64, ∀ src dst len, Ends (fun _ => False) (do
        let done ← copyout s.root va src len
        let r ← copyin s.root dst va len
        pure (done, r)) s.ram fun (done, r) _ => done = true → r.1 = true ∧ ∀ i < len, r.2 i = src i) ∧
    (∀ srcva < 2 ^ 64, ∀ dst max, Ends (fun _ => False) (copyinstr s.root dst srcva max) s.ram fun r t => t = s.ram ∧
      (r.1 = true ↔ ∃ k < max, userByte s.ram s.root (srcva + k) = some 0 ∧
        ∀ i < k, (userByte s.ram s.root (srcva + i)).isSome) ∧
      (r.1 = true → ∃ k < max, (∀ i < k, r.2 i ≠ 0) ∧ r.2 k = 0 ∧
        (∀ i ≤ k, userByte s.ram s.root (srcva + i) = some (r.2 i)) ∧ ∀ i > k, r.2 i = dst i) ∧
      ∀ i ≥ max, r.2 i = dst i) := by
  refine ⟨fun dstva _ src len => ?_, fun _ _ _ _ => copyin_user s.backed, fun _ _ _ _ _ => copyout_copyin s.backed,
    fun _ _ _ _ => copyinstr_user s.backed⟩
  refine (copyout_user s.backed).imp fun done t ⟨k, reach, all, _, bytes, pages⟩ => ⟨?_, fun stored => ?_, pages⟩
  · rw [all, reach.all_iff]
    exact forall₂_congr fun i _ => (userWritable_iff s.backed.tree).symm
  · obtain rfl := all.mp stored
    exact bytes

/-- Two bytes fit at the end of a page of the user, and a third one does not. -/
theorem user_copies_small : ∃ s : UserMemory,
    (Ends (fun _ => False) (copyout s.root 8190 (fun i => UInt8.ofNat (7 + i)) 2) s.ram fun done t =>
      done = true ∧ userByte t s.root 8190 = some 7 ∧ userByte t s.root 8191 = some 8) ∧
    Ends (fun _ => False) (copyout s.root 8190 (fun i => UInt8.ofNat (7 + i)) 3) s.ram fun done _ => done = false := by
  obtain ⟨s, entries⟩ := smallMemory
  have writable : ∀ va, userWritable s.ram s.root va ↔ 4096 ≤ va ∧ va < 8192 := by
    intro va
    rw [userWritable_iff s.backed.tree, WritableAt, entries]
    constructor
    · intro inside
      have page := smallEntries_only inside.2.valid
      simp only [PGSIZE] at page
      omega
    · intro inside
      have page : va / PGSIZE = 1 := by
        simp only [PGSIZE]
        omega
      rw [page, smallEntries_one]
      exact ⟨lt_trans inside.2 (by decide +kernel), ⟨word_valid (by decide), by decide⟩, by decide⟩
  refine ⟨s, ?_, ?_⟩
  · refine ((user_copies s).1 8190 (by decide) _ 2).imp fun done t copied => ?_
    obtain ⟨all, bytes, -⟩ := copied
    have stored : done = true := all.mpr fun i less => (writable _).mpr (by omega)
    exact ⟨stored, bytes stored 8190, bytes stored 8191⟩
  · refine ((user_copies s).1 8190 (by decide) _ 3).imp fun done t copied => ?_
    rw [Bool.eq_false_iff]
    intro stored
    have last := (writable _).mp (copied.1.mp stored 2 (by decide))
    omega

end Xv6Monitor.Memory.Bytes
