import Xv6Monitor.Mkfs.Building

/-! Whether the image that `mkfs` leaves is a valid file system. `ialloc` and `balloc` have no check against the size of the
inode table, and the size of the root directory is rounded up to the next block also where it is whole blocks already. -/

namespace Xv6Monitor.Mkfs.Validity
open Function Lib.Program FileSystem.Format FileSystem.Blocks FileSystem.Extents FileSystem.Contents
open Image Placing Appending Building

attribute [local instance] superblock

/-- The inodes that were given out and the blocks that they list exist, inodes were written to inode blocks only, and every
block below the size of an inode is there. -/
structure Valid (t : Img) : Prop where
  inums : ∀ i ∈ t.inums, i < superblock.ninodes
  blocks : ∀ i ∈ t.inums, ∀ p, listed t.sect (dinode t.sect i) p < superblock.size
  inodeWrites : ∀ b ∈ t.inodeWrites, superblock.inodestart ≤ b ∧ b < superblock.bmapstart
  whole : ∀ i ∈ t.inums, Present t.sect (dinode t.sect i) 0 (dinode t.sect i).size.toNat

variable {t u : Img} {files : List Source} {n : Nat}

/-! ### The inodes that are given out -/

def Same (t u : Img) : Prop := u.freeinode = t.freeinode ∧ u.inums = t.inums

instance : IsPreorder Img Same where
  refl _ := ⟨rfl, rfl⟩
  trans _ _ _ first second := ⟨second.1.trans first.1, second.2.trans first.2⟩

theorem rsect_same (sec : Nat) : Along Same (rsect sec) := by
  refine along_bind along_get fun t => ?_
  split
  · exact along_pure _
  · exact along_stop _

theorem wsect_same (sec : Nat) (buf : Lib.Bytes.Data) : Along Same (wsect sec buf) := along_modify fun _ => ⟨rfl, rfl⟩

theorem rinode_same (inum : Nat) : Along Same (rinode inum) := along_bind (rsect_same _) fun _ => along_pure _

theorem winode_same (inum : Nat) (ip : Dinode) : Along Same (winode inum ip) :=
  along_bind (rsect_same _) fun _ => along_bind (wsect_same _ _) fun _ => along_modify fun _ => ⟨rfl, rfl⟩

theorem newBlock_same : Along Same newBlock :=
  along_bind along_get fun _ => along_bind (along_modify fun _ => ⟨rfl, rfl⟩) fun _ => along_pure _

theorem withAddr_same (din : Dinode) (k : Fin 13) : Along Same (withAddr din k) := by
  unfold withAddr
  split
  · exact along_bind newBlock_same fun _ => along_pure _
  · exact along_pure _

theorem entryFor_same (block j : Nat) : Along Same (entryFor block j) := by
  refine along_bind (rsect_same _) fun _ => ?_
  split
  · exact along_bind newBlock_same fun _ => along_bind (wsect_same _ _) fun _ => along_pure _
  · exact along_pure _

theorem blockFor_same (din : Dinode) (fbn : Nat) : Along Same (blockFor din fbn) := by
  unfold blockFor
  split
  · exact along_bind (withAddr_same _ _) fun _ => along_pure _
  · exact along_bind (withAddr_same _ _) fun _ => along_bind (entryFor_same _ _) fun _ => along_pure _

theorem appendFrom_same (rounds : Nat) (p : List UInt8) (off : Nat) (din : Dinode) : Along Same (appendFrom rounds p off din) := by
  induction rounds generalizing p off din with
  | zero => exact along_pure _
  | succ rounds ih =>
    unfold appendFrom
    split
    · exact along_pure _
    dsimp only
    split
    · exact along_bind (blockFor_same _ _) fun _ => along_bind (rsect_same _) fun _ =>
        along_bind (wsect_same _ _) fun _ => ih _ _ _
    · exact along_stop _

theorem iappend_same (inum : Nat) (p : List UInt8) : Along Same (iappend inum p) :=
  along_bind (rinode_same _) fun _ => along_bind (appendFrom_same _ _ _ _) fun _ => winode_same _ _

structure Counted (n : Nat) (t : Img) : Prop where
  freeinode : t.freeinode = UInt32.ofNat (n + 1)
  inums : ∀ k < n, (UInt32.ofNat (k + 1)).toNat ∈ t.inums

theorem Counted.same (counted : Counted n t) (same : Same t u) : Counted n u :=
  ⟨same.1.trans counted.freeinode, fun k less => same.2 ▸ counted.inums k less⟩

theorem ialloc_counted {type : Int16} (counted : Counted n t) : Ends Any (ialloc type) t fun _ u => Counted (n + 1) u := by
  unfold ialloc
  rw [ends_get_bind]
  rw [ends_modify_bind]
  refine (winode_same _ _ _).bind fun _ u same => Counted.same ⟨?_, fun k less => ?_⟩ same
  · show t.freeinode + 1 = _
    rw [counted.freeinode]
    exact (UInt32.ofNat_add (n + 1) 1).symm
  · rcases Nat.lt_succ_iff_lt_or_eq.mp less with old | last
    · exact List.mem_cons_of_mem _ (counted.inums k old)
    · rw [last, ← counted.freeinode]
      exact List.mem_cons_self

theorem addFile_counted {rootino : Nat} {src : Source} (counted : Counted n t) :
    Ends Any (addFile rootino src) t fun _ u => Counted (n + 1) u := by
  unfold addFile
  split
  · trivial
  split
  · trivial
  split
  · trivial
  · refine (ialloc_counted counted).bind fun inum u allocated => ?_
    refine (iappend_same _ _ u).bind fun _ v named => ?_
    exact (along_forM (fun chunk => iappend_same _ _) _ v).imp fun _ w filled => (allocated.same named).same filled

theorem wipe_same (n : Nat) : Along Same (wipe n) := by
  unfold wipe
  exact along_forM (fun i => wsect_same i _) _

theorem main_counted (files : List Source) : Ends Any (main files) start fun _ t => Counted (files.length + 1) t := by
  unfold main
  refine (wipe_same _ start).bind fun _ t wiped => ?_
  refine (wsect_same _ _ t).bind fun _ u written => ?_
  have first : Counted 0 u := Counted.same (Counted.same ⟨rfl, fun k less => absurd less (Nat.not_lt_zero k)⟩ wiped) written
  refine (ialloc_counted first).bind fun rootino v allocated => ?_
  split
  · trivial
  refine (iappend_same _ _ v).bind fun _ w dot => ?_
  refine (iappend_same _ _ w).bind fun _ x dotdot => ?_
  have root : Counted 1 x := (allocated.same dot).same dotdot
  refine Ends.bind (R := fun _ y => Counted (files.length + 1) y) ?_ fun _ y counted => ?_
  · exact ends_forM (I := fun done y => Counted (done.length + 1) y)
      (fun done src rest y _ counted => by
        rw [List.length_append]
        exact addFile_counted counted) root
  · refine (rinode_same _ y).bind fun din z read => ?_
    refine (winode_same _ _ z).bind fun _ z' fixed => ?_
    rw [ends_get_bind]
    unfold Image.balloc
    split
    · exact (wsect_same _ _ z').imp fun _ _ marked => ((counted.same read).same fixed).same marked
    · trivial

/-! ### The blocks of the inodes -/

theorem present_iff (finished : Finished files t) (i : Nat) {size : Nat} (short : size ≤ MAXFILE * BSIZE) :
    Present t.sect (nodes t.sect i) 0 size ↔ blocks size ≤ blocks (contents files i).length := by
  have there : ∀ x < size, x / BSIZE < MAXFILE ∧
      (blockOf t.sect (nodes t.sect i) (x / BSIZE) ≠ 0 ↔ x / BSIZE < blocks (contents files i).length) := by
    intro x less
    have inside : x / BSIZE < MAXFILE := Nat.div_lt_of_lt_mul (by rw [Nat.mul_comm]; omega)
    exact ⟨inside, (finished.layout.core.there i _).trans (needed_spot inside)⟩
  constructor
  · intro present
    by_cases some : size = 0
    · rw [some]
      exact Nat.zero_le _
    · have last := (there (size - 1) (by omega)).2.mp (present (size - 1) (Nat.zero_le _) (by omega)).2
      refine Nat.le_trans (Nat.le_of_eq ?_) last
      simp only [blocks, BSIZE]
      omega
  · intro enough x _ less
    have inside : x / BSIZE < blocks size := by
      simp only [blocks, BSIZE]
      omega
    exact ⟨(there x less).1, (there x less).2.mpr (Nat.lt_of_lt_of_le inside enough)⟩

theorem valid_iff (finished : Finished files t) (few : files.length + 2 ≤ NINODES) : Valid t ↔ ¬64 ∣ files.length + 2 := by
  have read : ∀ i ∈ t.inums, dinode t.sect i = nodes t.sect i := by
    intro i mem
    exact (if_pos (Nat.lt_of_lt_of_le ((finished.inums i).mp mem).2 few)).symm
  have bytes : (rootBytes files).length = 16 * (files.length + 2) := rootBytes_length files
  have short : roundUp (rootBytes files).length ≤ MAXFILE * BSIZE := by
    simp only [NINODES, roundUp, MAXFILE, NDIRECT, NINDIRECT, BSIZE] at few ⊢
    omega
  have root : Present t.sect (nodes t.sect ROOTINO) 0 (roundUp (rootBytes files).length) ↔ ¬64 ∣ files.length + 2 := by
    rw [present_iff finished ROOTINO short, contents_root]
    simp only [roundUp, blocks, BSIZE]
    omega
  rw [← root, ← finished.root]
  constructor
  · intro valid
    have mem : ROOTINO ∈ t.inums := (finished.inums ROOTINO).mpr ⟨by decide, by simp only [ROOTINO]; omega⟩
    exact valid.whole ROOTINO mem
  intro whole
  refine ⟨fun i mem => Nat.lt_of_lt_of_le ((finished.inums i).mp mem).2 few, fun i mem p => ?_, finished.inodeWrites, fun i mem => ?_⟩
  · rw [read i mem]
    exact Nat.lt_of_lt_of_le (finished.layout.core.below i p) finished.room
  rw [read i mem]
  by_cases this : i = ROOTINO
  · rw [this]
    exact whole
  · rw [finished.size i this, present_iff finished i (finished.layout.core.length_le i)]

def emptyFile : Source := ⟨[97], letter_text, some []⟩

theorem replicate_fits {n : Nat} (few : n ≤ 198) : Fits (List.replicate n emptyFile) := by
  have each : ∀ src ∈ List.replicate n emptyFile, src = emptyFile := fun src mem => List.eq_of_mem_replicate mem
  refine ⟨?_, fun src mem => ?_, fun src mem => ?_, fun src mem => ?_, fun src mem => ?_, ?_⟩
  · rw [List.length_replicate]
    exact Nat.add_le_add_right few 2
  · rw [each src mem]
    decide
  · rw [each src mem]
    exact nofun
  · rw [each src mem]
    decide
  · rw [each src mem]
    decide
  have counts : ∀ i, blocks (contents (List.replicate n emptyFile) i).length ≤ update (fun _ => 0) ROOTINO 4 i := by
    intro i
    by_cases this : i = ROOTINO
    · rw [this, update_self, contents_root, rootBytes_length, List.length_replicate]
      simp only [blocks, BSIZE]
      omega
    have none : contents (List.replicate n emptyFile) i = [] := by
      rw [contents, if_neg this]
      split
      · rfl
      · rw [List.getElem?_replicate]
        split <;> rfl
    rw [none]
    exact Nat.zero_le _
  have none : cost 0 = 0 := rfl
  have sum : total (update (fun _ => 0) ROOTINO 4) + cost 0 = total (fun _ => 0) + cost 4 :=
    total_update (fun _ => 0) (by decide) 4
  rw [total_zero, none, Nat.add_zero] at sum
  calc total (fun i => blocks (contents (List.replicate n emptyFile) i).length)
    _ ≤ total (update (fun _ => 0) ROOTINO 4) := total_le counts
    _ = nmeta + cost 4 := sum
    _ ≤ FSSIZE := by decide

/-- `mkfs` leaves a valid image exactly if there are inodes for all files, and the root directory does not end at the end
of a block. -/
theorem image_valid_iff (files : List Source) (t : Img) (ran : main files start = .ok ((), t)) :
    Valid t ↔ files.length ≤ 198 ∧ ¬64 ∣ files.length + 2 := by
  by_cases few : files.length ≤ 198
  · rw [and_iff_right few]
    have inodes : files.length + 2 ≤ NINODES := Nat.add_le_add_right few 2
    exact valid_iff ((main_spec files inodes).ok ran) inodes
  · refine iff_of_false (fun valid => ?_) fun both => few both.1
    have counted := (main_counted files).ok ran
    exact absurd (valid.inums _ (counted.inums 199 (by omega))) (by decide)

theorem image_valid_iff_one : ∃ t, main (List.replicate 1 emptyFile) start = .ok ((), t) ∧
    (Valid t ↔ (List.replicate 1 emptyFile).length ≤ 198 ∧ ¬64 ∣ (List.replicate 1 emptyFile).length + 2) := by
  obtain ⟨t, ran, -⟩ := main_returns (replicate_fits (by decide : 1 ≤ 198))
  exact ⟨t, ran, image_valid_iff _ t ran⟩

/-- With 62 files the root directory fills its block, and its size has one more block that is not there. -/
theorem full_root_invalid : ∃ t, main (List.replicate 62 emptyFile) start = .ok ((), t) ∧ ¬Valid t := by
  obtain ⟨t, ran, finished⟩ := main_returns (replicate_fits (by decide : 62 ≤ 198))
  exact ⟨t, ran, fun valid => (valid_iff finished (by decide)).mp valid (by decide)⟩

end Xv6Monitor.Mkfs.Validity
