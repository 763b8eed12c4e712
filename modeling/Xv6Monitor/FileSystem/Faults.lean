import Xv6Monitor.FileSystem.Volumes

/-! Writes from a user buffer that cannot be read throughout. The bytes that were copied into the buffer of a block before
the fault stay there, and the log does not know of them. -/

namespace Xv6Monitor.FileSystem.Faults
open Lib.Bytes Lib.Program Format Blocks Extents Contents Volumes

/-! A small file system: its file has one block, and one more block is free. -/

abbrev smallDisk : Superblock where
  size := 8
  ninodes := 2
  nlog := 2
  logstart := 2
  inodestart := 4
  bmapstart := 5
  bmap_after := by decide
  data_after := by decide
  size_small := by decide

def smallInode (type : Int16) (size : UInt32) : Dinode where
  type := type
  major := 0
  minor := 0
  nlink := 1
  size := size
  addrs := fun k => if k = 0 then 6 else 0

def smallBlocks (content : Data) (b : Nat) : Data :=
  if b = 5 then fun i => if i = 0 then 127 else 0
  else if b = 6 then content
  else fun _ => 0

def smallFs (type : Int16) (content : Data) (size : UInt32) : Fs where
  disk := smallBlocks content
  durable := smallBlocks content
  log := { start := 2, size := 30, outstanding := 1, committing := false, lh := [] }
  inode := fun ip =>
    { dev := 1, inum := 1, ref := if ip.val = 0 then 1 else 0, locked := true, valid := true, copy := smallInode type size }
  power := none

def smallNode (type : Int16) (size : UInt32) (i : Nat) : Dinode := smallInode (if i = 1 then type else 0) size

theorem listed_small (disk : Nat → Data) (type : Int16) (size : UInt32) (p : Spot) :
    listed disk (smallInode type size) p = if p = .addr 0 then 6 else 0 := by
  cases p with
  | addr k =>
    show (if k = 0 then (6 : UInt32) else 0).toNat = _
    by_cases first : k = 0
    · rw [if_pos first, if_pos (congrArg Spot.addr first)]
      rfl
    · rw [if_neg first, if_neg (fun same => first (Spot.addr.inj same))]
      rfl
  | entry _ => rfl

theorem small_used (content : Data) {b : Nat} (low : b < 7) : @used smallDisk (smallBlocks content) b = true := by
  let := smallDisk
  have marked : ∀ b < 7, bit (fun i => if i = 0 then 127 else 0) b = true := by decide
  have block : BBLOCK b = 5 := by
    show b / 8192 + 5 = 5
    omega
  have place : b % BPB = b := Nat.mod_eq_of_lt (show b < 8192 by omega)
  rw [used, block, place]
  exact marked b low

theorem small_tidy (content : Data) (type : Int16) (size : UInt32) :
    @Tidy smallDisk (smallBlocks content) (smallInode type size) := by
  let := smallDisk
  refine ⟨fun p => ?_, fun p => ?_, fun p => ?_, fun p q => ?_⟩
  · rw [listed_small]
    split <;> decide
  · rw [listed_small]
    split <;> decide
  · rw [listed_small]
    split
    · exact fun _ => small_used content (by decide)
    · exact fun none => absurd rfl none
  · rw [listed_small, listed_small]
    split <;> split
    next left right => exact fun _ _ => left.trans right.symm
    all_goals simp

theorem small_live (type : Int16) (size : UInt32) (i : Nat) (live : @Live smallDisk (smallNode type size) i) : i = 1 := by
  by_contra other
  exact live.2 (if_neg other)

def smallVolume (type : Int16) (content : Data) (size : UInt32) (inUse : type ≠ 0) (short : size.toNat ≤ BSIZE) :
    @Volume smallDisk :=
  letI := smallDisk
  { state := smallFs type content size
    ip := ⟨0, ninode_pos⟩
    node := smallNode type size
    held := rfl
    live := ⟨show 1 < 2 by decide, inUse⟩
    owned := by
      refine ⟨fun b low => ?_, fun i _ => small_tidy content _ size, fun i j left right different => ?_⟩
      · have area : @datastart smallDisk = 6 := rfl
        exact small_used content (by omega)
      · exact absurd ((small_live type size i left).trans (small_live type size j right).symm) different
    whole := by
      intro x _ less
      have below : x < BSIZE := Nat.lt_of_lt_of_le less short
      rw [Nat.div_eq_of_lt below]
      exact ⟨by decide, (listed_small _ type size (.addr 0)).trans_ne (by decide)⟩ }

variable [sb : Superblock] {s t : Fs} {view : Nat → Data}

/-! ### What a later read finds -/

/-- The cache agrees with the disk, where the log holds no newer version of a block. -/
def Coherent (s : Fs) : Prop := ∀ b, b ∉ s.log.lh → s.disk b = s.durable b

/-- The blocks as a later read may find them: still in the cache, or read again from the disk, unless the log has pinned
them. -/
def Seen (t : Fs) (view : Nat → Data) : Prop := ∀ b, view b = t.disk b ∨ b ∉ t.log.lh ∧ view b = t.durable b

/-- Later reads find the contents that the file had, except where the write has reported them to be changed. -/
def Keeps (v : Volume) (t : Fs) (off tot : Nat) : Prop :=
  ∀ view, Seen t view → ∀ (dst : Buffer) (lo m : UInt32),
    Ends (fun _ => False) (readi v.ip dst.place lo.toNat m.toNat) { t with disk := view } fun got _ =>
      ∀ i < got.len, lo.toNat + i < v.size → ¬(off ≤ lo.toNat + i ∧ lo.toNat + i < off + tot) →
        got.bytes i = v.byte (lo.toNat + i)

/-- If the buffer cannot be read from byte `q` on, what comes before it for the same block is in the file already. -/
def Harmless (v : Volume) (src : Nat → Option UInt8) (off len : Nat) : Prop :=
  ∀ q < len, (∀ i < q, (src i).isSome = true) → src q = none →
    ∀ x, off ≤ x → (off + q) / BSIZE * BSIZE ≤ x → x < off + q → x < v.size → src (x - off) = some (v.byte x)

section Write

variable {v : Volume} {src : Nat → Option UInt8} {off len tot extra : Nat}
  (updated : Updated v (fun i => (src i).isSome = true) (fun i => (src i).getD 0) off len tot extra t)

include updated

variable (coherent : Coherent v.state)
include coherent

theorem seen_disk (seen : Seen t view) (b : Nat) :
    view b = t.disk b ∨ b ∉ t.log.lh ∧ view b = v.state.disk b := by
  refine (seen b).imp_right fun ⟨unpinned, evicted⟩ => ⟨unpinned, ?_⟩
  rw [evicted, updated.spares.durable, coherent b fun mem => unpinned (updated.spares.grows b mem)]

theorem seen_listed (seen : Seen t view) (p : Spot) :
    listed view (copy t v.ip) p = listed t.disk (copy t v.ip) p := by
  have tidy : Tidy t.disk (copy t v.ip) := updated.volume.tidy
  refine listed_congr p fun present => ?_
  rcases seen_disk updated coherent seen ((copy t v.ip).addrs 12).toNat with same | ⟨none, old⟩
  · exact same
  · rw [old]
    refine (updated.spares.logged _ none fun bn same => ?_).symm
    have apart := tidy.apart (.addr 12) (spot bn) (fun zero => present (listed_addr_zero.mp zero)) same.symm
    exact spot_ne_indirect bn apart.symm

theorem seen_byte (seen : Seen t view) {x : Nat} (old : x < v.size) :
    byte view (copy t v.ip) x = byte t.disk (copy t v.ip) x ∨ byte view (copy t v.ip) x = v.byte x := by
  have some := (v.whole x (Nat.zero_le x) old).2
  have stays : blockOf t.disk (copy t v.ip) (x / BSIZE) = blockOf v.state.disk (copy v.state v.ip) (x / BSIZE) :=
    updated.stays _ some
  have block : blockOf view (copy t v.ip) (x / BSIZE) = blockOf t.disk (copy t v.ip) (x / BSIZE) :=
    seen_listed updated coherent seen _
  rw [byte, block]
  rcases seen_disk updated coherent seen (blockOf t.disk (copy t v.ip) (x / BSIZE)) with same | ⟨-, old⟩
  · exact .inl (congrFun same _)
  · right
    rw [old, stays]
    rfl

theorem seen_reads (seen : Seen t view) :
    Reads { t with disk := view } v.ip (max v.size (off + tot)) (byte view (copy t v.ip)) := by
  refine readi_reads updated.size (fun x low high => ?_) fun _ _ => rfl
  have present := updated.whole x low high
  refine ⟨present.1, ?_⟩
  have block : blockOf view (copy t v.ip) (x / BSIZE) = blockOf t.disk (copy t v.ip) (x / BSIZE) :=
    seen_listed updated coherent seen _
  rw [block]
  exact present.2

omit coherent

theorem fault_at (some : 0 < extra) :
    tot + extra < len ∧ (∀ i < tot + extra, (src i).isSome = true) ∧ src (tot + extra) = none ∧
      (off + tot) % BSIZE + extra < BSIZE := by
  cases updated.ended with
  | all _ none => omega
  | full _ _ _ none => omega
  | fault inside short passes fails =>
    refine ⟨short, fun i less => ?_, Option.not_isSome_iff_eq_none.mp fails, inside⟩
    by_cases early : i < tot
    · exact updated.passed i early
    · have pass := passes (i - tot) (by omega)
      rwa [Nat.add_sub_cancel' (by omega)] at pass

include coherent

theorem harmless_keeps (harmless : Harmless v src off len) : Keeps v t off tot := by
  intro view seen dst lo m
  refine ((seen_reads updated coherent seen).bytes dst lo m).imp fun got u each i less old outside => ?_
  rw [(each i less).2]
  generalize lo.toNat + i = x at old outside
  rcases seen_byte updated coherent seen old with cached | evicted
  · rw [cached, updated.bytes x (by omega), splice]
    by_cases written : off ≤ x ∧ x < off + (tot + extra)
    · obtain ⟨short, passes, fails, inside⟩ := fault_at updated (by omega)
      have block : (off + (tot + extra)) / BSIZE * BSIZE ≤ x := by
        simp only [BSIZE] at inside ⊢
        omega
      have same := harmless _ short passes fails x written.1 block written.2 old
      rw [if_pos written, same, Option.getD_some]
    · rw [if_neg written]
  · exact evicted

theorem keeps_harmless (keeps : Keeps v t off tot) : Harmless v src off len := by
  intro q inside passes fails x after block before old
  have none : ¬(src q).isSome = true := by rw [fails]; exact nofun
  have early : tot ≤ q := Nat.le_of_not_lt fun later => none (updated.passed q later)
  have reached : x < off + (tot + extra) ∧ off + tot ≤ x := by
    cases updated.ended with
    | all same => omega
    | full short vacant =>
      have order : (off + tot) / BSIZE * BSIZE ≤ x :=
        Nat.le_trans (Nat.mul_le_mul_right BSIZE (Nat.div_le_div_right (by omega))) block
      have present := (v.whole ((off + tot) / BSIZE * BSIZE) (Nat.zero_le _) (Nat.lt_of_le_of_lt order old)).2
      rw [Nat.mul_div_cancel _ (by decide)] at present
      exact absurd vacant present
    | fault inside' short passes' fails' =>
      have first : q = tot + extra := by
        rcases Nat.lt_trichotomy q (tot + extra) with less | same | more
        · have pass := passes' (q - tot) (by omega)
          rw [Nat.add_sub_cancel' early] at pass
          exact absurd pass none
        · exact same
        · exact absurd (passes _ more) fails'
      have aligned := updated.aligned (by omega)
      simp only [BSIZE] at inside' block aligned
      omega
  have small : v.size ≤ MAXFILE * BSIZE := v.size_le
  have limit : MAXFILE * BSIZE < 2 ^ 32 := by decide
  have number : (UInt32.ofNat x).toNat = x := by rw [UInt32.toNat_ofNat', Nat.mod_eq_of_lt (by omega)]
  have one : (1 : UInt32).toNat = 1 := rfl
  have seen : Seen t t.disk := fun b => .inl rfl
  -- The byte is read back with a read of one byte.
  have both := (keeps t.disk seen (Buffer.kernel fun _ => 0) (UInt32.ofNat x) 1).and
    (seen_reads updated coherent seen (Buffer.kernel fun _ => 0) (UInt32.ofNat x) 1)
  unfold Ends at both
  split at both
  next got u ran =>
    obtain ⟨kept, -, read⟩ := both
    rw [number, one, if_pos (by omega)] at read
    obtain ⟨-, length, each⟩ := read
    have single : min 1 (max v.size (off + tot) - x) = 1 := by omega
    rw [single] at length each
    have now := each 0 Nat.one_pos
    have before := kept 0 (by omega)
    rw [number, Nat.add_zero] at before
    rw [Nat.add_zero] at now
    rw [before old (by omega), updated.bytes x (by omega), splice, if_pos (by omega)] at now
    obtain ⟨c, found⟩ := Option.isSome_iff_exists.mp (passes (x - off) (by omega))
    rw [found, Option.getD_some] at now
    rw [found, now]
  next => exact both.1.elim

omit coherent

end Write

/-- A write changes nothing that it does not report exactly if what comes before the fault for the same block is in the
file already. -/
theorem keeps_iff_harmless (v : Volume) (coherent : Coherent v.state) (src : Nat → Option UInt8) (off len : UInt32) :
    Ends LogStop (writei v.ip (Place.user src) off.toNat len.toNat) v.state fun r t =>
      ∀ tot, r = some tot → (Keeps v t off.toNat tot ↔ Harmless v src off.toNat len.toNat) := by
  refine (writei_spec v (backs_user src) off.toNat len.toNat).imp fun r t result tot returned => ?_
  rcases result with ⟨none, -⟩ | ⟨-, tot', extra, same, updated⟩
  · exact nomatch none.symm.trans returned
  · obtain rfl := Option.some.inj (same.symm.trans returned)
    exact ⟨keeps_harmless updated coherent, harmless_keeps updated coherent⟩

omit sb in
theorem keeps_iff_harmless_small :
    letI := smallDisk
    let v := smallVolume T_FILE (fun _ => 7) 4 (by decide) (by decide)
    Coherent v.state ∧
      Ends LogStop (writei v.ip (Place.user fun i => if i < 2 then some 9 else none) (0 : UInt32).toNat (4 : UInt32).toNat) v.state
        fun r t => ∀ tot, r = some tot → (Keeps v t (0 : UInt32).toNat tot ↔
          Harmless v (fun i => if i < 2 then some 9 else none) (0 : UInt32).toNat (4 : UInt32).toNat) :=
  letI := smallDisk
  let v := smallVolume T_FILE (fun _ => 7) 4 (by decide) (by decide)
  ⟨fun _ _ => rfl, keeps_iff_harmless v (fun _ _ => rfl) (fun i => if i < 2 then some 9 else none) 0 4⟩

omit sb in
/-- Two bytes of a buffer are copied over the first two of a file before the third faults. The write reports that nothing
was written, and the next read finds the first byte changed. -/
theorem fault_changes_file :
    letI := smallDisk
    let v := smallVolume T_FILE (fun _ => 7) 4 (by decide) (by decide)
    Coherent v.state ∧ v.byte 0 = 7 ∧
      (((do
        let r ← writei v.ip (Place.user fun i => if i < 2 then some 9 else none) 0 4
        let got ← readi v.ip (Place.kernel fun _ => 0) 0 1
        pure (r, got.total, got.bytes 0)) : FsProg (Option Nat × Option Nat × UInt8)) v.state).toOption.map Prod.fst =
        some (some 0, some 1, 9) := by
  refine ⟨fun b _ => rfl, by decide +kernel, by decide +kernel⟩

end Xv6Monitor.FileSystem.Faults
