import Xv6Monitor.FileSystem.Fields
import Xv6Monitor.FileSystem.Blocks

/-! The blocks that an inode lists, and what allocating more of them does to the disk. -/

namespace Xv6Monitor.FileSystem.Extents
open Function Lib.Bytes Lib.Program Stops Format Blocks Fields

/-- A place where an inode lists a block: one of its addresses, the last of which is that of the indirect
block, or an entry of the indirect block. -/
inductive Spot where
  | addr (k : Fin 13)
  | entry (j : Fin 256)
  deriving DecidableEq

def listed (disk : Nat → Data) (n : Dinode) : Spot → Nat
  | .addr k => (n.addrs k).toNat
  | .entry j => if n.addrs 12 = 0 then 0 else (entry (disk (n.addrs 12).toNat) j).toNat

def spot (bn : Nat) : Spot :=
  if direct : bn < 12 then .addr ⟨bn, Nat.lt_succ_of_lt direct⟩ else .entry ⟨(bn - 12) % 256, Nat.mod_lt _ (by decide)⟩

theorem spot_injective {a b : Nat} (left : a < MAXFILE) (right : b < MAXFILE) (same : spot a = spot b) : a = b := by
  simp only [MAXFILE, NDIRECT, NINDIRECT] at left right
  unfold spot at same
  split at same <;> split at same
  · exact Fin.mk.inj (Spot.addr.inj same)
  · exact nomatch same
  · exact nomatch same
  · have equal := Fin.mk.inj (Spot.entry.inj same)
    omega

theorem spot_direct {bn : Nat} (direct : bn < NDIRECT) : spot bn = .addr ⟨bn, Nat.lt_succ_of_lt direct⟩ := dif_pos direct

theorem spot_indirect {bn : Nat} (indirect : ¬bn < NDIRECT) (low : bn - NDIRECT < NINDIRECT) :
    spot bn = .entry ⟨bn - NDIRECT, low⟩ := by
  refine (dif_neg indirect).trans (congrArg Spot.entry (Fin.ext ?_))
  exact Nat.mod_eq_of_lt low

theorem spot_ne_indirect (bn : Nat) : spot bn ≠ .addr 12 := by
  unfold spot
  split
  next direct =>
    intro same
    have equal := congrArg Fin.val (Spot.addr.inj same)
    exact absurd equal (Nat.ne_of_lt direct)
  next => exact nofun

def blockOf (disk : Nat → Data) (n : Dinode) (bn : Nat) : Nat := listed disk n (spot bn)

def byte (disk : Nat → Data) (n : Dinode) (x : Nat) : UInt8 := disk (blockOf disk n (x / BSIZE)) (x % BSIZE)

theorem listed_addr_zero {disk : Nat → Data} {n : Dinode} {k : Fin 13} : listed disk n (.addr k) = 0 ↔ n.addrs k = 0 :=
  UInt32.toNat_inj (b := 0)

theorem listed_indirect {disk : Nat → Data} {n : Dinode} {j : Fin 256} (some : listed disk n (.entry j) ≠ 0) :
    n.addrs 12 ≠ 0 ∧ listed disk n (.addr 12) ≠ 0 := by
  have present : n.addrs 12 ≠ 0 := fun none => some (if_pos none)
  exact ⟨present, fun zero => present (listed_addr_zero.mp zero)⟩

theorem listed_congr {disk disk' : Nat → Data} {n : Dinode} (p : Spot)
    (same : n.addrs 12 ≠ 0 → disk' (n.addrs 12).toNat = disk (n.addrs 12).toNat) : listed disk' n p = listed disk n p := by
  cases p with
  | addr _ => rfl
  | entry _ =>
    by_cases none : n.addrs 12 = 0
    · rw [listed, listed, if_pos none, if_pos none]
    · rw [listed, listed, if_neg none, if_neg none, same none]

variable [sb : Superblock] {E : FsStop → Prop} {disk : Nat → Data} {s t u : Fs} {ip : Ip} {b x : Nat}

/-! ### The areas of the disk -/

theorem bblock_area (below : b < sb.size) : sb.bmapstart ≤ BBLOCK b ∧ BBLOCK b < datastart := by
  have quotient : b / BPB ≤ sb.size / BPB := Nat.div_le_div_right (Nat.le_of_lt below)
  refine ⟨Nat.le_add_left .., Nat.lt_succ_of_le ?_⟩
  rw [BBLOCK, Nat.add_comm]
  exact Nat.add_le_add_left quotient sb.bmapstart

theorem iblock_area {i : Nat} (below : i < sb.ninodes) : IBLOCK i < sb.bmapstart := by
  have after := sb.bmap_after
  have quotient : i / IPB ≤ sb.ninodes / IPB := Nat.div_le_div_right (Nat.le_of_lt below)
  unfold IBLOCK
  omega

theorem bmap_before_data : sb.bmapstart < datastart := Nat.lt_succ_of_le (Nat.le_add_right ..)

theorem data_positive : 0 < datastart := Nat.lt_of_le_of_lt (Nat.zero_le _) bmap_before_data

def Full (disk : Nat → Data) : Prop := ∀ b < sb.size, used disk b = true

def taken (disk : Nat → Data) (b : Nat) : Nat → Data :=
  update (update disk (BBLOCK b) (setBit (disk (BBLOCK b)) (b % BPB))) b fun _ => 0

theorem taken_self (disk : Nat → Data) (b : Nat) : taken disk b b = fun _ => 0 := update_self ..

theorem taken_other (other : x ≠ b) (data : x ≠ BBLOCK b) : taken disk b x = disk x := by
  rw [taken, update_of_ne other, update_of_ne data]

theorem taken_low (low : x < sb.bmapstart) (above : datastart ≤ b) (below : b < sb.size) : taken disk b x = disk x := by
  have area := bblock_area below
  exact taken_other (by omega) (by omega)

theorem taken_data (high : datastart ≤ x) (other : x ≠ b) (below : b < sb.size) : taken disk b x = disk x := by
  have area := bblock_area below
  exact taken_other other (by omega)

theorem used_taken (above : datastart ≤ b) (inside : x < sb.size) :
    used (taken disk b) x = (used disk x || decide (x = b)) := by
  have area := bblock_area inside
  unfold used taken
  rw [update_of_ne (by omega)]
  by_cases block : BBLOCK x = BBLOCK b
  · rw [block, update_self, bit_setBit]
    congr 1
    refine decide_eq_decide.mpr ⟨fun same => ?_, fun same => by rw [same]⟩
    have quotient : x / BPB = b / BPB := Nat.add_right_cancel block
    rw [← Nat.div_add_mod x BPB, ← Nat.div_add_mod b BPB, quotient, same]
  · rw [update_of_ne block, decide_eq_false (fun same => block (by rw [same])), Bool.or_false]

/-! ### Allocation -/

def LogStop : FsStop → Prop := fun e => ∃ panic, e = .log panic

structure Logged (s t : Fs) : Prop where
  grows : ∀ b ∈ s.log.lh, b ∈ t.log.lh
  durable : t.durable = s.durable
  logged : ∀ b, b ∉ t.log.lh → t.disk b = s.disk b

omit sb in
theorem Logged.refl (s : Fs) : Logged s s := ⟨fun _ => id, rfl, fun _ _ => rfl⟩

omit sb in
theorem Logged.trans (first : Logged s t) (second : Logged t u) : Logged s u := by
  refine ⟨fun b mem => second.grows b (first.grows b mem), second.durable.trans first.durable, fun b none => ?_⟩
  exact (second.logged b none).trans (first.logged b fun mem => none (second.grows b mem))

omit sb in
theorem logWrite_spec (b : Nat) (data : Data) :
    Ends LogStop (logWrite b data) s fun _ t =>
      (t.disk = update s.disk b data ∧ t.inode = s.inode) ∧ Logged s t := by
  unfold logWrite
  rw [ends_get_bind]
  rcases wrote : s.log.logWrite b with panic | log
  · exact ⟨panic, rfl⟩
  have recorded : b ∈ log.lh ∧ ∀ c ∈ s.log.lh, c ∈ log.lh := by
    unfold Disk.Journal.Log.logWrite at wrote
    split at wrote
    · exact nomatch wrote
    split at wrote
    · exact nomatch wrote
    split at wrote
    next absorbed =>
      cases wrote
      exact ⟨absorbed, fun _ => id⟩
    next =>
      cases wrote
      exact ⟨List.mem_append_right _ (List.mem_singleton_self b), fun _ => List.mem_append_left _⟩
  refine ⟨⟨rfl, rfl⟩, recorded.2, rfl, fun c none => update_of_ne (fun same => none ?_) ..⟩
  rw [same]
  exact recorded.1

/-- The blocks before the data are in use. -/
def Reserved (disk : Nat → Data) : Prop := ∀ b < datastart, used disk b = true

/-- A block that `balloc` can return. -/
structure Fresh (disk : Nat → Data) (b : Nat) : Prop where
  above : datastart ≤ b
  below : b < sb.size
  free : used disk b = false

theorem balloc_spec (reserved : Reserved s.disk) :
    Ends LogStop balloc s fun b t => (b = 0 ∧ t = s ∧ Full s.disk) ∨
      (b ≠ 0 ∧ Fresh s.disk b ∧ (t.disk = taken s.disk b ∧ t.inode = s.inode) ∧ Logged s t) := by
  unfold balloc
  rw [ends_get_bind]
  split
  next none =>
    refine Or.inl ⟨rfl, rfl, fun b below => ?_⟩
    have no := List.find?_eq_none.mp none b (List.mem_range.mpr below)
    simpa using no
  next b found =>
    have free : used s.disk b = false := by simpa using List.find?_some found
    have below : b < sb.size := List.mem_range.mp (List.mem_of_find?_eq_some found)
    have above : datastart ≤ b := Nat.le_of_not_lt fun low => nomatch free.symm.trans (reserved b low)
    have positive := data_positive
    refine (logWrite_spec _ _).bind fun _ u ⟨⟨first, same⟩, logged⟩ => ?_
    refine (logWrite_spec _ _).bind fun _ t ⟨⟨second, same'⟩, logged'⟩ => Or.inr ⟨by omega, ⟨above, below, free⟩, ⟨?_, ?_⟩, ?_⟩
    · rw [second, first]
      rfl
    · rw [same', same]
    · exact logged.trans logged'

theorem balloc_avoids {P : Nat → Prop} (marks : ∀ b < sb.size, used s.disk b = true ↔ b < datastart ∨ P b) :
    Ends LogStop balloc s fun b _ => b ≠ 0 → datastart ≤ b ∧ b < sb.size ∧ ¬P b := by
  have after : datastart ≤ sb.size := sb.data_after
  refine (balloc_spec fun b low => (marks b (by omega)).mpr (.inl low)).imp fun b t result some => ?_
  rcases result with ⟨zero, -⟩ | ⟨-, fresh, -⟩
  · exact absurd zero some
  · refine ⟨fresh.above, fresh.below, fun holds => ?_⟩
    have marked := (marks b fresh.below).mpr (.inr holds)
    rw [fresh.free] at marked
    exact nomatch marked

/-- The blocks that an inode lists are in the data area, in use, and all different. -/
structure Tidy (disk : Nat → Data) (n : Dinode) : Prop where
  above : ∀ p, listed disk n p ≠ 0 → datastart ≤ listed disk n p
  below : ∀ p, listed disk n p < sb.size
  marked : ∀ p, listed disk n p ≠ 0 → used disk (listed disk n p) = true
  apart : ∀ p q, listed disk n p ≠ 0 → listed disk n p = listed disk n q → p = q

abbrev copy (s : Fs) (ip : Ip) : Dinode := (s.inode ip).copy

/-- Blocks were allocated for an inode, and blocks of it were written. -/
structure Alters (ip : Ip) (s t : Fs) : Prop where
  low : ∀ b < sb.bmapstart, t.disk b = s.disk b
  marks : ∀ b < sb.size, used s.disk b = true → used t.disk b = true
  /-- Blocks of others keep their contents. -/
  kept : ∀ b, datastart ≤ b → b < sb.size → used s.disk b = true → (∀ p, listed s.disk (copy s ip) p ≠ b) → t.disk b = s.disk b
  others : ∀ j ≠ ip, t.inode j = s.inode j
  self : { t.inode ip with copy := copy s ip } = s.inode ip
  fields : { copy t ip with addrs := (copy s ip).addrs } = copy s ip
  stays : ∀ p, listed s.disk (copy s ip) p ≠ 0 → listed t.disk (copy t ip) p = listed s.disk (copy s ip) p
  fresh : ∀ p, listed s.disk (copy s ip) p = 0 → listed t.disk (copy t ip) p ≠ 0 →
    listed t.disk (copy t ip) p < sb.size ∧ used s.disk (listed t.disk (copy t ip) p) = false

theorem Alters.refl (ip : Ip) (s : Fs) : Alters ip s s :=
  ⟨fun _ _ => rfl, fun _ _ => id, fun _ _ _ _ _ => rfl, fun _ _ => rfl, rfl, rfl, fun _ _ => rfl, fun _ zero some => absurd zero some⟩

theorem Alters.trans (first : Alters ip s t) (second : Alters ip t u) : Alters ip s u := by
  refine ⟨fun b low => (second.low b low).trans (first.low b low),
    fun b below marked => second.marks b below (first.marks b below marked), fun b above below marked unlisted => ?_,
    fun j other => (second.others j other).trans (first.others j other), ?_, ?_, fun p some => ?_, fun p zero some => ?_⟩
  · refine (second.kept b above below (first.marks b below marked) fun p here => ?_).trans
      (first.kept b above below marked unlisted)
    by_cases zero : listed s.disk (copy s ip) p = 0
    · have positive := data_positive
      have new := first.fresh p zero (by omega)
      rw [here, marked] at new
      exact nomatch new.2
    · exact unlisted p ((first.stays p zero).symm.trans here)
  · have one := congrArg (fun i : Inode => { i with copy := copy s ip }) second.self
    exact one.trans first.self
  · have one := congrArg (fun n : Dinode => { n with addrs := (copy s ip).addrs }) second.fields
    exact one.trans first.fields
  · have middle := first.stays p some
    rw [second.stays p (by rwa [middle]), middle]
  · by_cases middle : listed t.disk (copy t ip) p = 0
    · obtain ⟨below, free⟩ := second.fresh p middle some
      refine ⟨below, Bool.eq_false_iff.mpr fun marked => ?_⟩
      rw [first.marks _ below marked] at free
      exact nomatch free
    · rw [second.stays p middle]
      exact first.fresh p zero middle

theorem Alters.inum (alters : Alters ip s t) : (t.inode ip).inum = (s.inode ip).inum := by
  have same := congrArg Inode.inum alters.self
  exact same

theorem Alters.type (alters : Alters ip s t) : (copy t ip).type = (copy s ip).type := by
  have same := congrArg Dinode.type alters.fields
  exact same

theorem Alters.size (alters : Alters ip s t) : (copy t ip).size = (copy s ip).size := by
  have same := congrArg Dinode.size alters.fields
  exact same

theorem Alters.reserved (alters : Alters ip s t) (reserved : Reserved s.disk) : Reserved t.disk := by
  intro b low
  have after : datastart ≤ sb.size := sb.data_after
  exact alters.marks b (by omega) (reserved b low)

end Xv6Monitor.FileSystem.Extents
