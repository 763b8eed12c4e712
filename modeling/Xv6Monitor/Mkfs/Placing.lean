import Mathlib.Algebra.Order.BigOperators.Group.Finset
import Xv6Monitor.Mkfs.Allotment

/-! How `iappend` of `mkfs/mkfs.c` finds the block of a file, and gives the file one where it has none. -/

namespace Xv6Monitor.Mkfs.Placing
open Function Lib.Bytes Lib.Program FileSystem.Format FileSystem.Blocks FileSystem.Extents Image Allotment

attribute [local instance] superblock

/-! ### How many blocks a file has -/

def blocks (size : Nat) : Nat := (size + BSIZE - 1) / BSIZE

def Needed (n : Nat) : Spot → Prop
  | .addr k => k.val < n
  | .entry j => 12 + j.val < n

variable {n : Nat}

theorem needed_direct (direct : n < 12) (p : Spot) :
    Needed (n + 1) p ↔ Needed n p ∨ p = .addr ⟨n, Nat.lt_succ_of_lt direct⟩ := by
  cases p with
  | addr k =>
    rw [Spot.addr.injEq, Fin.ext_iff]
    show k.val < n + 1 ↔ k.val < n ∨ k.val = n
    omega
  | entry j =>
    show 12 + j.val < n + 1 ↔ 12 + j.val < n ∨ _
    refine iff_of_false (by omega) ?_
    rintro (low | wrong)
    · omega
    · exact nomatch wrong

theorem needed_indirect (p : Spot) : Needed 13 p ↔ (Needed 12 p ∨ p = .addr 12) ∨ p = .entry 0 := by
  cases p with
  | addr k =>
    rw [Spot.addr.injEq, Fin.ext_iff]
    show k.val < 13 ↔ (k.val < 12 ∨ k.val = 12) ∨ _
    exact iff_of_true k.isLt (.inl (by omega))
  | entry j =>
    rw [Spot.entry.injEq, Fin.ext_iff]
    show 12 + j.val < 13 ↔ (12 + j.val < 12 ∨ _) ∨ j.val = 0
    constructor
    · exact fun low => .inr (by omega)
    · rintro ((low | wrong) | zero)
      · omega
      · exact nomatch wrong
      · omega

theorem needed_entry (indirect : 12 < n) (low : n - 12 < 256) (p : Spot) :
    Needed (n + 1) p ↔ Needed n p ∨ p = .entry ⟨n - 12, low⟩ := by
  cases p with
  | addr k =>
    show k.val < n + 1 ↔ k.val < n ∨ _
    exact iff_of_true (by omega) (.inl (by omega))
  | entry j =>
    rw [Spot.entry.injEq, Fin.ext_iff]
    show 12 + j.val < n + 1 ↔ 12 + j.val < n ∨ j.val = n - 12
    omega

/-- With the indirect block. -/
def cost (n : Nat) : Nat := n + if 12 < n then 1 else 0

theorem cost_succ (plain : n ≠ 12) : cost (n + 1) = cost n + 1 := by
  unfold cost
  split <;> split <;> omega

theorem cost_mono {m : Nat} (le : m ≤ n) : cost m ≤ cost n := by
  unfold cost
  split <;> split <;> omega

/-- The first block that is free when inode `i` has `count i` blocks. -/
def total (count : Nat → Nat) : Nat := nmeta + ∑ i ∈ Finset.range NINODES, cost (count i)

theorem total_zero : total (fun _ => 0) = nmeta := by
  have none : cost 0 = 0 := rfl
  rw [total, none, Finset.sum_const_zero, Nat.add_zero]

variable {t u v : Img} {node : Nat → Dinode} {count : Nat → Nat} {content : Nat → List UInt8} {inum fbn : Nat}

theorem total_update (count : Nat → Nat) (known : inum < NINODES) (n : Nat) :
    total (update count inum n) + cost (count inum) = total count + cost n := by
  have mem : inum ∈ Finset.range NINODES := Finset.mem_range.mpr known
  have split : ∀ f : Nat → Nat, ∑ i ∈ Finset.range NINODES, cost (f i) =
      cost (f inum) + ∑ i ∈ (Finset.range NINODES).erase inum, cost (f i) :=
    fun f => (Finset.add_sum_erase _ (fun i => cost (f i)) mem).symm
  have rest : ∑ i ∈ (Finset.range NINODES).erase inum, cost (update count inum n i) =
      ∑ i ∈ (Finset.range NINODES).erase inum, cost (count i) :=
    Finset.sum_congr rfl fun i other => by rw [update_of_ne (Finset.ne_of_mem_erase other)]
  rw [total, total, split, split count, update_self]
  omega

theorem total_le {count' : Nat → Nat} (le : ∀ i, count i ≤ count' i) : total count ≤ total count' :=
  Nat.add_le_add_left (Finset.sum_le_sum fun i _ => cost_mono (le i)) nmeta

theorem needed_update {S : Spot → Prop} (new : count inum = fbn) (more : ∀ p, Needed (fbn + 1) p ↔ Needed fbn p ∨ S p)
    (i : Nat) (p : Spot) : Needed (count i) p ∨ i = inum ∧ S p ↔ Needed (update count inum (fbn + 1) i) p := by
  by_cases this : i = inum
  · subst this
    rw [update_self, more, new, and_iff_right rfl]
  · rw [update_of_ne this]
    exact or_iff_left fun both => this both.1

/-- Each file lists the blocks that it needs for its bytes, from the beginning on. -/
structure Layout (t : Img) (node : Nat → Dinode) (count : Nat → Nat) (content : Nat → List UInt8) : Prop where
  core : Core t node (fun i => Needed (count i)) content
  free : t.freeblock.toNat = total count

structure Frame (t u : Img) : Prop where
  freeinode : u.freeinode = t.freeinode
  inums : u.inums = t.inums
  inodeWrites : u.inodeWrites = t.inodeWrites
  low : ∀ b < nmeta, u.sect b = t.sect b

theorem Frame.refl (t : Img) : Frame t t := ⟨rfl, rfl, rfl, fun _ _ => rfl⟩

theorem Frame.trans (first : Frame t u) (second : Frame u v) : Frame t v :=
  ⟨second.freeinode.trans first.freeinode, second.inums.trans first.inums, second.inodeWrites.trans first.inodeWrites,
    fun b low => (second.low b low).trans (first.low b low)⟩

/-! ### Finding the block -/

variable {sec : Nat}

theorem seek_small (small : sec < 4194304) : seek sec = sec := Nat.mod_eq_of_lt small

variable {E : Failure → Prop}

theorem ends_rsect {Q : Data → Img → Prop} (sectors : t.sectors = FSSIZE) (small : sec < 4194304)
    (works : sec < FSSIZE → Q (t.sect sec) t) (fails : FSSIZE ≤ sec → E .read) : Ends E (rsect sec) t Q := by
  unfold rsect
  rw [ends_get_bind, seek_small small, sectors]
  split
  next inside => exact works inside
  next outside => exact fails (Nat.le_of_not_lt outside)

theorem ends_wsect {buf : Data} {Q : Unit → Img → Prop} (sectors : t.sectors = FSSIZE)
    (small : sec < FSSIZE) (next : Q () { t with sect := update t.sect sec buf }) : Ends E (wsect sec buf) t Q := by
  unfold wsect
  rw [ends_modify, seek_small (Nat.lt_trans small (by decide))]
  have same : max t.sectors (sec + 1) = t.sectors := by
    omega
  rw [same]
  exact next

structure Found (t : Img) (node : Nat → Dinode) (count : Nat → Nat) (content : Nat → List UInt8) (inum fbn : Nat)
    (x : UInt32) (din : Dinode) (u : Img) : Prop where
  layout : Layout u (update node inum din) (update count inum (fbn + 1)) content
  block : x.toNat = blockOf u.sect din fbn
  last : u.freeblock = t.freeblock ∨ u.freeblock.toNat = x.toNat + 1
  most : u.freeblock.toNat ≤ t.freeblock.toNat + 2
  fields : din = { node inum with addrs := din.addrs }
  frame : Frame t u

theorem entryFor_new {has : Nat → Spot → Prop} (core : Core t node has content)
    (small : t.freeblock.toNat < 4194304) {j : Fin 256}
    (present : has inum (.addr 12)) (vacant : ¬has inum (.entry j)) (fails : FSSIZE ≤ listed t.sect (node inum) (.addr 12) → E .read) :
    Ends E (entryFor ((node inum).addrs 12).toNat j) t fun x u => x = t.freeblock ∧ u.freeblock.toNat = t.freeblock.toNat + 1 ∧
      Core u node (fun i p => has i p ∨ i = inum ∧ p = .entry j) content ∧
      listed u.sect (node inum) (.entry j) = t.freeblock.toNat ∧ Frame t u := by
  have nonzero := (core.there inum (.addr 12)).mpr present
  have above := (core.range inum (.addr 12) present).1
  have none : entry (t.sect ((node inum).addrs 12).toNat) j = 0 := by
    have zero : listed t.sect (node inum) (.entry j) = 0 := not_not.mp fun some => vacant ((core.there inum _).mp some)
    rw [listed, if_neg (fun zero => nonzero (listed_addr_zero.mpr zero))] at zero
    exact UInt32.toNat_inj.mp zero
  unfold entryFor
  refine Ends.bind (R := fun data s => data = t.sect ((node inum).addrs 12).toNat ∧ s = t ∧ ((node inum).addrs 12).toNat < FSSIZE)
    (ends_rsect core.sectors (Nat.lt_trans (core.below inum (.addr 12)) small) (fun inside => ⟨rfl, rfl, inside⟩) fails) ?_
  rintro data s ⟨rfl, rfl, inside⟩
  rw [if_pos none]
  have attaches := attaches_entry (j := j) core (by omega) rfl nonzero
  refine Ends.bind (R := fun b w => b = s.freeblock ∧ w = { s with freeblock := s.freeblock + 1 }) ⟨rfl, rfl⟩ ?_
  rintro b w ⟨rfl, rfl⟩
  refine Ends.bind (R := fun _ w => w = { s with
    sect := update s.sect ((node inum).addrs 12).toNat
      (store32 (s.sect ((node inum).addrs 12).toNat) (4 * j) s.freeblock), freeblock := s.freeblock + 1 })
    (ends_wsect core.sectors inside rfl) ?_
  rintro _ w rfl
  refine ⟨rfl, attaches.free, core.attach vacant attaches, attaches.there, rfl, rfl, rfl, fun b low => ?_⟩
  refine update_of_ne ?_ ..
  rintro rfl
  exact absurd low (Nat.not_lt_of_le above)

variable {k : Fin 13}

theorem withAddr_new {din : Dinode} (vacant : din.addrs k = 0) :
    Ends E (withAddr din k) t fun d u => d = { din with addrs := update din.addrs k t.freeblock } ∧
      u = { t with freeblock := t.freeblock + 1 } := by
  unfold withAddr
  rw [if_pos vacant]
  exact ⟨rfl, rfl⟩

theorem withAddr_there {din : Dinode} (some : din.addrs k ≠ 0) :
    Ends E (withAddr din k) t fun d u => d = din ∧ u = t := by
  unfold withAddr
  rw [if_neg some]
  exact ⟨rfl, rfl⟩

variable (layout : Layout t node count content)
include layout

theorem Layout.vacant_addr (few : count inum ≤ k.val) : (node inum).addrs k = 0 := by
  by_contra some
  have needed : Needed (count inum) (.addr k) := (layout.core.there inum _).mp fun zero => some (listed_addr_zero.mp zero)
  exact absurd few (Nat.not_le_of_lt needed)

theorem Layout.there_addr (many : k.val < count inum) : (node inum).addrs k ≠ 0 :=
  fun zero => (layout.core.there inum (.addr k)).mpr many (listed_addr_zero.mpr zero)

omit layout

theorem needed_spot {m : Nat} (inside : n < MAXFILE) : Needed m (spot n) ↔ n < m := by
  unfold spot
  split
  next => exact Iff.rfl
  next indirect =>
    show 12 + (n - 12) % 256 < m ↔ n < m
    simp only [MAXFILE, NDIRECT, NINDIRECT] at inside
    omega

include layout

theorem blockFor_there (room : t.freeblock.toNat ≤ FSSIZE) (inside : fbn < MAXFILE)
    (there : count inum = fbn + 1) :
    Ends (fun _ => False) (blockFor (node inum) fbn) t fun r u => Found t node count content inum fbn r.1 r.2 u := by
  have same : update count inum (fbn + 1) = count := by rw [← there, update_eq_self]
  have layout' : Layout t (update node inum (node inum)) (update count inum (fbn + 1)) content := by
    rw [update_eq_self, same]
    exact layout
  have nonzero : blockOf t.sect (node inum) fbn ≠ 0 := by
    refine (layout.core.there inum _).mpr ((needed_spot inside).mpr ?_)
    rw [there]
    exact Nat.lt_succ_self fbn
  unfold blockFor
  split
  next direct =>
    have some : (node inum).addrs ⟨fbn, Nat.lt_succ_of_lt direct⟩ ≠ 0 := layout.there_addr (by show fbn < _; omega)
    refine (withAddr_there some).bind ?_
    rintro din s ⟨rfl, rfl⟩
    refine ⟨layout', ?_, .inl rfl, Nat.le_add_right .., rfl, Frame.refl s⟩
    rw [FileSystem.Contents.blockOf_direct direct]
  next indirect =>
    have low : fbn - NDIRECT < NINDIRECT := by
      simp only [MAXFILE] at inside
      omega
    have some : (node inum).addrs 12 ≠ 0 := layout.there_addr (by show 12 < _; simp only [NDIRECT] at indirect; omega)
    have listing : blockOf t.sect (node inum) fbn = (entry (t.sect ((node inum).addrs 12).toNat) (fbn - NDIRECT)).toNat := by
      rw [blockOf, spot_indirect indirect low, listed, if_neg some]
    have below : ((node inum).addrs 12).toNat < FSSIZE := Nat.lt_of_lt_of_le (layout.core.below inum (.addr 12)) room
    refine (withAddr_there some).bind ?_
    rintro din s ⟨rfl, rfl⟩
    unfold entryFor
    refine Ends.bind (R := fun x w => x.toNat = blockOf s.sect (node inum) fbn ∧ w = s) ?_ ?_
    · refine Ends.bind (R := fun data w => data = s.sect ((node inum).addrs 12).toNat ∧ w = s)
        (ends_rsect layout.core.sectors (Nat.lt_trans below (by decide)) (fun _ => ⟨rfl, rfl⟩)
          fun high => absurd below (Nat.not_lt_of_le high)) ?_
      rintro data w ⟨rfl, rfl⟩
      rw [if_neg fun zero => nonzero (by rw [listing, zero]; rfl)]
      exact ⟨listing.symm, rfl⟩
    · rintro x w ⟨value, rfl⟩
      exact ⟨layout', value, .inl rfl, Nat.le_add_right .., rfl, Frame.refl w⟩

theorem blockFor_direct (known : inum < NINODES) (room : t.freeblock.toNat ≤ FSSIZE)
    (direct : fbn < 12) (new : count inum = fbn) :
    Ends (fun _ => False) (blockFor (node inum) fbn) t fun r u => Found t node count content inum fbn r.1 r.2 u := by
  have vacant : (node inum).addrs ⟨fbn, Nat.lt_succ_of_lt direct⟩ = 0 := layout.vacant_addr (Nat.le_of_eq new)
  have small : t.freeblock.toNat < 2 ^ 32 - 1 := Nat.lt_of_le_of_lt room (by decide)
  have attaches := attaches_addr layout.core small vacant
  have free : ¬Needed (count inum) (.addr ⟨fbn, Nat.lt_succ_of_lt direct⟩) := by
    show ¬fbn < count inum
    omega
  have counted := total_update count known (fbn + 1)
  rw [new, cost_succ (by omega)] at counted
  unfold blockFor
  rw [dif_pos (show fbn < NDIRECT from direct)]
  refine (withAddr_new vacant).bind ?_
  rintro din s ⟨same, rfl⟩
  have value : din.addrs ⟨fbn, Nat.lt_succ_of_lt direct⟩ = t.freeblock := by
    rw [same]
    exact update_self ..
  have block : blockOf t.sect din fbn = (din.addrs ⟨fbn, Nat.lt_succ_of_lt direct⟩).toNat :=
    FileSystem.Contents.blockOf_direct direct
  have core := (layout.core.attach free attaches).congr (needed_update new (needed_direct direct))
  refine ⟨⟨by rw [same]; exact core, ?_⟩, block.symm, .inr ?_, by rw [attaches.free]; omega, by rw [same], rfl, rfl, rfl, fun _ _ => rfl⟩
  · rw [attaches.free, layout.free]
    omega
  · exact attaches.free.trans (by rw [value])

theorem blockFor_entry (known : inum < NINODES) (room : t.freeblock.toNat ≤ FSSIZE)
    (indirect : 12 < fbn) (inside : fbn < MAXFILE) (new : count inum = fbn) :
    Ends (fun _ => False) (blockFor (node inum) fbn) t fun r u => Found t node count content inum fbn r.1 r.2 u := by
  have low : fbn - 12 < 256 := by
    simp only [MAXFILE, NDIRECT, NINDIRECT] at inside
    omega
  have small : t.freeblock.toNat < 4194304 := Nat.lt_of_le_of_lt room (by decide)
  have there : Needed (count inum) (.addr 12) := by
    show 12 < count inum
    omega
  have free : ¬Needed (count inum) (.entry ⟨fbn - 12, low⟩) := by
    show ¬12 + (fbn - 12) < count inum
    omega
  have below : listed t.sect (node inum) (.addr 12) < FSSIZE := Nat.lt_of_lt_of_le (layout.core.below inum (.addr 12)) room
  have counted := total_update count known (fbn + 1)
  rw [new, cost_succ (by omega)] at counted
  unfold blockFor
  rw [dif_neg (show ¬fbn < NDIRECT from Nat.not_lt_of_lt indirect)]
  refine (withAddr_there (layout.there_addr (show 12 < count inum by omega))).bind ?_
  rintro din s ⟨rfl, rfl⟩
  refine (entryFor_new (j := ⟨fbn - 12, low⟩) layout.core small there free
    fun high => absurd below (Nat.not_lt_of_le high)).bind ?_
  rintro x u ⟨value, more, core, listed, frame⟩
  refine ⟨⟨?_, ?_⟩, ?_, .inr ?_, by omega, rfl, frame⟩
  · rw [update_eq_self]
    exact core.congr (needed_update new (needed_entry indirect low))
  · rw [more, layout.free]
    omega
  · rw [value, blockOf, spot_indirect (Nat.not_lt_of_lt indirect) low]
    exact listed.symm
  · rw [more, value]

theorem blockFor_indirect (known : inum < NINODES) (room : t.freeblock.toNat ≤ FSSIZE) (new : count inum = 12) :
    Ends (fun e => e = .read ∧ FSSIZE < total (update count inum 13)) (blockFor (node inum) 12) t
      fun r u => Found t node count content inum 12 r.1 r.2 u := by
  have vacant : (node inum).addrs 12 = 0 := layout.vacant_addr (Nat.le_of_eq new)
  have small : t.freeblock.toNat < 4194303 := Nat.lt_of_le_of_lt room (by decide)
  have attaches := attaches_addr layout.core (by omega) vacant
  have free : ¬Needed (count inum) (.addr 12) := by
    show ¬12 < count inum
    omega
  have counted : total (update count inum 13) = total count + 2 := by
    have sum := total_update count known 13
    have before : cost 12 = 12 := rfl
    have after : cost 13 = 14 := rfl
    rw [new] at sum
    omega
  have grown := attaches.free
  unfold blockFor
  refine (withAddr_new vacant).bind ?_
  rintro din s ⟨same, rfl⟩
  have value : din.addrs 12 = t.freeblock := by
    rw [same]
    show update (node inum).addrs 12 t.freeblock 12 = t.freeblock
    rw [update_self]
  have here : update node inum din inum = din := update_self ..
  have address : listed t.sect (update node inum din inum) (.addr 12) = t.freeblock.toNat := by rw [here, listed, value]
  have core : Core { t with freeblock := t.freeblock + 1 } (update node inum din)
      (fun i p => Needed (count i) p ∨ i = inum ∧ p = .addr 12) content := by
    rw [same]
    exact layout.core.attach free attaches
  have absent : ¬(Needed (count inum) (.entry 0) ∨ inum = inum ∧ Spot.entry 0 = .addr 12) := by
    rintro (low | ⟨-, wrong⟩)
    · have less : 12 + 0 < count inum := low
      omega
    · cases wrong
  have found := entryFor_new (E := fun e => e = .read ∧ FSSIZE < total (update count inum 13)) (j := 0) core
    (by rw [grown]; omega) (.inr ⟨rfl, rfl⟩) absent fun high => ⟨rfl, by
      rw [address, layout.free] at high
      omega⟩
  rw [here] at found
  refine found.bind ?_
  rintro x u ⟨last, more, core, listed, frame⟩
  refine ⟨⟨core.congr fun i p => ?_, ?_⟩, ?_, .inr ?_, ?_, by rw [same], ?_⟩
  · rw [or_assoc, ← and_or_left]
    exact needed_update (S := fun p => p = .addr 12 ∨ p = .entry 0) new (fun p => (needed_indirect p).trans or_assoc) i p
  · rw [more, grown, layout.free]
    exact counted.symm
  · rw [last]
    exact listed.symm
  · rw [more, last]
  · rw [more, grown]
  · exact ⟨frame.freeinode, frame.inums, frame.inodeWrites, frame.low⟩

theorem blockFor_spec (known : inum < NINODES) (room : t.freeblock.toNat ≤ FSSIZE)
    (inside : fbn < MAXFILE) (near : count inum = fbn ∨ count inum = fbn + 1) :
    Ends (fun e => e = .read ∧ FSSIZE < total (update count inum (fbn + 1))) (blockFor (node inum) fbn) t
      fun r u => Found t node count content inum fbn r.1 r.2 u := by
  rcases near with new | there
  · rcases Nat.lt_trichotomy fbn 12 with direct | rfl | indirect
    · exact (blockFor_direct layout known room direct new).stops fun _ => False.elim
    · exact blockFor_indirect layout known room new
    · exact (blockFor_entry layout known room indirect inside new).stops fun _ => False.elim
  · exact (blockFor_there layout room inside there).stops fun _ => False.elim

end Xv6Monitor.Mkfs.Placing
