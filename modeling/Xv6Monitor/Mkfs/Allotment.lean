import Mathlib.Algebra.BigOperators.Group.Finset.Basic
import Xv6Monitor.FileSystem.Contents
import Xv6Monitor.Mkfs.Image

/-! The blocks that `mkfs` has given to files: each is listed once, and they are all blocks from the end of the metadata to
the counter `freeblock`. -/

namespace Xv6Monitor.Mkfs.Allotment
open Function Lib.Bytes FileSystem.Format FileSystem.Blocks FileSystem.Extents FileSystem.Mapping Image

attribute [local instance] superblock

/-- The files of an image that is being built. Inode `i` is `node i`; it lists blocks at the spots that it `has`, and
begins with the bytes `content i`. -/
structure Core (t : Img) (node : Nat → Dinode) (has : Nat → Spot → Prop) (content : Nat → List UInt8) : Prop where
  sectors : t.sectors = FSSIZE
  low : nmeta ≤ t.freeblock.toNat
  fresh : ∀ b, t.freeblock.toNat ≤ b → t.sect b = fun _ => 0
  there : ∀ i p, listed t.sect (node i) p ≠ 0 ↔ has i p
  range : ∀ i p, has i p → nmeta ≤ listed t.sect (node i) p ∧ listed t.sect (node i) p < t.freeblock.toNat
  apart : ∀ i j p q, has i p → listed t.sect (node i) p = listed t.sect (node j) q → i = j ∧ p = q
  cover : ∀ b, nmeta ≤ b → b < t.freeblock.toNat → ∃ i p, listed t.sect (node i) p = b
  bytes : ∀ i x, x < (content i).length → x / BSIZE < MAXFILE ∧ has i (spot (x / BSIZE)) ∧
    byte t.sect (node i) x = chars (content i) x

variable {t u : Img} {node node' : Nat → Dinode} {has : Nat → Spot → Prop} {content : Nat → List UInt8} {inum : Nat} {here : Spot}

/-- The next block is listed at one spot, and all sectors stay but for the indirect block. -/
structure Attaches (t u : Img) (node node' : Nat → Dinode) (inum : Nat) (here : Spot) : Prop where
  sectors : u.sectors = t.sectors
  free : u.freeblock.toNat = t.freeblock.toNat + 1
  there : listed u.sect (node' inum) here = t.freeblock.toNat
  rest : ∀ i p, ¬(i = inum ∧ p = here) → listed u.sect (node' i) p = listed t.sect (node i) p
  kept : ∀ x ≠ listed t.sect (node inum) (.addr 12), u.sect x = t.sect x

theorem meta_positive : 0 < nmeta := by decide

variable (core : Core t node has content)
include core

theorem Core.below (i : Nat) (p : Spot) : listed t.sect (node i) p < t.freeblock.toNat := by
  by_cases some : has i p
  · exact (core.range i p some).2
  · have zero : listed t.sect (node i) p = 0 := not_not.mp fun nonzero => some ((core.there i p).mp nonzero)
    have low := core.low
    have positive := meta_positive
    omega

theorem Core.congr {has' : Nat → Spot → Prop} (same : ∀ i p, has i p ↔ has' i p) :
    Core t node has' content := by
  have equal : has = has' := by
    funext i p
    exact propext (same i p)
  exact equal ▸ core

theorem Core.attach (vacant : ¬has inum here) (attaches : Attaches t u node node' inum here) :
    Core u node' (fun i p => has i p ∨ i = inum ∧ p = here) content := by
  have low := core.low
  have positive := meta_positive
  have free := attaches.free
  have cases : ∀ i p, (i = inum ∧ p = here) ∧ listed u.sect (node' i) p = t.freeblock.toNat ∨
      ¬(i = inum ∧ p = here) ∧ listed u.sect (node' i) p = listed t.sect (node i) p := by
    intro i p
    by_cases new : i = inum ∧ p = here
    · obtain ⟨rfl, rfl⟩ := new
      exact .inl ⟨⟨rfl, rfl⟩, attaches.there⟩
    · exact .inr ⟨new, attaches.rest i p new⟩
  refine ⟨attaches.sectors.trans core.sectors, by omega, fun b above => ?_, fun i p => ?_, fun i p some => ?_,
    fun i j p q some same => ?_, fun b above below => ?_, fun i x less => ?_⟩
  · have other := core.below inum (.addr 12)
    rw [attaches.kept b (by omega)]
    exact core.fresh b (by omega)
  · rcases cases i p with ⟨new, listed⟩ | ⟨old, listed⟩
    · rw [listed]
      exact iff_of_true (by omega) (.inr new)
    · rw [listed, core.there, or_iff_left old]
  · rcases cases i p with ⟨new, listed⟩ | ⟨old, listed⟩
    · rw [listed]
      omega
    · rw [listed]
      have range := core.range i p (some.resolve_right old)
      omega
  · rcases cases i p with ⟨new, left⟩ | ⟨old, left⟩ <;> rcases cases j q with ⟨new', right⟩ | ⟨old', right⟩
    · exact ⟨new.1.trans new'.1.symm, new.2.trans new'.2.symm⟩
    · have below := core.below j q
      omega
    · have below := core.below i p
      omega
    · rw [left, right] at same
      exact core.apart i j p q (some.resolve_right old) same
  · by_cases last : b = t.freeblock.toNat
    · exact ⟨inum, here, attaches.there.trans last.symm⟩
    · obtain ⟨i, p, listed⟩ := core.cover b above (by omega)
      refine ⟨i, p, (attaches.rest i p ?_).trans listed⟩
      rintro ⟨rfl, rfl⟩
      exact vacant ((core.there i p).mp (by omega))
  · obtain ⟨inside, some, value⟩ := core.bytes i x less
    refine ⟨inside, .inl some, ?_⟩
    have old : ¬(i = inum ∧ spot (x / BSIZE) = here) := by
      rintro ⟨rfl, same⟩
      exact vacant (same ▸ some)
    have block : blockOf u.sect (node' i) (x / BSIZE) = blockOf t.sect (node i) (x / BSIZE) := attaches.rest i _ old
    have kept := attaches.kept (blockOf t.sect (node i) (x / BSIZE)) fun same =>
      spot_ne_indirect _ (core.apart i inum _ _ some same).2
    rw [byte, block, kept, ← value, byte]

theorem Core.elsewhere (sectors : u.sectors = t.sectors) (free : u.freeblock = t.freeblock)
    (high : ∀ b, nmeta ≤ b → u.sect b = t.sect b) (addrs : ∀ i, (node' i).addrs = (node i).addrs) : Core u node' has content := by
  have listings : ∀ i q, listed u.sect (node' i) q = listed t.sect (node i) q := by
    intro i q
    calc listed u.sect (node' i) q
      _ = listed u.sect (node i) q := by cases q <;> simp only [listed, addrs]
      _ = listed t.sect (node i) q := listed_congr q fun some =>
        high _ (core.range i (.addr 12) ((core.there i _).mp fun zero => some (listed_addr_zero.mp zero))).1
  refine ⟨sectors.trans core.sectors, free ▸ core.low, fun b above => ?_, fun i q => ?_, fun i q => ?_, fun i j q r => ?_,
    fun b above below => ?_, fun i x less => ?_⟩
  · rw [free] at above
    rw [high b (Nat.le_trans core.low above)]
    exact core.fresh b above
  · rw [listings]
    exact core.there i q
  · rw [listings, free]
    exact core.range i q
  · rw [listings, listings]
    exact core.apart i j q r
  · rw [free] at below
    obtain ⟨i, q, listed⟩ := core.cover b above below
    exact ⟨i, q, (listings i q).trans listed⟩
  · obtain ⟨inside, some, value⟩ := core.bytes i x less
    have block : blockOf u.sect (node' i) (x / BSIZE) = blockOf t.sect (node i) (x / BSIZE) := listings i _
    rw [byte, block, high (blockOf t.sect (node i) (x / BSIZE)) (core.range i _ some).1]
    exact ⟨inside, some, value⟩

theorem Core.length_le (i : Nat) : (content i).length ≤ MAXFILE * BSIZE := by
  by_contra long
  exact Nat.lt_irrefl MAXFILE (core.bytes i (MAXFILE * BSIZE) (Nat.lt_of_not_le long)).1

omit core

theorem one_more (small : t.freeblock.toNat < 2 ^ 32 - 1) : (t.freeblock + 1).toNat = t.freeblock.toNat + 1 := by
  rw [UInt32.toNat_add, UInt32.toNat_one]
  exact Nat.mod_eq_of_lt (by omega)

include core

theorem attaches_addr (small : t.freeblock.toNat < 2 ^ 32 - 1) {k : Fin 13} (vacant : (node inum).addrs k = 0) :
    Attaches t { t with freeblock := t.freeblock + 1 } node
      (update node inum { node inum with addrs := update (node inum).addrs k t.freeblock }) inum (.addr k) := by
  have low := core.low
  refine ⟨rfl, one_more small, ?_, fun i p other => ?_, fun x _ => rfl⟩
  · rw [update_self, listed]
    show (update (node inum).addrs k t.freeblock k).toNat = _
    rw [update_self]
  by_cases this : i = inum
  · subst this
    rw [update_self]
    have addrs : ∀ a, ({ node i with addrs := update (node i).addrs k t.freeblock } : Dinode).addrs a =
        if a = k then t.freeblock else (node i).addrs a := fun a => by
      dsimp only
      rw [update_apply]
    cases p with
    | addr a => rw [listed, addrs, if_neg (fun same => other ⟨rfl, congrArg Spot.addr same⟩), listed]
    | entry j =>
      rw [listed, listed, addrs]
      by_cases indirect : 12 = k
      · -- The new indirect block has never been written.
        have some : t.freeblock ≠ 0 := fun zero => by
          rw [zero] at low
          exact absurd low (by decide)
        rw [if_pos indirect, if_neg some, indirect, if_pos vacant, core.fresh _ (Nat.le_refl _)]
        rfl
      · rw [if_neg indirect]
  · rw [update_of_ne this]

theorem attaches_entry (small : t.freeblock.toNat < 2 ^ 32 - 1) {j : Fin 256} {block : Nat}
    (indirect : listed t.sect (node inum) (.addr 12) = block) (present : block ≠ 0) :
    Attaches t { t with
      sect := update t.sect block (store32 (t.sect block) (4 * j) t.freeblock), freeblock := t.freeblock + 1 } node
      node inum (.entry j) := by
  have own : (node inum).addrs 12 ≠ 0 := fun zero => present (by rw [← indirect, listed, zero]; rfl)
  have address : ((node inum).addrs 12).toNat = block := indirect
  refine ⟨rfl, one_more small, ?_, fun i p other => ?_, fun x apart => ?_⟩
  · rw [listed, if_neg own, address]
    show (entry (update t.sect block _ block) j).toNat = _
    rw [update_self, entry, load32_store32]
  · cases p with
    | addr a => rfl
    | entry a =>
      rw [listed, listed]
      by_cases none : (node i).addrs 12 = 0
      · rw [if_pos none, if_pos none]
      rw [if_neg none, if_neg none]
      show (entry (update t.sect block _ _) a).toNat = _
      by_cases this : i = inum
      · subst this
        rw [address, update_self, entry, entry, load32, load32, store32]
        have apart : a.val ≠ j.val := fun same => other ⟨rfl, congrArg Spot.entry (Fin.ext same)⟩
        rw [load_store_other (by omega)]
      · rw [update_of_ne]
        intro same
        have has' : has i (.addr 12) := (core.there i _).mp fun zero => none (listed_addr_zero.mp zero)
        exact this (core.apart i inum (.addr 12) (.addr 12) has' (same.trans indirect.symm)).1
  · exact update_of_ne (fun same => apart (same.trans indirect.symm)) ..

theorem Core.write {fbn m : Nat} {p : List UInt8} (inside : fbn < MAXFILE)
    (some : has inum (spot fbn)) (block : (content inum).length / BSIZE = fbn)
    (piece : m ≤ BSIZE - (content inum).length % BSIZE) (long : m ≤ p.length) (sectors : u.sectors = t.sectors)
    (free : u.freeblock = t.freeblock) (sect : u.sect = update t.sect (blockOf t.sect (node inum) fbn)
      (splice (t.sect (blockOf t.sect (node inum) fbn)) ((content inum).length % BSIZE) m (chars p))) :
    Core u node has (update content inum (content inum ++ p.take m)) := by
  have range := core.range inum (spot fbn) some
  have listings : ∀ i q, listed u.sect (node i) q = listed t.sect (node i) q := by
    intro i q
    refine listed_congr q fun _ => ?_
    rw [sect, update_of_ne]
    intro same
    exact spot_ne_indirect fbn (core.apart inum i (spot fbn) (.addr 12) some same.symm).2
  have blocks : ∀ i bn, blockOf u.sect (node i) bn = blockOf t.sect (node i) bn := fun i bn => listings i (spot bn)
  refine ⟨sectors.trans core.sectors, free ▸ core.low, fun b above => ?_, fun i q => ?_, fun i q => ?_, fun i j q r => ?_,
    fun b above below => ?_, fun i x less => ?_⟩
  · rw [free] at above
    rw [sect, update_of_ne]
    · exact core.fresh b above
    · rintro rfl
      exact absurd above (Nat.not_le_of_lt range.2)
  · rw [listings]
    exact core.there i q
  · rw [listings, free]
    exact core.range i q
  · rw [listings, listings]
    exact core.apart i j q r
  · rw [free] at below
    obtain ⟨i, q, listed⟩ := core.cover b above below
    exact ⟨i, q, (listings i q).trans listed⟩
  by_cases this : i = inum
  · subst this
    rw [update_self] at less ⊢
    rw [List.length_append, List.length_take] at less
    by_cases old : x < (content i).length
    · obtain ⟨inside', some', value⟩ := core.bytes i x old
      refine ⟨inside', some', ?_⟩
      rw [byte, blocks, sect, chars, List.getElem?_append_left old]
      by_cases same : x / BSIZE = fbn
      · have before : x % BSIZE < (content i).length % BSIZE := by
          simp only [BSIZE] at same block ⊢
          omega
        rw [same, update_self, splice, if_neg (by omega), ← same]
        exact value
      · rw [update_of_ne]
        · exact value
        · intro equal
          exact same (spot_injective inside' inside (core.apart i i _ _ some' equal).2)
    · have place : x / BSIZE = fbn ∧ x % BSIZE = (content i).length % BSIZE + (x - (content i).length) := by
        simp only [BSIZE] at block piece ⊢
        omega
      refine ⟨by rw [place.1]; exact inside, by rw [place.1]; exact some, ?_⟩
      rw [byte, blocks, sect, place.1, update_self, splice, place.2, if_pos (by omega), Nat.add_sub_cancel_left,
        chars, chars, List.getElem?_append_right (by omega), List.getElem?_take_of_lt (by omega)]
  · rw [update_of_ne this] at less ⊢
    obtain ⟨inside', some', value⟩ := core.bytes i x less
    refine ⟨inside', some', ?_⟩
    rw [byte, blocks, sect, update_of_ne]
    · exact value
    · intro equal
      exact this (core.apart i inum _ _ some' equal).1

end Xv6Monitor.Mkfs.Allotment
