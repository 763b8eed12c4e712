import Xv6Monitor.FileSystem.Extents

/-! What `bmap` does: it finds the block of a file at an index, or it lists a free block there. -/

namespace Xv6Monitor.FileSystem.Mapping
open Function Lib.Bytes Lib.Program Format Blocks Extents

variable [sb : Superblock] {s t u : Fs} {ip : Ip} {here : Spot} {b : Nat}

/-- The free block `b` was listed at one spot, and the contents of data blocks stayed but for the indirect block. -/
structure Attaches (ip : Ip) (s t : Fs) (here : Spot) (b : Nat) : Prop where
  fresh : Fresh s.disk b
  low : ∀ x < sb.bmapstart, t.disk x = s.disk x
  marks : ∀ x < sb.size, used t.disk x = (used s.disk x || decide (x = b))
  kept : ∀ x, datastart ≤ x → x < sb.size → used s.disk x = true → x ≠ listed s.disk (copy s ip) (.addr 12) →
    t.disk x = s.disk x
  others : ∀ j ≠ ip, t.inode j = s.inode j
  self : { t.inode ip with copy := copy s ip } = s.inode ip
  fields : { copy t ip with addrs := (copy s ip).addrs } = copy s ip
  vacant : listed s.disk (copy s ip) here = 0
  there : listed t.disk (copy t ip) here = b
  rest : ∀ p, p ≠ here → listed t.disk (copy t ip) p = listed s.disk (copy s ip) p

theorem Attaches.alters (attaches : Attaches ip s t here b) : Alters ip s t := by
  refine ⟨attaches.low, fun x below marked => ?_, fun x above below marked unlisted => ?_, attaches.others, attaches.self,
    attaches.fields, fun p some => ?_, fun p zero some => ?_⟩
  · rw [attaches.marks x below, marked, Bool.true_or]
  · exact attaches.kept x above below marked fun same => unlisted (.addr 12) same.symm
  · exact attaches.rest p fun same => some (same ▸ attaches.vacant)
  by_cases same : p = here
  · rw [same, attaches.there]
    exact ⟨attaches.fresh.below, attaches.fresh.free⟩
  · rw [attaches.rest p same, zero] at some
    exact absurd rfl some

theorem Attaches.tidy (attaches : Attaches ip s t here b) (tidy : Tidy s.disk (copy s ip)) : Tidy t.disk (copy t ip) := by
  have fresh := attaches.fresh
  have marks := fun p (some : listed s.disk (copy s ip) p ≠ 0) => attaches.alters.marks _ (tidy.below p) (tidy.marked p some)
  -- A block that was listed is in use, so it is not the one that was free.
  have apart : ∀ p, listed s.disk (copy s ip) p ≠ b := by
    intro p same
    have positive := data_positive
    have above := fresh.above
    have marked := tidy.marked p (by omega)
    rw [same, fresh.free] at marked
    exact nomatch marked
  have cases : ∀ p, p = here ∧ listed t.disk (copy t ip) p = b ∨
      p ≠ here ∧ listed t.disk (copy t ip) p = listed s.disk (copy s ip) p := by
    intro p
    by_cases same : p = here
    · exact .inl ⟨same, same ▸ attaches.there⟩
    · exact .inr ⟨same, attaches.rest p same⟩
  refine ⟨fun p some => ?_, fun p => ?_, fun p some => ?_, fun p q some same => ?_⟩
  · rcases cases p with ⟨-, new⟩ | ⟨-, old⟩
    · rw [new]
      exact fresh.above
    · rw [old] at some ⊢
      exact tidy.above p some
  · rcases cases p with ⟨-, new⟩ | ⟨-, old⟩
    · rw [new]
      exact fresh.below
    · rw [old]
      exact tidy.below p
  · rcases cases p with ⟨-, new⟩ | ⟨-, old⟩
    · rw [new, attaches.marks b fresh.below, decide_eq_true rfl, Bool.or_true]
    · rw [old] at some ⊢
      exact marks p some
  rcases cases p with ⟨left, new⟩ | ⟨-, old⟩ <;> rcases cases q with ⟨right, new'⟩ | ⟨-, old'⟩
  · exact left.trans right.symm
  · rw [new, old'] at same
    exact absurd same.symm (apart q)
  · rw [old, new'] at same
    exact absurd same (apart p)
  · rw [old] at some
    rw [old, old'] at same
    exact tidy.apart p q some same

theorem ofNat_block (below : b < sb.size) : (UInt32.ofNat b).toNat = b := by
  have small := sb.size_small
  rw [UInt32.toNat_ofNat', Nat.mod_eq_of_lt (by omega)]

theorem attaches_addr {k : Fin 13} (tidy : Tidy s.disk (copy s ip)) (vacant : (copy s ip).addrs k = 0)
    (fresh : Fresh s.disk b) (disk : t.disk = taken s.disk b)
    (inode : t.inode = update s.inode ip { s.inode ip with
      copy := { copy s ip with addrs := update (copy s ip).addrs k (UInt32.ofNat b) } }) :
    Attaches ip s t (.addr k) b := by
  have fields : copy t ip = { copy s ip with addrs := update (copy s ip).addrs k (UInt32.ofNat b) } := by
    rw [copy, inode, update_self]
  have addrs : (copy t ip).addrs = update (copy s ip).addrs k (UInt32.ofNat b) := by rw [fields]
  have number := ofNat_block fresh.below
  refine ⟨fresh, fun x low => ?_, fun x below => ?_, fun x above below marked _ => ?_, fun j other => ?_, ?_, ?_, ?_, ?_,
    fun p other => ?_⟩
  · rw [disk, taken_low low fresh.above fresh.below]
  · rw [disk, used_taken fresh.above below]
  · rw [disk, taken_data above (fun same => ?_) fresh.below]
    rw [same, fresh.free] at marked
    exact nomatch marked
  · rw [inode, update_of_ne other]
  · rw [inode, update_self]
  · rw [fields]
  · rw [listed, vacant]
    rfl
  · rw [listed, addrs, update_self, number]
  cases p with
  | addr a =>
    have apart : a ≠ k := fun same => other (congrArg Spot.addr same)
    rw [listed, addrs, update_of_ne apart]
    rfl
  | entry j =>
    by_cases indirect : k = 12
    · -- The new indirect block has been zeroed.
      subst indirect
      have positive := data_positive
      have above := fresh.above
      have some : UInt32.ofNat b ≠ 0 := fun zero => by
        rw [zero] at number
        exact absurd number.symm (by simp; omega)
      rw [listed, listed, if_pos vacant, addrs, update_self, if_neg some, number, disk, taken_self]
      rfl
    · have same : (copy t ip).addrs 12 = (copy s ip).addrs 12 := by rw [addrs, update_of_ne (Ne.symm indirect)]
      rw [listed, listed, same]
      by_cases none : (copy s ip).addrs 12 = 0
      · rw [if_pos none, if_pos none]
      have present : listed s.disk (copy s ip) (.addr 12) ≠ 0 := fun zero => none (listed_addr_zero.mp zero)
      have apart : listed s.disk (copy s ip) (.addr 12) ≠ b := fun equal => by
        have marked := tidy.marked _ present
        rw [equal, fresh.free] at marked
        exact nomatch marked
      have stays : taken s.disk b ((copy s ip).addrs 12).toNat = s.disk ((copy s ip).addrs 12).toNat :=
        taken_data (tidy.above _ present) apart fresh.below
      rw [if_neg none, if_neg none, disk, stays]

theorem attaches_entry {j : Fin 256} {block : Nat} (tidy : Tidy s.disk (copy s ip))
    (indirect : listed s.disk (copy s ip) (.addr 12) = block) (present : block ≠ 0) (vacant : (entry (s.disk block) j).toNat = 0)
    (fresh : Fresh s.disk b) (inode : t.inode = s.inode)
    (disk : t.disk = update (taken s.disk b) block (store32 (taken s.disk b block) (4 * j) (UInt32.ofNat b))) :
    Attaches ip s t (.entry j) b := by
  have same : copy t ip = copy s ip := by rw [copy, inode]
  have address : ((copy s ip).addrs 12).toNat = block := indirect
  have nonzero : (copy s ip).addrs 12 ≠ 0 := fun zero => present (by rw [← address, zero]; rfl)
  have above : datastart ≤ block := indirect ▸ tidy.above (.addr 12) (by rwa [indirect])
  have marked : used s.disk block = true := indirect ▸ tidy.marked (.addr 12) (by rwa [indirect])
  have order := bmap_before_data
  have apart : block ≠ b := by
    intro equal
    rw [equal, fresh.free] at marked
    exact nomatch marked
  have stays : taken s.disk b block = s.disk block := taken_data above apart fresh.below
  refine ⟨fresh, fun x low => ?_, fun x below => ?_, fun x high below used other => ?_, fun _ _ => by rw [inode], ?_, ?_, ?_, ?_,
    fun p other => ?_⟩
  · rw [disk, update_of_ne (by omega), taken_low low fresh.above fresh.below]
  · have area := bblock_area below
    rw [← used_taken fresh.above below, used, used, disk, update_of_ne (by omega)]
  · rw [indirect] at other
    rw [disk, update_of_ne other, taken_data high (fun equal => ?_) fresh.below]
    rw [equal, fresh.free] at used
    exact nomatch used
  · rw [inode]
  · rw [same]
  · rw [listed, if_neg nonzero, address, vacant]
  · rw [same, listed, if_neg nonzero, address, disk, update_self, entry, load32_store32, ofNat_block fresh.below]
  · rw [same]
    cases p with
    | addr _ => rfl
    | entry i =>
      have different : i.val ≠ j.val := fun equal => other (congrArg Spot.entry (Fin.ext equal))
      rw [listed, listed, if_neg nonzero, if_neg nonzero, address, disk, update_self, stays, entry, entry, load32,
        load32, store32, load_store_other (by omega)]

/-- What allocating for an inode leaves: the inode is tidy again, and data blocks but the indirect one keep their contents. -/
structure Allocates (ip : Ip) (s t : Fs) : Prop where
  alters : Alters ip s t
  tidy : Tidy t.disk (copy t ip)
  data : ∀ x, datastart ≤ x → x < sb.size → used s.disk x = true → x ≠ listed s.disk (copy s ip) (.addr 12) →
    t.disk x = s.disk x
  logged : Logged s t

theorem Allocates.refl (tidy : Tidy s.disk (copy s ip)) : Allocates ip s s :=
  ⟨Alters.refl ip s, tidy, fun _ _ _ _ _ => rfl, Logged.refl s⟩

theorem Allocates.trans (first : Allocates ip s t) (second : Allocates ip t u) : Allocates ip s u := by
  refine ⟨first.alters.trans second.alters, second.tidy, fun x above below marked other => ?_, first.logged.trans second.logged⟩
  refine (second.data x above below (first.alters.marks x below marked) fun same => ?_).trans
    (first.data x above below marked other)
  by_cases zero : listed s.disk (copy s ip) (.addr 12) = 0
  · have positive := data_positive
    have new := first.alters.fresh _ zero (by omega)
    rw [← same, marked] at new
    exact nomatch new.2
  · exact other (same.trans (first.alters.stays _ zero))

theorem Attaches.allocates (attaches : Attaches ip s t here b) (tidy : Tidy s.disk (copy s ip)) (logged : Logged s t) :
    Allocates ip s t := ⟨attaches.alters, attaches.tidy tidy, attaches.kept, logged⟩

/-- There is no block for a spot: none is free, or only the one for the indirect block that is missing too. -/
def Scarce (ip : Ip) (s : Fs) (here : Spot) : Prop :=
  Full s.disk ∨ (∃ j, here = .entry j) ∧ listed s.disk (copy s ip) (.addr 12) = 0 ∧
    ∃ a, ∀ b < sb.size, b ≠ a → used s.disk b = true

theorem not_scarce (fresh : ∀ p, listed s.disk (copy s ip) p = 0 → listed t.disk (copy t ip) p ≠ 0 →
      used s.disk (listed t.disk (copy t ip) p) = false) (tidy : Tidy t.disk (copy t ip))
    (vacant : listed s.disk (copy s ip) here = 0) (some : listed t.disk (copy t ip) here ≠ 0) : ¬Scarce ip s here := by
  have free := fresh here vacant some
  rintro (full | ⟨⟨j, entry⟩, missing, a, few⟩)
  · rw [full _ (tidy.below here)] at free
    exact nomatch free
  -- The indirect block and the new block are two blocks that were free.
  subst entry
  have present := (listed_indirect some).2
  have only : ∀ p, used s.disk (listed t.disk (copy t ip) p) = false → listed t.disk (copy t ip) p = a := by
    intro p unused
    by_contra other
    rw [few _ (tidy.below p) other] at unused
    exact nomatch unused
  have same : listed t.disk (copy t ip) (.addr 12) = listed t.disk (copy t ip) (.entry j) :=
    (only _ (fresh _ missing present)).trans (only _ free).symm
  exact nomatch tidy.apart _ _ present same

inductive Maps (ip : Ip) (here : Spot) (s : Fs) (addr : Nat) (t : Fs) : Prop where
  | found (listed : listed s.disk (copy s ip) here = addr) (some : addr ≠ 0) (same : t = s)
  | added (vacant : listed s.disk (copy s ip) here = 0) (listed : listed t.disk (copy t ip) here = addr) (some : addr ≠ 0)
  | full (zero : addr = 0) (vacant : listed s.disk (copy s ip) here = 0) (full : Full t.disk) (scarce : Scarce ip s here)

theorem bmapDirect_spec {k : Fin 13} (reserved : Reserved s.disk) (tidy : Tidy s.disk (copy s ip)) :
    Ends LogStop (bmapDirect ip k) s fun addr t => (Allocates ip s t ∧ Maps ip (.addr k) s addr t) ∧
      ∀ b < sb.size, b ≠ addr → used t.disk b = used s.disk b := by
  unfold bmapDirect
  rw [ends_get_bind]
  by_cases zero : ((copy s ip).addrs k).toNat = 0
  · rw [if_pos zero]
    refine (balloc_spec reserved).bind fun b u result => ?_
    rcases result with ⟨none, same, full⟩ | ⟨some, fresh, ⟨disk, inode⟩, logged⟩
    · rw [if_pos none]
      subst same
      exact ⟨⟨Allocates.refl tidy, .full rfl zero full (.inl full)⟩, fun _ _ _ => rfl⟩
    rw [if_neg some, setCopy, setInode, ends_modify_bind, ends_pure, inode]
    have attaches := attaches_addr tidy (UInt32.toNat_inj.mp zero) fresh
      (t := { u with
        inode := update s.inode ip { s.inode ip with
          copy := { copy s ip with addrs := update (copy s ip).addrs k (UInt32.ofNat b) } } }) disk rfl
    refine ⟨⟨attaches.allocates tidy ⟨logged.grows, logged.durable, logged.logged⟩, .added zero attaches.there some⟩,
      fun c below other => ?_⟩
    rw [attaches.marks c below, decide_eq_false other, Bool.or_false]
  · rw [if_neg zero]
    exact ⟨⟨Allocates.refl tidy, .found rfl zero rfl⟩, fun _ _ _ => rfl⟩

theorem bmap_spec {bn : Nat} (reserved : Reserved s.disk) (tidy : Tidy s.disk (copy s ip)) (inside : bn < MAXFILE) :
    Ends LogStop (bmap ip bn) s fun addr t => Allocates ip s t ∧ Maps ip (spot bn) s addr t := by
  unfold bmap
  by_cases direct : bn < NDIRECT
  · rw [dif_pos direct, spot_direct direct]
    exact (bmapDirect_spec reserved tidy).imp fun _ _ => And.left
  have low : bn - NDIRECT < NINDIRECT := by
    simp only [MAXFILE] at inside
    omega
  rw [dif_neg direct, if_pos low, spot_indirect direct low]
  refine (bmapDirect_spec reserved tidy).bind ?_
  rintro block u ⟨⟨first, maps⟩, marks⟩
  by_cases none : block = 0
  · rw [if_pos none]
    cases maps with
    | found _ some => exact absurd none some
    | added _ _ some => exact absurd none some
    | full _ vacant full scarce =>
      have scarce : Full s.disk := by
        refine scarce.resolve_right ?_
        rintro ⟨⟨_, ⟨⟩⟩, -⟩
      exact ⟨first, .full rfl (if_pos (listed_addr_zero.mp vacant)) full (.inl scarce)⟩
  · rw [if_neg none, ends_get_bind]
    have indirect : listed u.disk (copy u ip) (.addr 12) = block := by
      cases maps with
      | found listed _ same => exact same ▸ listed
      | added _ listed => exact listed
      | full zero => exact absurd zero none
    have address : listed u.disk (copy u ip) (.entry ⟨bn - NDIRECT, low⟩) = (entry (u.disk block) (bn - NDIRECT)).toNat := by
      have number : ((copy u ip).addrs 12).toNat = block := indirect
      rw [listed, if_neg (fun zero => none (by rw [← number, zero]; rfl)), number]
    -- With a new indirect block, or an entry that is zero, nothing was listed before.
    have before : listed u.disk (copy u ip) (.entry ⟨bn - NDIRECT, low⟩) = 0 →
        listed s.disk (copy s ip) (.entry ⟨bn - NDIRECT, low⟩) = 0 := by
      intro zero
      by_contra some
      exact some ((first.alters.stays _ some).symm.trans zero)
    by_cases zero : (entry (u.disk block) (bn - NDIRECT)).toNat = 0
    · rw [if_pos zero]
      refine (balloc_spec (first.alters.reserved reserved)).bind fun b v result => ?_
      rcases result with ⟨nothing, same, full⟩ | ⟨some, fresh, ⟨disk, inode⟩, logged⟩
      · rw [if_pos nothing]
        subst same
        refine ⟨first, .full rfl (before (address.trans zero)) full ?_⟩
        cases maps with
        | found _ _ same => exact .inl (same ▸ full)
        | added vacant =>
          refine .inr ⟨⟨_, rfl⟩, vacant, block, fun b below other => ?_⟩
          rw [← marks b below other]
          exact full b below
        | full nothing => exact absurd nothing none
      · rw [if_neg some, ends_get_bind]
        refine (logWrite_spec _ _).bind ?_
        rintro _ t ⟨⟨disk', inode'⟩, logged'⟩
        have attaches : Attaches ip u t (.entry ⟨bn - NDIRECT, low⟩) b := by
          refine attaches_entry first.tidy indirect none zero fresh (inode'.trans inode) ?_
          rw [disk', disk]
        exact ⟨first.trans (attaches.allocates first.tidy (logged.trans logged')), .added (before (address.trans zero)) attaches.there some⟩
    · rw [if_neg zero]
      refine ⟨first, ?_⟩
      by_cases old : listed s.disk (copy s ip) (.entry ⟨bn - NDIRECT, low⟩) = 0
      · exact .added old address zero
      refine .found ((first.alters.stays _ old).symm.trans address) zero ?_
      have present := (listed_indirect old).2
      cases maps with
      | found _ _ same => exact same
      | added vacant => exact absurd vacant present
      | full nothing => exact absurd nothing none

end Xv6Monitor.FileSystem.Mapping
