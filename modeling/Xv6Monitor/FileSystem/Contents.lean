import Xv6Monitor.FileSystem.Mapping
import Xv6Monitor.Lib.Positions

/-! The loops of `readi` and `writei` over the blocks of a file. -/

namespace Xv6Monitor.FileSystem.Contents
open Function Lib.Bytes Lib.Program Lib.Positions Format Blocks Extents Mapping

/-- A place that can be copied from or to where `P` holds, and what a copy finds there. -/
structure Backs (place : Place) (P : Nat → Prop) (data : Data) : Prop where
  reach : ∀ tot m, Reach (fun i => P (tot + i)) m (place.reach tot m)
  bytes : ∀ tot i, P (tot + i) → place.bytes tot i = data (tot + i)

theorem backs_user (src : Nat → Option UInt8) :
    Backs (Place.user src) (fun i => (src i).isSome = true) fun i => (src i).getD 0 :=
  ⟨fun tot m => reach_takeWhile (fun i => (src (tot + i)).isSome) m, fun _ _ _ => rfl⟩

theorem backs_kernel (data : Data) : Backs (Place.kernel data) (fun _ => True) data :=
  ⟨fun _ m => ⟨Nat.le_refl m, fun _ _ => trivial, fun short => absurd short (Nat.lt_irrefl m)⟩, fun _ _ _ => rfl⟩

variable {data : Data}

theorem Backs.whole {place : Place} (backs : Backs place (fun _ => True) data) (tot m : Nat) :
    place.reach tot m = m := (backs.reach tot m).all_iff.mpr fun _ _ => trivial

variable [sb : Superblock] {s t u : Fs} {ip : Ip}

/-! ### Reading -/

omit sb in
theorem blockOf_direct {disk : Nat → Data} {n : Dinode} {bn : Nat} (direct : bn < NDIRECT) :
    blockOf disk n bn = (n.addrs ⟨bn, Nat.lt_succ_of_lt direct⟩).toNat := by
  rw [blockOf, spot_direct direct]
  rfl

theorem bmap_found {bn : Nat} (inside : bn < MAXFILE) (some : blockOf s.disk (copy s ip) bn ≠ 0) :
    bmap ip bn s = .ok (blockOf s.disk (copy s ip) bn, s) := by
  have found : ∀ k, ((copy s ip).addrs k).toNat ≠ 0 → bmapDirect ip k s = .ok (((copy s ip).addrs k).toNat, s) := by
    intro k nonzero
    refine (ends_eq (bmapDirect ip k) s _ _).mp ?_
    unfold bmapDirect
    rw [ends_get_bind, if_neg nonzero]
    exact ⟨rfl, rfl⟩
  by_cases direct : bn < NDIRECT
  · rw [blockOf_direct direct] at some ⊢
    rw [bmap, dif_pos direct]
    exact found _ some
  have low : bn - NDIRECT < NINDIRECT := by
    simp only [MAXFILE] at inside
    omega
  rw [blockOf, spot_indirect direct low] at some ⊢
  obtain ⟨present, nonzero⟩ := listed_indirect some
  rw [listed, if_neg present] at some ⊢
  rw [listed] at nonzero
  refine (ends_eq (bmap ip bn) s _ _).mp ?_
  unfold bmap
  rw [dif_neg direct, if_pos low]
  refine ((ends_eq _ s _ _).mpr (found 12 nonzero)).bind ?_
  rintro block u ⟨address, same⟩
  subst address same
  rw [if_neg nonzero, ends_get_bind, if_neg some]
  exact ⟨rfl, rfl⟩

def Present (disk : Nat → Data) (n : Dinode) (lo hi : Nat) : Prop :=
  ∀ x, lo ≤ x → x < hi → x / BSIZE < MAXFILE ∧ blockOf disk n (x / BSIZE) ≠ 0

omit sb in
theorem Present.le {disk : Nat → Data} {n : Dinode} {size : Nat} (present : Present disk n 0 size) : size ≤ MAXFILE * BSIZE := by
  by_contra large
  have last := (present (MAXFILE * BSIZE) (Nat.zero_le _) (by omega)).1
  exact absurd last (by decide)

omit sb in
theorem piece_block (off k : Nat) (inside : k < BSIZE - off % BSIZE) :
    (off + k) / BSIZE = off / BSIZE ∧ (off + k) % BSIZE = off % BSIZE + k := by
  simp only [BSIZE] at inside ⊢
  omega

variable {n tot : Nat}

omit sb in
theorem piece_pos (off : Nat) (more : tot < n) :
    0 < min (n - tot) (BSIZE - off % BSIZE) ∧ min (n - tot) (BSIZE - off % BSIZE) ≤ n - tot := by
  have offset : off % BSIZE < BSIZE := Nat.mod_lt off (by decide)
  exact ⟨Nat.lt_min.mpr ⟨by omega, by omega⟩, Nat.min_le_left ..⟩

variable {P : Nat → Prop} {off : Nat}

theorem readFrom_reach {dst : Place} {rounds : Nat}
    (backs : ∀ tot m, Reach (fun i => P (tot + i)) m (dst.reach tot m)) {bytes : Data} (le : tot ≤ n)
    (enough : n - tot ≤ rounds) (present : Present s.disk (copy s ip) off (off + (n - tot))) (passed : ∀ i < tot, P i) :
    Ends (fun _ => False) (readFrom ip dst n rounds tot off bytes) s fun got u => u = s ∧ Reach P n got.len ∧
      got.total = (if got.len = n then some n else none) ∧
      ∀ i < got.len, got.bytes i = if tot ≤ i then byte s.disk (copy s ip) (off + (i - tot)) else bytes i := by
  have finish : ∀ {tot off : Nat} {bytes : Data}, tot = n → (∀ i < tot, P i) → Reach P n tot ∧
      some tot = (if tot = n then some n else none) ∧
      ∀ i < tot, bytes i = if tot ≤ i then byte s.disk (copy s ip) (off + (i - tot)) else bytes i := by
    intro tot off bytes same passed
    refine ⟨⟨Nat.le_of_eq same, passed, by omega⟩, ?_, fun i less => (if_neg (by omega)).symm⟩
    rw [if_pos same, same]
  induction rounds generalizing tot off bytes with
  | zero =>
    have same : tot = n := by omega
    exact ⟨rfl, finish same passed⟩
  | succ rounds ih =>
    unfold readFrom
    by_cases more : tot < n
    · obtain ⟨inside, nonzero⟩ := present off (Nat.le_refl off) (by omega)
      rw [if_pos more]
      refine ((ends_eq _ s _ _).mpr (bmap_found inside nonzero)).bind ?_
      rintro addr u ⟨address, same⟩
      subst address same
      rw [if_neg nonzero, ends_get_bind]
      have piece := piece_pos off more
      have small : min (n - tot) (BSIZE - off % BSIZE) ≤ BSIZE - off % BSIZE := Nat.min_le_right ..
      generalize min (n - tot) (BSIZE - off % BSIZE) = m at piece small ⊢
      -- The bytes of this piece, and those before it.
      have spliced : ∀ i < tot + m, splice bytes tot m (fun i => u.disk (blockOf u.disk (copy u ip) (off / BSIZE)) (off % BSIZE + i)) i =
          if tot ≤ i then byte u.disk (copy u ip) (off + (i - tot)) else bytes i := by
        intro i less
        rw [splice]
        by_cases old : tot ≤ i
        · obtain ⟨block, offset⟩ := piece_block off (i - tot) (by omega)
          rw [if_pos ⟨old, less⟩, if_pos old, byte, block, offset]
        · rw [if_neg (by omega), if_neg old]
      have reach := backs tot m
      by_cases short : dst.reach tot m < m
      · rw [if_pos short]
        have reached : Reach P n (tot + dst.reach tot m) := Reach.after le passed (reach.widen short (by omega))
        refine ⟨rfl, reached, (if_neg ?_).symm, fun i less => spliced i (Nat.lt_trans less ?_)⟩
        · show tot + dst.reach tot m ≠ n
          omega
        · show tot + dst.reach tot m < tot + m
          omega
      · have all : dst.reach tot m = m := Nat.le_antisymm reach.le (Nat.le_of_not_lt short)
        rw [all] at reach
        rw [if_neg short]
        have passed' : ∀ i < tot + m, P i := passes_after passed reach.passes
        refine (ih (by omega) (by omega) (fun x low high => present x (by omega) (by omega)) passed').imp ?_
        rintro got v ⟨same, reached, total, each⟩
        refine ⟨same, reached, total, fun i less => ?_⟩
        rw [each i less]
        by_cases late : tot + m ≤ i
        · rw [if_pos late, if_pos (by omega), show off + m + (i - (tot + m)) = off + (i - tot) by omega]
        · rw [if_neg late, spliced i (by omega)]
    · have same : tot = n := by omega
      rw [if_neg more]
      exact ⟨rfl, finish same passed⟩

/-! ### Writing -/

section Put
variable {bn addr : Nat} {data : Data} (tidy : Tidy u.disk (copy u ip)) (address : blockOf u.disk (copy u ip) bn = addr)
  (some : addr ≠ 0) (inode : t.inode = u.inode) (disk : t.disk = update u.disk addr data)

include tidy address disk

include inode in
theorem listed_put (p : Spot) : listed t.disk (copy t ip) p = listed u.disk (copy u ip) p := by
  have same : copy t ip = copy u ip := by rw [copy, inode]
  rw [same]
  refine listed_congr p fun present => ?_
  rw [disk, update_of_ne]
  intro equal
  have apart := tidy.apart (.addr 12) (spot bn) (fun zero => present (listed_addr_zero.mp zero)) (equal.trans address.symm)
  exact spot_ne_indirect bn apart.symm

include some in
theorem used_put {x : Nat} (below : x < sb.size) : used t.disk x = used u.disk x := by
  have area := bblock_area below
  have above : datastart ≤ addr := address ▸ tidy.above (spot bn) (by rwa [← blockOf, address])
  rw [used, used, disk, update_of_ne (by omega)]

include some inode

theorem put_alters : Alters ip u t := by
  have same : copy t ip = copy u ip := by rw [copy, inode]
  have above : datastart ≤ addr := address ▸ tidy.above (spot bn) (by rwa [← blockOf, address])
  have order := bmap_before_data
  have listed := listed_put tidy address inode disk
  refine ⟨fun b low => ?_, fun b below marked => ?_, fun b _ _ _ unlisted => ?_, fun j _ => by rw [inode], by rw [inode],
    by rw [same], fun p _ => listed p, fun p zero nonzero => absurd ((listed p).trans zero) nonzero⟩
  · rw [disk, update_of_ne (by omega)]
  · rw [used_put tidy address some disk below, marked]
  · rw [disk, update_of_ne]
    exact fun equal => unlisted (spot bn) (address.trans equal.symm)

theorem put_tidy : Tidy t.disk (copy t ip) := by
  have listed := listed_put tidy address inode disk
  refine ⟨fun p => ?_, fun p => ?_, fun p => ?_, fun p q => ?_⟩
  · rw [listed p]
    exact tidy.above p
  · rw [listed p]
    exact tidy.below p
  · rw [listed p, used_put tidy address some disk (tidy.below p)]
    exact tidy.marked p
  · rw [listed p, listed q]
    exact tidy.apart p q

end Put

variable {src : Data}

theorem byte_put {m x : Nat} (tidy : Tidy u.disk (copy u ip)) (inside : off / BSIZE < MAXFILE)
    (address : blockOf u.disk (copy u ip) (off / BSIZE) = addr) (some : addr ≠ 0) (inode : t.inode = u.inode)
    (disk : t.disk = update u.disk addr (splice (u.disk addr) (off % BSIZE) m src)) (piece : m ≤ BSIZE - off % BSIZE)
    (within : x / BSIZE < MAXFILE) :
    byte t.disk (copy t ip) x = splice (byte u.disk (copy u ip)) off m src x := by
  have offset : off % BSIZE < BSIZE := Nat.mod_lt off (by decide)
  rw [byte, blockOf, listed_put tidy address inode disk, ← blockOf, disk]
  by_cases same : x / BSIZE = off / BSIZE
  · have place : off % BSIZE ≤ x % BSIZE ∧ x % BSIZE < off % BSIZE + m ↔ off ≤ x ∧ x < off + m := by
      simp only [BSIZE] at same piece offset ⊢
      omega
    rw [same, address, update_self, splice, splice]
    by_cases written : off ≤ x ∧ x < off + m
    · have distance : x % BSIZE - off % BSIZE = x - off := by
        simp only [BSIZE] at same ⊢
        omega
      rw [if_pos (place.mpr written), if_pos written, distance]
    · rw [if_neg (fun here => written (place.mp here)), if_neg written, byte, same, address]
  · have apart : blockOf u.disk (copy u ip) (x / BSIZE) ≠ addr := by
      intro equal
      refine same (spot_injective within inside ?_)
      refine tidy.apart _ _ ?_ (equal.trans address.symm)
      rwa [← blockOf, equal]
    have outside : ¬(off ≤ x ∧ x < off + m) := by
      simp only [BSIZE] at same piece offset
      omega
    rw [update_of_ne apart, splice, if_neg outside, byte]

variable (tidy : Tidy s.disk (copy s ip))
include tidy

theorem byte_allocates {x : Nat} (allocates : Allocates ip s t)
    (some : blockOf s.disk (copy s ip) (x / BSIZE) ≠ 0) :
    blockOf t.disk (copy t ip) (x / BSIZE) ≠ 0 ∧ byte t.disk (copy t ip) x = byte s.disk (copy s ip) x := by
  have stays : blockOf t.disk (copy t ip) (x / BSIZE) = blockOf s.disk (copy s ip) (x / BSIZE) := allocates.alters.stays _ some
  refine ⟨by rwa [stays], ?_⟩
  have data : t.disk (blockOf s.disk (copy s ip) (x / BSIZE)) = s.disk (blockOf s.disk (copy s ip) (x / BSIZE)) := by
    refine allocates.data _ (tidy.above _ some) (tidy.below _) (tidy.marked _ some) fun same => ?_
    exact spot_ne_indirect _ (tidy.apart _ _ some same)
  rw [byte, byte, stays, data]

omit tidy

/-- How the loop of `writei` ended at offset `off`, having begun with byte `start`; `extra` bytes having been put in the buffer of a block for nothing. -/
inductive Ended (ip : Ip) (P : Nat → Prop) (n start : Nat) (s : Fs) (tot off extra : Nat) (t : Fs) : Prop where
  | all (same : tot = n) (none : extra = 0)
  | full (short : tot < n) (vacant : blockOf s.disk (copy s ip) (off / BSIZE) = 0) (full : Full t.disk) (none : extra = 0)
    (scarce : tot = start → Scarce ip s (spot (off / BSIZE)))
  | fault (inside : off % BSIZE + extra < BSIZE) (short : tot + extra < n) (passes : ∀ i < extra, P (tot + i))
    (fails : ¬P (tot + extra))

/-- The log has every block that was modified, but for blocks of the file. -/
structure Spares (ip : Ip) (s t : Fs) : Prop where
  grows : ∀ b ∈ s.log.lh, b ∈ t.log.lh
  durable : t.durable = s.durable
  logged : ∀ b, b ∉ t.log.lh → (∀ bn, blockOf t.disk (copy t ip) bn ≠ b) → t.disk b = s.disk b

omit sb in
theorem Spares.of_logged (logged : Logged s t) : Spares ip s t :=
  ⟨logged.grows, logged.durable, fun b none _ => logged.logged b none⟩

omit sb in
theorem Spares.after (logged : Logged s u) (spares : Spares ip u t) : Spares ip s t := by
  refine ⟨fun b mem => spares.grows b (logged.grows b mem), spares.durable.trans logged.durable, fun b none other => ?_⟩
  exact (spares.logged b none other).trans (logged.logged b fun mem => none (spares.grows b mem))

/-- The loop of `writei` went from `s` to `t`, from byte `tot` of the source to byte `tot'`. -/
structure Wrote (ip : Ip) (P : Nat → Prop) (data : Data) (n tot off : Nat) (s : Fs) (tot' off' extra : Nat) (t : Fs) : Prop where
  alters : Alters ip s t
  tidy : Tidy t.disk (copy t ip)
  more : tot ≤ tot'
  most : tot' ≤ n
  place : off' = off + (tot' - tot)
  there : ∀ x, off ≤ x → x < off' → blockOf t.disk (copy t ip) (x / BSIZE) ≠ 0
  bytes : ∀ x, x / BSIZE < MAXFILE → blockOf s.disk (copy s ip) (x / BSIZE) ≠ 0 ∨ off ≤ x ∧ x < off' →
    byte t.disk (copy t ip) x = splice (byte s.disk (copy s ip)) off (tot' - tot + extra) (fun i => data (tot + i)) x
  passed : ∀ i, tot ≤ i → i < tot' → P i
  aligned : tot' < n → off' = off ∨ off' % BSIZE = 0
  ended : Ended ip P n tot s tot' off' extra t
  spares : Spares ip s t

omit sb in
theorem splice_none (b : Data) (o : Nat) (src : Data) : splice b o 0 src = b := by
  funext i
  exact if_neg (by omega)

include tidy

theorem Wrote.none (same : tot = n) : Wrote ip P data n tot off s tot off 0 s := by
  refine ⟨Alters.refl ip s, tidy, Nat.le_refl tot, Nat.le_of_eq same, by omega, fun x low high => by omega, fun x _ _ => ?_,
    fun i low high => by omega, fun _ => .inl rfl, .all same rfl, .of_logged (Logged.refl s)⟩
  rw [Nat.sub_self, splice_none]

theorem Wrote.exhausted
    (allocates : Allocates ip s t) (short : tot < n) (vacant : blockOf s.disk (copy s ip) (off / BSIZE) = 0)
    (full : Full t.disk) (scarce : Scarce ip s (spot (off / BSIZE))) : Wrote ip P data n tot off s tot off 0 t := by
  refine ⟨allocates.alters, allocates.tidy, Nat.le_refl tot, Nat.le_of_lt short, by omega, fun x low high => by omega,
    fun x _ old => ?_, fun i low high => by omega, fun _ => .inl rfl, .full short vacant full rfl fun _ => scarce,
    .of_logged allocates.logged⟩
  rw [Nat.sub_self, splice_none]
  rcases old with some | ⟨low, high⟩
  · exact (byte_allocates tidy allocates some).2
  · omega

theorem piece_bytes {m x : Nat} (allocates : Allocates ip s u) (inside : off / BSIZE < MAXFILE)
    (address : blockOf u.disk (copy u ip) (off / BSIZE) = addr) (some : addr ≠ 0) (inode : t.inode = u.inode)
    (disk : t.disk = update u.disk addr (splice (u.disk addr) (off % BSIZE) m src)) (piece : m ≤ BSIZE - off % BSIZE)
    (passes : ∀ i < m, P (tot + i)) (bytes : ∀ i, P (tot + i) → src i = data (tot + i)) (within : x / BSIZE < MAXFILE)
    (old : blockOf s.disk (copy s ip) (x / BSIZE) ≠ 0 ∨ off ≤ x ∧ x < off + m) :
    byte t.disk (copy t ip) x = splice (byte s.disk (copy s ip)) off m (fun i => data (tot + i)) x := by
  rw [byte_put allocates.tidy inside address some inode disk piece within, splice, splice]
  by_cases written : off ≤ x ∧ x < off + m
  · rw [if_pos written, if_pos written, bytes _ (passes (x - off) (by omega))]
  · rw [if_neg written, if_neg written]
    exact (byte_allocates tidy allocates (old.resolve_right written)).2

theorem Wrote.piece {m tot' off' extra : Nat} {v : Fs} (allocates : Allocates ip s u) (inside : off / BSIZE < MAXFILE)
    (address : blockOf u.disk (copy u ip) (off / BSIZE) = addr) (some : addr ≠ 0) (inode : v.inode = u.inode)
    (disk : v.disk = update u.disk addr (splice (u.disk addr) (off % BSIZE) m src))
    (chunk : m = min (n - tot) (BSIZE - off % BSIZE)) (positive : 0 < m)
    (passes : ∀ i < m, P (tot + i)) (bytes : ∀ i, P (tot + i) → src i = data (tot + i)) (logged : Logged u v)
    (rest : Wrote ip P data n (tot + m) (off + m) v tot' off' extra t) :
    Wrote ip P data n tot off s tot' off' extra t := by
  have small : m ≤ BSIZE - off % BSIZE := chunk ▸ Nat.min_le_right ..
  have more := rest.more
  have alters := put_alters allocates.tidy address some inode disk
  have listed := listed_put allocates.tidy address inode disk
  have written : ∀ x, off ≤ x → x < off + m → blockOf v.disk (copy v ip) (x / BSIZE) ≠ 0 := by
    intro x low high
    obtain ⟨block, -⟩ := piece_block off (x - off) (by omega)
    rw [Nat.add_sub_cancel' low] at block
    rwa [block, blockOf, listed, ← blockOf, address]
  refine ⟨(allocates.alters.trans alters).trans rest.alters, rest.tidy, by omega, rest.most, by have := rest.place; omega,
    fun x low high => ?_, fun x within old => ?_, fun i low high => ?_, fun short => ?_, ?_,
    .after (allocates.logged.trans logged) rest.spares⟩
  · by_cases early : x < off + m
    · have some := written x low early
      exact fun zero => some ((rest.alters.stays _ some).symm.trans zero)
    · exact rest.there x (by omega) high
  · have first := piece_bytes (x := x) tidy allocates inside address some inode disk small passes bytes within
    by_cases early : off ≤ x ∧ x < off + m
    · rw [rest.bytes x within (.inl (written x early.1 early.2)), splice, if_neg (by omega), first (.inr early), splice, splice,
        if_pos early, if_pos (by omega)]
    rcases old with old | late
    · have kept := (byte_allocates tidy allocates old).1
      have kept : blockOf v.disk (copy v ip) (x / BSIZE) ≠ 0 := by rwa [blockOf, listed]
      rw [rest.bytes x within (.inl kept), splice, splice]
      by_cases later : off + m ≤ x ∧ x < off + m + (tot' - (tot + m) + extra)
      · rw [if_pos later, if_pos (by omega), show tot + m + (x - (off + m)) = tot + (x - off) by omega]
      · rw [if_neg later, first (.inl old), splice, if_neg early, if_neg (by omega)]
    · have place := rest.place
      rw [rest.bytes x within (.inr (by omega)), splice, splice, if_pos (by omega), if_pos (by omega),
        show tot + m + (x - (off + m)) = tot + (x - off) by omega]
  · by_cases early : i < tot + m
    · have pass := passes (i - tot) (by omega)
      rwa [Nat.add_sub_cancel' low] at pass
    · exact rest.passed i (by omega) high
  · right
    rcases rest.aligned short with same | aligned
    · -- The piece came to the end of its block, as there is more to write.
      have block : m = BSIZE - off % BSIZE := by
        omega
      simp only [BSIZE] at block ⊢
      omega
    · exact aligned
  · cases rest.ended with
    | all same none => exact .all same none
    | full short vacant full none =>
      refine .full short (by_contra fun some => ?_) full none fun same => by omega
      have stays := (allocates.alters.trans alters).stays _ some
      exact some (stays.symm.trans vacant)
    | fault inside short passes fails => exact .fault inside short passes fails

omit tidy

theorem writeFrom_spec {src : Place} (backs : Backs src P data) {rounds : Nat}
    (le : tot ≤ n) (enough : n - tot ≤ rounds) (fits : off + (n - tot) ≤ MAXFILE * BSIZE) (reserved : Reserved s.disk)
    (tidy : Tidy s.disk (copy s ip)) :
    Ends LogStop (writeFrom ip src n rounds tot off) s fun r t => ∃ extra, Wrote ip P data n tot off s r.1 r.2 extra t := by
  induction rounds generalizing s tot off with
  | zero => exact ⟨0, Wrote.none tidy (by omega)⟩
  | succ rounds ih =>
    unfold writeFrom
    by_cases more : tot < n
    · have inside : off / BSIZE < MAXFILE := by
        rw [Nat.div_lt_iff_lt_mul (by decide)]
        omega
      rw [if_pos more]
      refine (bmap_spec reserved tidy inside).bind fun addr u ⟨allocates, maps⟩ => ?_
      by_cases none : addr = 0
      · rw [if_pos none]
        cases maps with
        | found _ some => exact absurd none some
        | added _ _ some => exact absurd none some
        | full _ vacant full scarce => exact ⟨0, Wrote.exhausted tidy allocates more vacant full scarce⟩
      have address : blockOf u.disk (copy u ip) (off / BSIZE) = addr := by
        cases maps with
        | found listed _ same => exact same ▸ listed
        | added _ listed => exact listed
        | full zero => exact absurd zero none
      rw [if_neg none]
      have piece := piece_pos off more
      generalize chunk : min (n - tot) (BSIZE - off % BSIZE) = m at piece ⊢
      have reach := backs.reach tot m
      by_cases fails : src.reach tot m < m
      · rw [if_pos fails, ends_modify_bind, ends_pure]
        have before : off % BSIZE + src.reach tot m < BSIZE := by omega
        refine ⟨src.reach tot m, ?_⟩
        set t : Fs := { u with
          disk := update u.disk addr (splice (u.disk addr) (off % BSIZE) (src.reach tot m) (src.bytes tot)) }
        have alters := put_alters (t := t) allocates.tidy address none rfl rfl
        refine ⟨allocates.alters.trans alters, put_tidy allocates.tidy address none rfl rfl, Nat.le_refl tot, le, by omega,
          fun x low high => by omega, fun x within old => ?_, fun i low high => by omega, fun _ => .inl rfl,
          .fault before (by omega) reach.passes (reach.fails fails),
          .after allocates.logged ⟨fun _ => id, rfl, fun b _ other => update_of_ne (fun same => ?_) ..⟩⟩
        · rw [Nat.sub_self, Nat.zero_add]
          exact piece_bytes tidy allocates inside address none rfl rfl (by omega) reach.passes (backs.bytes tot) within
            (old.imp_right fun here => by omega)
        · exact other (off / BSIZE) ((listed_put (t := t) allocates.tidy address rfl rfl _).trans (address.trans same.symm))
      · have whole : src.reach tot m = m := Nat.le_antisymm reach.le (by omega)
        rw [whole] at reach
        rw [if_neg fails, ends_get_bind]
        refine (logWrite_spec _ _).bind fun _ v ⟨⟨disk, inode⟩, logged⟩ => ?_
        have alters := put_alters allocates.tidy address none inode disk
        refine (ih (by omega) (by omega) (by omega) ((allocates.alters.trans alters).reserved reserved)
          (put_tidy allocates.tidy address none inode disk)).imp fun r t ⟨extra, rest⟩ => ⟨extra, ?_⟩
        exact Wrote.piece tidy allocates inside address none inode disk chunk.symm piece.1 reach.passes (backs.bytes tot) logged rest
    · rw [if_neg more]
      exact ⟨0, Wrote.none tidy (by omega)⟩

end Xv6Monitor.FileSystem.Contents
