import Xv6Monitor.FileSystem.Faults
import Xv6Monitor.Calls.Files

/-! The blocks that one piece of a write records in the log. Counted are the blocks outside a list `free` of blocks that
may be recorded at no charge: the indirect block of the file, which is recorded again and again. -/

namespace Xv6Monitor.Calls.Chunks
open Function Lib.Bytes Lib.Program FileSystem.Format FileSystem.Blocks FileSystem.Extents FileSystem.Mapping
  FileSystem.Contents
open Disk.Journal (Log LOGSIZE)
open Disk.Buffers (MAXOPBLOCKS)
open Files (maxWrite)

variable {α β : Type} {free : List Nat} {j k l b : Nat} {log log' log'' : Log} {s t u : Fs} {ip : Ip}

/-! ### Charges -/

def charged (free lh : List Nat) : Nat := (lh.filter fun b => b ∉ free).length

theorem charged_le (free lh : List Nat) : charged free lh ≤ lh.length := List.length_filter_le ..

@[simp] theorem charged_nil (lh : List Nat) : charged [] lh = lh.length := by simp [charged]

theorem charged_append (lh : List Nat) (free : List Nat) (b : Nat) :
    charged free (lh ++ [b]) = charged free lh + if b ∈ free then 0 else 1 := by
  rw [charged, charged]
  split
  next mem => simp [mem]
  next new => simp [new]

theorem length_le_charged {lh : List Nat} (distinct : lh.Nodup) (free : List Nat) : lh.length ≤ charged free lh + free.length := by
  have split := List.length_eq_length_filter_add (l := lh) fun b => decide (b ∉ free)
  have few : (lh.filter fun b => !decide (b ∉ free)).length ≤ free.length := by
    refine (List.Nodup.subperm (distinct.filter _) fun b mem => ?_).length_le
    simpa using (List.mem_filter.mp mem).2
  rw [charged]
  omega

theorem charged_lt {lh : List Nat} (mem : b ∈ lh) : charged [b] lh + 1 ≤ lh.length := by
  have split := List.length_eq_length_filter_add (l := lh) fun c => decide (c ∉ [b])
  have some : 0 < (lh.filter fun c => !decide (c ∉ [b])).length :=
    List.length_pos_of_mem (List.mem_filter.mpr ⟨mem, by simp⟩)
  rw [charged]
  omega

structure Spends (free : List Nat) (k : Nat) (log log' : Log) : Prop where
  outstanding : log'.outstanding = log.outstanding
  size : log'.size = log.size
  initial : log.lh <+: log'.lh
  distinct : log.lh.Nodup → log'.lh.Nodup
  bound : charged free log'.lh ≤ charged free log.lh + k

theorem Spends.refl (free : List Nat) (log : Log) : Spends free 0 log log :=
  ⟨rfl, rfl, List.prefix_refl _, id, Nat.le_refl _⟩

theorem Spends.trans (first : Spends free j log log') (second : Spends free k log' log'') : Spends free (j + k) log log'' := by
  refine ⟨second.outstanding.trans first.outstanding, second.size.trans first.size, first.initial.trans second.initial,
    fun distinct => second.distinct (first.distinct distinct), ?_⟩
  have left := first.bound
  have right := second.bound
  omega

theorem Spends.mono (spends : Spends free j log log') (le : j ≤ k) : Spends free k log log' :=
  ⟨spends.outstanding, spends.size, spends.initial, spends.distinct, Nat.le_trans spends.bound (Nat.add_le_add_left le _)⟩

/-- There is no transaction, or no room in the log for `k` more blocks. -/
def Crowded (free : List Nat) (k : Nat) (log : Log) : Prop :=
  log.outstanding < 1 ∨ LOGSIZE ≤ charged free log.lh + free.length + k ∨ log.size - 1 ≤ charged free log.lh + free.length + k

theorem Crowded.mono (crowded : Crowded free j log) (le : j ≤ k) : Crowded free k log := by
  unfold Crowded at crowded ⊢
  omega

theorem Crowded.before (crowded : Crowded free k log') (spends : Spends free j log log') : Crowded free (j + k) log := by
  have outstanding := spends.outstanding
  have size := spends.size
  have bound := spends.bound
  unfold Crowded at crowded ⊢
  omega

/-- The program stops in the log only if that has no room for `k` more blocks, and where it returns `k` more blocks at most
have been charged. -/
def Costs (free : List Nat) (k : Nat) (x : FsProg α) (s : Fs) (Q : α → Fs → Prop) : Prop :=
  Ends (fun e => LogStop e ∧ Crowded free k s.log) x s fun a t => Spends free k s.log t.log ∧ Q a t

variable {x : FsProg α} {f : α → FsProg β} {Q : α → Fs → Prop} {R : β → Fs → Prop}

theorem costs_pure (a : α) (holds : Q a s) : Costs free k (pure a) s Q := ⟨(Spends.refl free s.log).mono (Nat.zero_le k), holds⟩

theorem costs_get_bind {f : Fs → FsProg α} (rest : Costs free k (f s) s Q) : Costs free k (get >>= f) s Q := rest

theorem Costs.mono (costs : Costs free j x s Q) (le : j ≤ k) : Costs free k x s Q :=
  (Ends.stops costs fun _ ⟨stop, crowded⟩ => ⟨stop, crowded.mono le⟩).imp fun _ _ ⟨spends, holds⟩ => ⟨spends.mono le, holds⟩

theorem Costs.imp {Q' : α → Fs → Prop} (costs : Costs free k x s Q) (weaker : ∀ a t, Q a t → Q' a t) : Costs free k x s Q' :=
  Ends.imp costs fun a t ⟨spends, holds⟩ => ⟨spends, weaker a t holds⟩

theorem Costs.bind_with (first : Costs free k x s Q)
    (rest : ∀ a u, Spends free k s.log u.log → Q a u → ∃ i l, i + l ≤ k + j ∧ Spends free i s.log u.log ∧ Costs free l (f a) u R) :
    Costs free (k + j) (x >>= f) s R := by
  refine (Ends.stops first fun e ⟨stop, crowded⟩ => ⟨stop, crowded.mono (Nat.le_add_right k j)⟩).bind fun a u ⟨spent, holds⟩ => ?_
  obtain ⟨i, l, le, spends, costs⟩ := rest a u spent holds
  refine (Ends.stops costs fun e ⟨stop, crowded⟩ => ⟨stop, (crowded.before spends).mono le⟩).imp fun b t ⟨more, holds⟩ => ?_
  exact ⟨(spends.trans more).mono le, holds⟩

theorem Costs.bind (first : Costs free k x s Q) (rest : ∀ a u, Spends free k s.log u.log → Q a u → Costs free j (f a) u R) :
    Costs free (k + j) (x >>= f) s R :=
  first.bind_with fun a u spends holds => ⟨k, j, Nat.le_refl _, spends, rest a u spends holds⟩

theorem Spends.charge (spends : Spends [b] k log log') (distinct : log.lh.Nodup) : Spends [] (k + 1) log log' := by
  have before := charged_le [b] log.lh
  have after := length_le_charged (spends.distinct distinct) [b]
  have bound := spends.bound
  refine ⟨spends.outstanding, spends.size, spends.initial, spends.distinct, ?_⟩
  simp only [charged_nil, List.length_singleton] at after ⊢
  omega

theorem Crowded.charge (crowded : Crowded [b] k log) : Crowded [] (k + 1) log := by
  have before := charged_le [b] log.lh
  unfold Crowded at crowded ⊢
  simp only [charged_nil, List.length_singleton] at crowded ⊢
  omega

theorem Costs.charge (costs : Costs [b] k x s Q) (distinct : s.log.lh.Nodup) : Costs [] (k + 1) x s Q :=
  (Ends.stops costs fun _ ⟨stop, crowded⟩ => ⟨stop, crowded.charge⟩).imp
    fun _ _ ⟨spends, holds⟩ => ⟨spends.charge distinct, holds⟩

theorem Costs.charged (costs : Costs [b] k x s Q) (mem : b ∈ s.log.lh) (distinct : s.log.lh.Nodup) : Costs [] k x s Q := by
  have before := charged_lt mem
  have room : Crowded [b] k s.log → Crowded [] k s.log := by
    intro crowded
    unfold Crowded at crowded ⊢
    simp only [charged_nil, List.length_singleton] at crowded ⊢
    omega
  refine (Ends.stops costs fun e ⟨stop, crowded⟩ => ⟨stop, room crowded⟩).imp fun a t ⟨spends, holds⟩ => ⟨?_, holds⟩
  have after := length_le_charged (spends.distinct distinct) [b]
  have bound := spends.bound
  refine ⟨spends.outstanding, spends.size, spends.initial, spends.distinct, ?_⟩
  simp only [charged_nil, List.length_singleton] at after ⊢
  omega

/-! ### Blocks -/

theorem logWrite_costs (data : Data) (distinct : s.log.lh.Nodup) (price : b ∈ free ∨ b ∈ s.log.lh ∨ 1 ≤ k) :
    Costs free k (logWrite b data) s fun _ t => b ∈ t.log.lh ∧ t.inode = s.inode := by
  unfold logWrite
  refine costs_get_bind ?_
  have room := length_le_charged distinct free
  unfold Log.logWrite
  by_cases full : LOGSIZE ≤ s.log.lh.length ∨ s.log.size - 1 ≤ s.log.lh.length
  · rw [if_pos full]
    refine ⟨⟨_, rfl⟩, .inr ?_⟩
    omega
  rw [if_neg full]
  by_cases outside : s.log.outstanding < 1
  · rw [if_pos outside]
    exact ⟨⟨_, rfl⟩, .inl outside⟩
  rw [if_neg outside]
  by_cases absorbed : b ∈ s.log.lh
  · rw [if_pos absorbed]
    exact ⟨(Spends.refl free s.log).mono (Nat.zero_le k), absorbed, rfl⟩
  rw [if_neg absorbed]
  refine ⟨⟨rfl, rfl, List.prefix_append .., fun _ => ?_, ?_⟩, List.mem_append_right _ (List.mem_singleton_self b), rfl⟩
  · exact List.nodup_append.mpr ⟨distinct, List.nodup_singleton b, fun c mem d single => by
      rw [List.mem_singleton.mp single]
      exact fun same => absorbed (same ▸ mem)⟩
  show charged free (s.log.lh ++ [b]) ≤ _
  rw [charged_append]
  split
  · omega
  next new => have := price.resolve_left new; have := this.resolve_left absorbed; omega

theorem setCopy_costs (f : Dinode → Dinode) :
    Costs free 0 (setCopy ip f) s fun _ t => t.log = s.log ∧ copy t ip = f (copy s ip) := by
  refine ⟨Spends.refl free s.log, rfl, ?_⟩
  have itself := update_self ip { s.inode ip with copy := f (copy s ip) } s.inode
  exact congrArg Inode.copy itself

variable [sb : Superblock]

theorem balloc_costs (distinct : s.log.lh.Nodup) :
    Costs free 2 balloc s fun b t => t.inode = s.inode ∧ b < sb.size ∧ (b ≠ 0 → b ∈ t.log.lh) := by
  unfold balloc
  refine costs_get_bind ?_
  have positive : 0 < sb.size := Nat.lt_of_lt_of_le (Nat.succ_pos _) sb.data_after
  split
  next => exact costs_pure 0 ⟨rfl, positive, fun some => absurd rfl some⟩
  next b found =>
    have below : b < sb.size := List.mem_range.mp (List.mem_of_find?_eq_some found)
    refine Costs.bind (j := 1) (logWrite_costs _ distinct (.inr (.inr (Nat.le_refl 1)))) fun _ u spends ⟨_, inode⟩ => ?_
    refine Costs.bind (j := 0) (logWrite_costs _ (spends.distinct distinct) (.inr (.inr (Nat.le_refl 1))))
      fun _ t _ ⟨mem, inode'⟩ => ?_
    exact costs_pure b ⟨inode'.trans inode, below, fun _ => mem⟩

theorem bmapDirect_costs (a : Fin 13) (distinct : s.log.lh.Nodup) :
    Costs free 2 (bmapDirect ip a) s fun addr t =>
      (t = s ∧ listed s.disk (copy s ip) (.addr a) = addr ∧ addr ≠ 0) ∨
        (∀ c ≠ a, (copy t ip).addrs c = (copy s ip).addrs c) ∧
          (addr ≠ 0 → addr ∈ t.log.lh ∧ listed t.disk (copy t ip) (.addr a) = addr) := by
  unfold bmapDirect
  refine costs_get_bind ?_
  dsimp only
  split
  next =>
    refine Costs.bind (j := 0) (balloc_costs distinct) ?_
    rintro addr u _ ⟨inode, below, recorded⟩
    split
    next => exact costs_pure 0 (.inr ⟨fun c _ => by rw [copy, inode], fun some => absurd rfl some⟩)
    next some =>
      refine Costs.bind (j := 0) (k := 0) (setCopy_costs _) ?_
      rintro _ t _ ⟨log, itself⟩
      have addrs : (copy t ip).addrs = update (copy u ip).addrs a (UInt32.ofNat addr) := congrArg Dinode.addrs itself
      refine costs_pure addr (.inr ⟨fun c other => ?_, fun _ => ⟨log ▸ recorded some, ?_⟩⟩)
      · rw [addrs, update_of_ne other, copy, inode]
      · rw [listed, addrs, update_self, ofNat_block below]
  next some => exact costs_pure _ (.inl ⟨rfl, rfl, some⟩)

theorem bmap_costs {i bn : Nat} (indirect : listed s.disk (copy s ip) (.addr 12) = i) (present : i ≠ 0) (inside : bn < MAXFILE)
    (distinct : s.log.lh.Nodup) :
    Costs [i] 2 (bmap ip bn) s fun addr t =>
      listed t.disk (copy t ip) (.addr 12) = i ∧ (t = s ∨ addr = 0 ∨ addr ∈ t.log.lh) := by
  unfold bmap
  by_cases direct : bn < NDIRECT
  · rw [dif_pos direct]
    refine (bmapDirect_costs _ distinct).imp fun addr t outcome => ?_
    rcases outcome with ⟨same, -, -⟩ | ⟨others, recorded⟩
    · exact ⟨same ▸ indirect, .inl same⟩
    have apart : (12 : Fin 13) ≠ ⟨bn, Nat.lt_succ_of_lt direct⟩ := fun same => absurd (congrArg Fin.val same) (Nat.ne_of_gt direct)
    refine ⟨?_, .inr ?_⟩
    · rw [listed, others 12 apart]
      exact indirect
    · by_cases none : addr = 0
      · exact .inl none
      · exact .inr (recorded none).1
  · have low : bn - NDIRECT < NINDIRECT := by
      simp only [MAXFILE] at inside
      omega
    rw [dif_neg direct, if_pos low]
    have found : bmapDirect ip 12 s = .ok (i, s) := by
      have nonzero : ¬((s.inode ip).copy.addrs 12).toNat = 0 := fun zero => present (indirect.symm.trans zero)
      refine (ends_eq (bmapDirect ip 12) s _ _).mp ?_
      unfold bmapDirect
      rw [ends_get_bind, if_neg nonzero]
      exact ⟨indirect, rfl⟩
    have free : Costs [i] 0 (bmapDirect ip 12) s fun block t => block = i ∧ t = s :=
      (ends_ran found).mpr ⟨Spends.refl [i] s.log, rfl, rfl⟩
    refine (free.bind (j := 2) fun block u _ both => ?_).mono (by omega)
    obtain ⟨rfl, rfl⟩ := both
    rw [if_neg present]
    refine costs_get_bind ?_
    dsimp only
    split
    next zero =>
      refine Costs.bind (j := 0) (balloc_costs distinct) ?_
      rintro addr v spends ⟨inode, below, recorded⟩
      split
      next none =>
        refine costs_pure 0 ⟨?_, .inr (.inl rfl)⟩
        rw [copy, inode]
        exact indirect
      next some =>
        refine costs_get_bind ?_
        refine Costs.bind (k := 0) (j := 0) (logWrite_costs _ (spends.distinct distinct) (.inl (List.mem_singleton_self _))) ?_
        rintro _ t spends' ⟨_, inode'⟩
        refine costs_pure addr ⟨?_, .inr (.inr (spends'.initial.subset (recorded some)))⟩
        rw [copy, inode', inode]
        exact indirect
    next => exact costs_pure _ ⟨indirect, .inl rfl⟩

theorem bmap_costs_both {bn : Nat} (indirect : ¬bn < NDIRECT) (inside : bn < MAXFILE)
    (vacant : listed s.disk (copy s ip) (.addr 12) = 0) (distinct : s.log.lh.Nodup) :
    Costs [] 4 (bmap ip bn) s fun addr t => addr = 0 ∨
      ((Spends [] 2 s.log t.log ∨ addr ∈ t.log.lh) ∧ listed t.disk (copy t ip) (.addr 12) ≠ 0 ∧
        listed t.disk (copy t ip) (.addr 12) ∈ t.log.lh) := by
  have low : bn - NDIRECT < NINDIRECT := by
    simp only [MAXFILE] at inside
    omega
  unfold bmap
  rw [dif_neg indirect, if_pos low]
  refine Costs.bind (j := 2) (bmapDirect_costs 12 distinct) fun block u spends outcome => ?_
  by_cases none : block = 0
  · rw [if_pos none]
    exact costs_pure 0 (.inl rfl)
  rw [if_neg none]
  obtain ⟨mem, address⟩ : block ∈ u.log.lh ∧ listed u.disk (copy u ip) (.addr 12) = block := by
    rcases outcome with ⟨-, found, some⟩ | ⟨-, new⟩
    · exact absurd (found.symm.trans vacant) some
    · exact new none
  refine costs_get_bind ?_
  dsimp only
  split
  next =>
    refine Costs.bind (j := 0) (balloc_costs (spends.distinct distinct)) ?_
    rintro addr v spends' ⟨inode, below, recorded⟩
    split
    next => exact costs_pure 0 (.inl rfl)
    next some =>
      refine costs_get_bind ?_
      have kept := spends'.initial.subset mem
      refine Costs.bind (k := 0) (j := 0) (logWrite_costs _ (spends'.distinct (spends.distinct distinct)) (.inr (.inl kept))) ?_
      rintro _ t spends'' ⟨_, inode'⟩
      have same : listed t.disk (copy t ip) (.addr 12) = block := by
        rw [← address, listed, listed, copy, inode', inode]
      refine costs_pure addr (.inr ⟨.inr (spends''.initial.subset (recorded some)), ?_, ?_⟩)
      · rwa [same]
      · rw [same]
        exact spends''.initial.subset kept
  next => exact costs_pure _ (.inr ⟨.inl spends, by rwa [address], by rwa [address]⟩)

/-! ### The loop -/

section Loop

variable {src : Place} {n rounds tot off : Nat}

theorem writeFrom_costs_round {total : Nat} {Q : Nat → Fs → Prop} (more : tot < n) (le : k ≤ total) (distinct : s.log.lh.Nodup)
    (first : Costs free k (bmap ip (off / BSIZE)) s Q)
    (rest : ∀ addr u, Spends free k s.log u.log → Q addr u → addr ≠ 0 → ∃ i c l, i + c + l ≤ total ∧
      Spends free i s.log u.log ∧ (addr ∈ free ∨ addr ∈ u.log.lh ∨ 1 ≤ c) ∧
      ∀ v, Spends free c u.log v.log → v.inode = u.inode →
        Costs free l (writeFrom ip src n rounds (tot + min (n - tot) (BSIZE - off % BSIZE))
          (off + min (n - tot) (BSIZE - off % BSIZE))) v fun _ _ => True) :
    Costs free total (writeFrom ip src n (rounds + 1) tot off) s fun _ _ => True := by
  unfold writeFrom
  rw [if_pos more]
  obtain ⟨j, rfl⟩ : ∃ j, total = k + j := ⟨total - k, by omega⟩
  refine first.bind_with fun addr u spends holds => ?_
  by_cases none : addr = 0
  · exact ⟨k, 0, by omega, spends, by rw [if_pos none]; exact costs_pure _ trivial⟩
  obtain ⟨i, c, l, sum, spent, price, next⟩ := rest addr u spends holds none
  refine ⟨i, c + l, by omega, spent, ?_⟩
  rw [if_neg none]
  dsimp only
  split
  next fault => exact ⟨(Spends.refl free u.log).mono (Nat.zero_le _), trivial⟩
  next =>
    refine costs_get_bind ?_
    exact (logWrite_costs _ (spends.distinct distinct) price).bind fun _ v spends' both => next v spends' both.2

theorem writeFrom_costs_piece {l : Nat} {R : Fs → Prop} (more : tot < n) (distinct : s.log.lh.Nodup)
    (first : Costs free 2 (bmap ip (off / BSIZE)) s fun addr t => R t ∧ (t = s ∨ addr = 0 ∨ addr ∈ t.log.lh))
    (next : ∀ u v, R u → v.log.lh.Nodup → v.inode = u.inode →
      Costs free l (writeFrom ip src n rounds (tot + min (n - tot) (BSIZE - off % BSIZE))
        (off + min (n - tot) (BSIZE - off % BSIZE))) v fun _ _ => True) :
    Costs free (l + 2) (writeFrom ip src n (rounds + 1) tot off) s fun _ _ => True := by
  refine writeFrom_costs_round more (by omega) distinct first fun addr u spends ⟨holds, outcome⟩ some => ?_
  rcases outcome with same | zero | recorded
  · exact ⟨0, 1, l, by omega, same ▸ Spends.refl free _, .inr (.inr (Nat.le_refl 1)),
      fun v spends' => next u v holds (spends'.distinct (spends.distinct distinct))⟩
  · exact absurd zero some
  · exact ⟨2, 0, l, by omega, spends, .inr (.inl recorded),
      fun v spends' => next u v holds (spends'.distinct (spends.distinct distinct))⟩

omit sb in
theorem pieces_left {p : Nat} (more : tot < n) (fits : off + (n - tot) ≤ MAXFILE * BSIZE)
    (pieces : tot < n → off % BSIZE + (n - tot) ≤ p * BSIZE) : off / BSIZE < MAXFILE ∧
      ∃ q, p = q + 1 ∧ (tot + min (n - tot) (BSIZE - off % BSIZE) < n →
        (off + min (n - tot) (BSIZE - off % BSIZE)) % BSIZE + (n - (tot + min (n - tot) (BSIZE - off % BSIZE))) ≤ q * BSIZE) := by
  have bound := pieces more
  refine ⟨?_, p - 1, ?_, fun again => ?_⟩
  · rw [Nat.div_lt_iff_lt_mul (by decide)]
    omega
  all_goals
    simp only [BSIZE] at *
    omega

theorem writeFrom_costs_indirect {i p : Nat} (indirect : listed s.disk (copy s ip) (.addr 12) = i) (present : i ≠ 0)
    (fits : off + (n - tot) ≤ MAXFILE * BSIZE) (pieces : tot < n → off % BSIZE + (n - tot) ≤ p * BSIZE)
    (distinct : s.log.lh.Nodup) :
    Costs [i] (2 * p) (writeFrom ip src n rounds tot off) s fun _ _ => True := by
  induction rounds generalizing s tot off p with
  | zero => exact costs_pure _ trivial
  | succ rounds ih =>
    by_cases more : tot < n
    · obtain ⟨inside, p, rfl, left⟩ := pieces_left more fits pieces
      refine writeFrom_costs_piece more distinct (bmap_costs indirect present inside distinct) fun u v address clear inode => ?_
      refine ih ?_ (by omega) left clear
      rw [← address, listed, listed, copy, inode]
    · rw [writeFrom, if_neg more]
      exact costs_pure _ trivial

/-- Each piece records its block and a block of the free map; the indirect block and one more of the free map may come in
addition. -/
theorem writeFrom_costs {p : Nat} (fits : off + (n - tot) ≤ MAXFILE * BSIZE)
    (pieces : tot < n → off % BSIZE + (n - tot) ≤ p * BSIZE) (distinct : s.log.lh.Nodup) :
    Costs [] (2 * p + 2) (writeFrom ip src n rounds tot off) s fun _ _ => True := by
  induction rounds generalizing s tot off p with
  | zero => exact costs_pure _ trivial
  | succ rounds ih =>
    by_cases present : listed s.disk (copy s ip) (.addr 12) ≠ 0
    · exact ((writeFrom_costs_indirect rfl present fits pieces distinct).charge distinct).mono (by omega)
    have vacant : listed s.disk (copy s ip) (.addr 12) = 0 := not_not.mp present
    by_cases more : tot < n
    · obtain ⟨inside, p, rfl, left⟩ := pieces_left more fits pieces
      by_cases direct : off / BSIZE < NDIRECT
      · have first : Costs [] 2 (bmap ip (off / BSIZE)) s fun addr t => True ∧ (t = s ∨ addr = 0 ∨ addr ∈ t.log.lh) := by
          unfold bmap
          rw [dif_pos direct]
          refine (bmapDirect_costs _ distinct).imp fun addr t outcome => ⟨trivial, ?_⟩
          rcases outcome with ⟨same, -, -⟩ | ⟨-, recorded⟩
          · exact .inl same
          · exact .inr (or_iff_not_imp_left.mpr fun some => (recorded some).1)
        exact writeFrom_costs_piece more distinct first fun u v _ clear _ => ih (by omega) left clear
      refine writeFrom_costs_round more (by omega) distinct (bmap_costs_both direct inside vacant distinct)
        fun addr u spends outcome some => ?_
      obtain ⟨price, nonzero, mem⟩ := outcome.resolve_left some
      -- From here on the indirect block is in the log.
      have next : ∀ v c, Spends [] c u.log v.log → v.inode = u.inode →
          Costs [] (2 * p) (writeFrom ip src n rounds (tot + min (n - tot) (BSIZE - off % BSIZE))
            (off + min (n - tot) (BSIZE - off % BSIZE))) v fun _ _ => True := by
        intro v c spends' inode
        have clear := spends'.distinct (spends.distinct distinct)
        have same : listed v.disk (copy v ip) (.addr 12) = listed u.disk (copy u ip) (.addr 12) := by
          rw [listed, listed, copy, inode]
        refine (writeFrom_costs_indirect same nonzero (by omega) left clear).charged ?_ clear
        exact spends'.initial.subset mem
      rcases price with few | recorded
      · exact ⟨2, 1, 2 * p, by omega, few, .inr (.inr (Nat.le_refl 1)), fun v => next v 1⟩
      · exact ⟨4, 0, 2 * p, by omega, spends, .inr (.inl recorded), fun v => next v 0⟩
    · rw [writeFrom, if_neg more]
      exact costs_pure _ trivial

theorem first_costs {len : Nat} (whole : Present s.disk (copy s ip) 0 (copy s ip).size.toNat) (low : off ≤ (copy s ip).size.toNat)
    (fits : off + len ≤ MAXFILE * BSIZE) (short : len ≤ maxWrite) (distinct : s.log.lh.Nodup) :
    Costs [] 9 (writeFrom ip src len rounds 0 off) s fun _ _ => True := by
  have limit : len ≤ 3 * BSIZE := short
  by_cases aligned : off % BSIZE = 0
  · exact (writeFrom_costs (p := 3) (by omega) (by omega) distinct).mono (by decide)
  rcases rounds with _ | rounds
  · exact costs_pure _ trivial
  by_cases more : 0 < len
  · have offset : off % BSIZE < BSIZE := Nat.mod_lt off (by decide)
    have same : (off - 1) / BSIZE = off / BSIZE := by
      simp only [BSIZE] at aligned ⊢
      omega
    have positive : 0 < off := Nat.pos_of_ne_zero fun zero => aligned (by rw [zero]; rfl)
    obtain ⟨inside, some⟩ := whole (off - 1) (Nat.zero_le _) (by omega)
    rw [same] at inside some
    have found : Costs [] 0 (bmap ip (off / BSIZE)) s fun _ t => t = s :=
      (ends_ran (bmap_found inside some)).mpr ⟨Spends.refl [] s.log, rfl⟩
    refine writeFrom_costs_round more (by omega) distinct found fun addr u spends same some => ?_
    refine ⟨0, 1, 8, by omega, same ▸ Spends.refl [] _, .inr (.inr (Nat.le_refl 1)), fun v spends' _ => ?_⟩
    refine writeFrom_costs (p := 3) ?_ (fun again => ?_) (spends'.distinct (spends.distinct distinct))
    · have piece := piece_pos off more
      omega
    · simp only [BSIZE] at again limit ⊢
      omega
  · rw [writeFrom, if_neg more]
    exact costs_pure _ trivial

end Loop

theorem writei_costs {src : Place} {off len : Nat} (whole : Present s.disk (copy s ip) 0 (copy s ip).size.toNat)
    (short : len ≤ maxWrite) (distinct : s.log.lh.Nodup) :
    Costs [] MAXOPBLOCKS (writei ip src off len) s fun _ _ => True := by
  unfold writei
  refine costs_get_bind ?_
  dsimp only
  split
  next => exact costs_pure none trivial
  next accepted =>
    have low : off ≤ (copy s ip).size.toNat := Nat.le_of_not_lt fun high => accepted (.inl high)
    have save : ∀ (v : Fs) (tot : Nat), v.log.lh.Nodup → Costs [] 1 (do iupdate ip; pure (some tot)) v fun _ _ => True := by
      intro v tot distinct
      refine Costs.bind (k := 1) (j := 0) (Q := fun _ _ => True) ?_ fun _ _ _ _ => costs_pure _ trivial
      unfold iupdate setDinode
      exact costs_get_bind (costs_get_bind ((logWrite_costs _ distinct (.inr (.inr (Nat.le_refl 1)))).imp fun _ _ _ => trivial))
    refine Costs.bind (k := 9) (j := 1) (first_costs whole low (by omega) short distinct) fun r u spends _ => ?_
    split
    next =>
      refine Costs.bind (k := 0) (j := 1) (setCopy_costs _) fun _ v spends' _ => ?_
      exact save v _ (spends'.distinct (spends.distinct distinct))
    next => exact save u _ (spends.distinct distinct)

/-- A piece of `filewrite` records at most `MAXOPBLOCKS` blocks that the log does not have: it stops only in a log that has
no room for so many, and where it returns they have been appended to the log. With an empty log they are all the blocks
that it records. -/
theorem chunk_within_reservation (ip : Ip) (src : Place) (off n i : Nat) (s : Fs)
    (whole : Present s.disk (copy s ip) 0 (copy s ip).size.toNat) (distinct : s.log.lh.Nodup) :
    Ends (fun e => (∃ panic, e = .log panic) ∧ (s.log.outstanding < 1 ∨ LOGSIZE ≤ s.log.lh.length + MAXOPBLOCKS ∨
        s.log.size - 1 ≤ s.log.lh.length + MAXOPBLOCKS))
      (writei ip src off (min (n - i) maxWrite)) s fun _ t =>
        ∃ new, t.log.lh = s.log.lh ++ new ∧ t.log.lh.Nodup ∧ new.length ≤ MAXOPBLOCKS := by
  have costs : Costs [] MAXOPBLOCKS (writei ip src off (min (n - i) maxWrite)) s fun _ _ => True :=
    writei_costs whole (Nat.min_le_right ..) distinct
  simp only [Costs, Crowded, charged_nil] at costs
  refine costs.imp fun _ t ⟨spends, _⟩ => ?_
  obtain ⟨new, appended⟩ := spends.initial
  have bound := spends.bound
  rw [charged_nil, charged_nil, ← appended, List.length_append] at bound
  exact ⟨new, appended.symm, spends.distinct distinct, by omega⟩

omit sb in
theorem chunk_within_reservation_small :
    letI := FileSystem.Faults.smallDisk
    let v := FileSystem.Faults.smallVolume T_FILE (fun _ => 7) 4 (by decide) (by decide)
    Ends (fun e => (∃ panic, e = .log panic) ∧ (v.state.log.outstanding < 1 ∨ LOGSIZE ≤ v.state.log.lh.length + MAXOPBLOCKS ∨
        v.state.log.size - 1 ≤ v.state.log.lh.length + MAXOPBLOCKS))
      (writei v.ip (.kernel fun _ => 9) 2 (min (5000 - 0) maxWrite)) v.state fun _ t =>
        ∃ new, t.log.lh = v.state.log.lh ++ new ∧ t.log.lh.Nodup ∧ new.length ≤ MAXOPBLOCKS :=
  letI := FileSystem.Faults.smallDisk
  let v := FileSystem.Faults.smallVolume T_FILE (fun _ => 7) 4 (by decide) (by decide)
  chunk_within_reservation v.ip (.kernel fun _ => 9) 2 5000 0 v.state v.whole List.nodup_nil

end Xv6Monitor.Calls.Chunks
