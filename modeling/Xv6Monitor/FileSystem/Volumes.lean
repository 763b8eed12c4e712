import Xv6Monitor.FileSystem.Contents

/-! A file system whose inodes own their blocks, and what `readi` and `writei` make of one of its files: an array of
bytes. -/

namespace Xv6Monitor.FileSystem.Volumes
open Function Lib.Bytes Lib.Program Lib.Positions Format Blocks Fields Extents Contents

variable [sb : Superblock] {s t u : Fs} {ip : Ip} {disk disk' : Nat → Data} {node : Nat → Dinode} {n n' : Dinode} {i k : Nat}

def Live (node : Nat → Dinode) (i : Nat) : Prop := i < sb.ninodes ∧ (node i).type ≠ 0

/-- No block has two owners, and none that has one is free. -/
structure Owned (disk : Nat → Data) (node : Nat → Dinode) : Prop where
  reserved : Reserved disk
  tidy : ∀ i, Live node i → Tidy disk (node i)
  apart : ∀ i j, Live node i → Live node j → i ≠ j → ∀ p q, listed disk (node i) p ≠ 0 →
    listed disk (node j) q ≠ listed disk (node i) p

def Unchanged (disk disk' : Nat → Data) (n : Dinode) : Prop :=
  ∀ p, listed disk' n p = listed disk n p ∧ (listed disk n p ≠ 0 → disk' (listed disk n p) = disk (listed disk n p))

omit sb in
theorem unchanged_of_blocks (same : ∀ p, listed disk n p ≠ 0 → disk' (listed disk n p) = disk (listed disk n p)) :
    Unchanged disk disk' n := by
  refine fun p => ⟨listed_congr p fun present => ?_, same p⟩
  exact same (.addr 12) fun zero => present (listed_addr_zero.mp zero)

omit sb in
theorem Unchanged.trans {disk'' : Nat → Data} (first : Unchanged disk disk' n) (second : Unchanged disk' disk'' n) :
    Unchanged disk disk'' n := by
  refine fun p => ⟨(second p).1.trans (first p).1, fun some => ?_⟩
  have later := (second p).2
  rw [(first p).1] at later
  exact (later some).trans ((first p).2 some)

theorem Tidy.congr (tidy : Tidy disk n) (same : ∀ p, listed disk' n' p = listed disk n p)
    (marks : ∀ b < sb.size, used disk b = true → used disk' b = true) : Tidy disk' n' := by
  refine ⟨fun p => ?_, fun p => ?_, fun p => ?_, fun p q => ?_⟩
  · rw [same p]
    exact tidy.above p
  · rw [same p]
    exact tidy.below p
  · rw [same p]
    exact fun some => marks _ (tidy.below p) (tidy.marked p some)
  · rw [same p, same q]
    exact tidy.apart p q

theorem Owned.congr {node' : Nat → Dinode} (owned : Owned disk node) (alive : ∀ i, Live node' i → Live node i)
    (same : ∀ i, Live node' i → ∀ p, listed disk' (node' i) p = listed disk (node i) p)
    (marks : ∀ b < sb.size, used disk b = true → used disk' b = true) : Owned disk' node' := by
  have after : datastart ≤ sb.size := sb.data_after
  refine ⟨fun b low => marks b (by omega) (owned.reserved b low),
    fun i live => Tidy.congr (owned.tidy i (alive i live)) (same i live) marks, fun i j left right different p q => ?_⟩
  rw [same i left p, same j right q]
  exact owned.apart i j (alive i left) (alive j right) different p q

theorem Owned.others (owned : Owned s.disk node) (live : Live node k) (held : node k = copy s ip)
    (alters : Alters ip s t) (other : i ≠ k) (live' : Live node i) : Unchanged s.disk t.disk (node i) := by
  have tidy := owned.tidy i live'
  refine unchanged_of_blocks fun p some => ?_
  refine alters.kept _ (tidy.above p some) (tidy.below p) (tidy.marked p some) fun q => ?_
  rw [← held]
  exact owned.apart i k live' live other p q some

theorem Owned.alters (owned : Owned s.disk node) (live : Live node k) (held : node k = copy s ip)
    (alters : Alters ip s t) (tidy : Tidy t.disk (copy t ip)) :
    Owned t.disk (update node k (copy t ip)) := by
  have old : ∀ i, i ≠ k → Live (update node k (copy t ip)) i → Live node i := by
    intro i other live'
    rwa [Live, update_of_ne other] at live'
  have same := fun i (other : i ≠ k) live' => owned.others live held alters other (old i other live')
  -- A block that the inode lists is one that it listed, or one that was free.
  have fresh : ∀ i, i ≠ k → Live node i → ∀ p q, listed s.disk (node i) q ≠ 0 →
      listed t.disk (copy t ip) p ≠ listed s.disk (node i) q := by
    intro i other live' p q some equal
    by_cases zero : listed s.disk (copy s ip) p = 0
    · obtain ⟨-, free⟩ := alters.fresh p zero (by rwa [equal])
      rw [equal, (owned.tidy i live').marked q some] at free
      exact nomatch free
    · rw [alters.stays p zero, ← held] at equal
      exact owned.apart i k live' live other q p some equal
  refine ⟨alters.reserved owned.reserved, fun i live' => ?_, fun i j left right different p q some => ?_⟩
  · by_cases this : i = k
    · rwa [this, update_self]
    · rw [update_of_ne this]
      exact Tidy.congr (owned.tidy i (old i this live')) (fun p => (same i this live' p).1) alters.marks
  by_cases first : i = k
  · have second : j ≠ k := fun equal => different (first.trans equal.symm)
    rw [first, update_self] at some ⊢
    rw [update_of_ne second, (same j second right q).1]
    intro equal
    rw [← equal] at some
    exact fresh j second (old j second right) p q some equal.symm
  · rw [update_of_ne first] at some ⊢
    rw [(same i first left p).1] at some ⊢
    by_cases second : j = k
    · rw [second, update_self]
      exact fresh i first (old i first left) q p some
    · rw [update_of_ne second, (same j second right q).1]
      exact owned.apart i j (old i first left) (old j second right) different p q some

/-! ### The inode on disk -/

structure Saves (disk disk' : Nat → Data) (inum : Nat) (n : Dinode) : Prop where
  high : ∀ b, sb.bmapstart ≤ b → disk' b = disk b
  this : dinode disk' inum = n
  others : ∀ j < sb.ninodes, j ≠ inum → dinode disk' j = dinode disk j

theorem iupdate_spec (number : (s.inode ip).inum < sb.ninodes) :
    Ends LogStop (iupdate ip) s fun _ t =>
      t.inode = s.inode ∧ Saves s.disk t.disk (s.inode ip).inum (copy s ip) ∧ Logged s t := by
  unfold iupdate setDinode
  rw [ends_get_bind, ends_get_bind]
  refine (logWrite_spec _ _).imp fun _ t ⟨⟨changed, same⟩, logged⟩ =>
    ⟨same, ⟨fun b high => ?_, ?_, fun j below other => ?_⟩, logged⟩
  · have area := iblock_area number
    rw [changed, update_of_ne (by omega)]
  · rw [dinode, changed, update_self, read_write]
  rw [dinode, changed, dinode]
  by_cases block : IBLOCK j = IBLOCK (s.inode ip).inum
  · have quotient : j / IPB = (s.inode ip).inum / IPB := Nat.add_right_cancel block
    rw [block, update_self, read_write_other]
    simp only [IPB] at quotient ⊢
    omega
  · rw [update_of_ne block]

theorem used_high (high : ∀ b, sb.bmapstart ≤ b → disk' b = disk b) {b : Nat} (below : b < sb.size) :
    used disk' b = used disk b := by
  rw [used, used, high _ (bblock_area below).1]

theorem unchanged_high (high : ∀ b, sb.bmapstart ≤ b → disk' b = disk b) (tidy : Tidy disk n) : Unchanged disk disk' n := by
  refine unchanged_of_blocks fun p some => high _ ?_
  have above := tidy.above p some
  have order := bmap_before_data
  omega

/-! ### One file of a file system -/

structure Buffer where
  place : Place
  data : Data
  valid : Backs place (fun _ => True) data

def Buffer.kernel (data : Data) : Buffer := ⟨Place.kernel data, data, backs_kernel data⟩

/-- A file system in which an inode is in use. For each inode `node` has what is on disk or what is in memory; all blocks
of the inode below its size are there. -/
structure Volume where
  state : Fs
  ip : Ip
  node : Nat → Dinode
  held : node (state.inode ip).inum = copy state ip
  live : Live node (state.inode ip).inum
  owned : Owned state.disk node
  whole : Present state.disk (copy state ip) 0 (copy state ip).size.toNat

namespace Volume

variable (v : Volume)

def inum : Nat := (v.state.inode v.ip).inum

def size : Nat := (copy v.state v.ip).size.toNat

def byte (x : Nat) : UInt8 := Extents.byte v.state.disk (copy v.state v.ip) x

theorem tidy : Tidy v.state.disk (copy v.state v.ip) := v.held ▸ v.owned.tidy _ v.live

theorem size_le : v.size ≤ MAXFILE * BSIZE := v.whole.le

end Volume

/-- `readi` serves reads of an array of `size` bytes, and changes nothing. -/
def Reads (s : Fs) (ip : Ip) (size : Nat) (content : Data) : Prop :=
  ∀ (dst : Buffer) (off n : UInt32), Ends (fun _ => False) (readi ip dst.place off.toNat n.toNat) s fun got u => u = s ∧
    if off.toNat ≤ size ∧ off.toNat + n.toNat < 2 ^ 32 then
      got.total = some (min n.toNat (size - off.toNat)) ∧ got.len = min n.toNat (size - off.toNat) ∧
        ∀ i < min n.toNat (size - off.toNat), got.bytes i = content (off.toNat + i)
    else got.total = some 0 ∧ got.len = 0

/-- `readi` delivers the bytes of the file as far as they can be copied, if the blocks of the bytes that it reads are there. -/
theorem readi_part {dst : Place} {P : Nat → Prop} (backs : ∀ tot m, Reach (fun i => P (tot + i)) m (dst.reach tot m))
    {size off len : Nat} (same : (copy s ip).size.toNat = size)
    (there : Present s.disk (copy s ip) off (off + min len (size - off))) :
    Ends (fun _ => False) (readi ip dst off len) s fun got u => u = s ∧
      if off ≤ size ∧ off + len < 2 ^ 32 then
        Reach P (min len (size - off)) got.len ∧
          got.total = (if got.len = min len (size - off) then some (min len (size - off)) else none) ∧
          ∀ i < got.len, got.bytes i = Extents.byte s.disk (copy s ip) (off + i)
      else got.total = some 0 ∧ got.len = 0 := by
  unfold readi
  rw [ends_get_bind]
  rw [same]
  by_cases refused : size < off ∨ 2 ^ 32 ≤ off + len
  · have outside : ¬(off ≤ size ∧ off + len < 2 ^ 32) := by omega
    simp only [if_pos refused, if_neg outside]
    exact ⟨rfl, rfl, rfl⟩
  have inside : off ≤ size ∧ off + len < 2 ^ 32 := by omega
  simp only [if_neg refused, if_pos inside]
  have clamp : (if size < off + len then size - off else len) = min len (size - off) := by
    split <;> omega
  rw [clamp]
  rw [← Nat.sub_zero (min len (size - off))] at there
  refine (readFrom_reach backs (Nat.zero_le _) (by omega) there nofun).imp
    fun got u ⟨same, reached, total, each⟩ => ⟨same, reached, total, fun i less => ?_⟩
  rw [each i less, if_pos (Nat.zero_le i), Nat.sub_zero]

theorem readi_reach {dst : Place} {P : Nat → Prop} (backs : ∀ tot m, Reach (fun i => P (tot + i)) m (dst.reach tot m))
    {size off len : Nat} (same : (copy s ip).size.toNat = size) (whole : Present s.disk (copy s ip) 0 size) :
    Ends (fun _ => False) (readi ip dst off len) s fun got u => u = s ∧
      if off ≤ size ∧ off + len < 2 ^ 32 then
        Reach P (min len (size - off)) got.len ∧
          got.total = (if got.len = min len (size - off) then some (min len (size - off)) else none) ∧
          ∀ i < got.len, got.bytes i = Extents.byte s.disk (copy s ip) (off + i)
      else got.total = some 0 ∧ got.len = 0 :=
  readi_part backs same fun x _ high => whole x (Nat.zero_le x) (by omega)

theorem readi_present {dst : Place} (valid : ∀ tot m, dst.reach tot m = m) {size off len : Nat}
    (same : (copy s ip).size.toNat = size) (whole : Present s.disk (copy s ip) 0 size) :
    Ends (fun _ => False) (readi ip dst off len) s fun got u => u = s ∧
      if off ≤ size ∧ off + len < 2 ^ 32 then
        got.total = some (min len (size - off)) ∧ got.len = min len (size - off) ∧
          ∀ i < min len (size - off), got.bytes i = Extents.byte s.disk (copy s ip) (off + i)
      else got.total = some 0 ∧ got.len = 0 := by
  have backs : ∀ tot m, Reach (fun _ => True) m (dst.reach tot m) := by
    intro tot m
    rw [valid]
    exact ⟨Nat.le_refl m, fun _ _ => trivial, fun short => absurd short (Nat.lt_irrefl m)⟩
  refine (readi_reach (P := fun _ => True) backs same whole).imp fun got u ⟨kept, read⟩ => ⟨kept, ?_⟩
  split at read
  next inside =>
    obtain ⟨reached, total, each⟩ := read
    have all : got.len = min len (size - off) := reached.all_iff.mpr fun _ _ => trivial
    rw [if_pos all] at total
    rw [if_pos inside]
    exact ⟨total, all, all ▸ each⟩
  next outside => rwa [if_neg outside]

theorem readi_reads {size : Nat} {content : Data} (same : (copy s ip).size.toNat = size) (whole : Present s.disk (copy s ip) 0 size)
    (bytes : ∀ x < size, Extents.byte s.disk (copy s ip) x = content x) : Reads s ip size content := by
  intro dst off n
  refine (readi_present dst.valid.whole same whole).imp fun got u ⟨same, read⟩ => ⟨same, ?_⟩
  split at read
  next inside =>
    rw [if_pos inside]
    refine ⟨read.1, read.2.1, fun i less => ?_⟩
    rw [read.2.2 i less, bytes _ (by omega)]
  next outside => rwa [if_neg outside]

theorem Reads.bytes {size : Nat} {content : Data} (reads : Reads s ip size content) (dst : Buffer) (off n : UInt32) :
    Ends (fun _ => False) (readi ip dst.place off.toNat n.toNat) s fun got _ =>
      ∀ i < got.len, off.toNat + i < size ∧ got.bytes i = content (off.toNat + i) := by
  refine (reads dst off n).imp fun got u ⟨_, read⟩ i less => ?_
  split at read
  · obtain ⟨-, len, each⟩ := read
    rw [len] at less
    exact ⟨by omega, each i less⟩
  · omega

theorem Volume.reads (v : Volume) : Reads v.state v.ip v.size v.byte := readi_reads rfl v.whole fun _ _ => rfl

/-! ### Writing -/

/-- `writei` has written `tot` of `n` bytes, and put `extra` more in the buffer of a block. -/
structure Updated (v : Volume) (P : Nat → Prop) (data : Data) (off n tot extra : Nat) (t : Fs) : Prop where
  self : { t.inode v.ip with copy := copy v.state v.ip } = v.state.inode v.ip
  owned : Owned t.disk (update v.node v.inum (copy t v.ip))
  type : (copy t v.ip).type = (copy v.state v.ip).type
  size : (copy t v.ip).size.toNat = max v.size (off + tot)
  whole : Present t.disk (copy t v.ip) 0 (max v.size (off + tot))
  most : tot ≤ n
  bytes : ∀ x < max v.size (off + tot),
    Extents.byte t.disk (copy t v.ip) x = splice v.byte off (tot + extra) data x
  passed : ∀ i < tot, P i
  aligned : tot < n → tot = 0 ∨ (off + tot) % BSIZE = 0
  ended : Ended v.ip P n 0 v.state tot (off + tot) extra t
  stays : ∀ p, listed v.state.disk (copy v.state v.ip) p ≠ 0 →
    listed t.disk (copy t v.ip) p = listed v.state.disk (copy v.state v.ip) p
  fresh : ∀ p, listed v.state.disk (copy v.state v.ip) p = 0 → listed t.disk (copy t v.ip) p ≠ 0 →
    used v.state.disk (listed t.disk (copy t v.ip) p) = false
  saved : dinode t.disk v.inum = copy t v.ip
  entries : ∀ j ≠ v.ip, t.inode j = v.state.inode j
  dinodes : ∀ i < sb.ninodes, i ≠ v.inum → dinode t.disk i = dinode v.state.disk i
  others : ∀ i ≠ v.inum, Live v.node i → Unchanged v.state.disk t.disk (v.node i)
  spares : Spares v.ip v.state t

section Save

variable {v : Volume} {P : Nat → Prop} {data : Data} {off len tot extra : Nat} {w : Fs}
  (wrote : Wrote v.ip P data len 0 off v.state tot (off + tot) extra w)
  (itself : t.inode v.ip = { w.inode v.ip with
    copy := { copy w v.ip with size := UInt32.ofNat (max v.size (off + tot)) } })
  (saves : Saves w.disk t.disk v.inum (copy t v.ip)) (logged : Logged w t)

include wrote itself saves

theorem saved_blocks (p : Spot) : listed t.disk (copy t v.ip) p = listed w.disk (copy w v.ip) p := by
  rw [copy, itself]
  exact (unchanged_high saves.high wrote.tidy p).1

theorem saved_owned : Owned t.disk (update v.node v.inum (copy t v.ip)) := by
  have middle : Owned w.disk (update v.node v.inum (copy w v.ip)) := v.owned.alters v.live v.held wrote.alters wrote.tidy
  have type : (copy t v.ip).type = (copy w v.ip).type := by rw [copy, itself]
  have alive : ∀ i, Live (update v.node v.inum (copy t v.ip)) i → Live (update v.node v.inum (copy w v.ip)) i := by
    rintro i ⟨number, live⟩
    refine ⟨number, ?_⟩
    by_cases this : i = v.inum
    · rw [this, update_self] at live ⊢
      rwa [← type]
    · rwa [update_of_ne this] at live ⊢
  refine middle.congr alive (fun i live p => ?_) fun b below => (used_high saves.high below).trans
  by_cases this : i = v.inum
  · rw [this, update_self, update_self]
    exact saved_blocks wrote itself saves p
  · have tidy := middle.tidy i (alive i live)
    rw [update_of_ne this] at tidy
    rw [update_of_ne this, update_of_ne this]
    exact (unchanged_high saves.high tidy p).1

omit itself saves in
theorem saved_present (fits : off ≤ v.size) (below : off + len ≤ MAXFILE * BSIZE) :
    Present w.disk (copy w v.ip) 0 (max v.size (off + tot)) := by
  intro x _ less
  have most := wrote.most
  have bound := v.size_le
  refine ⟨Nat.div_lt_of_lt_mul (by rw [Nat.mul_comm]; omega), ?_⟩
  by_cases early : x < v.size
  · have some := (v.whole x (Nat.zero_le x) early).2
    exact fun zero => some ((wrote.alters.stays _ some).symm.trans zero)
  · exact wrote.there x (by omega) (by omega)

theorem saved_byte {x : Nat} (fits : off ≤ v.size) (below : off + len ≤ MAXFILE * BSIZE) (less : x < max v.size (off + tot)) :
    Extents.byte t.disk (copy t v.ip) x = splice v.byte off (tot + extra) data x := by
  obtain ⟨inside, some⟩ := saved_present wrote fits below x (Nat.zero_le x) less
  have block : blockOf t.disk (copy t v.ip) (x / BSIZE) = blockOf w.disk (copy w v.ip) (x / BSIZE) :=
    saved_blocks wrote itself saves _
  have contents : t.disk (blockOf w.disk (copy w v.ip) (x / BSIZE)) = w.disk (blockOf w.disk (copy w v.ip) (x / BSIZE)) :=
    (unchanged_high saves.high wrote.tidy _).2 some
  have old : blockOf v.state.disk (copy v.state v.ip) (x / BSIZE) ≠ 0 ∨ off ≤ x ∧ x < off + tot := by
    by_cases early : x < v.size
    · exact .inl (v.whole x (Nat.zero_le x) early).2
    · exact .inr (by omega)
  have written := wrote.bytes x inside old
  simp only [Nat.zero_add, Nat.sub_zero] at written
  rw [Extents.byte, block, contents]
  exact written

include logged in
theorem saved_updated (entries : ∀ j ≠ v.ip, t.inode j = w.inode j) (fits : off ≤ v.size) (below : off + len ≤ MAXFILE * BSIZE) :
    Updated v P data off len tot extra t := by
  have most := wrote.most
  have bound := v.size_le
  have present := saved_present wrote fits below
  have owned := saved_owned wrote itself saves
  have same : ∀ b < sb.size, used t.disk b = used w.disk b := fun b below => used_high saves.high below
  refine ⟨?_, owned, ?_, ?_, fun x low high => ?_, most, fun x => saved_byte wrote itself saves fits below,
    fun i => wrote.passed i (Nat.zero_le i), fun short => ?_, ?_, fun p some => ?_,
    fun p zero some => ?_, saves.this,
    fun j other => (entries j other).trans (wrote.alters.others j other), fun i small other => ?_, fun i other live => ?_,
    ⟨fun b mem => logged.grows b (wrote.spares.grows b mem), logged.durable.trans wrote.spares.durable, fun b none other => ?_⟩⟩
  · rw [itself]
    exact wrote.alters.self
  · rw [copy, itself]
    exact wrote.alters.type
  · have small : max v.size (off + tot) < 2 ^ 32 := by
      have limit : MAXFILE * BSIZE < 2 ^ 32 := by decide
      omega
    rw [copy, itself]
    exact (UInt32.toNat_ofNat' ..).trans (Nat.mod_eq_of_lt small)
  · refine ⟨(present x low high).1, ?_⟩
    rw [blockOf, saved_blocks wrote itself saves]
    exact (present x low high).2
  · have aligned := wrote.aligned short
    omega
  · cases wrote.ended with
    | all whole none => exact .all whole none
    | full short vacant full none scarce =>
      exact .full short vacant (fun b below => (same b below).trans (full b below)) none scarce
    | fault inside short passes fails => exact .fault inside short passes fails
  · exact (saved_blocks wrote itself saves p).trans (wrote.alters.stays p some)
  · rw [saved_blocks wrote itself saves] at some ⊢
    exact (wrote.alters.fresh p zero some).2
  · rw [saves.others i small other, dinode, dinode, wrote.alters.low _ (iblock_area small)]
  · have middle := v.owned.others v.live v.held wrote.alters other live
    refine middle.trans (unchanged_high saves.high ?_)
    exact Tidy.congr (v.owned.tidy i live) (fun p => (middle p).1) wrote.alters.marks
  · have before := wrote.spares.logged b (fun mem => none (logged.grows b mem)) fun bn => ?_
    · exact (logged.logged b none).trans before
    · rw [blockOf, ← saved_blocks wrote itself saves]
      exact other bn

end Save

/-- The ranges that `writei` refuses. -/
def Refused (size off len : Nat) : Prop := size < off ∨ 2 ^ 32 ≤ off + len ∨ MAXFILE * BSIZE < off + len

theorem save_spec {v : Volume} {P : Nat → Prop} {data : Data} {off len tot extra : Nat} {w w' : Fs}
    (wrote : Wrote v.ip P data len 0 off v.state tot (off + tot) extra w) (accepted : ¬Refused v.size off len)
    (same : w'.disk = w.disk) (log : w'.log = w.log) (durable : w'.durable = w.durable) (entries : ∀ j ≠ v.ip, w'.inode j = w.inode j)
    (itself : w'.inode v.ip = { w.inode v.ip with
      copy := { copy w v.ip with size := UInt32.ofNat (max v.size (off + tot)) } }) :
    Ends LogStop (iupdate v.ip) w' fun _ t => Updated v P data off len tot extra t := by
  have number : (w'.inode v.ip).inum = v.inum := by
    rw [itself]
    exact wrote.alters.inum
  unfold Refused at accepted
  refine (iupdate_spec (number ▸ v.live.1)).imp fun _ t ⟨inode, saves, logged⟩ => ?_
  have logged : Logged w t := ⟨log ▸ logged.grows, logged.durable.trans durable, fun b none => by rw [logged.logged b none, same]⟩
  rw [same, number, copy, ← inode] at saves
  exact saved_updated wrote (by rw [inode, itself]) saves logged (fun j other => by rw [inode, entries j other]) (by omega) (by omega)

theorem writei_spec (v : Volume) {src : Place} {P : Nat → Prop} {data : Data} (backs : Backs src P data) (off len : Nat) :
    Ends LogStop (writei v.ip src off len) v.state fun r t =>
      (r = none ∧ Refused v.size off len ∧ t = v.state) ∨
        ¬Refused v.size off len ∧ ∃ tot extra, r = some tot ∧ Updated v P data off len tot extra t := by
  unfold writei
  rw [ends_get_bind]
  dsimp only
  split
  next refused => exact .inl ⟨rfl, refused, rfl⟩
  next accepted =>
    have fits := accepted
    refine (writeFrom_spec backs (Nat.zero_le len) (Nat.le_refl _) (by omega) v.owned.reserved v.tidy).bind
      fun ⟨tot, off'⟩ w ⟨extra, wrote⟩ => ?_
    have place : off' = off + tot := wrote.place
    subst place
    have size : (copy w v.ip).size.toNat = v.size := congrArg UInt32.toNat wrote.alters.size
    split
    next grows =>
      have larger : max v.size (off + tot) = off + tot := Nat.max_eq_right (Nat.le_of_lt grows)
      have entries : ∀ j ≠ v.ip, update w.inode v.ip { w.inode v.ip with
          copy := { copy w v.ip with size := UInt32.ofNat (off + tot) } } j = w.inode j :=
        fun j other => update_of_ne other ..
      have itself : update w.inode v.ip { w.inode v.ip with
          copy := { copy w v.ip with size := UInt32.ofNat (off + tot) } } v.ip = { w.inode v.ip with
          copy := { copy w v.ip with size := UInt32.ofNat (max v.size (off + tot)) } } := by
        rw [larger, update_self]
      rw [setCopy, setInode, ends_modify_bind]
      exact Ends.bind (save_spec wrote accepted rfl rfl rfl entries itself) fun _ t updated =>
        Or.inr ⟨accepted, tot, extra, rfl, updated⟩
    next stays =>
      have larger : max v.size (off + tot) = v.size := Nat.max_eq_left (Nat.le_of_not_lt stays)
      refine (save_spec wrote accepted rfl rfl rfl (fun _ _ => rfl) ?_).bind fun _ t updated =>
        Or.inr ⟨accepted, tot, extra, rfl, updated⟩
      rw [larger, ← size, UInt32.ofNat_toNat]

/-! ### Files as arrays of bytes -/

theorem Updated.number {v : Volume} {P : Nat → Prop} {data : Data} {off len tot extra : Nat}
    (updated : Updated v P data off len tot extra t) : (t.inode v.ip).inum = v.inum := by
  have same := congrArg Inode.inum updated.self
  exact same

/-- The file after a write, in its file system. -/
def Updated.volume {v : Volume} {P : Nat → Prop} {data : Data} {off len tot extra : Nat}
    (updated : Updated v P data off len tot extra t) : Volume where
  state := t
  ip := v.ip
  node := update v.node v.inum (copy t v.ip)
  held := by rw [updated.number, update_self]
  live := by
    have live := v.live
    rw [updated.number, Live, update_self, updated.type, ← v.held]
    exact live
  owned := updated.owned
  whole := by
    rw [updated.size]
    exact updated.whole

/-- A file is an array of bytes: `writei` overwrites a part of it, `readi` returns parts of it, and neither touches other
files. -/
theorem file_is_byte_array (v : Volume) (src : Buffer) (off len : UInt32) :
    Reads v.state v.ip v.size v.byte ∧
      Ends LogStop (writei v.ip src.place off.toNat len.toNat) v.state fun r t =>
        (r = none ↔ v.size < off.toNat ∨ 2 ^ 32 ≤ off.toNat + len.toNat ∨ MAXFILE * BSIZE < off.toNat + len.toNat) ∧
        (r = none → t = v.state) ∧
        ∀ tot, r = some tot →
          tot ≤ len.toNat ∧ (tot < len.toNat → Full t.disk) ∧ (copy t v.ip).size.toNat = max v.size (off.toNat + tot) ∧
          Reads t v.ip (max v.size (off.toNat + tot)) (splice v.byte off.toNat tot src.data) ∧
          (∀ j ≠ v.ip, t.inode j = v.state.inode j) ∧
          ∀ i < sb.ninodes, i ≠ v.inum → dinode t.disk i = dinode v.state.disk i ∧
            (Live v.node i → Unchanged v.state.disk t.disk (v.node i)) := by
  refine ⟨v.reads, (writei_spec v src.valid off.toNat len.toNat).imp fun r t result => ?_⟩
  rcases result with ⟨none, refused, same⟩ | ⟨accepted, tot, extra, returned, updated⟩
  · subst none
    exact ⟨iff_of_true rfl refused, fun _ => same, nofun⟩
  subst returned
  have nothing : extra = 0 := by
    cases updated.ended with
    | all _ none => exact none
    | full _ _ _ none => exact none
    | fault _ _ _ fails => exact absurd trivial fails
  subst nothing
  refine ⟨iff_of_false nofun accepted, nofun, fun tot' same => ?_⟩
  cases same
  refine ⟨updated.most, fun short => ?_, updated.size, readi_reads updated.size updated.whole updated.bytes, updated.entries,
    fun i small other => ⟨updated.dinodes i small other, updated.others i other⟩⟩
  cases updated.ended with
  | all same => exact absurd same (Nat.ne_of_lt short)
  | full _ _ full => exact full
  | fault _ _ _ fails => exact absurd trivial fails

end Xv6Monitor.FileSystem.Volumes
