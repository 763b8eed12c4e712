import Xv6Monitor.Mkfs.Placing

/-! `iappend` of `mkfs/mkfs.c` appends bytes to a file. -/

namespace Xv6Monitor.Mkfs.Appending
open Function Lib.Bytes Lib.Program FileSystem.Format FileSystem.Blocks FileSystem.Fields FileSystem.Extents Image
  Placing

attribute [local instance] superblock

variable {t u v : Img} {node : Nat → Dinode} {count : Nat → Nat} {content : Nat → List UInt8} {inum fbn : Nat}

/-! ### The loop -/

/-- The failures of `iappend` on a file that would get `n` blocks and `size` bytes. -/
def TooMuch (count : Nat → Nat) (inum size : Nat) : Failure → Prop := fun e =>
  (e = .fbn ∧ MAXFILE * BSIZE < size) ∨ (e = .read ∧ FSSIZE < total (update count inum (blocks size)))

theorem tooMuch_update (n : Nat) : TooMuch (update count inum n) inum = TooMuch count inum := by
  funext size e
  rw [TooMuch, TooMuch, update_idem]

structure Appends (t : Img) (node : Nat → Dinode) (count : Nat → Nat) (content : Nat → List UInt8) (inum : Nat) (p : List UInt8)
    (din : Dinode) (u : Img) : Prop where
  layout : Layout u (update node inum din) (update count inum (blocks ((content inum).length + p.length)))
    (update content inum (content inum ++ p))
  room : u.freeblock.toNat ≤ FSSIZE
  fields : din = { node inum with addrs := din.addrs }
  frame : Frame t u

theorem Appends.nil (layout : Layout t node count content) (room : t.freeblock.toNat ≤ FSSIZE)
    (counted : count inum = blocks (content inum).length) : Appends t node count content inum [] (node inum) t := by
  refine ⟨?_, room, rfl, Frame.refl t⟩
  rw [List.append_nil, List.length_nil, Nat.add_zero, ← counted, update_eq_self, update_eq_self,
    update_eq_self]
  exact layout

theorem Appends.append {p q : List UInt8} {din din' : Dinode} (first : Appends t node count content inum p din u)
    (second : Appends u (update node inum din)
      (update count inum (blocks ((content inum).length + p.length)))
      (update content inum (content inum ++ p)) inum q din' v) :
    Appends t node count content inum (p ++ q) din' v := by
  obtain ⟨layout, room, fields, frame⟩ := second
  rw [update_idem, update_idem, update_idem, update_self, List.length_append, Nat.add_assoc,
    ← List.length_append, List.append_assoc] at layout
  rw [update_self] at fields
  exact ⟨layout, room, fields.trans (congrArg (fun d : Dinode => { d with addrs := din'.addrs }) first.fields),
    first.frame.trans frame⟩

theorem block_end {size m : Nat} (some : 0 < m) (piece : m ≤ BSIZE - size % BSIZE) : size / BSIZE + 1 = blocks (size + m) := by
  simp only [blocks, BSIZE] at piece ⊢
  omega

theorem blocks_near (size : Nat) : blocks size = size / BSIZE ∨ blocks size = size / BSIZE + 1 := by
  simp only [blocks, BSIZE]
  omega

theorem appendBlock {α : Type} {f : Dinode → MkProg α} {Q : α → Img → Prop} {m : Nat} {p : List UInt8}
    (layout : Layout t node count content) (known : inum < NINODES) (room : t.freeblock.toNat ≤ FSSIZE) (counted : count inum = blocks (content inum).length)
    (inside : (content inum).length / BSIZE < MAXFILE) (some : 0 < m) (long : m ≤ p.length)
    (piece : m ≤ BSIZE - (content inum).length % BSIZE)
    (rest : ∀ din u, Appends t node count content inum (p.take m) din u →
      Ends (TooMuch count inum ((content inum).length + p.length)) (f din) u Q) :
    Ends (TooMuch count inum ((content inum).length + p.length)) (do
      let (x, din) ← blockFor (node inum) ((content inum).length / BSIZE)
      let buf ← rsect x.toNat
      wsect x.toNat (splice buf ((content inum).length % BSIZE) m (chars p))
      f din) t Q := by
  have size : (content inum).length / BSIZE + 1 = blocks ((content inum).length + (p.take m).length) := by
    rw [List.length_take, Nat.min_eq_left long]
    exact block_end some piece
  have most : (content inum).length / BSIZE + 1 ≤ blocks ((content inum).length + p.length) := by
    simp only [blocks, BSIZE]
    omega
  have grows : total (update count inum ((content inum).length / BSIZE + 1)) ≤
      total (update count inum (blocks ((content inum).length + p.length))) :=
    total_le (update_le_update_iff.mpr ⟨most, fun _ _ => Nat.le_refl _⟩)
  refine ((blockFor_spec layout known room inside (counted ▸ blocks_near _)).stops fun e full => ?_).bind ?_
  · exact .inr ⟨full.1, Nat.lt_of_lt_of_le full.2 grows⟩
  rintro ⟨x, din⟩ s ⟨layout', block, last, far, fields, frame⟩
  dsimp only at layout' block last fields
  have less : x.toNat < s.freeblock.toNat := by
    have below := layout'.core.below inum (spot ((content inum).length / BSIZE))
    rw [update_self] at below
    exact block ▸ below
  refine Ends.bind (R := fun buf w => buf = s.sect x.toNat ∧ w = s ∧ x.toNat < FSSIZE)
    (ends_rsect layout'.core.sectors (by simp only [FSSIZE] at room; omega) (fun low => ⟨rfl, rfl, low⟩) fun high => ?_) ?_
  · refine .inr ⟨rfl, Nat.lt_of_lt_of_le ?_ grows⟩
    have free := layout'.free
    omega
  rintro buf w ⟨rfl, rfl, low⟩
  refine Ends.bind (R := fun _ v => v = { w with
    sect := update w.sect x.toNat (splice (w.sect x.toNat) ((content inum).length % BSIZE) m (chars p)) })
    (ends_wsect layout'.core.sectors low rfl) ?_
  rintro _ v same
  have sect : v.sect = update w.sect x.toNat (splice (w.sect x.toNat) ((content inum).length % BSIZE) m (chars p)) := by
    rw [same]
  have free : v.freeblock = w.freeblock := by rw [same]
  have there : Needed (update count inum ((content inum).length / BSIZE + 1) inum) (spot ((content inum).length / BSIZE)) := by
    rw [update_self]
    exact (needed_spot inside).mpr (Nat.lt_succ_self _)
  rw [block, ← update_self inum din node] at sect
  have core := layout'.core.write inside there rfl piece long (by rw [same]) free sect
  refine rest din v ⟨⟨size ▸ core, ?_⟩, ?_, fields, frame.trans ⟨by rw [same], by rw [same], by rw [same], fun b below => ?_⟩⟩
  · rw [free, layout'.free, size]
  · rw [free]
    rcases last with same | more
    · rw [same]
      exact room
    · omega
  · rw [sect, update_of_ne]
    have above := (layout'.core.range inum _ there).1
    exact Nat.ne_of_lt (Nat.lt_of_lt_of_le below above)

theorem appendFrom_spec {rounds : Nat} {p : List UInt8} (layout : Layout t node count content) (known : inum < NINODES)
    (room : t.freeblock.toNat ≤ FSSIZE) (counted : count inum = blocks (content inum).length) (enough : p.length ≤ rounds) :
    Ends (TooMuch count inum ((content inum).length + p.length)) (appendFrom rounds p (content inum).length (node inum)) t
      fun r u => r.1 = (content inum).length + p.length ∧ Appends t node count content inum p r.2 u := by
  induction rounds generalizing t node count content p with
  | zero =>
    obtain rfl : p = [] := List.length_eq_zero_iff.mp (Nat.le_zero.mp enough)
    exact ⟨rfl, Appends.nil layout room counted⟩
  | succ rounds ih =>
    unfold appendFrom
    by_cases empty : p = []
    · subst empty
      exact ⟨rfl, Appends.nil layout room counted⟩
    have some : 0 < p.length := List.length_pos_iff.mpr empty
    rw [if_neg empty]
    by_cases inside : (content inum).length / BSIZE < MAXFILE
    · rw [if_pos inside]
      have fill : min p.length (((content inum).length / BSIZE + 1) * BSIZE - (content inum).length) =
          min p.length (BSIZE - (content inum).length % BSIZE) := by
        simp only [BSIZE]
        omega
      have rest : (content inum).length - (content inum).length / BSIZE * BSIZE = (content inum).length % BSIZE := by
        simp only [BSIZE]
        omega
      rw [fill, rest]
      have piece := Nat.min_le_right p.length (BSIZE - (content inum).length % BSIZE)
      have long := Nat.min_le_left p.length (BSIZE - (content inum).length % BSIZE)
      have positive : 0 < min p.length (BSIZE - (content inum).length % BSIZE) := by
        simp only [BSIZE]
        omega
      generalize min p.length (BSIZE - (content inum).length % BSIZE) = m at piece long positive ⊢
      refine appendBlock layout known room counted inside positive long piece fun din u first => ?_
      have more := ih (p := p.drop m) first.layout first.room
        (by rw [update_self, update_self, List.length_append]) (by rw [List.length_drop]; omega)
      have whole : (content inum).length + m + (p.length - m) = (content inum).length + p.length := by omega
      rw [update_self, update_self, List.length_append, List.length_take_of_le long, List.length_drop,
        whole, tooMuch_update] at more
      refine more.imp fun r v both => ⟨both.1, ?_⟩
      rw [← List.take_append_drop m p]
      refine first.append ?_
      rw [List.length_take_of_le long]
      exact both.2
    · rw [if_neg inside]
      left
      refine ⟨rfl, ?_⟩
      have long := Nat.div_add_mod (content inum).length BSIZE
      have most : BSIZE * MAXFILE ≤ BSIZE * ((content inum).length / BSIZE) := Nat.mul_le_mul_left _ (Nat.le_of_not_lt inside)
      rw [Nat.mul_comm MAXFILE]
      omega

/-! ### The inodes on the image -/

def nodes (sect : Nat → Data) (i : Nat) : Dinode := if i < NINODES then dinode sect i else .zero

theorem iblock_inside (known : inum < NINODES) : superblock.inodestart ≤ IBLOCK inum ∧ IBLOCK inum < superblock.bmapstart :=
  ⟨Nat.le_add_left .., iblock_area known⟩

theorem iblock_low (known : inum < NINODES) : IBLOCK inum < nmeta := Nat.lt_trans (iblock_area known) (by decide)

theorem nodes_congr (low : ∀ b < nmeta, u.sect b = t.sect b) : nodes u.sect = nodes t.sect := by
  funext i
  unfold nodes
  split
  next known => rw [dinode, low _ (iblock_low known), dinode]
  next => rfl

structure Writes (t u : Img) (inum : Nat) (din : Dinode) : Prop where
  nodes : nodes u.sect = update (nodes t.sect) inum din
  high : ∀ b, nmeta ≤ b → u.sect b = t.sect b
  sectors : u.sectors = t.sectors
  freeinode : u.freeinode = t.freeinode
  freeblock : u.freeblock = t.freeblock
  inums : u.inums = t.inums
  inodeWrites : u.inodeWrites = IBLOCK inum :: t.inodeWrites

theorem saved_layout {node' : Nat → Dinode} {din : Dinode} (layout : Layout t node' count content) (writes : Writes t u inum din)
    (addrs : ∀ i, (nodes u.sect i).addrs = (node' i).addrs) : Layout u (nodes u.sect) count content :=
  ⟨layout.core.elsewhere writes.sectors writes.freeblock writes.high addrs, by rw [writes.freeblock, layout.free]⟩

theorem rinode_spec (sectors : t.sectors = FSSIZE) (known : inum < NINODES) :
    Ends (fun _ => False) (rinode inum) t fun din u => din = nodes t.sect inum ∧ u = t := by
  have low : IBLOCK inum < FSSIZE := Nat.lt_trans (iblock_low known) (by decide)
  unfold rinode
  refine Ends.bind (R := fun buf u => buf = t.sect (IBLOCK inum) ∧ u = t) (ends_rsect sectors (Nat.lt_trans low (by decide))
    (fun _ => ⟨rfl, rfl⟩) fun high => absurd low (Nat.not_lt_of_le high)) ?_
  rintro buf u ⟨rfl, rfl⟩
  exact ⟨(if_pos known).symm, rfl⟩

theorem winode_spec (sectors : t.sectors = FSSIZE) (known : inum < NINODES) (din : Dinode) :
    Ends (fun _ => False) (winode inum din) t fun _ u => Writes t u inum din := by
  have low : IBLOCK inum < FSSIZE := Nat.lt_trans (iblock_low known) (by decide)
  have small : IBLOCK inum < 4194304 := Nat.lt_trans low (by decide)
  unfold winode
  refine Ends.bind (R := fun buf u => buf = t.sect (IBLOCK inum) ∧ u = t) (ends_rsect sectors small
    (fun _ => ⟨rfl, rfl⟩) fun high => absurd low (Nat.not_lt_of_le high)) ?_
  rintro buf u ⟨rfl, rfl⟩
  refine Ends.bind (R := fun _ v => v = { u with
    sect := update u.sect (IBLOCK inum) (Dinode.write (u.sect (IBLOCK inum)) (64 * (inum % IPB)) din) })
    (ends_wsect sectors low rfl) ?_
  rintro _ v same
  have sect : v.sect = update u.sect (IBLOCK inum) (Dinode.write (u.sect (IBLOCK inum)) (64 * (inum % IPB)) din) := by
    rw [same]
  refine ⟨?_, fun b high => ?_, by rw [same], by rw [same], by rw [same], by rw [same], by rw [same, seek_small small]⟩
  · funext i
    by_cases this : i = inum
    · subst this
      rw [update_self, nodes, if_pos known]
      show Dinode.read (v.sect _) _ = din
      rw [sect, update_self, read_write]
    rw [update_of_ne this]
    unfold nodes
    split
    next other =>
      show Dinode.read (v.sect _) _ = Dinode.read (u.sect _) _
      rw [sect]
      by_cases block : IBLOCK i = IBLOCK inum
      · have quotient : i / IPB = inum / IPB := Nat.add_right_cancel block
        rw [block, update_self, read_write_other]
        simp only [IPB] at quotient ⊢
        omega
      · rw [update_of_ne block]
    next => rfl
  · show v.sect b = u.sect b
    rw [sect, update_of_ne]
    have area := iblock_low known
    omega

def typeOf (next i : Nat) : Int16 := if 0 < i ∧ i < next then if i = ROOTINO then T_DIR else T_FILE else 0

/-- An image with the files `content`, while `next` is the next inode. -/
structure Built (t : Img) (content : Nat → List UInt8) (next : Nat) : Prop where
  layout : Layout t (nodes t.sect) (fun i => blocks (content i).length) content
  room : t.freeblock.toNat ≤ FSSIZE
  size : ∀ i, (nodes t.sect i).size.toNat = (content i).length
  type : ∀ i, (nodes t.sect i).type = typeOf next i
  number : t.freeinode.toNat = next
  fresh : ∀ i, next ≤ i → content i = []
  inums : ∀ i, i ∈ t.inums ↔ 0 < i ∧ i < next
  inodeWrites : ∀ b ∈ t.inodeWrites, superblock.inodestart ≤ b ∧ b < superblock.bmapstart

/-- A file is longer than the inode can list, or the files do not fit. -/
def Exceeds (final : Nat → Nat) : Failure → Prop := fun e =>
  (e = .fbn ∧ ∃ i < NINODES, MAXFILE * BSIZE < final i) ∨ (e = .read ∧ FSSIZE < total fun i => blocks (final i))

theorem blocks_mono {m n : Nat} (le : m ≤ n) : blocks m ≤ blocks n := by
  simp only [blocks, BSIZE]
  omega

theorem blocks_update {p : List UInt8} : (fun i => blocks (update content inum p i).length) =
    update (fun i => blocks (content i).length) inum (blocks p.length) := by
  funext i
  by_cases this : i = inum
  · rw [this, update_self, update_self]
  · rw [update_of_ne this, update_of_ne this]

theorem iappend_spec {p : List UInt8} {next : Nat} {final : Nat → Nat} (built : Built t content next) (known : inum < NINODES)
    (used : inum < next) (fits : ∀ i, (update content inum (content inum ++ p) i).length ≤ final i) :
    Ends (Exceeds final) (iappend inum p) t fun _ u => Built u (update content inum (content inum ++ p)) next := by
  have here := fits inum
  rw [update_self, List.length_append] at here
  unfold iappend
  refine ((rinode_spec built.layout.core.sectors known).stops fun _ => False.elim).bind ?_
  rintro din s ⟨rfl, rfl⟩
  rw [built.size]
  refine ((appendFrom_spec built.layout known built.room rfl (Nat.le_refl _)).stops fun e much => ?_).bind ?_
  · rcases much with ⟨rfl, long⟩ | ⟨rfl, full⟩
    · exact .inl ⟨rfl, inum, known, Nat.lt_of_lt_of_le long here⟩
    · refine .inr ⟨rfl, Nat.lt_of_lt_of_le full ?_⟩
      rw [← List.length_append, ← blocks_update]
      exact total_le fun i => blocks_mono (fits i)
  rintro ⟨off, din⟩ u ⟨end_off, layout, room, fields, frame⟩
  dsimp only at end_off layout fields ⊢
  refine ((winode_spec layout.core.sectors known _).stops fun _ => False.elim).imp fun _ v writes => ?_
  have before : nodes u.sect = nodes s.sect := nodes_congr frame.low
  have small : off < 2 ^ 32 := by
    have le := layout.core.length_le inum
    rw [update_self, List.length_append] at le
    simp only [MAXFILE, NDIRECT, NINDIRECT, BSIZE] at le
    omega
  have changed := before ▸ writes.nodes
  have addrs : ∀ i, (nodes v.sect i).addrs = (update (nodes s.sect) inum din i).addrs := by
    intro i
    rw [changed]
    by_cases this : i = inum
    · rw [this, update_self, update_self]
    · rw [update_of_ne this, update_of_ne this]
  have types : ∀ i, (nodes v.sect i).type = (nodes s.sect i).type := by
    intro i
    rw [changed]
    by_cases this : i = inum
    · rw [this, update_self]
      rw [fields]
    · rw [update_of_ne this]
  have sizes : ∀ i, (nodes v.sect i).size.toNat = (update content inum (content inum ++ p) i).length := by
    intro i
    rw [changed]
    by_cases this : i = inum
    · rw [this, update_self, update_self, List.length_append, ← end_off]
      exact UInt32.toNat_ofNat_of_lt small
    · rw [update_of_ne this, update_of_ne this]
      exact built.size i
  refine ⟨?_, by rw [writes.freeblock]; exact room, sizes, fun i => (types i).trans (built.type i), ?_, fun i above => ?_,
    fun i => ?_, fun b mem => ?_⟩
  · rw [blocks_update, List.length_append]
    exact saved_layout layout writes addrs
  · rw [writes.freeinode, frame.freeinode]
    exact built.number
  · rw [update_of_ne (by omega)]
    exact built.fresh i above
  · rw [writes.inums, frame.inums]
    exact built.inums i
  · rw [writes.inodeWrites, frame.inodeWrites] at mem
    rcases List.mem_cons.mp mem with rfl | old
    · exact iblock_inside known
    · exact built.inodeWrites b old

end Xv6Monitor.Mkfs.Appending
