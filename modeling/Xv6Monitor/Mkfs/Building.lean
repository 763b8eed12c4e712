import Xv6Monitor.Mkfs.Appending

/-! The whole of `mkfs/mkfs.c`: the image that it makes of a list of files. -/

namespace Xv6Monitor.Mkfs.Building
open Function Lib.Bytes Lib.Program FileSystem.Format FileSystem.Blocks FileSystem.Fields FileSystem.Extents
open Image Placing Appending

attribute [local instance] superblock

/-! ### What the image is made of -/

def fileBytes (src : Source) : List UInt8 := ((src.chunks.getD []).map Subtype.val).flatten

def fileEntry (k : Nat) (src : Source) : Dirent := ⟨UInt16.ofNat (k + 2), src.name⟩

def rootBytes (files : List Source) : List UInt8 :=
  direntBytes ⟨UInt16.ofNat ROOTINO, dot⟩ ++ direntBytes ⟨UInt16.ofNat ROOTINO, dotdot⟩ ++
    (files.mapIdx fun k src => direntBytes (fileEntry k src)).flatten

def contents (files : List Source) (i : Nat) : List UInt8 :=
  if i = ROOTINO then rootBytes files else if i = 0 then [] else ((files[i - 2]?).map fileBytes).getD []

variable {t u : Img} {content : Nat → List UInt8} {files done : List Source} {src : Source} {next : Nat} {final : Nat → Nat}

theorem contents_root : contents files ROOTINO = rootBytes files := if_pos rfl

theorem rootBytes_append : rootBytes (done ++ [src]) = rootBytes done ++ direntBytes (fileEntry done.length src) := by
  rw [rootBytes, rootBytes, List.mapIdx_concat, List.flatten_append, List.flatten_singleton, List.append_assoc,
    List.append_assoc, List.append_assoc]

theorem rootBytes_length (files : List Source) : (rootBytes files).length = 16 * (files.length + 2) := by
  induction files using List.reverseRecOn with
  | nil => rfl
  | append_singleton done src ih =>
    rw [rootBytes_append, List.length_append, ih, direntBytes, List.length_map, List.length_range, List.length_append,
      List.length_singleton]
    omega

theorem contents_file (k : Nat) : contents files (k + 2) = ((files[k]?).map fileBytes).getD [] := by
  rw [contents, if_neg (by simp only [ROOTINO]; omega), if_neg (by omega), Nat.add_sub_cancel]

theorem contents_above {i : Nat} (above : files.length + 2 ≤ i) : contents files i = [] := by
  obtain ⟨k, rfl⟩ : ∃ k, i = k + 2 := ⟨i - 2, by omega⟩
  rw [contents_file, List.getElem?_eq_none (by omega)]
  rfl

theorem contents_append : contents (done ++ [src]) =
    update (update (contents done) ROOTINO (rootBytes done ++ direntBytes (fileEntry done.length src)))
      (done.length + 2) (fileBytes src) := by
  funext i
  match i with
  | 0 =>
    rfl
  | 1 =>
    exact contents_root.trans (rootBytes_append.trans (update_self ROOTINO _ (contents done)).symm)
  | k + 2 =>
    rw [contents_file]
    by_cases last : k = done.length
    · rw [last, update_self, List.getElem?_concat_length]
      rfl
    · rw [update_of_ne (by omega), update_of_ne (by simp only [ROOTINO]; omega), contents_file]
      rcases Nat.lt_or_gt_of_ne last with less | more
      · rw [List.getElem?_append_left less]
      · rw [List.getElem?_eq_none (by rw [List.length_append, List.length_singleton]; omega), List.getElem?_eq_none (by omega)]

theorem contents_le (rest : List Source) (i : Nat) : (contents done i).length ≤ (contents (done ++ rest) i).length := by
  match i with
  | 0 => exact Nat.le_refl _
  | 1 =>
    show (rootBytes done).length ≤ (rootBytes (done ++ rest)).length
    rw [rootBytes, rootBytes, List.mapIdx_append, List.flatten_append]
    exact (List.prefix_append _ _).length_le
  | k + 2 =>
    rw [contents_file, contents_file]
    rcases Nat.lt_or_ge k done.length with less | more
    · rw [List.getElem?_append_left less]
    · rw [List.getElem?_eq_none more]
      exact Nat.zero_le _

/-! ### The steps -/

theorem ialloc_spec {type : Int16} (built : Built t content next) (few : next < NINODES) (some : 0 < next)
    (kind : type = if next = ROOTINO then T_DIR else T_FILE) :
    Ends (fun _ => False) (ialloc type) t fun inum u => inum = next ∧ Built u content (next + 1) := by
  unfold ialloc
  rw [ends_get_bind]
  rw [ends_modify_bind, built.number]
  have sectors := built.layout.core.sectors
  refine (winode_spec (t := { t with freeinode := t.freeinode + 1, inums := next :: t.inums }) sectors few _).bind
    fun _ u writes => ⟨rfl, ?_⟩
  have nodes_eq : nodes u.sect = update (nodes t.sect) next { Dinode.zero with type := type, nlink := 1 } := writes.nodes
  have addrs : ∀ i, (nodes u.sect i).addrs = (nodes t.sect i).addrs := by
    intro i
    rw [nodes_eq]
    by_cases this : i = next
    · subst this
      rw [update_self]
      funext k
      refine (built.layout.vacant_addr ?_).symm
      rw [built.fresh i (Nat.le_refl i)]
      exact Nat.zero_le _
    · rw [update_of_ne this]
  have layout := built.layout
  refine ⟨⟨layout.core.elsewhere writes.sectors writes.freeblock writes.high addrs, by rw [writes.freeblock, ← layout.free]⟩,
    by rw [writes.freeblock]; exact built.room, fun i => ?_, fun i => ?_, ?_, fun i above => built.fresh i (by omega), fun i => ?_,
    fun b mem => ?_⟩
  · rw [nodes_eq]
    by_cases this : i = next
    · rw [this, update_self, built.fresh next (Nat.le_refl next)]
      rfl
    · rw [update_of_ne this]
      exact built.size i
  · rw [nodes_eq]
    by_cases this : i = next
    · rw [this, update_self, typeOf, if_pos ⟨some, Nat.lt_succ_self next⟩]
      exact kind
    · have same : 0 < i ∧ i < next + 1 ↔ 0 < i ∧ i < next := by omega
      rw [update_of_ne this, built.type, typeOf, typeOf]
      simp only [same]
  · rw [writes.freeinode]
    rw [UInt32.toNat_add, built.number, UInt32.toNat_one]
    simp only [NINODES] at few
    omega
  · rw [writes.inums, List.mem_cons, built.inums]
    omega
  · rw [writes.inodeWrites] at mem
    rcases List.mem_cons.mp mem with rfl | old
    · exact iblock_inside few
    · exact built.inodeWrites b old

theorem update_fits {inum : Nat} {p : List UInt8} (others : ∀ i, (content i).length ≤ final i) (here : p.length ≤ final inum)
    (i : Nat) : (update content inum p i).length ≤ final i := by
  by_cases this : i = inum
  · rw [this, update_self]
    exact here
  · rw [update_of_ne this]
    exact others i

theorem chunks_spec {chunks : List Chunk} {inum : Nat} (built : Built t content next) (known : inum < NINODES) (used : inum < next)
    (others : ∀ i, (content i).length ≤ final i)
    (here : (content inum ++ (chunks.map Subtype.val).flatten).length ≤ final inum) :
    Ends (Exceeds final) (chunks.forM fun chunk => iappend inum chunk.val) t fun _ u =>
      Built u (update content inum (content inum ++ (chunks.map Subtype.val).flatten)) next := by
  refine ends_forM (I := fun done u => Built u (update content inum (content inum ++ (done.map Subtype.val).flatten)) next)
    ?_ ?_
  · intro done chunk rest s split built'
    have more : update (update content inum (content inum ++ (done.map Subtype.val).flatten)) inum
        (update content inum (content inum ++ (done.map Subtype.val).flatten) inum ++ chunk.val) =
        update content inum (content inum ++ ((done ++ [chunk]).map Subtype.val).flatten) := by
      rw [update_idem, update_self, List.map_append, List.flatten_append, List.append_assoc, List.map_singleton,
        List.flatten_singleton]
    have part : content inum ++ ((done ++ [chunk]).map Subtype.val).flatten <+:
        content inum ++ (chunks.map Subtype.val).flatten := by
      have cut : (chunks.map Subtype.val).flatten =
          ((done ++ [chunk]).map Subtype.val).flatten ++ (rest.map Subtype.val).flatten := by
        rw [split, List.append_cons, List.map_append, List.flatten_append]
      rw [cut, ← List.append_assoc]
      exact List.prefix_append _ _
    have fits := update_fits others (Nat.le_trans part.length_le here)
    rw [← more] at fits ⊢
    exact iappend_spec built' known used fits
  · rw [List.map_nil, List.flatten_nil, List.append_nil, update_eq_self]
    exact built

def Rejects (src : Source) : Failure → Prop := fun e =>
  (e = .slashInName ∧ slash ∈ shortname src.path) ∨ (e = .noFile src.path ∧ src.chunks = none) ∨
    (e = .longName ∧ DIRSIZ < src.name.length)

theorem addFile_spec (built : Built t (contents done) (done.length + 2)) (few : done.length + 2 < NINODES)
    (fits : ∀ i, (contents (done ++ [src]) i).length ≤ final i) :
    Ends (fun e => Rejects src e ∨ Exceeds final e) (addFile ROOTINO src) t fun _ u =>
      Built u (contents (done ++ [src])) ((done ++ [src]).length + 2) := by
  unfold addFile
  by_cases inside : slash ∈ shortname src.path
  · rw [if_pos inside]
    exact .inl (.inl ⟨rfl, inside⟩)
  rw [if_neg inside]
  rcases opened : src.chunks with _ | chunks
  · exact .inl (.inr (.inl ⟨rfl, opened⟩))
  dsimp only
  by_cases long : DIRSIZ < src.name.length
  · rw [if_pos long]
    exact .inl (.inr (.inr ⟨rfl, long⟩))
  rw [if_neg long]
  have bytes : fileBytes src = (chunks.map Subtype.val).flatten := by rw [fileBytes, opened, Option.getD_some]
  refine ((ialloc_spec built few (by omega) (if_neg (by simp only [ROOTINO]; omega)).symm).stops fun _ => False.elim).bind ?_
  rintro inum s ⟨rfl, allocated⟩
  have before : ∀ i, (contents done i).length ≤ final i := fun i => Nat.le_trans (contents_le [src] i) (fits i)
  have named : ∀ i, (update (contents done) ROOTINO
      (contents done ROOTINO ++ direntBytes (fileEntry done.length src)) i).length ≤ final i := by
    refine update_fits before (Nat.le_trans (Nat.le_of_eq ?_) (fits ROOTINO))
    rw [contents_root, contents_root, rootBytes_append]
  refine ((iappend_spec allocated (by decide) (by simp only [ROOTINO]; omega) named).stops fun _ => Or.inr).bind fun _ v entered => ?_
  have none : update (contents done) ROOTINO (contents done ROOTINO ++ direntBytes (fileEntry done.length src))
      (done.length + 2) = [] := by
    rw [update_of_ne (by simp only [ROOTINO]; omega), contents_above (Nat.le_refl _)]
  have whole : contents (done ++ [src]) (done.length + 2) = (chunks.map Subtype.val).flatten := by
    rw [contents_append, update_self, bytes]
  have here : (update (contents done) ROOTINO (contents done ROOTINO ++ direntBytes (fileEntry done.length src))
      (done.length + 2) ++ (chunks.map Subtype.val).flatten).length ≤ final (done.length + 2) := by
    rw [none, List.nil_append, ← whole]
    exact fits _
  have filled := chunks_spec entered few (by omega) named here
  rw [none, List.nil_append, contents_root, ← bytes, ← contents_append] at filled
  rw [List.length_append]
  exact filled.stops fun _ => Or.inr

/-! ### The program -/

theorem wipe_spec {n : Nat} (small : n ≤ 4194304) :
    Ends (fun _ => False) (wipe n) start fun _ t => t = { start with sectors := n } := by
  unfold wipe
  refine Ends.imp (ends_forM (I := fun done u => u = { start with sectors := done.length }) ?_ rfl) ?_
  · rintro done i rest u split rfl
    have here : (List.range n)[done.length]? = some i := by
      rw [split, List.getElem?_append_right (Nat.le_refl _), Nat.sub_self, List.getElem?_cons_zero]
    obtain ⟨below, same⟩ := List.getElem?_eq_some_iff.mp here
    rw [List.getElem_range] at same
    subst same
    rw [List.length_range] at below
    unfold wsect
    rw [seek_small (Nat.lt_of_lt_of_le below small), List.length_append, List.length_singleton]
    show ({ start with sect := update start.sect done.length (start.sect done.length), sectors := _ } : Img) = _
    rw [update_eq_self]
    rw [Nat.max_eq_right (Nat.le_succ _)]
  · intro _ t wiped
    rwa [List.length_range] at wiped

theorem read_zero (o : Nat) : Dinode.read (fun _ => 0) o = .zero := rfl

theorem listed_zero (sect : Nat → Data) (p : Spot) : listed sect .zero p = 0 := by
  cases p with
  | addr _ => rfl
  | entry _ =>
    rw [listed]
    exact if_pos rfl

theorem built_start : Built { start with sect := update start.sect 1 superblockBytes, sectors := FSSIZE }
    (fun _ => []) ROOTINO := by
  have zero : nodes (update start.sect 1 superblockBytes) = fun _ => .zero := by
    funext i
    unfold nodes
    split
    next known =>
      have area := (iblock_inside known).1
      rw [dinode, update_of_ne]
      · exact read_zero _
      · intro same
        rw [same] at area
        exact absurd area (by decide)
    next => rfl
  have none : ∀ p, ¬Needed (blocks ([] : List UInt8).length) p := by
    intro p needed
    cases p with
    | addr _ => exact Nat.not_lt_zero _ needed
    | entry j => exact Nat.not_lt_zero _ needed
  refine ⟨⟨⟨rfl, by decide, fun b above => ?_, fun i p => ?_, fun i p some => absurd some (none p),
    fun i j p q some => absurd some (none p), fun b above below => ?_, fun i x less => absurd less (Nat.not_lt_zero x)⟩, ?_⟩,
    by decide, fun i => ?_, fun i => ?_, rfl, fun _ _ => rfl, fun i => ?_, fun b mem => absurd mem List.not_mem_nil⟩
  · refine update_of_ne ?_ ..
    rintro rfl
    exact absurd above (by decide)
  · rw [zero, listed_zero]
    exact iff_of_false (fun wrong => wrong rfl) (none p)
  · exact absurd (Nat.lt_of_le_of_lt above below) (by decide)
  · have count : blocks ([] : List UInt8).length = 0 := by decide
    rw [count, total_zero]
    rfl
  · rw [zero]
    rfl
  · rw [zero, typeOf, if_neg (by simp only [ROOTINO]; omega)]
    rfl
  · exact iff_of_false List.not_mem_nil (by simp only [ROOTINO]; omega)

theorem bit_marked (n b : Nat) : bit ((List.range n).foldl setBit fun _ => 0) b = decide (b < n) := by
  induction n with
  | zero => exact Nat.zero_testBit _
  | succ n ih =>
    rw [List.range_succ, List.foldl_concat, bit_setBit, ih, ← Bool.decide_or]
    exact decide_eq_decide.mpr Nat.lt_succ_iff_lt_or_eq.symm

structure Finished (files : List Source) (t : Img) : Prop where
  layout : Layout t (nodes t.sect) (fun i => blocks (contents files i).length) (contents files)
  room : t.freeblock.toNat ≤ FSSIZE
  size : ∀ i ≠ ROOTINO, (nodes t.sect i).size.toNat = (contents files i).length
  root : (nodes t.sect ROOTINO).size.toNat = roundUp (rootBytes files).length
  type : ∀ i, (nodes t.sect i).type = typeOf (files.length + 2) i
  inums : ∀ i, i ∈ t.inums ↔ 0 < i ∧ i < files.length + 2
  inodeWrites : ∀ b ∈ t.inodeWrites, superblock.inodestart ≤ b ∧ b < superblock.bmapstart
  marks : ∀ b < superblock.size, FileSystem.Blocks.used t.sect b = decide (b < t.freeblock.toNat)

theorem finish_spec (built : Built t (contents files) (files.length + 2)) :
    Ends (fun _ => False) (do
      let din ← rinode ROOTINO
      winode ROOTINO { din with size := UInt32.ofNat (roundUp din.size.toNat) }
      Image.balloc (← get).freeblock.toInt32) t fun _ u => Finished files u := by
  have known : ROOTINO < NINODES := by decide
  refine (rinode_spec built.layout.core.sectors known).bind ?_
  rintro din s ⟨rfl, rfl⟩
  refine (winode_spec built.layout.core.sectors known _).bind fun _ u writes => ?_
  rw [ends_get_bind]
  have small : u.freeblock.toNat ≤ FSSIZE := by
    rw [writes.freeblock]
    exact built.room
  have count : u.freeblock.toInt32.toInt = u.freeblock.toNat := by
    simp only [FSSIZE] at small
    exact BitVec.toInt_eq_toNat_of_lt (show 2 * u.freeblock.toNat < 2 ^ 32 by omega)
  unfold Image.balloc
  rw [count, if_pos (Int.ofNat_lt.mpr (Nat.lt_of_le_of_lt small (by decide))), Int.toNat_natCast]
  refine ends_wsect (writes.sectors.trans built.layout.core.sectors) (by decide) ?_
  generalize shown : ({ u with sect := _ } : Img) = v
  have sect : v.sect = update u.sect superblock.bmapstart ((List.range u.freeblock.toNat).foldl setBit fun _ => 0) := by
    rw [← shown]
  have same : nodes v.sect = nodes u.sect := by
    funext i
    unfold nodes
    split
    next known => rw [dinode, sect, update_of_ne (Nat.ne_of_lt (iblock_inside known).2), dinode]
    next => rfl
  have changed := same.trans writes.nodes
  have free : v.freeblock = s.freeblock := by
    rw [← shown]
    exact writes.freeblock
  have addrs : ∀ i, (nodes v.sect i).addrs = (nodes s.sect i).addrs := by
    intro i
    rw [changed]
    by_cases this : i = ROOTINO
    · rw [this, update_self]
    · rw [update_of_ne this]
  have high : ∀ b, nmeta ≤ b → v.sect b = s.sect b := by
    intro b above
    have other : b ≠ superblock.bmapstart := by
      rintro rfl
      exact absurd above (by decide)
    rw [sect, update_of_ne other]
    exact writes.high b above
  refine ⟨⟨built.layout.core.elsewhere ?_ free high addrs, by rw [free, built.layout.free]⟩, by rw [free]; exact built.room,
    fun i other => ?_, ?_, fun i => ?_, fun i => ?_, fun b mem => ?_, fun b below => ?_⟩
  · rw [← shown]
    exact writes.sectors
  · rw [changed, update_of_ne other]
    exact built.size i
  · have long := built.layout.core.length_le ROOTINO
    simp only [MAXFILE, NDIRECT, NINDIRECT, BSIZE, contents_root] at long
    rw [changed, built.size, contents_root]
    refine UInt32.toNat_ofNat_of_lt (show roundUp _ < 2 ^ 32 from ?_)
    simp only [roundUp, BSIZE]
    omega
  · rw [changed]
    by_cases this : i = ROOTINO
    · rw [this, update_self]
      exact built.type ROOTINO
    · rw [update_of_ne this]
      exact built.type i
  · rw [← shown]
    rw [writes.inums]
    exact built.inums i
  · rw [← shown] at mem
    have mem' : b ∈ u.inodeWrites := mem
    rw [writes.inodeWrites] at mem'
    rcases List.mem_cons.mp mem' with rfl | old
    · exact iblock_inside known
    · exact built.inodeWrites b old
  · have less : b < BPB := Nat.lt_trans below (by decide)
    have block : BBLOCK b = superblock.bmapstart := by rw [BBLOCK, Nat.div_eq_of_lt less, Nat.zero_add]
    rw [FileSystem.Blocks.used, block, sect, update_self, bit_marked, free, writes.freeblock, Nat.mod_eq_of_lt less]

def Fails (files : List Source) : Failure → Prop := fun e =>
  (∃ src ∈ files, Rejects src e) ∨ Exceeds (fun i => (contents files i).length) e

theorem main_spec (files : List Source) (few : files.length + 2 ≤ NINODES) :
    Ends (Fails files) (main files) start fun _ t => Finished files t := by
  have final : ∀ i, (contents [] i).length ≤ (contents files i).length := fun i => contents_le files i
  unfold main
  refine ((wipe_spec (by decide)).stops fun _ => False.elim).bind ?_
  rintro _ t rfl
  refine Ends.bind (R := fun _ u => Built u (fun _ => []) ROOTINO) (ends_wsect rfl (by decide) built_start) fun _ t built => ?_
  refine ((ialloc_spec built (by decide) (by decide) rfl).stops fun _ => False.elim).bind ?_
  rintro inum u ⟨rfl, allocated⟩
  have none : ∀ i, ((fun _ => []) i : List UInt8).length ≤ (contents files i).length := fun i => Nat.zero_le _
  have whole := final ROOTINO
  refine ((iappend_spec allocated (by decide) (by decide) (update_fits none ?_)).stops fun _ => Or.inr).bind fun _ v first => ?_
  · exact Nat.le_trans (by decide) whole
  refine ((iappend_spec first (by decide) (by decide) (update_fits (update_fits none ?_) ?_)).stops fun _ => Or.inr).bind
    fun _ w second => ?_
  · exact Nat.le_trans (by decide) whole
  · exact Nat.le_trans (by decide) whole
  have same : contents [] = update (fun _ => []) ROOTINO
      (direntBytes ⟨UInt16.ofNat ROOTINO, dot⟩ ++ direntBytes ⟨UInt16.ofNat ROOTINO, dotdot⟩) := by
    funext i
    by_cases this : i = ROOTINO
    · rw [this, update_self, contents_root, rootBytes, List.mapIdx_nil, List.flatten_nil, List.append_nil]
    · rw [update_of_ne this, contents, if_neg this]
      exact ite_self _
  rw [update_idem, update_self, List.nil_append, ← same] at second
  refine Ends.bind (R := fun _ t => Built t (contents files) (files.length + 2)) ?_ fun _ t done =>
    (finish_spec done).stops fun _ => False.elim
  refine ends_forM (I := fun done t => Built t (contents done) (done.length + 2)) ?_ second
  intro done src rest s split built
  have more : ∀ i, (contents (done ++ [src]) i).length ≤ (contents files i).length := by
    intro i
    rw [split.trans (List.append_cons ..)]
    exact contents_le rest i
  have room : done.length + 2 < NINODES := by
    rw [split, List.length_append, List.length_cons] at few
    omega
  refine (addFile_spec built room more).stops fun e fails => ?_
  exact fails.imp_left fun rejects => ⟨src, by rw [split]; exact List.mem_append_right _ List.mem_cons_self, rejects⟩

/-- Arguments that are accepted, and that fit the inodes and the blocks. -/
structure Fits (files : List Source) : Prop where
  inodes : files.length + 2 ≤ NINODES
  plain : ∀ src ∈ files, slash ∉ shortname src.path
  opens : ∀ src ∈ files, src.chunks ≠ none
  named : ∀ src ∈ files, src.name.length ≤ DIRSIZ
  short : ∀ src ∈ files, (fileBytes src).length ≤ MAXFILE * BSIZE
  blocks : total (fun i => blocks (contents files i).length) ≤ FSSIZE

theorem contents_short (few : files.length + 2 ≤ NINODES) (short : ∀ src ∈ files, (fileBytes src).length ≤ MAXFILE * BSIZE)
    (i : Nat) : (contents files i).length ≤ MAXFILE * BSIZE := by
  match i with
  | 0 => exact Nat.zero_le _
  | 1 =>
    show (rootBytes files).length ≤ _
    rw [rootBytes_length]
    simp only [NINODES, MAXFILE, NDIRECT, BSIZE] at few ⊢
    omega
  | k + 2 =>
    rw [contents_file]
    cases found : files[k]? with
    | none => exact Nat.zero_le _
    | some src => exact short src (List.mem_of_getElem? found)

theorem Fits.accepted (fits : Fits files) {e : Failure} (fails : Fails files e) : False := by
  rcases fails with ⟨src, mem, rejects⟩ | ⟨-, i, -, long⟩ | ⟨-, full⟩
  · rcases rejects with ⟨-, wrong⟩ | ⟨-, wrong⟩ | ⟨-, wrong⟩
    · exact fits.plain src mem wrong
    · exact fits.opens src mem wrong
    · exact absurd wrong (Nat.not_lt_of_le (fits.named src mem))
  · exact absurd long (Nat.not_lt_of_le (contents_short fits.inodes fits.short i))
  · exact absurd full (Nat.not_lt_of_le fits.blocks)

theorem main_returns (fits : Fits files) : ∃ t, main files start = .ok ((), t) ∧ Finished files t := by
  obtain ⟨_, t, ran, finished⟩ := ((main_spec files fits.inodes).stops fun _ fails => fits.accepted fails).returns
  exact ⟨t, ran, finished⟩

end Xv6Monitor.Mkfs.Building
