import Xv6Monitor.FileSystem.Walking
import Xv6Monitor.Mkfs.Building

/-! What the kernel finds on the image that `mkfs` makes: the files in the root directory, with their bytes, and a bitmap
that has the blocks in use. -/

namespace Xv6Monitor.Mkfs.Agreement
open Function Lib.Program FileSystem.Format FileSystem.Blocks FileSystem.Fields FileSystem.Extents
open FileSystem.Inodes FileSystem.Entries FileSystem.Volumes FileSystem.Walking
open Image Allotment Placing Appending Building

attribute [local instance] superblock

variable {files : List Source} {t : Img} {s : Fs} {dp : Ip}

/-! ### The root directory -/

def rootEntries (files : List Source) : List Dirent :=
  ⟨UInt16.ofNat ROOTINO, dot⟩ :: ⟨UInt16.ofNat ROOTINO, dotdot⟩ :: files.mapIdx fileEntry

theorem rootBytes_entries : rootBytes files = ((rootEntries files).map direntBytes).flatten := by
  have files_bytes : (files.mapIdx fileEntry).map direntBytes = files.mapIdx fun k src => direntBytes (fileEntry k src) := by
    apply List.ext_getElem?
    intro k
    rw [List.getElem?_map, List.getElem?_mapIdx, List.getElem?_mapIdx, Option.map_map]
    rfl
  rw [rootBytes, rootEntries, List.map_cons, List.map_cons, List.flatten_cons, List.flatten_cons, files_bytes, List.append_assoc]

theorem direntBytes_length (e : Dirent) : (direntBytes e).length = 16 := by
  rw [direntBytes, List.length_map, List.length_range]

variable {k i : Nat} {e : Dirent}

theorem chars_entry {es : List Dirent} (found : es[k]? = some e) (less : i < 16) :
    chars (es.map direntBytes).flatten (16 * k + i) = e.bytes i := by
  induction es generalizing k with
  | nil => exact nomatch found
  | cons first rest ih =>
    rw [List.map_cons, List.flatten_cons]
    cases k with
    | zero =>
      obtain rfl : first = e := Option.some.inj found
      rw [chars, List.getElem?_append_left (by rw [direntBytes_length]; omega), direntBytes, Nat.mul_zero, Nat.zero_add,
        List.getElem?_map, List.getElem?_range less]
      rfl
    | succ k =>
      rw [← ih found, chars, chars, List.getElem?_append_right (by rw [direntBytes_length]; omega), direntBytes_length]
      congr 2
      omega

theorem rootEntries_file (k : Nat) : (rootEntries files)[k + 2]? = (files[k]?).map (fileEntry k) := List.getElem?_mapIdx

theorem name_text (src : Source) : 0 ∉ src.name := by
  have short : 0 ∉ shortname src.path := by
    unfold shortname
    split
    · exact fun mem => src.text (List.mem_of_mem_drop mem)
    · exact src.text
  rw [Source.name]
  rcases shape : shortname src.path with _ | ⟨c, _⟩
  · exact List.not_mem_nil
  rw [shape] at short
  rw [skipUnderscore]
  by_cases underscore : c = 95
  · rw [if_pos underscore]
    exact fun mem => short (List.mem_cons_of_mem c mem)
  · rw [if_neg underscore]
    exact short

theorem entry_text (fits : Fits files) (mem : e ∈ rootEntries files) : 0 ∉ e.name ∧ e.name.length ≤ DIRSIZ := by
  rcases List.mem_cons.mp mem with rfl | mem
  · decide
  rcases List.mem_cons.mp mem with rfl | mem
  · decide
  obtain ⟨k, less, rfl⟩ := List.mem_mapIdx.mp mem
  exact ⟨name_text _, fits.named _ (List.getElem_mem less)⟩

theorem entryAt_root (finished : Finished files t) (fits : Fits files)
    (found : (rootEntries files)[k]? = some e) : entryAt t.sect (nodes t.sect ROOTINO) k = e := by
  obtain ⟨text, short⟩ := entry_text fits (List.mem_of_getElem? found)
  have below : k < files.length + 2 := by
    obtain ⟨less, -⟩ := List.getElem?_eq_some_iff.mp found
    rwa [rootEntries, List.length_cons, List.length_cons, List.length_mapIdx] at less
  have bytes : ∀ i < 16, byte t.sect (nodes t.sect ROOTINO) (16 * k + i) = e.bytes i := by
    intro i less
    have inside : 16 * k + i < (contents files ROOTINO).length := by
      rw [contents_root, rootBytes_length]
      omega
    rw [(finished.layout.core.bytes ROOTINO _ inside).2.2, contents_root, rootBytes_entries, chars_entry found less]
  calc entryAt t.sect (nodes t.sect ROOTINO) k
    _ = Dirent.read e.bytes := read_congr bytes
    _ = ⟨e.inum, e.name.take DIRSIZ⟩ := Dirent.read_bytes e.inum e.name fun c mem zero => text (zero ▸ mem)
    _ = e := by rw [List.take_of_length_le short]

/-- Names that the root directory can have beside each other. -/
structure Apart (files : List Source) : Prop where
  distinct : (files.map Source.name).Nodup
  dot : ∀ src ∈ files, src.name ≠ dot
  dotdot : ∀ src ∈ files, src.name ≠ dotdot

variable {src : Source}

theorem Apart.before (apart : Apart files) (found : files[k]? = some src)
    (earlier : i < k + 2) (there : (rootEntries files)[i]? = some e) : e.name ≠ src.name := by
  have mem := List.mem_of_getElem? found
  match i with
  | 0 =>
    obtain rfl := Option.some.inj there
    exact (apart.dot src mem).symm
  | 1 =>
    obtain rfl := Option.some.inj there
    exact (apart.dotdot src mem).symm
  | j + 2 =>
    rw [rootEntries_file] at there
    obtain ⟨other, found', rfl⟩ := Option.map_eq_some_iff.mp there
    intro same
    have equal : (files.map Source.name)[j]? = (files.map Source.name)[k]? := by
      rw [List.getElem?_map, List.getElem?_map, found', found]
      exact congrArg some same
    obtain ⟨less, -⟩ := List.getElem?_eq_some_iff.mp found'
    have index := (List.getElem?_inj (by rwa [List.length_map]) apart.distinct).mp equal
    omega

/-! ### The kernel on the image -/

/-- A kernel that has the image as its disk, and the root directory in use; nothing has been modified. -/
structure Mounted (t : Img) (s : Fs) (dp : Ip) : Prop where
  disk : s.disk = t.sect
  held : 0 < (s.inode dp).ref
  root : (s.inode dp).inum = ROOTINO
  read : copy s dp = dinode s.disk ROOTINO
  cached : ∀ ip, 0 < (s.inode ip).ref → (s.inode ip).valid = true → copy s ip = dinode s.disk (s.inode ip).inum
  unlocked : ∀ ip ≠ dp, (s.inode ip).locked = false

/-- A lookup of a name in a directory that goes on to lock the inode. -/
def lookup (dp : Ip) (name : Name) : FsProg (Option Ip) := do
  match ← dirlookup dp name with
  | none => pure none
  | some (ip, _) =>
    ilock ip
    pure (some ip)

theorem nodes_known (known : i < NINODES) : nodes t.sect i = dinode t.sect i := if_pos known

theorem rootEntries_length : (rootEntries files).length = files.length + 2 := by
  rw [rootEntries, List.length_cons, List.length_cons, List.length_mapIdx]

theorem dirlookup_entry (finished : Finished files t) (fits : Fits files) (mounted : Mounted t s dp) {j : Nat}
    (there : (rootEntries files)[j]? = some e) (used : e.inum ≠ 0)
    (first : ∀ i < j, ∀ other, (rootEntries files)[i]? = some other → other.name ≠ e.name) :
    Ends (TableFull s) (dirlookup dp e.name) s fun r u => ∃ ip, r = some (ip, j) ∧
      Gets s u ip (s.inode dp).dev e.inum.toNat := by
  obtain ⟨text, short⟩ := entry_text fits (List.mem_of_getElem? there)
  obtain ⟨less, -⟩ := List.getElem?_eq_some_iff.mp there
  have count : (rootEntries files).length = files.length + 2 := rootEntries_length
  have root : copy s dp = nodes t.sect ROOTINO := by rw [mounted.read, mounted.disk, nodes_known (by decide)]
  have entries : ∀ {i : Nat} {e : Dirent}, (rootEntries files)[i]? = some e → entryAt s.disk (copy s dp) i = e := by
    intro i e there
    rw [mounted.disk, root]
    exact entryAt_root finished fits there
  have size : (copy s dp).size.toNat = roundUp (rootBytes files).length := by rw [root, finished.root]
  have long : 16 * (files.length + 2) ≤ roundUp (rootBytes files).length := by
    rw [rootBytes_length]
    simp only [roundUp, BSIZE]
    omega
  have whole : cut ⟨e.name, text⟩ = e.name := List.take_of_length_le short
  have hit : Ends (TableFull s) (dirlookup dp (⟨e.name, text⟩ : Text)) s fun r u => ∃ ip, r = some (ip, j) ∧
      Gets s u ip (s.inode dp).dev (entryAt s.disk (copy s dp) j).inum.toNat := by
    apply dirlookup_hit
    · rw [root, finished.type]
      exact (if_pos ⟨by decide, by simp only [ROOTINO]; omega⟩).trans (if_pos rfl)
    · intro x _ high
      rw [mounted.disk, root]
      have inside : x < (contents files ROOTINO).length := by
        rw [contents_root, rootBytes_length]
        omega
      obtain ⟨block, some, -⟩ := finished.layout.core.bytes ROOTINO x inside
      exact ⟨block, (finished.layout.core.there ROOTINO _).mpr some⟩
    · rw [slots, size]
      omega
    · intro i earlier
      have present := List.getElem?_eq_getElem (Nat.lt_trans earlier less)
      rw [entries present, whole]
      exact first i earlier _ present
    · rw [entries there]
      exact used
    · rw [entries there, whole]
  rw [entries there] at hit
  exact hit

theorem dirlookup_root (finished : Finished files t) (fits : Fits files) (apart : Apart files) (mounted : Mounted t s dp) (found : files[k]? = some src) :
    Ends (TableFull s) (dirlookup dp src.name) s fun r u => ∃ ip, r = some (ip, k + 2) ∧
      Gets s u ip (s.inode dp).dev (k + 2) := by
  have few := fits.inodes
  obtain ⟨less, -⟩ := List.getElem?_eq_some_iff.mp found
  have number : (fileEntry k src).inum.toNat = k + 2 := by
    simp only [NINODES] at few
    exact UInt16.toNat_ofNat_of_lt (show k + 2 < 65536 by omega)
  have there : (rootEntries files)[k + 2]? = some (fileEntry k src) := by
    rw [rootEntries_file, found]
    rfl
  have used : (fileEntry k src).inum ≠ 0 := by
    intro zero
    rw [zero] at number
    cases number
  have hit := dirlookup_entry finished fits mounted there used fun i earlier other present => apart.before found earlier present
  rw [number] at hit
  exact hit

/-- Every name leads to the bytes of its file. -/
theorem lookup_reads (finished : Finished files t) (fits : Fits files) (apart : Apart files) (mounted : Mounted t s dp) (found : files[k]? = some src) :
    Ends (TableFull s) (lookup dp src.name) s fun r u => ∃ ip, r = some ip ∧
      (copy u ip).size.toNat = (fileBytes src).length ∧ Reads u ip (fileBytes src).length (chars (fileBytes src)) := by
  have few := fits.inodes
  obtain ⟨less, -⟩ := List.getElem?_eq_some_iff.mp found
  have known : k + 2 < NINODES := by omega
  have node : dinode s.disk (k + 2) = nodes t.sect (k + 2) := by rw [mounted.disk, nodes_known known]
  have bytes : contents files (k + 2) = fileBytes src := by rw [contents_file, found]; rfl
  have size : (nodes t.sect (k + 2)).size.toNat = (fileBytes src).length := by
    rw [finished.size _ (by simp only [ROOTINO]; omega), bytes]
  unfold lookup
  refine (dirlookup_root finished fits apart mounted found).bind ?_
  rintro r w ⟨ip, rfl, gets⟩
  have disk : w.disk = s.disk := by rw [gets.same]
  have other : ip ≠ dp := by
    rintro rfl
    have held := mounted.held
    have number := mounted.root
    simp only [ROOTINO] at number
    rcases gets.here with ⟨-, -, same, -⟩ | ⟨free, -⟩ <;> omega
  have free := mounted.unlocked ip other
  have entry : 0 < (w.inode ip).ref ∧ (w.inode ip).locked = false ∧ loaded w ip = nodes t.sect (k + 2) := by
    unfold loaded
    rw [disk]
    rcases gets.here with ⟨held, -, number, same⟩ | ⟨-, -, same⟩
    · have cached := mounted.cached ip held
      rw [copy, same]
      refine ⟨by dsimp only; omega, free, ?_⟩
      split
      next valid => rw [← node, ← number]; exact cached valid
      next => rw [number, node]
    · rw [same]
      exact ⟨Int.one_pos, free, node⟩
  obtain ⟨held, free, read⟩ := entry
  have ready : Ready w ip := by
    refine ⟨held, free, ?_⟩
    rw [read, finished.type, typeOf, if_pos (by omega), if_neg (by simp only [ROOTINO]; omega)]
    decide
  refine (ilock_loaded.stops fun _ wrong => absurd ready wrong).bind fun _ u sets => ⟨ip, rfl, ?_⟩
  have own : copy u ip = nodes t.sect (k + 2) := by
    rw [copy, sets.here]
    exact read
  have same : u.disk = t.sect := by rw [sets.disk, disk, mounted.disk]
  refine ⟨by rw [own, size], readi_reads (by rw [own, size]) (fun x _ high => ?_) fun x high => ?_⟩
  all_goals
    rw [← bytes] at high
    obtain ⟨inside, some, value⟩ := finished.layout.core.bytes (k + 2) x high
    rw [same, own]
  · exact ⟨inside, (finished.layout.core.there (k + 2) _).mpr some⟩
  · rw [value, bytes]

/-! ### The blocks -/

theorem listed_known {b : Nat} {p : Spot} (some : b ≠ 0) (listing : listed t.sect (nodes t.sect i) p = b) : i < NINODES := by
  by_contra unknown
  rw [nodes, if_neg unknown, listed_zero] at listing
  exact some listing.symm

theorem used_iff (finished : Finished files t) {b : Nat} (below : b < superblock.size) :
    FileSystem.Blocks.used t.sect b = true ↔
      b < datastart ∨ ∃ i < superblock.ninodes, ∃ p, listed t.sect (dinode t.sect i) p = b := by
  have low := finished.layout.core.low
  rw [finished.marks b below, decide_eq_true_eq]
  constructor
  · intro taken
    rcases Nat.lt_or_ge b nmeta with less | more
    · exact .inl less
    · obtain ⟨i, p, listing⟩ := finished.layout.core.cover b more taken
      have known : i < NINODES := listed_known (by have := meta_positive; omega) listing
      rw [nodes_known known] at listing
      exact .inr ⟨i, known, p, listing⟩
  · rintro (less | ⟨i, known, p, listing⟩)
    · exact Nat.lt_of_lt_of_le less low
    · rw [← listing, ← nodes_known known]
      exact finished.layout.core.below i p

theorem fits_one (src : Source) (plain : slash ∉ shortname src.path) (opens : src.chunks ≠ none) (named : src.name.length ≤ DIRSIZ)
    (short : (fileBytes src).length ≤ MAXFILE * BSIZE) : Fits [src] := by
  have each : ∀ {P : Source → Prop}, P src → ∀ other ∈ [src], P other := fun holds other mem => List.mem_singleton.mp mem ▸ holds
  refine ⟨Nat.le_of_lt (show 1 + 2 < NINODES by decide), each plain, each opens, each named, each short, ?_⟩
  have counts : ∀ i, blocks (contents [src] i).length ≤ update (update (fun _ => 0) ROOTINO 1) 2 MAXFILE i := by
    intro i
    by_cases file : i = 2
    · rw [file, update_self]
      exact blocks_mono short
    rw [update_of_ne file]
    by_cases root : i = ROOTINO
    · rw [root, update_self, contents_root, rootBytes_length, List.length_singleton]
      decide
    have none : contents [src] i = [] := by
      rw [contents, if_neg root]
      split
      · rfl
      · simp only [ROOTINO] at root
        rw [List.getElem?_eq_none (by rw [List.length_singleton]; omega)]
        rfl
    rw [none]
    exact Nat.zero_le _
  have root : total (update (fun _ => 0) ROOTINO 1) + cost 0 = total (fun _ => 0) + cost 1 :=
    total_update (fun _ => 0) (by decide) 1
  have file := total_update (update (fun _ => 0) ROOTINO 1) (show 2 < NINODES by decide) MAXFILE
  rw [total_zero] at root
  refine Nat.le_trans (total_le counts) ?_
  have one : cost 1 = 1 := rfl
  have most : cost MAXFILE = 269 := rfl
  have free : nmeta = 46 := rfl
  rw [FSSIZE]
  omega

def bootFs (t : Img) : Fs where
  disk := t.sect
  durable := t.sect
  log := { start := 2, size := nlog, outstanding := 0, committing := false, lh := [] }
  inode := fun ip =>
    { dev := Disk.Buffers.ROOTDEV, inum := ROOTINO, ref := if ip.val = 0 then 1 else 0, locked := false, valid := true,
      copy := dinode t.sect ROOTINO }
  power := none

theorem mounted_boot (t : Img) : Mounted t (bootFs t) ⟨0, by decide⟩ :=
  ⟨rfl, Int.one_pos, rfl, rfl, fun _ _ _ => rfl, fun _ _ => rfl⟩

-- With the constants of this disk the search for a free block would be evaluated.
attribute [local irreducible] FileSystem.Blocks.balloc

/-- `mkfs` and the kernel agree on the format of the disk. For files that fit, with names that the root directory can have
beside each other, there is an image; on it the kernel finds each name, and under it the bytes of its file; no block is
listed twice; and the bitmap has the metadata and the blocks that are listed, so that `balloc` returns none of them. -/
theorem formats_agree (files : List Source) (fits : Fits files) (apart : Apart files) :
    ∃ t, main files start = .ok ((), t) ∧
      (∀ s dp, Mounted t s dp → ∀ src ∈ files, Ends (TableFull s) (lookup dp src.name) s fun r u => ∃ ip, r = some ip ∧
        (copy u ip).size.toNat = (fileBytes src).length ∧ Reads u ip (fileBytes src).length (chars (fileBytes src))) ∧
      (∀ i < superblock.ninodes, ∀ j < superblock.ninodes, ∀ p q, listed t.sect (dinode t.sect i) p ≠ 0 →
        listed t.sect (dinode t.sect i) p = listed t.sect (dinode t.sect j) q → i = j ∧ p = q) ∧
      (∀ b < superblock.size, FileSystem.Blocks.used t.sect b = true ↔
        b < datastart ∨ ∃ i < superblock.ninodes, ∃ p, listed t.sect (dinode t.sect i) p = b) ∧
      ∀ s, s.disk = t.sect → Ends LogStop FileSystem.Blocks.balloc s fun b _ => b ≠ 0 → datastart ≤ b ∧ b < superblock.size ∧
        ¬∃ i < superblock.ninodes, ∃ p, listed t.sect (dinode t.sect i) p = b := by
  obtain ⟨t, ran, finished⟩ := main_returns fits
  refine ⟨t, ran, fun s dp mounted src mem => ?_, fun i left j right p q some same => ?_, fun b below => used_iff finished below,
    fun s disk => ?_⟩
  · obtain ⟨_, found⟩ := List.getElem?_of_mem mem
    exact lookup_reads finished fits apart mounted found
  · rw [← nodes_known left] at some same
    rw [← nodes_known right] at same
    exact finished.layout.core.apart i j p q ((finished.layout.core.there i p).mp some) same
  · exact balloc_avoids fun b below => disk ▸ used_iff finished below

def shortFile : Source := ⟨[97], letter_text, some [⟨[104], by decide⟩]⟩

theorem formats_agree_short : ∃ t, main [shortFile] start = .ok ((), t) ∧
    Ends (TableFull (bootFs t)) (lookup ⟨0, by decide⟩ [97]) (bootFs t) fun r u => ∃ ip, r = some ip ∧
      (copy u ip).size.toNat = 1 ∧ Reads u ip 1 (chars [104]) := by
  obtain ⟨t, ran, reads, -⟩ := formats_agree [shortFile] (fits_one shortFile (by decide) nofun (by decide) (by decide))
    ⟨List.nodup_singleton _, by decide, by decide⟩
  exact ⟨t, ran, reads _ _ (mounted_boot t) shortFile List.mem_cons_self⟩

/-- The file `_.` with one byte, which gets the name of the first entry of the root directory. -/
def dotFile : Source := ⟨[95, 46], by decide, some [⟨[104], by decide⟩]⟩

/-- Under the name of this file the kernel finds the root directory. -/
theorem dot_finds_root : ∃ t, main [dotFile] start = .ok ((), t) ∧ Mounted t (bootFs t) ⟨0, by decide⟩ ∧
    Ends (fun _ => False) (dirlookup ⟨0, by decide⟩ dotFile.name) (bootFs t) fun r u => ∃ ip k, r = some (ip, k) ∧
      (u.inode ip).valid = true ∧ (copy u ip).size.toNat = 1024 ∧ (fileBytes dotFile).length = 1 := by
  have fits : Fits [dotFile] := fits_one dotFile (by decide) nofun (by decide) (by decide)
  obtain ⟨t, ran, finished⟩ := main_returns fits
  refine ⟨t, ran, mounted_boot t, ?_⟩
  have first := dirlookup_entry finished fits (mounted_boot t) (show (rootEntries [dotFile])[0]? = some _ from rfl) (by decide)
    fun i earlier => absurd earlier (Nat.not_lt_zero i)
  refine (first.stops fun e full => full.2 ⟨1, by decide⟩ rfl).imp ?_
  rintro r u ⟨ip, rfl, gets⟩
  refine ⟨ip, 0, rfl, ?_⟩
  rcases gets.here with ⟨-, -, -, same⟩ | ⟨-, missed, -⟩
  · have read : copy u ip = nodes t.sect ROOTINO := (congrArg Inode.copy same).trans (nodes_known (by decide)).symm
    refine ⟨congrArg Inode.valid same, ?_, by decide⟩
    rw [read, finished.root]
    rfl
  · exact absurd ⟨rfl, rfl⟩ (missed ⟨0, by decide⟩ Int.one_pos)

end Xv6Monitor.Mkfs.Agreement
