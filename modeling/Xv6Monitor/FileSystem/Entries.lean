import Xv6Monitor.Lib.Slots
import Xv6Monitor.FileSystem.Inodes
import Xv6Monitor.FileSystem.Volumes
import Mathlib.Data.List.TakeWhile

/-! The entries of a directory, and the loops of `dirlookup` and `dirlink` over them. -/

namespace Xv6Monitor.FileSystem.Entries
open Function Lib.Bytes Lib.Program Lib.Slots Stops Format Blocks Extents Contents Volumes Inodes

/-! ### Names -/

/-- A name as it is in a path: it has no null bytes. -/
abbrev Text : Type := { name : Name // 0 ∉ name }

/-- The part of a name that a directory entry has room for. -/
def cut (name : Text) : Name := name.val.take DIRSIZ

theorem chars_cons (c : UInt8) (s : List UInt8) : (fun i => chars (c :: s) (i + 1)) = chars s := rfl

theorem strncmp_chars (n : Nat) (s t : Name) (left : 0 ∉ s) (right : 0 ∉ t) :
    strncmp n (chars s) (chars t) = 0 ↔ s.take n = t.take n := by
  induction n generalizing s t with
  | zero => simp [strncmp]
  | succ n ih =>
    unfold strncmp
    cases s with
    | nil =>
      cases t with
      | nil => simp [chars]
      | cons d t =>
        have nonzero : d ≠ 0 := fun zero => right (by simp [zero])
        have positive : d.toNat ≠ 0 := fun zero => nonzero (UInt8.toNat_inj.mp zero)
        simp [chars, positive]
    | cons c s =>
      have nonzero : c ≠ 0 := fun zero => left (by simp [zero])
      have positive : c.toNat ≠ 0 := fun zero => nonzero (UInt8.toNat_inj.mp zero)
      rcases t with _ | ⟨d, t⟩
      · simp [chars, nonzero, positive]
      have rest := ih s t (fun mem => left (List.mem_cons_of_mem c mem)) fun mem => right (List.mem_cons_of_mem d mem)
      rw [chars_cons, chars_cons, List.take_succ_cons, List.take_succ_cons]
      by_cases same : c = d
      · rw [if_pos ⟨nonzero, same⟩, rest, same, List.cons.injEq, and_iff_right rfl]
      have differ : c.toNat ≠ d.toNat := fun equal => same (UInt8.toNat_inj.mp equal)
      rw [if_neg fun both => same both.2, List.cons.injEq]
      show ((c.toNat : Int) - d.toNat = 0) ↔ _
      constructor
      · intro zero
        omega
      · intro both
        exact absurd both.1 same

theorem read_name (b : Data) : 0 ∉ (Dirent.read b).name ∧ (Dirent.read b).name.length ≤ DIRSIZ := by
  constructor
  · intro mem
    have text := List.mem_takeWhile_imp mem
    simp at text
  · have short := (List.takeWhile_prefix (p := fun c : UInt8 => decide (c ≠ 0)) (l := (List.range DIRSIZ).map fun i => b (2 + i))).length_le
    rwa [List.length_map, List.length_range] at short

theorem namecmp_read (name : Text) (b : Data) : namecmp name (Dirent.read b).name = 0 ↔ (Dirent.read b).name = cut name := by
  obtain ⟨text, short⟩ := read_name b
  rw [namecmp, strncmp_chars DIRSIZ _ _ name.2 text, List.take_of_length_le short]
  exact eq_comm

/-! ### The table of entries -/

def entryAt (disk : Nat → Data) (n : Dinode) (k : Nat) : Dirent := Dirent.read fun i => byte disk n (16 * k + i)

def slots (n : Dinode) : Nat := n.size.toNat / 16

def slotAt (disk : Nat → Data) (n : Dinode) (k : Nat) : Option (Name × UInt16) :=
  if (entryAt disk n k).inum = 0 then none else some ((entryAt disk n k).name, (entryAt disk n k).inum)

def entryNamed (disk : Nat → Data) (n : Dinode) (name : Text) : Option Nat := find (slots n) (slotAt disk n) (cut name)

/-- The contents of a directory: whole entries in blocks that are there. -/
structure Listing (disk : Nat → Data) (n : Dinode) : Prop where
  aligned : 16 ∣ n.size.toNat
  whole : Present disk n 0 n.size.toNat

theorem Listing.rounds {disk : Nat → Data} {n : Dinode} (listing : Listing disk n) : rounds n = slots n := by
  obtain ⟨k, size⟩ := listing.aligned
  rw [Inodes.rounds, slots]
  omega

theorem read_congr {b c : Data} (same : ∀ i < 16, b i = c i) : Dirent.read b = Dirent.read c := by
  have number : load16 b 0 = load16 c 0 := congrArg UInt16.ofNat (load_congr fun i _ high => same i (by omega))
  have chars : (List.range DIRSIZ).map (fun i => b (2 + i)) = (List.range DIRSIZ).map fun i => c (2 + i) := by
    apply List.map_congr_left
    intro i mem
    have below : i < 14 := List.mem_range.mp mem
    exact same (2 + i) (by omega)
  rw [Dirent.read, Dirent.read, number, chars]

variable [sb : Superblock] {s t : Fs} {dp : Ip}

theorem readEntry_part {k : Nat} (there : Present s.disk (copy s dp) 0 (16 * k + 16)) (below : k < slots (copy s dp)) :
    Ends (fun _ => False) (readEntry dp k) s fun r t => r = some (entryAt s.disk (copy s dp) k) ∧ t = s := by
  unfold slots at below
  have small := (copy s dp).size.toNat_lt
  have full : min 16 ((copy s dp).size.toNat - 16 * k) = 16 := by omega
  have backs : ∀ tot m, Lib.Positions.Reach (fun _ => True) m ((Place.kernel fun _ => 0).reach tot m) :=
    fun tot m => ⟨Nat.le_refl m, fun _ _ => trivial, fun short => absurd short (Nat.lt_irrefl m)⟩
  unfold readEntry
  refine (readi_part (P := fun _ => True) backs rfl (by rw [full]; exact fun x _ => there x (Nat.zero_le x))).bind
    fun got u ⟨same, read⟩ => ?_
  rw [full, if_pos (by omega)] at read
  obtain ⟨reached, total, each⟩ := read
  have all : got.len = 16 := reached.all_iff.mpr fun _ _ => trivial
  rw [if_pos all] at total
  rw [if_pos total]
  exact ⟨congrArg some (read_congr (all ▸ each)), same⟩

theorem readEntry_spec {k : Nat} (listing : Listing s.disk (copy s dp)) (below : k < slots (copy s dp)) :
    Ends (fun _ => False) (readEntry dp k) s fun r t => r = some (entryAt s.disk (copy s dp) k) ∧ t = s := by
  refine readEntry_part (fun x low high => listing.whole x low ?_) below
  unfold slots at below
  omega

theorem lookupFrom_spec (name : Text) (listing : Listing s.disk (copy s dp)) {left k : Nat} (sum : k + left = slots (copy s dp)) :
    Ends (fun _ => False) (lookupFrom dp name left k) s fun r t => t = s ∧
      r = ((List.range' k left).find? fun j => (slotAt s.disk (copy s dp) j).any fun e => e.1 = cut name).map
        fun j => ((entryAt s.disk (copy s dp) j).inum.toNat, j) := by
  induction left generalizing k with
  | zero => exact ⟨rfl, rfl⟩
  | succ left ih =>
    unfold lookupFrom
    refine (readEntry_spec listing (by omega)).bind fun r u ⟨read, same⟩ => ?_
    subst read same
    dsimp only
    have matches_iff : ((slotAt u.disk (copy u dp) k).any fun e => e.1 = cut name) = true ↔
        (entryAt u.disk (copy u dp) k).inum ≠ 0 ∧ namecmp name (entryAt u.disk (copy u dp) k).name = 0 := by
      rw [entryAt, namecmp_read, ← entryAt, slotAt]
      by_cases free : (entryAt u.disk (copy u dp) k).inum = 0
      · simp [free]
      · simp [free]
    rw [List.range'_succ, List.find?_cons]
    by_cases found : (entryAt u.disk (copy u dp) k).inum ≠ 0 ∧ namecmp name (entryAt u.disk (copy u dp) k).name = 0
    · rw [if_pos found, matches_iff.mpr found]
      exact ⟨rfl, rfl⟩
    · rw [if_neg found, Bool.eq_false_iff.mpr fun holds => found (matches_iff.mp holds)]
      exact ih (by omega)

theorem lookupFrom_hit (name : Text) {left k j : Nat} (there : Present s.disk (copy s dp) 0 (16 * j + 16))
    (below : j < slots (copy s dp)) (low : k ≤ j) (enough : j < k + left)
    (before : ∀ i < j, (entryAt s.disk (copy s dp) i).name ≠ cut name) (used : (entryAt s.disk (copy s dp) j).inum ≠ 0)
    (named : (entryAt s.disk (copy s dp) j).name = cut name) :
    Ends (fun _ => False) (lookupFrom dp name left k) s fun r t => t = s ∧ r = some ((entryAt s.disk (copy s dp) j).inum.toNat, j) := by
  induction left generalizing k with
  | zero => omega
  | succ left ih =>
    unfold lookupFrom
    refine (readEntry_part (fun x low high => there x low (by omega)) (by omega)).bind fun r u ⟨read, same⟩ => ?_
    subst read same
    dsimp only
    by_cases here : k = j
    · subst here
      have equal : namecmp name (entryAt u.disk (copy u dp) k).name = 0 := by
        rw [entryAt, namecmp_read]
        exact named
      rw [if_pos ⟨used, equal⟩]
      exact ⟨rfl, rfl⟩
    · have differ : ¬((entryAt u.disk (copy u dp) k).inum ≠ 0 ∧ namecmp name (entryAt u.disk (copy u dp) k).name = 0) := by
        rintro ⟨-, equal⟩
        rw [entryAt, namecmp_read] at equal
        exact before k (by omega) equal
      rw [if_neg differ]
      exact ih (by omega) (by omega)

theorem emptyFrom_spec (listing : Listing s.disk (copy s dp)) {left k : Nat} (sum : k + left = slots (copy s dp)) :
    Ends (fun _ => False) (emptyFrom dp left k) s fun r t => t = s ∧ k ≤ r ∧ r ≤ slots (copy s dp) ∧
      (∀ j, k ≤ j → j < r → slotAt s.disk (copy s dp) j ≠ none) ∧
      (r < slots (copy s dp) → slotAt s.disk (copy s dp) r = none) := by
  induction left generalizing k with
  | zero => exact ⟨rfl, Nat.le_refl k, by omega, fun j low high => by omega, fun less => by omega⟩
  | succ left ih =>
    unfold emptyFrom
    refine (readEntry_spec listing (by omega)).bind fun r u ⟨read, same⟩ => ?_
    subst read same
    dsimp only
    by_cases free : (entryAt u.disk (copy u dp) k).inum = 0
    · rw [if_pos free]
      exact ⟨rfl, Nat.le_refl k, by omega, fun j low high => by omega, fun _ => if_pos free⟩
    rw [if_neg free]
    refine (ih (by omega)).imp fun r t ⟨same, low, high, used, end_free⟩ => ⟨same, by omega, high, fun j above below => ?_, end_free⟩
    by_cases first : j = k
    · rw [first, slotAt, if_neg free]
      exact nofun
    · exact used j (by omega) below

/-! ### Looking up -/

def NoInodes : FsStop → Prop := fun e => e = .panic .noInodes

/-- A lookup stops only if every entry of the inode table is in use. -/
def TableFull (s : Fs) : FsStop → Prop := fun e => NoInodes e ∧ ∀ ip, (s.inode ip).ref ≠ 0

omit sb in
/-- The table has one more reference to an inode, in the entry that it had or in one that was free. -/
structure Gets (s t : Fs) (ip : Ip) (dev inum : Nat) : Prop where
  same : t = { s with inode := t.inode }
  others : ∀ j ≠ ip, t.inode j = s.inode j
  here : (0 < (s.inode ip).ref ∧ (s.inode ip).dev = dev ∧ (s.inode ip).inum = inum ∧
        t.inode ip = { s.inode ip with ref := (s.inode ip).ref + 1 }) ∨
      ((s.inode ip).ref = 0 ∧ (∀ j, 0 < (s.inode j).ref → ¬((s.inode j).dev = dev ∧ (s.inode j).inum = inum)) ∧
        t.inode ip = { s.inode ip with dev := dev, inum := inum, ref := 1, valid := false })

omit sb in
theorem iget_gets {dev inum : Nat} : Ends (TableFull s) (iget dev inum) s fun ip t => Gets s t ip dev inum := by
  unfold iget
  rw [ends_get_bind]
  split
  next ip found =>
    have hit := List.find?_some found
    simp only [decide_eq_true_eq] at hit
    refine ⟨rfl, fun j other => update_of_ne other .., .inl ⟨hit.1, hit.2.1, hit.2.2, update_self ..⟩⟩
  next missed =>
    have miss : ∀ j, 0 < (s.inode j).ref → ¬((s.inode j).dev = dev ∧ (s.inode j).inum = inum) := by
      intro j referenced same
      have no := List.find?_eq_none.mp missed j (List.mem_finRange j)
      exact no (by simpa using ⟨referenced, same⟩)
    split
    next full =>
      refine ⟨rfl, fun j free => ?_⟩
      have no := List.find?_eq_none.mp full j (List.mem_finRange j)
      exact no (by simpa using free)
    next ip found =>
      have free := List.find?_some found
      simp only [decide_eq_true_eq] at free
      exact ⟨rfl, fun j other => update_of_ne other .., .inr ⟨free, miss, update_self ..⟩⟩

omit sb in
theorem Gets.number {ip : Ip} {dev inum : Nat} (gets : Gets s t ip dev inum) (held : 0 < (s.inode dp).ref) :
    (t.inode dp).inum = (s.inode dp).inum := by
  by_cases here : dp = ip
  · subst here
    rcases gets.here with ⟨-, -, -, same⟩ | ⟨free, -⟩
    · rw [same]
    · omega
  · rw [gets.others dp here]

def Finds (s : Fs) (dp : Ip) (name : Text) (r : Option (Ip × Nat)) (t : Fs) : Prop :=
  match entryNamed s.disk (copy s dp) name with
  | none => r = none ∧ t = s
  | some k => ∃ ip, r = some (ip, k) ∧ Gets s t ip (s.inode dp).dev (entryAt s.disk (copy s dp) k).inum.toNat

theorem dirlookup_finds {name : Text} (dir : (copy s dp).type = T_DIR) (listing : Listing s.disk (copy s dp)) :
    Ends (TableFull s) (dirlookup dp name) s (Finds s dp name) := by
  have rounds := listing.rounds
  unfold dirlookup
  rw [ends_get_bind]
  rw [if_neg (not_not.mpr dir), show Inodes.rounds (s.inode dp).copy = slots (copy s dp) from rounds]
  refine ((lookupFrom_spec name listing (Nat.zero_add _)).stops fun _ => False.elim).bind fun r u ⟨same, result⟩ => ?_
  subst same
  rw [← List.range_eq_range'] at result
  unfold Finds
  cases found : entryNamed u.disk (copy u dp) name with
  | none =>
    rw [entryNamed, find] at found
    rw [found] at result
    subst result
    exact ⟨rfl, rfl⟩
  | some k =>
    rw [entryNamed, find] at found
    rw [found] at result
    subst result
    show Ends (TableFull u) ((fun ip => some (ip, k)) <$> iget _ _) u _
    rw [map_eq_pure_bind]
    exact iget_gets.bind fun ip t gets => ⟨ip, rfl, gets⟩

theorem dirlookup_hit {name : Text} {j : Nat} (dir : (copy s dp).type = T_DIR) (there : Present s.disk (copy s dp) 0 (16 * j + 16))
    (below : j < slots (copy s dp)) (before : ∀ i < j, (entryAt s.disk (copy s dp) i).name ≠ cut name)
    (used : (entryAt s.disk (copy s dp) j).inum ≠ 0) (named : (entryAt s.disk (copy s dp) j).name = cut name) :
    Ends (TableFull s) (dirlookup dp name) s fun r t => ∃ ip, r = some (ip, j) ∧
      Gets s t ip (s.inode dp).dev (entryAt s.disk (copy s dp) j).inum.toNat := by
  have enough : j < 0 + Inodes.rounds (copy s dp) := by
    unfold slots at below
    unfold Inodes.rounds
    omega
  unfold dirlookup
  rw [ends_get_bind]
  rw [if_neg (not_not.mpr dir)]
  refine ((lookupFrom_hit name there below (Nat.zero_le j) enough before used named).stops fun _ => False.elim).bind ?_
  rintro r u ⟨rfl, rfl⟩
  show Ends (TableFull u) ((fun ip => some (ip, j)) <$> iget _ _) u _
  rw [map_eq_pure_bind]
  exact iget_gets.bind fun ip t gets => ⟨ip, rfl, gets⟩

end Xv6Monitor.FileSystem.Entries
