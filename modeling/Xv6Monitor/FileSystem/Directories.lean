import Xv6Monitor.FileSystem.Entries
import Xv6Monitor.FileSystem.Faults

/-! A directory is a finite map from names to inode numbers. `dirlink` adds a name to it, and clearing an entry as
`sys_unlink` does removes one. -/

namespace Xv6Monitor.FileSystem.Directories
open Function Lib.Bytes Lib.Program Lib.Slots Lib.Transition Stops Format Blocks Fields Extents Mapping Contents Volumes Inodes Entries

variable [sb : Superblock] {s t u : Fs} {ip : Ip}

/-- A directory of a file system, referred to by the caller, with no name twice. -/
structure Directory extends Volume where
  dir : (copy state ip).type = T_DIR
  referenced : 0 < (state.inode ip).ref
  aligned : 16 ∣ (copy state ip).size.toNat
  distinct : Distinct (slots (copy state ip)) (slotAt state.disk (copy state ip))

namespace Directory

variable (d : Directory)

def answers : Name → Option UInt16 := answer (slots (copy d.state d.ip)) (slotAt d.state.disk (copy d.state d.ip))

theorem listing : Listing d.state.disk (copy d.state d.ip) := ⟨d.aligned, d.whole⟩

theorem size_eq : d.size = 16 * slots (copy d.state d.ip) := (Nat.mul_div_cancel' d.aligned).symm

end Directory

/-! ### References -/

/-- The file system is the same but for references to inodes, and the directory is still referred to. -/
structure Touches (dp : Ip) (s t : Fs) : Prop where
  disk : t.disk = s.disk
  copy : copy t dp = copy s dp
  inum : (t.inode dp).inum = (s.inode dp).inum
  referenced : 0 < (t.inode dp).ref

def Touches.directory {d : Directory} (touches : Touches d.ip d.state t) : Directory where
  state := t
  ip := d.ip
  node := d.node
  held := by rw [touches.inum, touches.copy, d.held]
  live := by
    rw [touches.inum]
    exact d.live
  owned := by
    rw [touches.disk]
    exact d.owned
  whole := by
    rw [touches.disk, touches.copy]
    exact d.whole
  dir := by rw [touches.copy, d.dir]
  referenced := touches.referenced
  aligned := by
    rw [touches.copy]
    exact d.aligned
  distinct := by
    rw [touches.disk, touches.copy]
    exact d.distinct

theorem Touches.answers {d : Directory} (touches : Touches d.ip d.state t) : touches.directory.answers = d.answers := by
  unfold Directory.answers
  show answer (slots (Extents.copy t d.ip)) (slotAt t.disk (Extents.copy t d.ip)) = _
  rw [touches.disk, touches.copy]

omit sb in
theorem Touches.refl {dp : Ip} (referenced : 0 < (s.inode dp).ref) : Touches dp s s := ⟨rfl, rfl, rfl, referenced⟩

omit sb in
theorem Gets.touches {dp : Ip} {dev inum : Nat} (gets : Gets s t ip dev inum) (referenced : 0 < (s.inode dp).ref) :
    Touches dp s t := by
  have disk : t.disk = s.disk := by rw [gets.same]
  by_cases other : dp = ip
  · subst other
    rcases gets.here with ⟨-, -, -, here⟩ | ⟨free, -⟩
    · refine ⟨disk, ?_, ?_, ?_⟩
      · rw [copy, here]
      · rw [here]
      · rw [here]
        show 0 < (s.inode dp).ref + 1
        omega
    · omega
  · have same := gets.others dp other
    exact ⟨disk, by rw [copy, same], by rw [same], by rwa [same]⟩

omit sb in
theorem Touches.trans {dp : Ip} (first : Touches dp s t) (second : Touches dp t u) : Touches dp s u :=
  ⟨second.disk.trans first.disk, second.copy.trans first.copy, second.inum.trans first.inum, second.referenced⟩

omit sb in
theorem Gets.last {dev inum : Nat} (gets : Gets s t ip dev inum) :
    ¬((t.inode ip).ref = 1 ∧ (t.inode ip).valid = true) := by
  rintro ⟨last, valid⟩
  rcases gets.here with ⟨referenced, -, -, here⟩ | ⟨-, -, here⟩
  · rw [here] at last
    have last : (s.inode ip).ref + 1 = 1 := last
    omega
  · rw [here] at valid
    exact nomatch valid

theorem iput_touches {dp : Ip} {dev inum : Nat} (gets : Gets s t ip dev inum) (referenced : 0 < (s.inode dp).ref)
    (others : ∀ j ≠ dp, u.inode j = t.inode j) (same : (u.inode dp).ref = (t.inode dp).ref) :
    Ends (fun _ => False) (iput ip) u fun _ w => Touches dp u w := by
  unfold iput
  rw [ends_get_bind]
  by_cases this : ip = dp
  · subst this
    have more : (u.inode ip).ref = (s.inode ip).ref + 1 := by
      rcases gets.here with ⟨-, -, -, here⟩ | ⟨free, -⟩
      · rw [same, here]
      · omega
    have now : update u.inode ip { u.inode ip with ref := (u.inode ip).ref - 1 } ip =
        { u.inode ip with ref := (u.inode ip).ref - 1 } := update_self ..
    rw [if_neg (by omega)]
    refine ⟨rfl, (congrArg Inode.copy now :), (congrArg Inode.inum now :), lt_of_lt_of_eq ?_ (congrArg Inode.ref now).symm⟩
    show 0 < (u.inode ip).ref - 1
    omega
  · rw [others ip this, if_neg fun both => Gets.last gets ⟨both.1, both.2.1⟩]
    have kept : update u.inode ip { u.inode ip with ref := (u.inode ip).ref - 1 } dp = u.inode dp :=
      update_of_ne (Ne.symm this) ..
    refine ⟨rfl, congrArg Inode.copy kept, congrArg Inode.inum kept, lt_of_lt_of_eq ?_ (congrArg Inode.ref kept).symm⟩
    rw [same, gets.others dp (Ne.symm this)]
    exact referenced

/-! ### Writing an entry -/

def Room (d : Directory) : Prop :=
  d.size + 16 ≤ MAXFILE * BSIZE ∧
    (blockOf d.state.disk (copy d.state d.ip) (d.size / BSIZE) ≠ 0 ∨ ¬Scarce d.ip d.state (spot (d.size / BSIZE)))

section Write

variable {d : Directory} {data : Data} {k tot : Nat} (updated : Updated d.toVolume (fun _ => True) data (16 * k) 16 tot 0 t)

include updated

theorem slots_updated (le : k ≤ slots (copy d.state d.ip)) (all : tot = 16 ∨ tot = 0) :
    16 ∣ (copy t d.ip).size.toNat ∧ slots (copy t d.ip) = if tot = 0 then slots (copy d.state d.ip) else max (slots (copy d.state d.ip)) (k + 1) := by
  have size := d.size_eq
  have after := updated.size
  rw [slots]
  split <;> omega

theorem entryAt_updated {j : Nat} (inside : 16 * j + 16 ≤ max d.size (16 * k + tot)) (all : tot = 16 ∨ tot = 0) :
    entryAt t.disk (copy t d.ip) j =
      if j = k ∧ tot = 16 then Dirent.read data else entryAt d.state.disk (copy d.state d.ip) j := by
  by_cases here : j = k ∧ tot = 16
  · rw [if_pos here]
    apply read_congr
    intro i low
    rw [updated.bytes (16 * j + i) (by omega), splice, if_pos (by omega), here.1, Nat.add_sub_cancel_left]
  · rw [if_neg here]
    apply read_congr
    intro i low
    rw [updated.bytes (16 * j + i) (by omega), splice, if_neg (by omega)]
    rfl

theorem slotAt_kept {j : Nat} (below : j < slots (copy d.state d.ip)) (all : tot = 16 ∨ tot = 0) (other : ¬(j = k ∧ tot = 16)) :
    slotAt t.disk (copy t d.ip) j = slotAt d.state.disk (copy d.state d.ip) j := by
  have size := d.size_eq
  have entry := entryAt_updated updated (show 16 * j + 16 ≤ max d.size (16 * k + tot) by omega) all
  rw [if_neg other] at entry
  rw [slotAt, slotAt, entry]

theorem slotAt_written (all : tot = 16) :
    slotAt t.disk (copy t d.ip) k =
      if (Dirent.read data).inum = 0 then none else some ((Dirent.read data).name, (Dirent.read data).inum) := by
  have entry := entryAt_updated updated (show 16 * k + 16 ≤ max d.size (16 * k + tot) by omega) (.inl all)
  rw [if_pos ⟨rfl, all⟩] at entry
  rw [slotAt, entry]

def directory (aligned : 16 ∣ (copy t d.ip).size.toNat) (distinct : Distinct (slots (copy t d.ip)) (slotAt t.disk (copy t d.ip))) :
    Directory where
  toVolume := updated.volume
  dir := by
    have same := updated.type
    exact same.trans d.dir
  referenced := by
    have same := congrArg Inode.ref updated.self
    have referenced := d.referenced
    rw [← same] at referenced
    exact referenced
  aligned := aligned
  distinct := distinct

/-- An entry is in one block, so it is written as a whole or not at all. -/
theorem all_or_nothing : tot = 16 ∨ tot = 0 := by
  have most := updated.most
  by_cases short : tot < 16
  · have aligned := updated.aligned short
    simp only [BSIZE] at aligned
    omega
  · omega

end Write

def Becomes (d : Directory) (t : Fs) (answers : Name → Option UInt16) : Prop :=
  ∃ e : Directory, e.state = t ∧ e.ip = d.ip ∧ e.answers = answers

theorem Touches.becomes {d : Directory} (touches : Touches d.ip d.state t) : Becomes d t d.answers :=
  ⟨touches.directory, rfl, rfl, touches.answers⟩

variable (d : Directory)
include d

theorem writeEntry_spec (data : Data) {k : Nat} (le : k ≤ slots (copy d.state d.ip)) :
    Ends LogStop (writei d.ip (.kernel data) (16 * k) 16) d.state fun r t =>
      (r = some 16 ∧ (k = slots (copy d.state d.ip) → Room d) ∧ Updated d.toVolume (fun _ => True) data (16 * k) 16 16 0 t) ∨
        (r ≠ some 16 ∧ k = slots (copy d.state d.ip) ∧ ¬Room d ∧ Becomes d t d.answers) := by
  have size := d.size_eq
  have bound := d.size_le
  refine (writei_spec d.toVolume (backs_kernel data) (16 * k) 16).imp fun r t outcome => ?_
  rcases outcome with ⟨none, refused, same⟩ | ⟨accepted, tot, extra, returned, updated⟩
  · right
    have limit : MAXFILE * BSIZE < 2 ^ 32 := by decide
    unfold Refused at refused
    subst none same
    refine ⟨nofun, by omega, fun room => ?_, (Touches.refl d.referenced).becomes⟩
    have grows := room.1
    omega
  · have nothing : extra = 0 := by
      cases updated.ended with
      | all _ none => exact none
      | full _ _ _ none => exact none
      | fault _ _ _ fails => exact absurd trivial fails
    subst nothing
    subst returned
    have whole := all_or_nothing updated
    unfold Refused at accepted
    rcases whole with rfl | rfl
    · refine .inl ⟨rfl, fun last => ⟨by omega, ?_⟩, updated⟩
      apply or_iff_not_imp_left.mpr
      intro vacant
      have present := (updated.whole (16 * k) (Nat.zero_le _) (by omega)).2
      rw [show 16 * k = d.size by omega] at present
      exact not_scarce updated.fresh updated.volume.tidy (not_not.mp vacant) present
    · right
      have scarce : blockOf d.state.disk (copy d.state d.ip) (16 * k / BSIZE) = 0 ∧ Scarce d.ip d.state (spot (16 * k / BSIZE)) := by
        cases updated.ended with
        | all same => exact absurd same (by decide)
        | full _ vacant _ _ scarce => exact ⟨vacant, scarce rfl⟩
        | fault _ _ _ fails => exact absurd trivial fails
      have last : k = slots (copy d.state d.ip) := by
        by_contra early
        exact (d.whole (16 * k) (Nat.zero_le _) (by rw [← Volume.size]; omega)).2 scarce.1
      have place : 16 * k = d.size := by omega
      rw [place] at scarce
      refine ⟨by decide, last, fun room => room.2.elim (fun present => present scarce.1) fun enough => enough scarce.2, ?_⟩
      obtain ⟨aligned, count⟩ := slots_updated updated le (.inr rfl)
      rw [if_pos rfl] at count
      have same : ∀ j < slots (copy d.state d.ip), slotAt t.disk (copy t d.ip) j = slotAt d.state.disk (copy d.state d.ip) j :=
        fun j below => slotAt_kept updated below (.inr rfl) (by omega)
      have distinct := d.distinct.congr same
      rw [← count] at distinct
      refine ⟨directory updated aligned distinct, rfl, rfl, ?_⟩
      show answer (slots (copy t d.ip)) (slotAt t.disk (copy t d.ip)) = d.answers
      rw [count, answer_congr d.distinct same]
      rfl

/-! ### The operations -/

abbrev Inum : Type := { inum : UInt16 // inum ≠ 0 }

/-- How the operations on directories stop: for want of a table entry or of room in the log. -/
def DirStop : FsStop → Prop := fun e => NoInodes e ∨ LogStop e

theorem dirlookup_spec (name : Text) : Ends DirStop (dirlookup d.ip name) d.state fun r t =>
      (r.map fun found => (t.inode found.1).inum) = (d.answers (cut name)).map UInt16.toNat ∧ Becomes d t d.answers := by
  refine ((dirlookup_finds d.dir d.listing).stops fun _ full => Or.inl full.1).imp fun r t finds => ?_
  unfold Finds at finds
  cases found : entryNamed d.state.disk (copy d.state d.ip) name with
  | none =>
    rw [found] at finds
    obtain ⟨rfl, rfl⟩ := finds
    refine ⟨?_, (Touches.refl d.referenced).becomes⟩
    rw [Directory.answers, answer_none.mpr found]
    rfl
  | some k =>
    rw [found] at finds
    obtain ⟨ip, rfl, gets⟩ := finds
    refine ⟨?_, (Gets.touches gets d.referenced).becomes⟩
    obtain ⟨below, inum, entry⟩ := find_some found
    have answered : d.answers (cut name) = some inum := (answer_some d.distinct).mpr ⟨k, below, entry⟩
    have number : (entryAt d.state.disk (copy d.state d.ip) k).inum = inum := by
      rw [slotAt] at entry
      split at entry
      · cases entry
      · exact (Prod.mk.inj (Option.some.inj entry)).2
    rw [answered, Option.map_some, ← number]
    congr 1
    rcases gets.here with ⟨-, -, same, here⟩ | ⟨-, -, here⟩
    · show (t.inode ip).inum = _
      rw [here]
      exact same
    · show (t.inode ip).inum = _
      rw [here]

theorem dirlink_spec (name : Text) (inum : Inum) :
    Ends DirStop (dirlink d.ip name inum.val.toNat) d.state fun linked t =>
      (linked = true ↔ d.answers (cut name) = none ∧
        ((∃ k < slots (copy d.state d.ip), slotAt d.state.disk (copy d.state d.ip) k = none) ∨ Room d)) ∧
      Becomes d t (if linked then update d.answers (cut name) (some inum.val) else d.answers) := by
  unfold dirlink
  refine ((dirlookup_finds d.dir d.listing).stops fun _ full => Or.inl full.1).bind fun r t finds => ?_
  unfold Finds at finds
  cases found : entryNamed d.state.disk (copy d.state d.ip) name with
  | some k =>
    rw [found] at finds
    obtain ⟨ip, rfl, gets⟩ := finds
    refine ((iput_touches gets d.referenced (fun _ _ => rfl) rfl).stops fun e => False.elim).bind fun _ u back => ?_
    refine ⟨iff_of_false Bool.false_ne_true fun both => ?_, ((Gets.touches gets d.referenced).trans back).becomes⟩
    have absent := both.1
    rw [Directory.answers, answer_none, ← entryNamed, found] at absent
    cases absent
  | none =>
    rw [found] at finds
    obtain ⟨rfl, rfl⟩ := finds
    have absent : d.answers (cut name) = none := answer_none.mpr found
    dsimp only
    rw [ends_get_bind, show rounds (d.state.inode d.ip).copy = slots (copy d.state d.ip) from d.listing.rounds]
    refine ((emptyFrom_spec d.listing (Nat.zero_add _)).stops fun e => False.elim).bind ?_
    rintro k u ⟨same, _, le, used, free⟩
    subst same
    have text : ∀ c ∈ name.val, c ≠ 0 := fun c mem zero => name.2 (zero ▸ mem)
    rw [UInt16.ofNat_toNat]
    refine ((writeEntry_spec d (Dirent.bytes ⟨inum.val, name.val⟩) le).stops fun e => Or.inr).bind fun r t outcome => ?_
    rcases outcome with ⟨rfl, room, updated⟩ | ⟨failed, last, crowded, becomes⟩
    · rw [ends_pure, decide_eq_true rfl, if_pos rfl]
      refine ⟨iff_of_true rfl ⟨absent, ?_⟩, ?_⟩
      · by_cases inside : k < slots (copy d.state d.ip)
        · exact .inl ⟨k, inside, free inside⟩
        · exact .inr (room (by omega))
      obtain ⟨aligned, count⟩ := slots_updated updated le (.inl rfl)
      have here : slotAt t.disk (copy t d.ip) k = some (cut name, inum.val) := by
        rw [slotAt_written updated rfl, Dirent.read_bytes _ _ text, if_neg inum.2]
        rfl
      have others : ∀ j < slots (copy d.state d.ip), j ≠ k →
          slotAt t.disk (copy t d.ip) j = slotAt d.state.disk (copy d.state d.ip) j :=
        fun j below other => slotAt_kept updated below (.inl rfl) fun both => other both.1
      have distinct := distinct_put found le count here others d.distinct
      exact ⟨directory updated aligned distinct, rfl, rfl, answer_put d.distinct found free le count here others⟩
    · rw [ends_pure, decide_eq_false failed, if_neg Bool.false_ne_true]
      refine ⟨iff_of_false (by decide) fun both => ?_, becomes⟩
      rcases both.2 with ⟨j, below, vacant⟩ | room
      · exact used j (Nat.zero_le j) (by omega) vacant
      · exact crowded room

/-- Clearing the entry that a lookup has reported removes the name; no reference changes. -/
theorem clear_spec (name : Text) {k : Nat} (found : entryNamed d.state.disk (copy d.state d.ip) name = some k) :
    Ends LogStop (writei d.ip (.kernel fun _ => 0) (16 * k) 16) d.state fun r t =>
      r = some 16 ∧ Becomes d t (update d.answers (cut name) none) ∧
        (∀ j ≠ d.ip, t.inode j = d.state.inode j) ∧ (t.inode d.ip).ref = (d.state.inode d.ip).ref := by
  obtain ⟨below, inum, entry⟩ := find_some found
  refine (writeEntry_spec d (fun _ => 0) (Nat.le_of_lt below)).imp fun r t outcome => ?_
  rcases outcome with ⟨returned, -, updated⟩ | ⟨-, last, -⟩
  · refine ⟨returned, ?_⟩
    obtain ⟨aligned, count⟩ := slots_updated updated (Nat.le_of_lt below) (.inl rfl)
    rw [if_neg (by decide), Nat.max_eq_left below] at count
    have here : slotAt t.disk (copy t d.ip) k = none := slotAt_written updated rfl
    have others : ∀ j < slots (copy d.state d.ip), j ≠ k →
        slotAt t.disk (copy t d.ip) j = slotAt d.state.disk (copy d.state d.ip) j :=
      fun j inside other => slotAt_kept updated inside (.inl rfl) fun both => other both.1
    have distinct := distinct_clear d.distinct here others
    have answers := answer_clear d.distinct below entry here others
    rw [← count] at distinct
    refine ⟨⟨directory updated aligned distinct, rfl, rfl, ?_⟩, updated.entries, (congrArg Inode.ref updated.self :)⟩
    show answer (slots (copy t d.ip)) _ = _
    rw [count]
    exact answers
  · omega

/-! ### Sequences of operations -/

inductive Operation where
  | link (name : Text) (inum : Inum)
  /-- The entry that a lookup reports is cleared. -/
  | clear (name : Text)

def Operation.run (dp : Ip) : Operation → FsProg Unit
  | .link name inum => do
    let _ ← dirlink dp name inum.val.toNat
  | .clear name => do
    match ← dirlookup dp name with
    | none => pure ()
    | some (ip, k) =>
      let _ ← writei dp (.kernel fun _ => 0) (16 * k) 16
      iput ip

def machine (d : Directory) : Machine Fs Operation where
  init := d.state
  step := fun s operation =>
    match operation.run d.ip s with
    | .ok (_, t) => some t
    | .error _ => none

theorem lookup_clear_spec (name : Text) :
    Ends DirStop (dirlookup d.ip name) d.state fun r t => ∀ ip k, r = some (ip, k) →
      Ends LogStop (writei d.ip (.kernel fun _ => 0) (16 * k) 16) t fun r u =>
        (r = some 16 ∧ Becomes d u (update d.answers (cut name) none)) ∧
        Ends (fun _ => False) (iput ip) u fun _ w => Becomes d w (update d.answers (cut name) none) := by
  refine ((dirlookup_finds d.dir d.listing).stops fun _ full => Or.inl full.1).imp fun r t finds ip k returned => ?_
  unfold Finds at finds
  rcases found : entryNamed d.state.disk (copy d.state d.ip) name with _ | _
  · rw [found] at finds
    exact nomatch finds.1.symm.trans returned
  rw [found] at finds
  obtain ⟨ip', same, gets⟩ := finds
  cases same.symm.trans returned
  have touches := Gets.touches gets d.referenced
  have there : entryNamed t.disk (copy t d.ip) name = some k := by rw [touches.disk, touches.copy, found]
  refine (clear_spec touches.directory name there).imp fun r u ⟨returned, ⟨e, state, place, answers⟩, others, same⟩ => ?_
  rw [touches.answers] at answers
  refine ⟨⟨returned, e, state, place, answers⟩, (iput_touches gets d.referenced others same).imp fun _ w back => ?_⟩
  change e.ip = d.ip at place
  rw [← state, ← place] at back
  exact ⟨back.directory, rfl, place, back.answers.trans answers⟩

theorem step_directory (operation : Operation) :
    Ends Any (operation.run d.ip) d.state fun _ t => ∃ answers, Becomes d t answers := by
  cases operation with
  | link name inum =>
    exact ((dirlink_spec d name inum).stops fun _ _ => trivial).bind fun linked t ⟨_, becomes⟩ => ⟨_, becomes⟩
  | clear name =>
    unfold Operation.run
    refine (((dirlookup_spec d name).and (lookup_clear_spec d name)).stops fun _ _ => trivial).bind
      fun r t ⟨⟨_, becomes⟩, clears⟩ => ?_
    match r with
    | none => exact ⟨_, becomes⟩
    | some (ip, k) =>
      refine ((clears ip k rfl).stops fun _ _ => trivial).bind fun _ u ⟨_, back⟩ => ?_
      exact (back.stops fun _ => False.elim).imp fun _ w becomes => ⟨_, becomes⟩

theorem run_directory (run : Run (machine d) s) : ∃ e : Directory, e.state = s ∧ e.ip = d.ip := by
  refine Path.invariant (I := fun s => ∃ e : Directory, e.state = s ∧ e.ip = d.ip) (fun s operation t moved held => ?_)
    ⟨d, rfl, rfl⟩ run
  obtain ⟨e, rfl, place⟩ := held
  have step := step_directory e operation
  simp only [machine] at moved
  rw [← place] at moved
  split at moved
  next ran =>
    obtain ⟨answers, f, after, there, -⟩ := step.ok ran
    exact ⟨f, after.trans (Option.some.inj moved), there.trans place⟩
  next => exact nomatch moved

omit d

def smallDirectory : @Directory Faults.smallDisk :=
  letI := Faults.smallDisk
  { toVolume := Faults.smallVolume T_DIR (fun _ => 0) 32 (by decide) (by decide)
    dir := rfl
    referenced := Int.one_pos
    aligned := ⟨2, rfl⟩
    distinct := by
      intro j low k high key v w left right
      have free : ∀ k < 2, slotAt (Faults.smallBlocks fun _ => 0) (Faults.smallInode T_DIR 32) k = none := by decide +kernel
      exact nomatch (free j low).symm.trans left }

/-- A directory is a finite map: `dirlookup` looks a name up, `dirlink` adds one, clearing an entry removes one, and no
sequence of these brings a name into it twice. -/
theorem directory_is_finite_map (d : Directory) :
    (∀ name : Text, Ends DirStop (dirlookup d.ip name) d.state fun r t =>
      (r.map fun found => (t.inode found.1).inum) = (d.answers (cut name)).map UInt16.toNat ∧ Becomes d t d.answers) ∧
    (∀ (name : Text) (inum : Inum), Ends DirStop (dirlink d.ip name inum.val.toNat) d.state fun linked t =>
      (linked = true ↔ d.answers (cut name) = none ∧
        ((∃ k < slots (copy d.state d.ip), slotAt d.state.disk (copy d.state d.ip) k = none) ∨ Room d)) ∧
      Becomes d t (if linked then update d.answers (cut name) (some inum.val) else d.answers)) ∧
    (∀ name : Text, Ends DirStop (dirlookup d.ip name) d.state fun r t => ∀ ip k, r = some (ip, k) →
      Ends LogStop (writei d.ip (.kernel fun _ => 0) (16 * k) 16) t fun r u =>
        r = some 16 ∧ Becomes d u (update d.answers (cut name) none)) ∧
    ∀ s, Run (machine d) s → ∃ e : Directory, e.state = s ∧ e.ip = d.ip :=
  ⟨dirlookup_spec d, dirlink_spec d, fun name => (lookup_clear_spec d name).imp fun _ _ clears ip k found =>
    (clears ip k found).imp fun _ _ cleared => cleared.1, fun _ run => run_directory d run⟩

omit sb in
/-- The name `a` is added, and found then. -/
theorem directory_is_finite_map_small :
    letI := Faults.smallDisk
    ∃ e : Directory, dirlink smallDirectory.ip [97] 5 smallDirectory.state = .ok (true, e.state) ∧
      Ends DirStop (dirlookup e.ip [97]) e.state fun r t => (r.map fun found => (t.inode found.1).inum) = some 5 := by
  let := Faults.smallDisk
  have linked : (dirlink smallDirectory.ip [97] 5 smallDirectory.state).toOption.any (·.1) = true := by decide +kernel
  cases ran : dirlink smallDirectory.ip [97] 5 smallDirectory.state with
  | error e =>
    rw [ran] at linked
    exact nomatch linked
  | ok result =>
    rw [ran] at linked
    obtain ⟨r, t⟩ := result
    obtain rfl : r = true := linked
    obtain ⟨-, e, rfl, -, answers⟩ :=
      ((directory_is_finite_map smallDirectory).2.1 ⟨[97], by decide⟩ ⟨5, by decide⟩).ok ran
    refine ⟨e, rfl, ((directory_is_finite_map e).1 ⟨[97], by decide⟩).imp fun r t found => found.1.trans ?_⟩
    rw [answers, if_pos rfl, update_self]
    rfl

end Xv6Monitor.FileSystem.Directories
