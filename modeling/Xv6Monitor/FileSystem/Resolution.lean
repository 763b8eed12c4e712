import Xv6Monitor.FileSystem.Components
import Xv6Monitor.FileSystem.Faults
import Xv6Monitor.FileSystem.Walking

/-! Path names are resolved by looking up their components one after the other, starting from the root or from the current
directory. -/

namespace Xv6Monitor.FileSystem.Resolution
open Lib.Bytes Lib.Program Lib.Slots Lib.Tally Format Blocks Fields Inodes Entries Components References Walking
open Disk.Buffers (ROOTDEV)

variable [sb : Superblock]

def resolve (disk : Nat → Data) : Nat → List Name → Option Nat
  | i, [] => some i
  | i, name :: rest => (child disk i name).bind fun j => resolve disk j rest

def parent (disk : Nat → Data) (i : Nat) (names : List Name) : Option (Nat × Name) :=
  names.getLast?.bind fun last => (resolve disk i names.dropLast).bind fun j =>
    if (dinode disk j).type = T_DIR then some (j, last) else none

variable {h : Hierarchy} {s : Fs} {ip : Ip}

/-- What the walk finds: the inode, or with `only` the directory of the last component and this component. -/
def walk (only : Bool) (disk : Nat → Data) (i : Nat) (names : List Name) : Option (Nat × Name) :=
  if only then parent disk i names else (resolve disk i names).map fun j => (j, [])

theorem walk_cons {only : Bool} {disk : Nat → Data} {i : Nat} {name : Name} {rest : List Name} (more : ¬(only ∧ rest = [])) :
    walk only disk i (name :: rest) = (child disk i name).bind fun j => walk only disk j rest := by
  cases only with
  | false =>
    show Option.map _ ((child disk i name).bind _) = _
    rw [Option.map_bind]
    rfl
  | true =>
    obtain ⟨next, others, rfl⟩ := List.exists_cons_of_ne_nil fun none => more ⟨rfl, none⟩
    show parent disk i (name :: next :: others) = (child disk i name).bind fun j => parent disk j (next :: others)
    unfold parent
    rw [List.getLast?_cons_cons, List.dropLast_cons_cons]
    cases List.getLast? (next :: others) with
    | none => cases child disk i name <;> rfl
    | some _ =>
      simp only [Option.bind_some, resolve]
      rw [Option.bind_assoc]

theorem walk_other {only : Bool} {disk : Nat → Data} {i : Nat} {name : Name} {rest : List Name}
    (other : (dinode disk i).type ≠ T_DIR) : walk only disk i (name :: rest) = none := by
  by_cases last : only = true ∧ rest = []
  · obtain ⟨rfl, rfl⟩ := last
    exact if_neg other
  · rw [walk_cons last, child, if_neg other]
    rfl

theorem namexFrom_walks {only : Bool} {names : List Name} (clean : ∀ name ∈ names, 0 ∉ name)
    (walks : Walks h s (Pi.single ip 1) fun _ => false) (member : h.member (s.inode ip).inum) :
    Ends (Crowded h) (namexFrom only ip names) s fun r t =>
      (r.map fun found => ((t.inode found.1).inum, found.2)) = walk only h.state.disk (s.inode ip).inum names ∧
        Walks h t (token (r.map Prod.fst)) fun _ => false := by
  induction names generalizing s ip with
  | nil =>
    unfold namexFrom
    cases only with
    | true =>
      have own : (0 : Int) < (Pi.single ip 1 : Ip → Int) ip := by
        rw [Pi.single_eq_same]
        exact Int.one_pos
      refine ((iput_walks walks own member).stops fun _ => False.elim).bind ?_
      rintro _ t ⟨_, put⟩
      rw [sub_self] at put
      exact ⟨rfl, put⟩
    | false => exact ⟨rfl, walks⟩
  | cons name rest ih =>
    have own : (0 : Int) < (Pi.single ip 1 : Ip → Int) ip := by
      rw [Pi.single_eq_same]
      exact Int.one_pos
    have count := walks.refs ip
    have least := h.count ip
    unfold namexFrom
    refine ((ilock_walks walks (by omega) rfl member).stops fun _ => False.elim).bind ?_
    rintro _ t ⟨number, read, locked⟩
    rw [ends_get_bind]
    have kind : (t.inode ip).copy.type = (dinode h.state.disk (s.inode ip).inum).type := congrArg Dinode.type read
    rw [kind]
    rw [← number] at member
    -- What a failure leaves.
    have give : ∀ {u : Fs}, Walks h u (Pi.single ip 1) (Function.update (fun _ => false) ip true) →
        (u.inode ip).inum = (t.inode ip).inum →
        walk only h.state.disk (s.inode ip).inum (name :: rest) = none →
        Ends (Crowded h) (do iunlockput ip; pure none) u fun (r : Option (Ip × Name)) w =>
          (r.map fun found => ((w.inode found.1).inum, found.2)) = walk only h.state.disk (s.inode ip).inum (name :: rest) ∧
            Walks h w (token (r.map Prod.fst)) fun _ => false := by
      intro u still same none
      rw [← same] at member
      refine ((iunlockput_walks still rfl own member).stops fun _ => False.elim).bind ?_
      rintro _ w ⟨_, put⟩
      rw [sub_self] at put
      exact ⟨none.symm, put⟩
    by_cases dir : (dinode h.state.disk (s.inode ip).inum).type = T_DIR
    · rw [if_neg (not_not.mpr dir)]
      by_cases last : only = true ∧ rest = []
      · obtain ⟨rfl, rfl⟩ := last
        have held := locked.refs ip
        refine ((iunlock_walks locked (by omega) (Function.update_self ..)).stops fun _ => False.elim).bind ?_
        rintro _ u ⟨same, unlocked⟩
        rw [relock rfl] at unlocked
        refine ⟨?_, unlocked⟩
        show some ((u.inode ip).inum, name) = parent h.state.disk (s.inode ip).inum [name]
        rw [same, number]
        exact (if_pos dir).symm
      · rw [if_neg last]
        have held := locked.refs ip
        have single : ∀ a b, (Pi.single ip 1 : Ip → Int) a ≠ 0 → (Pi.single ip 1 : Ip → Int) b ≠ 0 → a = b := by
          intro a b left right
          rw [Pi.single_apply] at left right
          by_contra different
          by_cases here : a = ip
          · rw [if_neg (fun there => different (here.trans there.symm))] at right
            exact right rfl
          · rw [if_neg here] at left
            exact left rfl
        rw [number] at member
        refine ((dirlookup_walks ⟨name, clean name List.mem_cons_self⟩ locked (by omega) read member dir).stops
          fun _ => locked.crowded single).bind ?_
        rintro r u ⟨found, same, more⟩
        rw [← number] at member
        cases r with
        | none =>
          rw [Option.map_none, token_none, add_zero] at more
          refine give more same ?_
          rw [walk_cons last, ← found]
          rfl
        | some entry =>
          obtain ⟨next, k⟩ := entry
          have both : (0 : Int) < (Pi.single ip 1 + token (some next) : Ip → Int) ip := by
            rw [token_some, Pi.add_apply, Pi.single_eq_same, Pi.single_apply]
            split <;> decide
          rw [← same] at member
          refine ((iunlockput_walks more rfl both member).stops fun _ => False.elim).bind ?_
          rintro _ w ⟨names, put⟩
          rw [add_sub_cancel_left] at put
          have target : (w.inode next).inum = (u.inode next).inum := names next
          have step : child h.state.disk (s.inode ip).inum name = some (w.inode next).inum := by
            rw [target]
            exact found.symm
          have inside : h.member (w.inode next).inum := h.closed _ name _ (by rw [← number, ← same]; exact member) step
          refine (ih (fun other mem => clean other (List.mem_cons_of_mem _ mem)) put inside).imp fun r x both => ⟨?_, both.2⟩
          rw [both.1, walk_cons last, step]
          rfl
    · rw [if_pos dir]
      exact give locked rfl (walk_other dir)

def start (h : Hierarchy) (path : Path) : Nat := if path.head? = some slash then ROOTINO else (h.state.inode h.cwd).inum

theorem namex_walks (h : Hierarchy) (path : Text) (only : Bool) :
    Ends (Crowded h) (namex (some h.cwd) path only) h.state fun r t =>
      (r.map fun found => ((t.inode found.1).inum, found.2)) = walk only h.state.disk (start h path) (components path) ∧
        Walks h t (token (r.map Prod.fst)) fun _ => false := by
  have clean : ∀ name ∈ components path, 0 ∉ name := fun name mem zero => path.property (mem_of_component mem zero)
  have walks := walks_start h
  unfold namex start
  rw [path_elements]
  by_cases rooted : path.val.head? = some slash
  · rw [if_pos rooted, if_pos rooted]
    refine ((iget_walks walks).stops fun _ => walks.crowded fun a b none => absurd rfl none).bind fun ip t ⟨number, got⟩ => ?_
    rw [zero_add] at got
    rw [← number]
    refine namexFrom_walks clean got ?_
    rw [number]
    exact h.root
  · rw [if_neg rooted, if_neg rooted]
    refine ((idup_walks walks h.current).stops fun _ => False.elim).bind fun _ t ⟨number, got⟩ => ?_
    rw [zero_add] at got
    rw [← number]
    refine namexFrom_walks clean got ?_
    rw [number]
    exact h.here

def Misses (disk : Nat → Data) (i : Nat) (name : Name) : Prop :=
  (dinode disk i).type ≠ T_DIR ∨
    ∀ k < slots (dinode disk i), ∀ inum, slotAt disk (dinode disk i) k ≠ some (name.take DIRSIZ, inum)

theorem child_none {disk : Nat → Data} {i : Nat} {name : Name} : child disk i name = none ↔ Misses disk i name := by
  unfold child Misses
  by_cases dir : (dinode disk i).type = T_DIR
  · rw [if_pos dir, Option.map_eq_none_iff, find_none]
    exact (or_iff_right (not_not.mpr dir)).symm
  · rw [if_neg dir]
    exact iff_of_true rfl (.inl dir)

theorem resolve_none {disk : Nat → Data} {i : Nat} {names : List Name} :
    resolve disk i names = none ↔ ∃ before name after j, names = before ++ name :: after ∧
      resolve disk i before = some j ∧ Misses disk j name := by
  induction names generalizing i with
  | nil => exact iff_of_false nofun fun ⟨before, name, after, j, split, _⟩ => absurd split.symm (by simp)
  | cons first rest ih =>
    cases found : child disk i first with
    | none =>
      refine iff_of_true ?_ ⟨[], first, rest, i, rfl, rfl, child_none.mp found⟩
      rw [resolve, found]
      rfl
    | some k =>
      rw [resolve, found, Option.bind_some, ih]
      constructor
      · rintro ⟨before, name, after, j, split, reached, misses⟩
        refine ⟨first :: before, name, after, j, congrArg (first :: ·) split, ?_, misses⟩
        rw [resolve, found, Option.bind_some, reached]
      rintro ⟨before, name, after, j, split, reached, misses⟩
      cases before with
      | nil =>
        obtain ⟨rfl, -⟩ := List.cons.inj split
        obtain rfl := Option.some.inj reached
        rw [child_none.mpr misses] at found
        exact nomatch found
      | cons _ before =>
        obtain ⟨rfl, remain⟩ := List.cons.inj split
        rw [resolve, found] at reached
        exact ⟨before, name, after, j, remain, reached, misses⟩

theorem parent_none {disk : Nat → Data} {i : Nat} {names : List Name} :
    parent disk i names = none ↔ names = [] ∨ resolve disk i names.dropLast = none ∨
      ∃ j, resolve disk i names.dropLast = some j ∧ (dinode disk j).type ≠ T_DIR := by
  by_cases empty : names = []
  · subst empty
    exact iff_of_true rfl (.inl rfl)
  rw [parent, List.getLast?_eq_some_getLast empty, Option.bind_some]
  rcases resolve disk i names.dropLast with _ | j
  · exact iff_of_true rfl (.inr (.inl rfl))
  rw [Option.bind_some]
  by_cases dir : (dinode disk j).type = T_DIR
  · rw [if_pos dir]
    refine iff_of_false nofun ?_
    rintro (none | none | ⟨k, same, other⟩)
    · exact empty none
    · exact nomatch none
    · exact other (Option.some.inj same ▸ dir)
  · rw [if_neg dir]
    exact iff_of_true rfl (.inr (.inr ⟨j, rfl, dir⟩))

/-- A tree of one directory, with the entries that `mkfs` gives the root. -/
def rootContent : Data := splice (Dirent.bytes ⟨1, dot⟩) 16 16 (Dirent.bytes ⟨1, dotdot⟩)

def rootBlocks (b : Nat) : Data :=
  if b = 4 then Dinode.write (fun _ => 0) 64 (Faults.smallInode T_DIR 32) else Faults.smallBlocks rootContent b

def rootFs : Fs where
  disk := rootBlocks
  durable := rootBlocks
  log := { start := 2, size := 30, outstanding := 1, committing := false, lh := [] }
  inode := fun ip =>
    { dev := ROOTDEV, inum := ROOTINO, ref := if ip.val = 0 then 1 else 0, locked := false, valid := false, copy := Dinode.zero }
  power := none

omit sb in
theorem root_dinode : @dinode Faults.smallDisk rootBlocks ROOTINO = Faults.smallInode T_DIR 32 := read_write _ 64 _

omit sb in
theorem root_child {name : Name} {j : Nat} (found : @child Faults.smallDisk rootBlocks ROOTINO name = some j) : j = ROOTINO := by
  let := Faults.smallDisk
  have entries : ∀ k < 2, (entryAt rootBlocks (Faults.smallInode T_DIR 32) k).inum = 1 := by decide +kernel
  have dir : (Faults.smallInode T_DIR 32).type = T_DIR := rfl
  rw [child, root_dinode, if_pos dir, Option.map_eq_some_iff] at found
  obtain ⟨k, there, rfl⟩ := found
  rw [entries k (find_some there).1]
  rfl

def rootHierarchy : @Hierarchy Faults.smallDisk :=
  letI := Faults.smallDisk
  { state := rootFs
    cwd := ⟨0, ninode_pos⟩
    member := (· = ROOTINO)
    count := by decide
    unlocked := fun _ => rfl
    device := fun _ _ => rfl
    unique := by decide
    cached := fun _ _ => nofun
    root := rfl
    current := Int.one_pos
    here := rfl
    typed := by
      rintro i rfl
      exact ne_of_eq_of_ne (congrArg Dinode.type root_dinode) (by decide)
    listing := by
      rintro i rfl -
      show Listing rootBlocks (dinode rootBlocks ROOTINO)
      rw [root_dinode]
      refine ⟨⟨2, rfl⟩, fun x _ less => ?_⟩
      have below : x < BSIZE := Nat.lt_trans less (by decide)
      rw [Nat.div_eq_of_lt below]
      exact ⟨by decide, (Faults.listed_small _ T_DIR 32 (.addr 0)).trans_ne (by decide)⟩
    closed := by
      rintro i name j rfl found
      exact root_child found
    linked := by
      rintro i rfl
      exact .inl (ne_of_eq_of_ne (congrArg Dinode.nlink root_dinode) (by decide)) }

/-- `skipelem` takes off the components of a path in their order. `namei` returns the inode that is reached by looking
them up, and `nameiparent` the directory before the last of them; they fail exactly where this cannot be done. -/
theorem path_resolution (h : Hierarchy) (path : Text) :
    (∀ p : Path, (skipelem p = none ↔ components p = []) ∧ ∀ rest name, skipelem p = some (rest, name) →
      components p = name :: components rest ∧ (rest = [] ↔ components rest = []) ∧ rest.length < p.length) ∧
    Path.elements path = components path ∧
    (Ends (Crowded h) (namei (some h.cwd) path) h.state fun r t =>
      (r.map fun ip => (t.inode ip).inum) = resolve h.state.disk (start h path) (components path) ∧
      (r = none ↔ ∃ before name after i, components path = before ++ name :: after ∧
        resolve h.state.disk (start h path) before = some i ∧ Misses h.state.disk i name) ∧
      Walks h t (token r) fun _ => false) ∧
    Ends (Crowded h) (nameiparent (some h.cwd) path) h.state fun r t =>
      (r.map fun found => ((t.inode found.1).inum, found.2)) = parent h.state.disk (start h path) (components path) ∧
      (r = none ↔ components path = [] ∨ resolve h.state.disk (start h path) (components path).dropLast = none ∨
        ∃ i, resolve h.state.disk (start h path) (components path).dropLast = some i ∧ (dinode h.state.disk i).type ≠ T_DIR) ∧
      Walks h t (token (r.map Prod.fst)) fun _ => false := by
  refine ⟨skipelem_spec, path_elements path, ?_, ?_⟩
  · rw [namei, map_eq_pure_bind]
    refine (namex_walks h path false).bind fun r t ⟨result, walks⟩ => ?_
    have reached : ((r.map Prod.fst).map fun ip => (t.inode ip).inum) =
        resolve h.state.disk (start h path) (components path) := by
      have first := congrArg (Option.map Prod.fst) result
      rw [walk, if_neg Bool.false_ne_true, Option.map_map, Option.map_map] at first
      rw [Option.map_map]
      exact first.trans Option.map_id'
    refine ⟨reached, ?_, walks⟩
    rw [← resolve_none, ← reached]
    exact Option.map_eq_none_iff.symm
  · refine (namex_walks h path true).imp fun r t ⟨result, walks⟩ => ?_
    rw [walk, if_pos rfl] at result
    refine ⟨result, ?_, walks⟩
    rw [← parent_none, ← result, Option.map_eq_none_iff]

omit sb in
/-- `/.//..` is the root, and `/x` is nothing. -/
theorem path_resolution_root :
    letI := Faults.smallDisk
    (Ends (fun _ => False) (namei (some rootHierarchy.cwd) [slash, 46, slash, slash, 46, 46]) rootHierarchy.state fun r t =>
      (r.map fun ip => (t.inode ip).inum) = some ROOTINO) ∧
    Ends (fun _ => False) (namei (some rootHierarchy.cwd) [slash, 120]) rootHierarchy.state fun r _ => r = none := by
  let := Faults.smallDisk
  have spacious : ∀ e, ¬Crowded rootHierarchy e := fun e crowded =>
    absurd (crowded.2 ⟨1, by decide⟩ ⟨2, by decide⟩ rfl rfl) (by decide)
  constructor
  · have walked := (path_resolution rootHierarchy ⟨[slash, 46, slash, slash, 46, 46], by decide⟩).2.2.1
    exact (walked.stops fun e stopped => spacious e stopped).imp fun r t found => found.1.trans (by decide +kernel)
  · have walked := (path_resolution rootHierarchy ⟨[slash, 120], by decide⟩).2.2.1
    refine (walked.stops fun e stopped => spacious e stopped).imp fun r t found => Option.map_eq_none_iff.mp (found.1.trans ?_)
    decide +kernel

end Xv6Monitor.FileSystem.Resolution
