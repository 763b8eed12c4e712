import Xv6Monitor.FileSystem.Entries
import Xv6Monitor.FileSystem.References

/-! A process that goes from directory to directory in a file system where nothing else happens: the references that it
takes and gives back, the locks that it holds, and what its lookups find. -/

namespace Xv6Monitor.FileSystem.Walking
open Function (update update_idem update_of_ne update_self)
open Lib.Bytes Lib.Program Lib.Slots Lib.Tally Stops Format Blocks Extents Inodes Entries References
open Disk.Buffers (ROOTDEV)

variable [sb : Superblock]

def child (disk : Nat → Data) (i : Nat) (name : Name) : Option Nat :=
  if (dinode disk i).type = T_DIR then
    (find (slots (dinode disk i)) (slotAt disk (dinode disk i)) (name.take DIRSIZ)).map fun k =>
      (entryAt disk (dinode disk i) k).inum.toNat
  else none

/-! ### Locking -/

section Locking

variable {s : Fs} {ip : Ip}

omit sb in
structure Sets (s t : Fs) (ip : Ip) (i : Inode) : Prop where
  disk : t.disk = s.disk
  others : ∀ j ≠ ip, t.inode j = s.inode j
  here : t.inode ip = i

omit sb in
theorem sets_update (s : Fs) (ip : Ip) (i : Inode) : Sets s { s with inode := update s.inode ip i } ip i :=
  ⟨rfl, fun _ other => update_of_ne other .., update_self ..⟩

def loaded (s : Fs) (ip : Ip) : Dinode := if (s.inode ip).valid then copy s ip else dinode s.disk (s.inode ip).inum

structure Ready (s : Fs) (ip : Ip) : Prop where
  held : 0 < (s.inode ip).ref
  free : (s.inode ip).locked = false
  typed : (loaded s ip).type ≠ 0

omit sb in
theorem valid_eta {i : Inode} (valid : i.valid = true) :
    { i with locked := true } = { i with locked := true, valid := true, copy := i.copy } := by
  cases i
  cases valid
  rfl

theorem ilock_loaded : Ends (fun _ => ¬Ready s ip) (ilock ip) s fun _ t =>
    Sets s t ip { s.inode ip with locked := true, valid := true, copy := loaded s ip } := by
  unfold ilock setInode
  rw [ends_get_bind]
  dsimp only
  split
  next none => exact fun ready => absurd ready.held (by omega)
  split
  next busy => exact fun ready => absurd (ready.free.symm.trans busy) Bool.false_ne_true
  rw [ends_modify_bind]
  by_cases valid : (s.inode ip).valid = true
  · have read : loaded s ip = copy s ip := if_pos valid
    rw [if_neg (by rw [valid]; decide), read, ← valid_eta valid]
    exact sets_update ..
  have read : loaded s ip = dinode s.disk (s.inode ip).inum := if_neg valid
  rw [if_pos (Bool.not_eq_true _ ▸ valid), ends_get_bind, ends_modify_bind]
  split
  next free => exact fun ready => ready.typed (by rw [read]; exact free)
  next =>
    dsimp only
    rw [update_self, update_idem, read]
    exact sets_update ..

omit sb in
theorem iunlock_ends (locked : (s.inode ip).locked = true) (held : 0 < (s.inode ip).ref) :
    Ends (fun _ => False) (iunlock ip) s fun _ t => Sets s t ip { s.inode ip with locked := false } := by
  unfold iunlock setInode
  rw [ends_get_bind]
  rw [if_neg (by rw [locked]; simp only [Bool.true_eq_false, false_or]; omega)]
  exact sets_update ..

end Locking

/-- A file system between system calls, with a process that has a current directory. The `member`s are the inodes of a
directory tree: they are allocated, those that are directories name members only, and one that has no links is in use. -/
structure Hierarchy where
  state : Fs
  cwd : Ip
  member : Nat → Prop
  count : ∀ ip, 0 ≤ (state.inode ip).ref
  unlocked : ∀ ip, (state.inode ip).locked = false
  device : ∀ ip, 0 < (state.inode ip).ref → (state.inode ip).dev = ROOTDEV
  unique : ∀ a b, 0 < (state.inode a).ref → 0 < (state.inode b).ref → (state.inode a).inum = (state.inode b).inum → a = b
  cached : ∀ ip, 0 < (state.inode ip).ref → (state.inode ip).valid = true →
    copy state ip = dinode state.disk (state.inode ip).inum
  root : member ROOTINO
  current : 0 < (state.inode cwd).ref
  here : member (state.inode cwd).inum
  typed : ∀ i, member i → (dinode state.disk i).type ≠ 0
  listing : ∀ i, member i → (dinode state.disk i).type = T_DIR → Listing state.disk (dinode state.disk i)
  closed : ∀ i name j, member i → child state.disk i name = some j → member j
  linked : ∀ i, member i → (dinode state.disk i).nlink ≠ 0 ∨ ∃ ip, 0 < (state.inode ip).ref ∧ (state.inode ip).inum = i

variable {h : Hierarchy} {s t : Fs} {ip dp : Ip} {tokens : Ip → Int} {locks : Ip → Bool}

/-- The calling process has so many references of its own, and holds these locks. -/
structure Walks (h : Hierarchy) (s : Fs) (tokens : Ip → Int) (locks : Ip → Bool) : Prop where
  quiet : Quiet s ((fun ip => (h.state.inode ip).ref) + tokens) locks h.state.log.outstanding
  natural : ∀ ip, 0 ≤ tokens ip
  disk : s.disk = h.state.disk
  kept : ∀ ip, 0 < (h.state.inode ip).ref → (s.inode ip).inum = (h.state.inode ip).inum
  device : ∀ ip, 0 < (s.inode ip).ref → (s.inode ip).dev = ROOTDEV
  cached : ∀ ip, 0 < (s.inode ip).ref → (s.inode ip).valid = true → copy s ip = dinode h.state.disk (s.inode ip).inum

theorem walks_start (h : Hierarchy) : Walks h h.state 0 fun _ => false := by
  refine ⟨⟨fun ip => ?_, h.unlocked, fun a b left right _ => ?_, rfl⟩, fun _ => Int.le_refl 0, rfl, fun _ _ => rfl, h.device, h.cached⟩
  · rw [add_zero]
  · rw [add_zero] at left right
    exact h.unique a b left right

variable (walks : Walks h s tokens locks)
include walks

theorem Walks.refs (ip : Ip) : (s.inode ip).ref = (h.state.inode ip).ref + tokens ip :=
  walks.quiet.count ip

theorem Walks.positive (base : 0 < (h.state.inode ip).ref) : 0 < (s.inode ip).ref := by
  have count := walks.refs ip
  have natural := walks.natural ip
  omega

theorem Walks.edit {tokens' : Ip → Int} {locks' : Ip → Bool}
    (quiet : Quiet t ((fun ip => (h.state.inode ip).ref) + tokens') locks' h.state.log.outstanding)
    (natural : ∀ ip, 0 ≤ tokens' ip) (disk : t.disk = s.disk) (others : ∀ j ≠ ip, t.inode j = s.inode j)
    (dev : (t.inode ip).dev = (s.inode ip).dev) (inum : (t.inode ip).inum = (s.inode ip).inum)
    (referenced : 0 < (t.inode ip).ref → 0 < (s.inode ip).ref)
    (cached : 0 < (t.inode ip).ref → (t.inode ip).valid = true → copy t ip = dinode h.state.disk (t.inode ip).inum) :
    Walks h t tokens' locks' := by
  refine ⟨quiet, natural, disk.trans walks.disk, fun j base => ?_, fun j some => ?_, fun j some valid => ?_⟩
  · by_cases here : j = ip
    · subst here
      rw [inum, walks.kept j base]
    · rw [others j here, walks.kept j base]
  · by_cases here : j = ip
    · subst here
      rw [dev]
      exact walks.device j (referenced some)
    · rw [others j here] at some ⊢
      exact walks.device j some
  · by_cases here : j = ip
    · subst here
      exact cached some valid
    · rw [others j here] at some valid ⊢
      rw [copy, others j here]
      exact walks.cached j some valid

theorem Walks.gets {inum : Nat} (gets : Gets s t ip ROOTDEV inum)
    (quiet : Quiet t ((fun ip => (h.state.inode ip).ref) + tokens + Pi.single ip 1) locks h.state.log.outstanding) :
    (t.inode ip).inum = inum ∧ Walks h t (tokens + Pi.single ip 1) locks := by
  have disk : t.disk = s.disk := by rw [gets.same]
  have natural : ∀ j, 0 ≤ (tokens + Pi.single ip 1 : Ip → Int) j := by
    intro j
    have old := walks.natural j
    rw [Pi.add_apply, Pi.single_apply]
    split <;> omega
  rw [add_assoc] at quiet
  rcases gets.here with ⟨referenced, dev, number, here⟩ | ⟨free, -, here⟩
  · refine ⟨by rw [here]; exact number, walks.edit quiet natural disk gets.others (by rw [here]) (by rw [here]) (fun _ => referenced) ?_⟩
    intro _ valid
    rw [here] at valid
    rw [copy, here]
    exact walks.cached ip referenced valid
  refine ⟨by rw [here], quiet, natural, disk.trans walks.disk, fun j base => ?_, fun j some => ?_, fun j some valid => ?_⟩
  · have other : j ≠ ip := by
      rintro rfl
      have positive := walks.positive base
      omega
    rw [gets.others j other, walks.kept j base]
  · by_cases this : j = ip
    · rw [this, here]
    · rw [gets.others j this] at some ⊢
      exact walks.device j some
  · by_cases this : j = ip
    · rw [this, here] at valid
      cases valid
    · rw [gets.others j this] at some valid ⊢
      rw [copy, gets.others j this]
      exact walks.cached j some valid

/-- The walk has at most one reference of its own where it takes another, so a lookup only finds the table full if at
most one entry was free at the start. -/
def Crowded (h : Hierarchy) : FsStop → Prop := fun e =>
  NoInodes e ∧ ∀ a b, (h.state.inode a).ref = 0 → (h.state.inode b).ref = 0 → a = b

theorem Walks.crowded (single : ∀ a b, tokens a ≠ 0 → tokens b ≠ 0 → a = b) {e : FsStop}
    (full : TableFull s e) : Crowded h e := by
  have own : ∀ a, (h.state.inode a).ref = 0 → tokens a ≠ 0 := by
    intro a free none
    have count := walks.refs a
    rw [free, none] at count
    exact full.2 a count
  exact ⟨full.1, fun a b left right => single a b (own a left) (own b right)⟩

theorem iget_walks {inum : Nat} : Ends (TableFull s) (iget ROOTDEV inum) s fun ip t =>
      (t.inode ip).inum = inum ∧ Walks h t (tokens + Pi.single ip 1) locks :=
  ((iget_gets.and (iget_spec walks.quiet)).stops fun _ => And.left).imp fun _ _ ⟨gets, quiet⟩ => walks.gets gets quiet

theorem idup_walks (held : 0 < (s.inode ip).ref) : Ends (fun _ => False) (idup ip) s fun _ t =>
      (t.inode ip).inum = (s.inode ip).inum ∧ Walks h t (tokens + Pi.single ip 1) locks := by
  have gets : Ends (fun _ => False) (idup ip) s fun _ t => Gets s t ip ROOTDEV (s.inode ip).inum :=
    ⟨rfl, fun j other => update_of_ne other .., .inl ⟨held, walks.device ip held, rfl, update_self ..⟩⟩
  have counted := idup_spec walks.quiet (by rw [← walks.quiet.count]; exact held)
  exact ((gets.and counted).stops fun _ => And.left).imp fun _ _ ⟨gets, quiet⟩ => walks.gets gets quiet

theorem ilock_walks (held : 0 < (s.inode ip).ref) (free : locks ip = false)
    (member : h.member (s.inode ip).inum) :
    Ends (fun _ => False) (ilock ip) s fun _ t => (t.inode ip).inum = (s.inode ip).inum ∧
      copy t ip = dinode h.state.disk (s.inode ip).inum ∧ Walks h t tokens (update locks ip true) := by
  have content : loaded s ip = dinode h.state.disk (s.inode ip).inum := by
    unfold loaded
    split
    next valid => exact walks.cached ip held valid
    next => rw [walks.disk]
  have ready : Ready s ip := ⟨held, (walks.quiet.held ip).trans free, by rw [content]; exact h.typed _ member⟩
  refine ((ilock_loaded.and (ilock_spec walks.quiet)).stops fun _ both => both.1 ready).imp
    fun _ t ⟨⟨disk, others, here⟩, _, _, quiet⟩ => ?_
  have number : (t.inode ip).inum = (s.inode ip).inum := by rw [here]
  have read : copy t ip = dinode h.state.disk (s.inode ip).inum := by rw [copy, here, content]
  refine ⟨number, read, walks.edit quiet walks.natural disk others (by rw [here]) number (fun _ => held) fun _ _ => ?_⟩
  rw [number]
  exact read

omit walks

omit sb in
theorem numbers (number : (t.inode ip).inum = (s.inode ip).inum) (others : ∀ j ≠ ip, t.inode j = s.inode j) (j : Ip) :
    (t.inode j).inum = (s.inode j).inum := by
  by_cases here : j = ip
  · rw [here, number]
  · rw [others j here]

include walks

theorem iunlock_walks (held : 0 < (s.inode ip).ref) (locked : locks ip = true) :
    Ends (fun _ => False) (iunlock ip) s fun _ t => (∀ j, (t.inode j).inum = (s.inode j).inum) ∧
      Walks h t tokens (update locks ip false) := by
  have on : (s.inode ip).locked = true := (walks.quiet.held ip).trans locked
  refine (((iunlock_ends on held).and (iunlock_spec walks.quiet)).stops fun _ => And.left).imp
    fun _ t ⟨⟨disk, others, here⟩, quiet⟩ => ?_
  have number : (t.inode ip).inum = (s.inode ip).inum := by rw [here]
  refine ⟨numbers number others, walks.edit quiet walks.natural disk others (by rw [here]) number (fun _ => held) fun _ valid => ?_⟩
  rw [here] at valid
  rw [copy, here]
  exact walks.cached ip held valid

/-- A member that has no links is referred to from elsewhere, so that it is not freed when the walk leaves it. -/
theorem Walks.shared (own : 0 < tokens ip) (member : h.member (s.inode ip).inum)
    (unlinked : (dinode h.state.disk (s.inode ip).inum).nlink = 0) : (s.inode ip).ref ≠ 1 := by
  have count := walks.refs ip
  have least := h.count ip
  rcases h.linked _ member with links | ⟨jp, base, number⟩
  · exact absurd unlinked links
  have there := walks.positive base
  have here : 0 < (s.inode ip).ref := by omega
  have same : jp = ip := by
    refine walks.quiet.unique jp ip ?_ ?_ ?_ ?_
    · rw [← walks.quiet.count]
      exact there
    · rw [← walks.quiet.count]
      exact here
    · rw [walks.device jp there, walks.device ip here]
    · rw [walks.kept jp base, number]
  rw [same] at base
  omega

theorem iput_walks (own : 0 < tokens ip) (member : h.member (s.inode ip).inum) :
    Ends (fun _ => False) (iput ip) s fun _ t => (∀ j, (t.inode j).inum = (s.inode j).inum) ∧
      Walks h t (tokens - Pi.single ip 1) locks := by
  have count := walks.refs ip
  have least := h.count ip
  have held : 0 < (s.inode ip).ref := by omega
  have kept : ¬((s.inode ip).ref = 1 ∧ (s.inode ip).valid = true ∧ (s.inode ip).copy.nlink = 0) := by
    rintro ⟨last, valid, unlinked⟩
    have read : (s.inode ip).copy = _ := walks.cached ip held valid
    rw [read] at unlinked
    exact walks.shared own member unlinked last
  have direct : Ends (fun _ => False) (iput ip) s fun _ t => Sets s t ip { s.inode ip with ref := (s.inode ip).ref - 1 } := by
    unfold iput setInode
    rw [ends_get_bind]
    rw [if_neg kept]
    exact sets_update ..
  have natural : ∀ j, 0 ≤ (tokens - Pi.single ip 1 : Ip → Int) j := by
    intro j
    have old := walks.natural j
    rw [Pi.sub_apply, Pi.single_apply]
    split
    next here =>
      rw [here]
      omega
    next => omega
  refine ((direct.and (iput_spec walks.quiet)).stops fun _ => And.left).imp fun _ t ⟨⟨disk, others, here⟩, quiet⟩ => ?_
  have number : (t.inode ip).inum = (s.inode ip).inum := by rw [here]
  rw [add_sub_assoc] at quiet
  refine ⟨numbers number others, walks.edit quiet natural disk others (by rw [here]) number (fun _ => held) fun _ valid => ?_⟩
  rw [here] at valid
  rw [copy, here]
  exact walks.cached ip held valid

omit walks

theorem iunlockput_walks (walks : Walks h s tokens (update locks ip true)) (free : locks ip = false)
    (own : 0 < tokens ip) (member : h.member (s.inode ip).inum) :
    Ends (fun _ => False) (iunlockput ip) s fun _ t => (∀ j, (t.inode j).inum = (s.inode j).inum) ∧
      Walks h t (tokens - Pi.single ip 1) locks := by
  have count := walks.refs ip
  have least := h.count ip
  refine (iunlock_walks walks (by omega) (update_self ..)).bind fun _ u ⟨left, unlocked⟩ => ?_
  rw [relock free] at unlocked
  refine (iput_walks unlocked own (by rw [left]; exact member)).imp fun _ t ⟨right, put⟩ => ?_
  exact ⟨fun j => (right j).trans (left j), put⟩

theorem dirlookup_walks (name : Text) {i : Nat} (walks : Walks h s tokens locks) (held : 0 < (s.inode dp).ref)
    (read : copy s dp = dinode h.state.disk i) (member : h.member i) (dir : (dinode h.state.disk i).type = T_DIR) :
    Ends (TableFull s) (dirlookup dp name) s fun r t =>
      (r.map fun found => (t.inode found.1).inum) = child h.state.disk i name ∧
        (t.inode dp).inum = (s.inode dp).inum ∧ Walks h t (tokens + token (r.map Prod.fst)) locks := by
  have listing : Listing s.disk (copy s dp) := by
    rw [walks.disk, read]
    exact h.listing i member dir
  have lookup : Ends (TableFull s) (dirlookup dp name) s (Finds s dp name) := dirlookup_finds (by rw [read]; exact dir) listing
  refine ((lookup.and (References.dirlookup_spec walks.quiet)).stops fun _ => And.left).imp fun r t ⟨finds, quiet⟩ => ?_
  have value : child h.state.disk i name = (entryNamed s.disk (copy s dp) name).map fun k =>
      (entryAt s.disk (copy s dp) k).inum.toNat := by
    rw [walks.disk, read, child, if_pos dir]
    rfl
  rw [value]
  unfold Finds at finds
  cases found : entryNamed s.disk (copy s dp) name with
  | none =>
    rw [found] at finds
    obtain ⟨rfl, rfl⟩ := finds
    refine ⟨rfl, rfl, ?_⟩
    rw [Option.map_none, token_none, add_zero]
    exact walks
  | some k =>
    rw [found] at finds
    obtain ⟨_, rfl, gets⟩ := finds
    rw [walks.device dp held] at gets
    obtain ⟨number, more⟩ := walks.gets gets quiet
    exact ⟨congrArg some number, gets.number held, more⟩

end Xv6Monitor.FileSystem.Walking
