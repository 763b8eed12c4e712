import Xv6Monitor.FileSystem.Steady
import Xv6Monitor.Lib.Tally

/-! References to inodes, their locks and the operations of the log, through the functions of
`kernel/fs.c` on the inode table, on directories and on path names. -/

namespace Xv6Monitor.FileSystem.References
open Function Lib.Program Lib.Tally Format Blocks Inodes Steady
open Disk.Buffers (ROOTDEV)

/-- Each inode has so many references, these are locked, and so many operations are under way; an inode
that is referred to is in the table once. -/
structure Quiet (s : Fs) (refs : Ip → Int) (locks : Ip → Bool) (ops : Nat) : Prop where
  count : ∀ ip, (s.inode ip).ref = refs ip
  held : ∀ ip, (s.inode ip).locked = locks ip
  unique : ∀ a b, 0 < refs a → 0 < refs b → (s.inode a).dev = (s.inode b).dev → (s.inode a).inum = (s.inode b).inum → a = b
  under : s.log.outstanding = ops

variable {s t : Fs} {refs : Ip → Int} {locks : Ip → Bool} {ops dev inum : Nat} {ip : Ip}

variable (quiet : Quiet s refs locks ops)
include quiet

theorem Quiet.still (still : Still s t) : Quiet t refs locks ops where
  count := fun ip => (still.ref ip).trans (quiet.count ip)
  held := fun ip => (still.locked ip).trans (quiet.held ip)
  unique := fun a b => by
    rw [still.dev, still.dev, still.inum, still.inum]
    exact quiet.unique a b
  under := still.outstanding.trans quiet.under

theorem Quiet.along {α : Type} {x : FsProg α} (along : Along Still x) :
    Ends Any x s fun _ t => Quiet t refs locks ops := (along s).imp fun _ _ still => quiet.still still

theorem Quiet.set {f : Inode → Inode} {r : Int} {l : Bool} (ip : Ip)
    (device : (f (s.inode ip)).dev = (s.inode ip).dev) (number : (f (s.inode ip)).inum = (s.inode ip).inum)
    (count : (f (s.inode ip)).ref = r) (lock : (f (s.inode ip)).locked = l) (more : 0 < r → 0 < refs ip) :
    Ends Any (setInode ip f) s fun _ t => Quiet t (update refs ip r) (update locks ip l) ops := by
  have positive : ∀ e, 0 < update refs ip r e → 0 < refs e :=
    (forall_update_iff refs fun e n => 0 < n → 0 < refs e).mpr ⟨more, fun _ _ => id⟩
  refine ⟨entry_update Inode.ref quiet.count count, entry_update Inode.locked quiet.held lock, fun a b first second => ?_,
    quiet.under⟩
  dsimp only
  rw [field_update Inode.dev device, field_update Inode.dev device, field_update Inode.inum number,
    field_update Inode.inum number]
  exact quiet.unique a b (positive a first) (positive b second)

omit quiet

theorem update_count (refs : Ip → Int) (ip : Ip) (d : Int) :
    update refs ip (refs ip + d) = refs + Pi.single ip d := by
  funext e
  by_cases here : e = ip
  · rw [here, update_self, Pi.add_apply, Pi.single_eq_same]
  · rw [update_of_ne here, Pi.add_apply, Pi.single_eq_of_ne here, add_zero]

include quiet

theorem idup_spec (pos : 0 < refs ip) :
    Ends Any (idup ip) s fun _ t => Quiet t (refs + Pi.single ip 1) locks ops := by
  have count : (s.inode ip).ref + 1 = refs ip + 1 := by rw [quiet.count ip]
  refine (quiet.set ip rfl rfl count (quiet.held ip) fun _ => pos).imp fun _ t done => ?_
  rw [update_count, update_eq_self] at done
  exact done

theorem drop_spec :
    Ends Any (setInode ip fun i => { i with ref := i.ref - 1 }) s fun _ t => Quiet t (refs - Pi.single ip 1) locks ops := by
  have count : (s.inode ip).ref - 1 = refs ip + -1 := by rw [quiet.count ip, sub_eq_add_neg]
  refine (quiet.set ip rfl rfl count (quiet.held ip) fun some => by omega).imp fun _ t done => ?_
  rw [update_count, update_eq_self, Pi.single_neg] at done
  exact done

theorem lock_spec {f : Inode → Inode} {l : Bool} (device : ∀ i, (f i).dev = i.dev)
    (number : ∀ i, (f i).inum = i.inum) (count : ∀ i, (f i).ref = i.ref) (lock : ∀ i, (f i).locked = l) :
    Ends Any (setInode ip f) s fun _ t => Quiet t refs (update locks ip l) ops := by
  refine (quiet.set ip (device _) (number _) ((count _).trans (quiet.count ip)) (lock _) id).imp fun _ t done => ?_
  rw [update_eq_self] at done
  exact done

theorem iget_spec : Ends Any (iget dev inum) s fun ip t => Quiet t (refs + Pi.single ip 1) locks ops := by
  unfold iget
  rw [ends_get_bind]
  split
  next ip found =>
    have there := List.find?_some found
    simp only [decide_eq_true_eq] at there
    rw [quiet.count ip] at there
    exact (idup_spec quiet there.1).bind fun _ t done => done
  next missing =>
    split
    · trivial
    next ip found =>
      have zero := List.find?_some found
      simp only [decide_eq_true_eq] at zero
      rw [quiet.count ip] at zero
      have count : ∀ e, (refs + Pi.single ip 1 : Ip → Int) e = if e = ip then 1 else refs e := by
        intro e
        rw [Pi.add_apply, Pi.single_apply]
        split
        next here => rw [here, zero, zero_add]
        next => rw [add_zero]
      -- Nobody else in the table is the inode that gets the entry.
      have alone : ∀ e, e ≠ ip → 0 < refs e → (s.inode e).dev = dev → (s.inode e).inum = inum → False := by
        intro e _ some device number
        have absent := List.find?_eq_none.mp missing e (List.mem_finRange e)
        simp only [decide_eq_true_eq] at absent
        rw [quiet.count e] at absent
        exact absent ⟨some, device, number⟩
      refine ⟨fun e => ?_, fun e => ?_, fun a b first second => ?_, quiet.under⟩
      · dsimp only
        rw [count]
        split
        next here => rw [here, update_self]
        next other =>
          rw [update_of_ne other]
          exact quiet.count e
      · dsimp only
        by_cases here : e = ip
        · rw [here, update_self]
          exact quiet.held ip
        · rw [update_of_ne here]
          exact quiet.held e
      · dsimp only
        rw [count] at first second
        by_cases left : a = ip <;> by_cases right : b = ip
        · exact fun _ _ => left.trans right.symm
        · rw [if_neg right] at second
          rw [left, update_self, update_of_ne right]
          exact fun device number => (alone b right second device.symm number.symm).elim
        · rw [if_neg left] at first
          rw [right, update_self, update_of_ne left]
          exact fun device number => (alone a left first device number).elim
        · rw [if_neg left] at first
          rw [if_neg right] at second
          rw [update_of_ne left, update_of_ne right]
          exact quiet.unique a b first second

theorem ilock_spec [Superblock] :
    Ends Any (ilock ip) s fun _ t => 0 < refs ip ∧ locks ip = false ∧ Quiet t refs (update locks ip true) ops := by
  unfold ilock
  rw [ends_get_bind]
  dsimp only
  split
  · trivial
  next some =>
  split
  · trivial
  next free =>
  rw [quiet.count ip] at some
  rw [quiet.held ip, Bool.not_eq_true] at free
  refine (lock_spec quiet (f := fun i => { i with locked := true }) (fun _ => rfl) (fun _ => rfl) (fun _ => rfl)
    fun _ => rfl).bind fun _ t locked => ?_
  split
  · rw [ends_get_bind]
    refine (locked.set ip rfl rfl (locked.count ip) (locked.held ip) id).bind fun _ u done => ?_
    rw [update_eq_self, update_eq_self] at done
    split
    · trivial
    · exact ⟨by omega, free, done⟩
  · exact ⟨by omega, free, locked⟩

theorem iunlock_spec : Ends Any (iunlock ip) s fun _ t => Quiet t refs (update locks ip false) ops := by
  unfold iunlock
  rw [ends_get_bind]
  dsimp only
  split
  · trivial
  · exact lock_spec quiet (fun _ => rfl) (fun _ => rfl) (fun _ => rfl) fun _ => rfl

omit quiet

variable [sb : Superblock]

include quiet

theorem ialloc_spec {type : Int16} :
    Ends Any (ialloc dev type) s fun r t => Quiet t (refs + token r) locks ops := by
  unfold ialloc
  rw [ends_get_bind]
  split
  · rw [ends_pure, token_none, add_zero]
    exact quiet
  · refine (quiet.along setDinode_still).bind fun _ t marked => ?_
    rw [map_eq_pure_bind]
    exact (iget_spec marked).bind fun ip u done => done

theorem ifree_spec : Ends Any (ifree ip) s fun _ t => Quiet t refs locks ops := by
  unfold ifree
  rw [ends_get_bind]
  split
  · trivial
  next free =>
  rw [quiet.held ip, Bool.not_eq_true] at free
  refine (lock_spec quiet (f := fun i => { i with locked := true }) (fun _ => rfl) (fun _ => rfl) (fun _ => rfl)
    fun _ => rfl).bind fun _ _ locked => ?_
  refine (locked.along itrunc_still).bind fun _ _ trunc => (trunc.along setCopy_still).bind fun _ _ typed => ?_
  refine (typed.along iupdate_still).bind fun _ _ written => ?_
  refine (lock_spec written (f := fun i => { i with valid := false, locked := false }) (fun _ => rfl) (fun _ => rfl)
    (fun _ => rfl) fun _ => rfl).imp fun _ t done => ?_
  rw [update_idem, ← free, update_eq_self] at done
  exact done

theorem iput_spec : Ends Any (iput ip) s fun _ t => Quiet t (refs - Pi.single ip 1) locks ops := by
  unfold iput
  rw [ends_get_bind]
  dsimp only
  split
  · exact (ifree_spec quiet).bind fun _ t freed => drop_spec freed
  · exact drop_spec quiet

theorem iunlockput_spec :
    Ends Any (iunlockput ip) s fun _ t => Quiet t (refs - Pi.single ip 1) (update locks ip false) ops :=
  (iunlock_spec quiet).bind fun _ _ unlocked => iput_spec unlocked

theorem dirlookup_spec {dp : Ip} {name : Name} :
    Ends Any (dirlookup dp name) s fun r t => Quiet t (refs + token (r.map Prod.fst)) locks ops := by
  unfold dirlookup
  rw [ends_get_bind]
  dsimp only
  split
  · trivial
  refine (quiet.along lookupFrom_still).bind fun r t looked => ?_
  cases r with
  | none =>
    rw [ends_pure, Option.map_none, token_none, add_zero]
    exact looked
  | some _ =>
    dsimp only
    rw [map_eq_pure_bind]
    exact (iget_spec looked).bind fun ip u done => done

theorem dirlink_spec {dp : Ip} {name : Name} :
    Ends Any (dirlink dp name inum) s fun _ t => Quiet t refs locks ops := by
  unfold dirlink
  refine (dirlookup_spec quiet).bind fun r t found => ?_
  match r with
  | some (ip, k) =>
    refine (iput_spec found).bind fun _ u put => ?_
    rw [Option.map_some, token_some, add_sub_cancel_right] at put
    exact put
  | none =>
    rw [Option.map_none, token_none, add_zero] at found
    rw [ends_get_bind]
    refine (found.along emptyFrom_still).bind fun k u empty => ?_
    exact (empty.along writei_still).bind fun _ w written => written

omit quiet

omit sb in
theorem relock {l : Bool} (free : locks ip = l) {m : Bool} :
    update (update locks ip m) ip l = locks := by
  rw [update_idem, ← free, update_eq_self]

include quiet

/-- The reference to the inode where the walk starts is given up for one where it ends. -/
theorem namexFrom_spec {parent : Bool} {path : List Name} : Ends Any (namexFrom parent ip path) s fun r t =>
      Quiet t (refs - Pi.single ip 1 + token (r.map Prod.fst)) locks ops := by
  induction path generalizing s refs ip with
  | nil =>
    unfold namexFrom
    split
    · refine (iput_spec quiet).bind fun _ t put => ?_
      rw [ends_pure, Option.map_none, token_none, add_zero]
      exact put
    · rw [ends_pure, Option.map_some, token_some, sub_add_cancel]
      exact quiet
  | cons _ _ ih =>
    unfold namexFrom
    refine (ilock_spec quiet).bind ?_
    rintro _ t ⟨_, free, locked⟩
    rw [ends_get_bind]
    -- What a failure leaves.
    have give : ∀ {u : Fs}, Quiet u refs (update locks ip true) ops →
        Ends Any (do iunlockput ip; pure none) u fun (r : Option (Ip × Name)) t =>
          Quiet t (refs - Pi.single ip 1 + token (r.map Prod.fst)) locks ops := by
      intro u still
      refine (iunlockput_spec still).bind fun _ w put => ?_
      rw [relock free] at put
      rw [ends_pure, Option.map_none, token_none, add_zero]
      exact put
    split
    · exact give locked
    split
    · refine (iunlock_spec locked).bind fun _ u unlocked => ?_
      rw [relock free] at unlocked
      rw [ends_pure, Option.map_some, token_some, sub_add_cancel]
      exact unlocked
    refine (dirlookup_spec locked).bind fun r u found => ?_
    rcases r with _ | entry
    · rw [Option.map_none, token_none, add_zero] at found
      exact give found
    obtain ⟨next, _⟩ := entry
    refine (iunlockput_spec found).bind fun _ w put => ?_
    rw [relock free, Option.map_some, token_some] at put
    refine (ih put).imp fun r x done => ?_
    have sum : refs + Pi.single next 1 - Pi.single ip 1 - Pi.single next 1 + token (r.map Prod.fst) =
        refs - Pi.single ip 1 + token (r.map Prod.fst) := by abel
    rw [sum] at done
    exact done

theorem namex_spec {cwd : Option Ip} {path : Path} {parent : Bool}
    (referred : ∀ ip, cwd = some ip → 0 < refs ip) :
    Ends Any (namex cwd path parent) s fun r t => Quiet t (refs + token (r.map Prod.fst)) locks ops := by
  have walk : ∀ {u : Fs} {ip : Ip}, Quiet u (refs + Pi.single ip 1) locks ops →
      Ends Any (namexFrom parent ip path.elements) u fun r t => Quiet t (refs + token (r.map Prod.fst)) locks ops := by
    intro u ip more
    refine (namexFrom_spec more).imp fun r t done => ?_
    rw [add_sub_cancel_right] at done
    exact done
  unfold namex
  split
  · exact (iget_spec quiet).bind fun ip t got => walk got
  · cases cwd with
    | none => trivial
    | some ip => exact (idup_spec quiet (referred ip rfl)).bind fun _ t got => walk got

theorem namei_spec {cwd : Option Ip} {path : Path} (referred : ∀ ip, cwd = some ip → 0 < refs ip) :
    Ends Any (namei cwd path) s fun r t => Quiet t (refs + token r) locks ops := by
  unfold namei
  rw [map_eq_pure_bind]
  exact (namex_spec quiet referred).bind fun r t done => done

theorem nameiparent_spec {cwd : Option Ip} {path : Path} (referred : ∀ ip, cwd = some ip → 0 < refs ip) :
    Ends Any (nameiparent cwd path) s fun r t => Quiet t (refs + token (r.map Prod.fst)) locks ops :=
  namex_spec quiet referred

omit sb in
theorem beginOp_spec : Ends Any beginOp s fun _ t => Quiet t refs locks (ops + 1) := by
  unfold beginOp
  rw [ends_get_bind]
  rcases begun : s.log.beginOp with _ | log
  · trivial
  have one : log.outstanding = s.log.outstanding + 1 := by
    unfold Disk.Journal.Log.beginOp at begun
    split at begun
    · exact nomatch begun
    split at begun
    · exact nomatch begun
    · cases begun
      rfl
  exact ⟨quiet.count, quiet.held, quiet.unique, one.trans (by rw [quiet.under])⟩

omit quiet

omit sb in
theorem endOp_spec (quiet : Quiet s refs locks (ops + 1)) : Ends Any endOp s fun _ t => Quiet t refs locks ops := by
  unfold endOp
  rw [ends_get_bind]
  rcases ended : s.log.endOp with panic | result
  · trivial
  obtain ⟨log, doCommit⟩ := result
  have one : log.outstanding = ops := by
    unfold Disk.Journal.Log.endOp at ended
    dsimp only at ended
    rw [quiet.under] at ended
    split at ended
    · exact nomatch ended
    split at ended <;> cases ended <;> rfl
  dsimp only
  split
  · split
    · trivial
    · exact ⟨quiet.count, quiet.held, quiet.unique, one⟩
  · exact ⟨quiet.count, quiet.held, quiet.unique, one⟩

end Xv6Monitor.FileSystem.References
