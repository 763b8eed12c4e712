import Xv6Monitor.Calls.Names
import Xv6Monitor.FileSystem.References

/-! What the calls with path names do to references, locks and operations: each of their ways through the
file system gives up what it took, apart from the inode that it returns. -/

namespace Xv6Monitor.Calls.Paths
open Function Lib.Program Lib.Tally FileSystem.Format FileSystem.Blocks FileSystem.Inodes FileSystem.Steady
  FileSystem.References Names

variable [sb : Superblock] {s t : Fs} {refs : Ip → Int} {locks : Ip → Bool} {ops : Nat} {ip dp : Ip} {cwd : Option Ip}

omit sb in
theorem relock_both (free : locks dp = false) (free' : update locks dp true ip = false) :
    ip ≠ dp ∧ locks ip = false ∧
      update (update (update locks dp true) ip true) dp false = update locks ip true ∧
      update (update locks dp true) ip false = update locks dp true := by
  have apart : ip ≠ dp := by
    intro same
    rw [same, update_self] at free'
    exact nomatch free'
  rw [update_of_ne apart] at free'
  refine ⟨apart, free', ?_, ?_⟩
  · rw [update_comm apart.symm, relock ((update_of_ne apart.symm ..).trans free)]
  · rw [update_comm apart.symm, ← free', update_eq_self]

theorem isdiremptyFrom_still {left k : Nat} : Along Still (isdiremptyFrom dp left k) := by
  induction left generalizing k with
  | zero => exact along_pure _
  | succ left ih =>
    refine along_bind readEntry_still fun e => ?_
    match e with
    | none => exact along_stop _
    | some e =>
      dsimp only
      split
      · exact along_pure _
      · exact ih

theorem isdirempty_still : Along Still (isdirempty dp) := along_bind along_get fun _ => isdiremptyFrom_still

theorem unlinkEntry_spec {k : Nat} (free : locks dp = false) (free' : update locks dp true ip = false)
    (quiet : Quiet s (refs + Pi.single dp 1 + Pi.single ip 1) (update (update locks dp true) ip true) ops) :
    Ends Any (unlinkEntry dp ip k) s fun _ t => Quiet t refs locks ops := by
  obtain ⟨apart, alone, first, second⟩ := relock_both free free'
  have last : ∀ {u : Fs} {b : Bool}, Quiet u (refs + Pi.single dp 1 + Pi.single ip 1)
      (update (update locks dp true) ip true) ops →
      Ends Any (do iunlockput ip; iunlockput dp; pure b) u fun _ t => Quiet t refs locks ops := by
    intro u b both
    refine (iunlockput_spec both).bind fun _ _ one => ?_
    rw [update_idem, second, add_sub_cancel_right] at one
    refine (iunlockput_spec one).bind fun _ _ none => ?_
    rw [relock free, add_sub_cancel_right] at none
    exact none
  unfold unlinkEntry
  rw [ends_get_bind]
  dsimp only
  split
  · trivial
  have emptied : Ends Any (if (s.inode ip).copy.type = T_DIR then isdirempty ip else pure true) s fun _ t =>
      Quiet t (refs + Pi.single dp 1 + Pi.single ip 1) (update (update locks dp true) ip true) ops := by
    split
    · exact quiet.along isdirempty_still
    · exact quiet
  refine emptied.bind fun empty u tested => ?_
  split
  · refine (tested.along writei_still).bind fun r w wiped => ?_
    split
    · -- The directory is given up first on this way.
      have rest : ∀ {x : Fs}, Quiet x (refs + Pi.single dp 1 + Pi.single ip 1)
          (update (update locks dp true) ip true) ops →
          Ends Any (do
            iunlockput dp
            setCopy ip fun n => { n with nlink := n.nlink - 1 }
            iupdate ip
            iunlockput ip
            pure true) x fun _ t => Quiet t refs locks ops := by
        intro x both
        refine (iunlockput_spec both).bind fun _ _ one => ?_
        rw [first, add_right_comm, add_sub_cancel_right] at one
        refine (one.along setCopy_still).bind fun _ _ changed => (changed.along iupdate_still).bind fun _ _ written => ?_
        refine (iunlockput_spec written).bind fun _ _ none => ?_
        rw [relock alone, add_sub_cancel_right] at none
        exact none
      split
      · exact (wiped.along setCopy_still).bind fun _ _ changed => (changed.along iupdate_still).bind fun _ _ written =>
          rest written
      · exact rest wiped
    · trivial
  · exact last tested

variable (quiet : Quiet s refs locks ops)
include quiet

theorem unlinkBack_spec : Ends Any (unlinkBack ip) s fun _ t => Quiet t (refs - Pi.single ip 1) locks ops := by
  unfold unlinkBack
  refine (ilock_spec quiet).bind fun _ _ ⟨_, free, locked⟩ => ?_
  refine (locked.along setCopy_still).bind fun _ _ changed => (changed.along iupdate_still).bind fun _ _ written => ?_
  refine (iunlockput_spec written).imp fun _ t put => ?_
  rw [relock free] at put
  exact put

theorem linkNew_spec {name : Name} {type : Int16} :
    Ends Any (linkNew dp ip name type) s fun _ t => Quiet t refs locks ops := by
  have dots : Ends Any (if type = T_DIR then linkDots dp ip else pure true) s fun _ t => Quiet t refs locks ops := by
    split
    · unfold linkDots
      rw [ends_get_bind]
      refine (dirlink_spec quiet).bind fun done t first => ?_
      split
      · exact dirlink_spec first
      · exact first
    · exact quiet
  unfold linkNew
  rw [ends_get_bind]
  refine dots.bind fun done t first => ?_
  split
  · exact dirlink_spec first
  · exact first

variable (referred : ∀ ip, cwd = some ip → 0 < refs ip)
include referred

theorem link_spec {old new : Path} :
    Ends Any (link cwd old new) s fun _ t => Quiet t refs locks ops := by
  unfold link
  refine (namei_spec quiet referred).bind fun r t named => ?_
  match r with
  | none =>
    rw [token_none, add_zero] at named
    exact named
  | some ip =>
    rw [token_some] at named
    refine (ilock_spec named).bind fun _ _ ⟨_, free, locked⟩ => ?_
    rw [ends_get_bind]
    split
    · refine (iunlockput_spec locked).bind fun _ _ put => ?_
      rw [relock free, add_sub_cancel_right] at put
      exact put
    refine (locked.along setCopy_still).bind fun _ _ changed => (changed.along iupdate_still).bind fun _ _ written => ?_
    refine (iunlock_spec written).bind fun _ _ unlocked => ?_
    rw [relock free] at unlocked
    -- The reference to `ip` is given up at the end.
    have back : ∀ {u : Fs}, Quiet u (refs + Pi.single ip 1) locks ops →
        Ends Any (unlinkBack ip) u fun _ t => Quiet t refs locks ops := by
      intro u with_
      refine (unlinkBack_spec with_).imp fun _ t put => ?_
      rw [add_sub_cancel_right] at put
      exact put
    refine (nameiparent_spec unlocked fun e here => ?_).bind fun r u found => ?_
    · have before := referred e here
      rw [Pi.add_apply, Pi.single_apply]
      split <;> omega
    match r with
    | none =>
      rw [Option.map_none, token_none, add_zero] at found
      exact (back found).bind fun _ _ done => done
    | some (dp, name) =>
      refine (ilock_spec found).bind fun _ w ⟨_, free', locked'⟩ => ?_
      rw [ends_get_bind]
      have linked : Ends Any (if (w.inode dp).dev ≠ (w.inode ip).dev then pure false
          else dirlink dp name (w.inode ip).inum) w fun _ t =>
            Quiet t (refs + Pi.single ip 1 + Pi.single dp 1) (update locks dp true) ops := by
        split
        · exact locked'
        · exact dirlink_spec locked'
      refine linked.bind fun done x entered => (iunlockput_spec entered).bind fun _ y put => ?_
      rw [relock free', add_sub_cancel_right] at put
      split
      · refine (iput_spec put).bind fun _ _ last => ?_
        rw [add_sub_cancel_right] at last
        exact last
      · exact (back put).bind fun _ _ last => last

theorem unlink_spec {path : Path} :
    Ends Any (unlink cwd path) s fun _ t => Quiet t refs locks ops := by
  unfold unlink
  refine (nameiparent_spec quiet referred).bind fun r t found => ?_
  match r with
  | none =>
    rw [Option.map_none, token_none, add_zero] at found
    exact found
  | some (dp, name) =>
    refine (ilock_spec found).bind fun _ _ ⟨_, free, locked⟩ => ?_
    have give : ∀ {u : Fs}, Quiet u (refs + Pi.single dp 1) (update locks dp true) ops →
        Ends Any (do iunlockput dp; pure false) u fun _ t => Quiet t refs locks ops := by
      intro u one
      refine (iunlockput_spec one).bind fun _ _ none => ?_
      rw [relock free, add_sub_cancel_right] at none
      exact none
    split
    · exact give locked
    refine (dirlookup_spec locked).bind fun r u looked => ?_
    match r with
    | none =>
      rw [Option.map_none, token_none, add_zero] at looked
      exact give looked
    | some (ip, k) =>
      exact (ilock_spec looked).bind fun _ _ ⟨_, free', both⟩ => unlinkEntry_spec free free' both

def Returned (refs : Ip → Int) (locks : Ip → Bool) (ops : Nat) (r : Option Ip) (t : Fs) : Prop :=
  match r with
  | none => Quiet t refs locks ops
  | some ip => locks ip = false ∧ Quiet t (refs + Pi.single ip 1) (update locks ip true) ops

theorem create_spec {path : Path} {type major minor : Int16} :
    Ends Any (create cwd path type major minor) s (Returned refs locks ops) := by
  unfold create
  refine (nameiparent_spec quiet referred).bind fun r t found => ?_
  match r with
  | none =>
    rw [Option.map_none, token_none, add_zero] at found
    exact found
  | some (dp, name) =>
    rw [Option.map_some, token_some] at found
    dsimp only
    refine (ilock_spec found).bind fun _ _ ⟨_, free, locked⟩ => ?_
    refine (dirlookup_spec locked).bind fun r u looked => ?_
    match r with
    | some (ip, k) =>
      rw [Option.map_some, token_some] at looked
      refine (iunlockput_spec looked).bind fun _ _ put => ?_
      rw [relock free, add_right_comm, add_sub_cancel_right] at put
      refine (ilock_spec put).bind fun _ _ ⟨_, free', locked'⟩ => ?_
      rw [ends_get_bind]
      split
      · exact ⟨free', locked'⟩
      · refine (iunlockput_spec locked').bind fun _ _ none => ?_
        rw [relock free', add_sub_cancel_right] at none
        exact none
    | none =>
      rw [Option.map_none, token_none, add_zero] at looked
      rw [ends_get_bind]
      refine (ialloc_spec looked).bind fun r w made => ?_
      match r with
      | none =>
        rw [token_none, add_zero] at made
        refine (iunlockput_spec made).bind fun _ _ none => ?_
        rw [relock free, add_sub_cancel_right] at none
        exact none
      | some ip =>
        rw [token_some] at made
        refine (ilock_spec made).bind fun _ _ ⟨_, free', both⟩ => ?_
        obtain ⟨_, alone, first, second⟩ := relock_both free free'
        refine (both.along setCopy_still).bind fun _ _ changed => (changed.along iupdate_still).bind fun _ _ written => ?_
        refine (linkNew_spec written).bind fun done x linked => ?_
        split
        · have rest : ∀ {y : Fs}, Quiet y (refs + Pi.single dp 1 + Pi.single ip 1)
              (update (update locks dp true) ip true) ops →
              Ends Any (do iunlockput dp; pure (some ip)) y (Returned refs locks ops) := by
            intro y both
            refine (iunlockput_spec both).bind fun _ _ one => ?_
            rw [first, add_right_comm, add_sub_cancel_right] at one
            exact ⟨alone, one⟩
          split
          · exact (linked.along setCopy_still).bind fun _ _ more => (more.along iupdate_still).bind fun _ _ last =>
              rest last
          · exact rest linked
        · refine (linked.along setCopy_still).bind fun _ _ less => (less.along iupdate_still).bind fun _ _ last => ?_
          refine (iunlockput_spec last).bind fun _ _ one => ?_
          rw [update_idem, second, add_sub_cancel_right] at one
          refine (iunlockput_spec one).bind fun _ _ none => ?_
          rw [relock free, add_sub_cancel_right] at none
          exact none

theorem openInode_spec {path : Path} {omode : UInt32} :
    Ends Any (openInode cwd path omode) s (Returned refs locks ops) := by
  unfold openInode
  split
  · exact create_spec quiet referred
  refine (namei_spec quiet referred).bind fun r t named => ?_
  match r with
  | none =>
    rw [token_none, add_zero] at named
    exact named
  | some ip =>
    rw [token_some] at named
    refine (ilock_spec named).bind fun _ _ ⟨_, free, locked⟩ => ?_
    rw [ends_get_bind]
    split
    · refine (iunlockput_spec locked).bind fun _ _ none => ?_
      rw [relock free, add_sub_cancel_right] at none
      exact none
    · exact ⟨free, locked⟩

theorem namedir_spec {path : Path} :
    Ends Any (namedir cwd path) s fun r t => Quiet t (refs + token r) locks ops := by
  unfold namedir
  refine (namei_spec quiet referred).bind fun r t named => ?_
  match r with
  | none => exact named
  | some ip =>
    rw [token_some] at named
    refine (ilock_spec named).bind fun _ _ ⟨_, free, locked⟩ => ?_
    rw [ends_get_bind]
    split
    · refine (iunlockput_spec locked).bind fun _ _ none => ?_
      rw [relock free, add_sub_cancel_right] at none
      rw [ends_pure, token_none, add_zero]
      exact none
    · refine (iunlock_spec locked).bind fun _ _ unlocked => ?_
      rw [relock free] at unlocked
      exact unlocked

end Xv6Monitor.Calls.Paths
