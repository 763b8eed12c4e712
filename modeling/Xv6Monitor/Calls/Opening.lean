import Xv6Monitor.Calls.Upkeep

/-! The calls that take path names leave the references to inodes in balance. -/

namespace Xv6Monitor.Calls.Opening
open Function Lib.Program Lib.Tally Process.Table Memory.Frames FileSystem.Format FileSystem.Blocks FileSystem.Inodes
  FileSystem.Steady FileSystem.References State Names Sharing Paths Balance Upkeep

variable [image : Image] [sb : Superblock] {k : Kernel} {extra : Ip → Int} {locks : Ip → Bool} {ops : Nat} {p : Slot}

theorem openFile_linked {n : Dinode} (linked : Linked k extra locks ops) :
    Ends Any (openFile p n) k fun r t => Linked t extra locks ops ∧
      ∀ f fd, r = some (f, fd) → (t.file f).ref = 1 ∧ (t.file f).type = .none := by
  unfold openFile
  split
  · exact ⟨linked, fun _ _ wrong => nomatch wrong⟩
  refine (filealloc_linked linked).bind fun r t ⟨made, _, fresh⟩ => ?_
  match r with
  | none => exact ⟨made, fun _ _ wrong => nomatch wrong⟩
  | some f =>
    obtain ⟨-, one, plain, -⟩ := fresh f rfl
    refine (fdalloc_linked made).bind fun r u ⟨given, same, _⟩ => ?_
    match r with
    | none => exact (fileclose_linked given).bind fun _ _ ⟨closed, _⟩ => ⟨closed, fun _ _ wrong => nomatch wrong⟩
    | some fd =>
      refine ⟨given, fun g fd' here => ?_⟩
      cases here
      rw [same]
      exact ⟨one, plain⟩

omit image sb in
theorem inodeOf_opened (n : Dinode) (ip : Ip) (omode : UInt32) (g : File) : inodeOf (opened n ip omode g) = some ip := by
  unfold opened
  split <;> rfl

omit image sb in
theorem opened_ref (n : Dinode) (ip : Ip) (omode : UInt32) (g : File) : (opened n ip omode g).ref = g.ref := by
  unfold opened
  split <;> rfl

omit image sb in
theorem linked_opened {f : Fp} {ip : Ip} (n : Dinode) (omode : UInt32) (linked : Linked k (Pi.single ip 1) locks ops)
    (one : (k.file f).ref = 1) (plain : (k.file f).type = .none) :
    Linked { k with file := update k.file f (opened n ip omode (k.file f)) } 0 locks ops := by
  have nothing : inodeOf (k.file f) = none := by rw [inodeOf, plain]
  have moved := linked.point (f := f) (g := opened n ip omode (k.file f)) fun zero => by
    rw [opened_ref, one] at zero
    exact absurd zero (by decide)
  rw [nothing, inodeOf_opened, token_none, token_some, add_zero, sub_self] at moved
  exact moved

omit image in
theorem putEnd_balance {ip : Ip} {r : Int} (free : locks ip = false)
    (linked : Linked k (Pi.single ip 1) (update locks ip true) 1) :
    Ends Any (do onFs (iunlockput ip); onFs endOp; pure r) k fun _ t => Linked t 0 locks 0 := by
  refine onFs_then (iunlockput_spec linked.quiet) fun _ s put => ?_
  rw [relock free, add_sub_cancel_right] at put
  refine onFs_then (endOp_spec put) fun _ t ended => ?_
  rw [← add_zero (tally _)] at ended
  exact linked.fs ended

theorem sysOpen_balance {path : Option Path} {omode : UInt32} (linked : Balanced k) :
    Ends Any (sysOpen p path omode) k fun _ t => Balanced t := by
  unfold sysOpen
  split
  · exact linked
  refine onFs_then (beginOp_spec linked.quiet) fun _ s begun => ?_
  rw [ends_get_bind]
  refine onFs_then (openInode_spec begun (referred fun _ => le_refl 0)) fun r t found => ?_
  match r with
  | none => exact onFs_then (endOp_spec found) fun _ _ ended => linked.fs ended
  | some ip =>
    obtain ⟨free, found⟩ := found
    rw [add_assoc, zero_add] at found
    rw [ends_get_bind]
    refine (openFile_linked (linked.fs found)).bind fun r u ⟨made, fresh⟩ => ?_
    match r with
    | none => exact putEnd_balance free made
    | some (f, fd) =>
      obtain ⟨one, plain⟩ := fresh f fd rfl
      have given := linked_opened (t.inode ip).copy omode made one plain
      have last : ∀ {w : Kernel}, Linked w 0 (update (fun _ => false) ip true) 1 →
          Ends Any (do onFs (iunlock ip); onFs endOp; pure (fd : Int)) w fun _ t => Balanced t := by
        intro w locked
        refine onFs_then (iunlock_spec locked.quiet) fun _ _ unlocked => ?_
        rw [relock free] at unlocked
        exact onFs_then (endOp_spec unlocked) fun _ _ ended => locked.fs ended
      rw [ends_setFile_bind]
      split
      · exact onFs_then (given.quiet.along itrunc_still) fun _ _ trunc => last (given.fs trunc)
      · exact last given

omit image in
theorem sysLink_balance {old new : Option Path} (linked : Balanced k) :
    Ends Any (sysLink p old new) k fun _ t => Balanced t := by
  unfold sysLink
  split
  · rw [ends_get_bind]
    refine onFs_then (beginOp_spec linked.quiet) fun _ s begun => ?_
    refine onFs_then (link_spec begun (referred fun _ => le_refl 0)) fun _ t named => ?_
    exact onFs_then (endOp_spec named) fun _ _ ended => linked.fs ended
  · exact linked

omit image in
theorem sysUnlink_balance {path : Option Path} (linked : Balanced k) :
    Ends Any (sysUnlink p path) k fun _ t => Balanced t := by
  unfold sysUnlink
  split
  · exact linked
  · rw [ends_get_bind]
    refine onFs_then (beginOp_spec linked.quiet) fun _ s begun => ?_
    refine onFs_then (unlink_spec begun (referred fun _ => le_refl 0)) fun _ t gone => ?_
    exact onFs_then (endOp_spec gone) fun _ _ ended => linked.fs ended

omit image in
theorem makeInode_balance {path : Option Path} {type major minor : Int16} (linked : Balanced k) :
    Ends Any (makeInode p path type major minor) k fun _ t => Balanced t := by
  unfold makeInode
  rw [ends_get_bind]
  refine onFs_then (beginOp_spec linked.quiet) fun _ s begun => ?_
  refine onFs_then (R := Returned (tally (pointers k.file k.proc) + 0) (fun _ => false) 1) ?_ fun r t found => ?_
  · split
    · exact begun
    · exact create_spec begun (referred fun _ => le_refl 0)
  cases r with
  | none => exact onFs_then (endOp_spec found) fun _ _ ended => linked.fs ended
  | some _ =>
    obtain ⟨free, found⟩ := found
    rw [add_assoc, zero_add] at found
    exact putEnd_balance free (linked.fs found)

omit image in
theorem sysChdir_balance {path : Option Path} (linked : Balanced k) (busy : Busy (k.proc p)) :
    Ends Any (sysChdir p path) k fun _ t => Balanced t := by
  unfold sysChdir
  rw [ends_get_bind]
  refine onFs_then (beginOp_spec linked.quiet) fun _ s begun => ?_
  refine onFs_then (R := fun r t => Quiet t (tally (pointers k.file k.proc) + 0 + token r) (fun _ => false) 1) ?_
    fun r t named => ?_
  · split
    · rw [ends_pure, token_none, add_zero]
      exact begun
    · exact namedir_spec begun (referred fun _ => le_refl 0)
  rcases r with _ | ip
  · rw [add_zero] at named
    exact onFs_then (endOp_spec named) fun _ _ ended => linked.fs ended
  rw [add_assoc, zero_add] at named
  rcases here : (k.proc p).cwd with _ | _
  · trivial
  refine onFs_then (iput_spec named) fun _ u put => onFs_then (endOp_spec put) fun _ w ended => ?_
  rw [add_sub_assoc] at ended
  have moved := (linked.fs ended).setCwd (p := p) (q := { k.proc p with cwd := some ip }) fun idle => absurd busy idle
  rw [here, token_some, token_some, sub_add_cancel, sub_self] at moved
  exact moved

end Xv6Monitor.Calls.Opening
