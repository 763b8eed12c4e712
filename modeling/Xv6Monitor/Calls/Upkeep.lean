import Xv6Monitor.Calls.Balance
import Xv6Monitor.Calls.Descriptors
import Xv6Monitor.Calls.Machine

/-! Every system call leaves the references to inodes in balance, all locks free and no operation under
way. -/

namespace Xv6Monitor.Calls.Upkeep
open Function Lib.Program Process.Table Memory.Frames Memory.Tables FileSystem.Format FileSystem.Blocks
  FileSystem.Inodes FileSystem.Steady FileSystem.References State Files Names Processes Descriptors Balance
open Disk.Buffers (ROOTDEV)

/-- The references are those of open files and current directories, and nothing is under way. -/
abbrev Balanced (k : Kernel) : Prop := Linked k 0 (fun _ => false) 0

variable {k : Kernel} {extra : Ip → Int} {locks : Ip → Bool} {ops : Nat} {f : Fp} {p np : Slot} {ip : Ip} {r : Int}
  {fd : Int}

theorem sysDup_balance (linked : Balanced k) : Ends Any (sysDup p fd) k fun _ t => Balanced t := by
  unfold sysDup
  rw [ends_get_bind]
  split
  · exact linked
  · refine (fdalloc_linked linked).bind fun r t ⟨given, _⟩ => ?_
    match r with
    | none => exact given
    | some fd => exact (filedup_linked given).bind fun _ _ ⟨done, _⟩ => done

variable [image : Image] {n : Int}

theorem sysSbrk_balance (linked : Balanced k) : Ends Any (sysSbrk p n) k fun _ t => Balanced t := by
  have grown : Ends Any (growproc p n) k fun _ t => Balanced t := by
    unfold growproc
    rw [ends_get_bind]
    split
    · refine onRam_anyway fun sz m => ?_
      split
      · exact linked.ram m
      · rw [ends_setProc_bind]
        exact (linked.ram m).setProc rfl fun idle => linked.rest p idle
    split
    · refine onRam_anyway fun sz m => ?_
      exact (linked.ram m).setProc rfl fun idle => linked.rest p idle
    · exact linked
  unfold sysSbrk
  rw [ends_get_bind]
  refine grown.bind fun r t done => ?_
  split <;> exact done

variable [sb : Superblock]

theorem sysClose_balance (linked : Balanced k) : Ends Any (sysClose p fd) k fun _ t => Balanced t := by
  unfold sysClose
  rw [ends_get_bind]
  split
  · exact linked
  · rw [ends_setFd_bind]
    exact (fileclose_linked linked.withFd).bind fun _ _ ⟨done, _⟩ => done

theorem closeBoth_linked {rf wf : Fp} (linked : Linked k extra locks ops) :
    Ends Any (do fileclose rf; fileclose wf; pure r) k fun _ t => Linked t extra locks ops :=
  (fileclose_linked linked).bind fun _ _ ⟨one, _⟩ => (fileclose_linked one).bind fun _ _ ⟨both, _⟩ => both

omit image sb in
theorem paired_linked {pi : Nat} {f0 f1 : Fp} (linked : Linked k extra locks ops) (apart : f0 ≠ f1)
    (plain : (k.file f0).type = .none) (plain' : (k.file f1).type = .none) (used : 0 < (k.file f0).ref)
    (used' : 0 < (k.file f1).ref) : Linked (withPipe k pi f0 f1) extra locks ops := by
  have first := (linked.ram { k.ram with page := update k.ram.page pi (freshPipe (k.ram.page pi)) }).setFile (f := f0)
    (g := { k.file f0 with type := .pipe, readable := true, writable := false, pipe := pi }) (by simp [inodeOf, plain])
    fun none => absurd none (not_le.mpr used)
  refine first.setFile (f := f1) ?_ fun none => absurd none (not_le.mpr used')
  dsimp only
  rw [update_of_ne apart.symm, inodeOf, inodeOf, plain']

theorem pipealloc_linked (linked : Linked k extra locks ops) :
    Ends Any pipealloc k fun _ t => Linked t extra locks ops ∧ t.proc = k.proc := by
  unfold pipealloc
  refine (filealloc_linked linked).bind fun r t ⟨first, same, fresh⟩ => ?_
  match r with
  | none => exact ⟨first, same⟩
  | some f0 =>
    obtain ⟨-, used, plain, -⟩ := fresh f0 rfl
    refine (filealloc_linked first).bind fun r u ⟨second, same', fresh'⟩ => ?_
    rw [← same'] at same
    match r with
    | none => exact (fileclose_linked second).bind fun _ _ ⟨done, last⟩ => ⟨done, last.trans same⟩
    | some f1 =>
      obtain ⟨free, used', plain', others⟩ := fresh' f1 rfl
      have apart : f0 ≠ f1 := by
        intro wrong
        rw [wrong, free] at used
        exact absurd used (by decide)
      have old := others f0 apart
      refine onRam_anyway fun r m => ?_
      match r with
      | none =>
        refine (fileclose_linked (second.ram m)).bind fun _ _ ⟨one, same₂⟩ => ?_
        exact (fileclose_linked one).bind fun _ _ ⟨both, same₃⟩ => ⟨both, (same₃.trans same₂).trans same⟩
      | some pi =>
        refine ends_pairing apart ⟨paired_linked (second.ram m) apart ?_ plain' ?_ ?_, same⟩
        · dsimp only
          rw [old, plain]
        · dsimp only
          rw [old, used]
          decide
        · dsimp only
          rw [used']
          decide

theorem sysPipe_balance {fdarray : Nat} (linked : Balanced k) :
    Ends Any (sysPipe p fdarray) k fun _ t => Balanced t := by
  unfold sysPipe
  refine (pipealloc_linked linked).bind fun r t ⟨made, _⟩ => ?_
  match r with
  | none => exact made
  | some (rf, wf) =>
    refine (fdalloc_linked made).bind fun r u ⟨first, _⟩ => ?_
    match r with
    | none => exact closeBoth_linked first
    | some fd0 =>
      refine (fdalloc_linked first).bind fun r w ⟨second, _⟩ => ?_
      match r with
      | none =>
        exact closeBoth_linked second.withFd
      | some fd1 =>
        rw [ends_get_bind]
        refine onRam_anyway fun told m => ?_
        have both : Ends Any (if told then onRam (copyout (w.proc p).pagetable (fdarray + 4) (intBytes fd1) 4)
            else pure false) { w with ram := m } fun _ t => Balanced t := by
          split
          · exact ends_onRam.mpr (ends_of (fun _ m' _ => (second.ram m).ram m') fun _ _ => trivial)
          · exact second.ram m
        refine both.bind fun done x linked' => ?_
        split
        · exact linked'
        · rw [ends_setFd_bind, ends_setFd_bind]
          exact closeBoth_linked linked'.withFd.withFd

variable {addr : Nat}

omit image sb in
theorem pipereadFrom_outside {pi pt left i : Nat} : Along Outside (pipereadFrom pi pt addr left i) := by
  induction left generalizing i with
  | zero => exact along_pure i
  | succ left ih =>
    refine along_bind along_get fun k => ?_
    dsimp only
    split
    · exact along_pure i
    · refine along_bind setPage_outside fun _ => along_bind onRam_outside fun done => ?_
      split
      · exact ih
      · exact along_pure i

omit image sb in
theorem piperead_outside {pi : Nat} : Along Outside (piperead p pi addr n) := by
  refine along_bind along_get fun k => ?_
  split
  · exact along_stop _
  · exact along_bind pipereadFrom_outside fun i => along_pure _

variable {src : Nat → Option UInt8}

omit image sb in
theorem pipewriteFrom_outside {pi left i : Nat} : Along Outside (pipewriteFrom pi src left i) := by
  induction left generalizing i with
  | zero => exact along_pure _
  | succ left ih =>
    refine along_bind along_get fun k => ?_
    split
    · exact along_pure _
    dsimp only
    split
    · exact along_stop _
    split
    · exact along_pure _
    · exact along_bind setPage_outside fun _ => along_bind setPage_outside fun _ => ih

omit image in
theorem sysRead_balance {console : Int} (linked : Balanced k) :
    Ends Any (sysRead p fd addr n console) k fun _ t => Balanced t := by
  unfold sysRead
  rw [ends_get_bind]
  split
  · exact linked
  next f _ =>
  rw [ends_get_bind]
  split
  · exact linked
  split
  · exact (piperead_outside k).imp fun _ t outside => linked.outside outside
  · exact linked
  next ip _ _ =>
    refine onFs_then (ilock_spec linked.quiet) fun _ _ ⟨_, free, locked⟩ => ?_
    refine onFs_then (locked.along readi_still) fun got s read => onRam_anyway fun _ m => ?_
    have during := (linked.fs read).ram m
    have last : ∀ {t : Kernel} {r : Int}, Linked t 0 (update (fun _ => false) ip true) 0 →
        Ends Any (do onFs (iunlock ip); pure r) t fun _ t => Balanced t := by
      intro t r reading
      refine onFs_then (iunlock_spec reading.quiet) fun _ u done => ?_
      rw [relock free] at done
      exact reading.fs done
    split
    · exact last during
    · split
      · exact last (during.setFile rfl (linked.idle f))
      · exact last during
  · trivial

omit image in
theorem filewriteFrom_balance {n rounds i : Nat} (linked : Balanced k) :
    Ends Any (filewriteFrom f ip src n rounds i) k fun _ t => Balanced t := by
  induction rounds generalizing k i with
  | zero => exact linked
  | succ rounds ih =>
    unfold filewriteFrom
    split
    · refine onFs_then (beginOp_spec linked.quiet) fun _ _ begun => ?_
      refine onFs_then (ilock_spec begun) fun _ s ⟨_, free, locked⟩ => ?_
      dsimp only
      rw [ends_get_bind]
      refine onFs_then (locked.along writei_still) fun r s wrote => ?_
      have during := linked.fs wrote
      have last : ∀ {t : Kernel}, Linked t 0 (update (fun _ => false) ip true) 1 →
          Ends Any (do
            onFs (iunlock ip)
            onFs endOp
            if r = some (min (n - i) maxWrite) then filewriteFrom f ip src n rounds (i + min (n - i) maxWrite)
            else pure i) t fun _ t => Balanced t := by
        intro t moved
        refine onFs_then (iunlock_spec moved.quiet) fun _ _ unlocked => ?_
        rw [relock free] at unlocked
        refine onFs_then (endOp_spec unlocked) fun _ _ ended => ?_
        split
        · exact ih (moved.fs ended)
        · exact moved.fs ended
      split
      · rw [ends_setFile_bind]
        exact last (during.setFile rfl (linked.idle f))
      · exact last during
    · exact linked

omit image in
theorem sysWrite_balance {console : Int} (linked : Balanced k) :
    Ends Any (sysWrite p fd src n console) k fun _ t => Balanced t := by
  unfold sysWrite
  rw [ends_get_bind]
  split
  · exact linked
  rw [ends_get_bind]
  dsimp only
  split
  · exact linked
  split
  · exact (pipewriteFrom_outside k).imp fun _ t outside => linked.outside outside
  · exact linked
  · exact (filewriteFrom_balance linked).bind fun _ _ done => done
  · trivial

omit image in
theorem sysFstat_balance {stack : Lib.Bytes.Data} (linked : Balanced k) : Ends Any (sysFstat p fd addr stack) k fun _ t => Balanced t := by
  unfold sysFstat
  rw [ends_get_bind]
  split
  · exact linked
  rw [ends_get_bind]
  split
  · split
    · trivial
    refine onFs_then (ilock_spec linked.quiet) fun _ _ ⟨_, free, locked⟩ => ?_
    rw [ends_get_bind]
    refine onFs_then (iunlock_spec locked) fun _ s unlocked => onRam_anyway fun _ m => ?_
    rw [relock free] at unlocked
    split <;> exact (linked.fs unlocked).ram m
  · exact linked

end Xv6Monitor.Calls.Upkeep
