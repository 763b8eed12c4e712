import Xv6Monitor.FileSystem.Inodes

/-! The functions on blocks and on the contents of files leave the inode table alone, apart from the copies
of disk inodes in it, and they neither begin nor end an operation. -/

namespace Xv6Monitor.FileSystem.Steady
open Lib.Bytes Lib.Program Format Blocks Inodes

structure Still (s t : Fs) : Prop where
  dev : ∀ ip, (t.inode ip).dev = (s.inode ip).dev
  inum : ∀ ip, (t.inode ip).inum = (s.inode ip).inum
  ref : ∀ ip, (t.inode ip).ref = (s.inode ip).ref
  locked : ∀ ip, (t.inode ip).locked = (s.inode ip).locked
  valid : ∀ ip, (t.inode ip).valid = (s.inode ip).valid
  outstanding : t.log.outstanding = s.log.outstanding
  durable : t.durable = s.durable
  power : t.power = s.power

instance : IsPreorder Fs Still where
  refl := fun _ => ⟨fun _ => rfl, fun _ => rfl, fun _ => rfl, fun _ => rfl, fun _ => rfl, rfl, rfl, rfl⟩
  trans := fun _ _ _ first second =>
    ⟨fun ip => (second.dev ip).trans (first.dev ip), fun ip => (second.inum ip).trans (first.inum ip),
      fun ip => (second.ref ip).trans (first.ref ip), fun ip => (second.locked ip).trans (first.locked ip),
      fun ip => (second.valid ip).trans (first.valid ip), second.outstanding.trans first.outstanding,
      second.durable.trans first.durable, second.power.trans first.power⟩

variable {ip : Ip}

theorem setCopy_still {f : Dinode → Dinode} : Along Still (setCopy ip f) :=
  along_modify fun _ => ⟨field_update Inode.dev rfl, field_update Inode.inum rfl, field_update Inode.ref rfl,
    field_update Inode.locked rfl, field_update Inode.valid rfl, rfl, rfl, rfl⟩

variable {log : Disk.Journal.Log}

theorem still_disk {s : Fs} {disk : Nat → Data} (same : log.outstanding = s.log.outstanding) :
    Still s { s with disk := disk, log := log } :=
  ⟨fun _ => rfl, fun _ => rfl, fun _ => rfl, fun _ => rfl, fun _ => rfl, same, rfl, rfl⟩

theorem logWrite_outstanding {log' : Disk.Journal.Log} {b : Nat} (written : log.logWrite b = .ok log') :
    log'.outstanding = log.outstanding := by
  unfold Disk.Journal.Log.logWrite at written
  split at written
  · exact nomatch written
  split at written
  · exact nomatch written
  split at written <;> cases written <;> rfl

theorem logWrite_still {b : Nat} {data : Data} : Along Still (logWrite b data) := by
  intro s
  unfold logWrite
  rw [ends_get_bind]
  cases written : s.log.logWrite b with
  | error panic => trivial
  | ok _ => exact still_disk (logWrite_outstanding written)

variable [sb : Superblock]

theorem balloc_still : Along Still balloc := by
  refine along_bind along_get fun s => ?_
  split
  · exact along_pure 0
  · exact along_bind logWrite_still fun _ => along_bind logWrite_still fun _ => along_pure _

theorem bfree_still {b : Nat} : Along Still (bfree b) := by
  refine along_bind along_get fun s => ?_
  split
  · exact logWrite_still
  · exact along_stop _

theorem setDinode_still {inum : Nat} {n : Dinode} : Along Still (setDinode inum n) :=
  along_bind along_get fun _ => logWrite_still

theorem iupdate_still : Along Still (iupdate ip) := along_bind along_get fun _ => setDinode_still

theorem bmapDirect_still {bn : Fin 13} : Along Still (bmapDirect ip bn) := by
  refine along_bind along_get fun s => ?_
  dsimp only
  split
  · refine along_bind balloc_still fun addr => ?_
    split
    · exact along_pure 0
    · exact along_bind setCopy_still fun _ => along_pure addr
  · exact along_pure _

theorem bmap_still {bn : Nat} : Along Still (bmap ip bn) := by
  unfold bmap
  split
  · exact bmapDirect_still
  split
  · refine along_bind bmapDirect_still fun block => ?_
    split
    · exact along_pure 0
    refine along_bind along_get fun s => ?_
    dsimp only
    split
    · refine along_bind balloc_still fun addr => ?_
      split
      · exact along_pure 0
      · exact along_bind along_get fun _ => along_bind logWrite_still fun _ => along_pure addr
    · exact along_pure _
  · exact along_stop _

theorem truncDirect_still {i : Fin 13} : Along Still (truncDirect ip i) := by
  refine along_bind along_get fun s => ?_
  dsimp only
  split
  · exact along_bind bfree_still fun _ => setCopy_still
  · exact along_pure _

theorem itrunc_still : Along Still (itrunc ip) := by
  have rest : Along Still (do setCopy ip fun n => { n with size := 0 }; iupdate ip) :=
    along_bind setCopy_still fun _ => iupdate_still
  refine along_bind (along_forM (fun i => truncDirect_still) _) fun _ => along_bind along_get fun s => ?_
  dsimp only
  split
  · refine along_bind (along_forM (fun j => along_bind along_get fun s => ?_) _) fun _ =>
      along_bind bfree_still fun _ => along_bind setCopy_still fun _ => rest
    split
    · exact bfree_still
    · exact along_pure _
  · exact rest

theorem readFrom_still {dst : Place} {n rounds tot off : Nat} {bytes : Data} :
    Along Still (readFrom ip dst n rounds tot off bytes) := by
  induction rounds generalizing tot off bytes with
  | zero => exact along_pure _
  | succ rounds ih =>
    unfold readFrom
    split
    · refine along_bind bmap_still fun addr => ?_
      split
      · exact along_pure _
      · refine along_bind along_get fun s => ?_
        split
        · exact along_pure _
        · exact ih
    · exact along_pure _

theorem readi_still {dst : Place} {off n : Nat} : Along Still (readi ip dst off n) := by
  refine along_bind along_get fun s => ?_
  dsimp only
  split
  · exact along_pure _
  · exact readFrom_still

theorem writeFrom_still {src : Place} {n rounds tot off : Nat} :
    Along Still (writeFrom ip src n rounds tot off) := by
  induction rounds generalizing tot off with
  | zero => exact along_pure _
  | succ rounds ih =>
    unfold writeFrom
    split
    · refine along_bind bmap_still fun addr => ?_
      split
      · exact along_pure _
      · dsimp only
        split
        · exact along_bind (along_modify fun s => still_disk rfl) fun _ => along_pure _
        · exact along_bind along_get fun _ => along_bind logWrite_still fun _ => ih
    · exact along_pure _

theorem writei_still {src : Place} {off n : Nat} : Along Still (writei ip src off n) := by
  refine along_bind along_get fun s => ?_
  dsimp only
  split
  · exact along_pure _
  · refine along_bind writeFrom_still fun r => ?_
    split
    · exact along_bind setCopy_still fun _ => along_bind iupdate_still fun _ => along_pure _
    · exact along_bind iupdate_still fun _ => along_pure _

theorem readEntry_still {dp : Ip} {k : Nat} : Along Still (readEntry dp k) := by
  refine along_bind readi_still fun got => ?_
  split <;> exact along_pure _

theorem lookupFrom_still {dp : Ip} {name : Name} {left k : Nat} : Along Still (lookupFrom dp name left k) := by
  induction left generalizing k with
  | zero => exact along_pure _
  | succ left ih =>
    refine along_bind readEntry_still fun e => ?_
    match e with
    | none => exact along_stop _
    | some e =>
      dsimp only
      split
      · exact along_pure _
      · exact ih

theorem emptyFrom_still {dp : Ip} {left k : Nat} : Along Still (emptyFrom dp left k) := by
  induction left generalizing k with
  | zero => exact along_pure _
  | succ left ih =>
    refine along_bind readEntry_still fun e => ?_
    match e with
    | none => exact along_stop _
    | some e =>
      dsimp only
      split
      · exact along_pure _
      · exact ih

end Xv6Monitor.FileSystem.Steady
