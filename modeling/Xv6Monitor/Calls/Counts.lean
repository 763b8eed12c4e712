import Xv6Monitor.Calls.Runs
import Xv6Monitor.Mkfs.Image

/-! Whenever no call is in progress, the count of a file is the number of descriptors that point to it,
and the pages of pipes are free from the moment that both of their ends are closed. -/

namespace Xv6Monitor.Calls.Counts
open Lib.Transition Lib.Tally Lib.Bytes Process.Table Memory.Frames Memory.Boot FileSystem.Format State Machine Sharing
  Runs

structure Referenced (k : Kernel) : Prop where
  count : ∀ f, (k.file f).ref = (Finset.univ.filter fun i : Slot × Fin NOFILE => (k.proc i.1).ofile i.2 = some f).card
  idle : ∀ f, (k.file f).ref = 0 → (k.file f).type = .none
  unused : ∀ p, (k.proc p).state = .unused → ∀ fd, (k.proc p).ofile fd = none

def EndOpen (k : Kernel) (pi : Nat) (writable : Bool) : Prop := ∃ f, 0 < (k.file f).ref ∧ IsEnd k.file pi writable f

variable [image : Image] {boot : Multiset Nat} {held : Slot → Multiset Nat} {k t : Kernel} {pi : Nat}

theorem referenced [origin : Origin] (fine : Fine boot k held 0) : Referenced k := by
  refine ⟨fun f => ?_, fine.idle, fun p unused fd => fine.rest p (fun busy => busy.1 unused) fd⟩
  rw [fine.ref_eq f, tally_apply, Pi.zero_apply, add_zero]
  rfl

theorem endOpen_iff [origin : Origin] (fine : Fine boot k held 0) : (∃ w, EndOpen k pi w) ↔ pi ∈ pipePages k.file := by
  rw [mem_pipePages]
  refine exists_congr fun w => exists_congr fun f => and_iff_right_of_imp fun found => ?_
  have some : (k.file f).ref ≠ 0 := by
    intro zero
    have none := fine.idle f zero
    rw [found.1] at none
    exact nomatch none
  rw [(referenced fine).count f] at some ⊢
  omega

theorem freelist_nodup [origin : Origin] (fine : Fine boot k held 0) : k.ram.freelist.Nodup :=
  Multiset.coe_nodup.mp (Multiset.nodup_add.mp fine.layout.owns.nodup).1

theorem pipe_not_free [origin : Origin] (fine : Fine boot k held 0) (mem : pi ∈ pipePages k.file) : pi ∉ k.ram.freelist := by
  intro free
  have apart := Multiset.disjoint_left.mp (Multiset.nodup_add.mp fine.layout.owns.nodup).2.2 (Multiset.mem_coe.mpr free)
  exact apart (Multiset.mem_add.mpr (Or.inr (Multiset.mem_add.mpr (Or.inl mem))))

variable [sb : Superblock] {taken : List Nat} {m : Ram} {disk : Nat → Data} {power : Option Nat}

/-- In every run the counts of the file table are exact, `filedup` and `fileclose` do not panic, and a
pipe is given back by the call that closes the last of its two ends, once. -/
theorem file_references (booted : Booted taken m) (reachable : Reachable (machine m disk power) k) :
    Referenced k ∧
    (∀ c why, Allowed k c → syscall c k = .error (.file why) → why ≠ .filedup ∧ why ≠ .fileclose) ∧
    (∀ pi w f g, IsEnd k.file pi w f → IsEnd k.file pi w g → f = g) ∧
    (∀ pi, (∃ w, EndOpen k pi w) → pi ∉ k.ram.freelist) ∧
    (∀ c t pi, step k c = some t → (∃ w, EndOpen k pi w) → (pi ∈ t.ram.freelist ↔ ∀ w, ¬EndOpen t pi w)) ∧
    k.ram.freelist.Nodup := by
  let : Origin := ⟨m⟩
  have began : Began taken m := ⟨booted, id⟩
  have kept := reachable_kept began reachable
  obtain ⟨_, fine⟩ := kept.fine began
  refine ⟨referenced fine, fun c why allowed ran => ?_, fun pi w f g => fine.pipes.unique, fun pi live => ?_,
    fun c t pi moved live => ?_, freelist_nodup fine⟩
  · have excused := (allowed_ends began kept allowed).error ran
    constructor <;> rintro rfl <;> exact excused
  · exact pipe_not_free fine ((endOpen_iff fine).mp live)
  obtain ⟨allowed, _, ran⟩ := step_ran moved
  obtain ⟨kept', freed⟩ := (allowed_ends began kept allowed).ok ran
  obtain ⟨_, fine'⟩ := kept'.fine began
  rw [← not_exists, endOpen_iff fine']
  constructor
  · exact fun free open_ => pipe_not_free fine' open_ free
  · exact fun closed => (freed pi ((endOpen_iff fine).mp live)).resolve_left closed

omit image sb in
/-- The first process has opened a pipe. -/
theorem file_references_pipe :
    letI := smallImage
    letI := Mkfs.Image.superblock
    ∃ k, Reachable (machine smallRam (fun _ _ => 0) none) k ∧ (k.file ⟨0, by decide⟩).ref = 1 ∧ Referenced k ∧
      k.ram.freelist.Nodup := by
  let := smallImage
  let := Mkfs.Image.superblock
  obtain ⟨k, reachable, one⟩ := reachable_exec (M := machine smallRam (fun _ _ => 0) none)
    (Q := fun k => (k.file ⟨0, by decide⟩).ref = 1) [.userinit fun _ => 0, .pipe ⟨0, by decide⟩ 0] (by decide +kernel)
  have references := file_references smallRam_booted reachable
  exact ⟨k, reachable, one, references.1, references.2.2.2.2.2⟩

end Xv6Monitor.Calls.Counts
