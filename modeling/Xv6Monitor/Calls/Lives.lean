import Xv6Monitor.Calls.Transfers
import Xv6Monitor.Calls.Processes

/-! Making and freeing a process: its pages come from the allocator and go back to it. -/

namespace Xv6Monitor.Calls.Lives
open Function Lib.Program Stops Process.Table Memory.Frames Memory.Tables Memory.Trees Memory.Spaces Memory.Mappings
  Memory.Growth Memory.Users State Holdings Sharing Processes

variable [image : Image] [origin : Origin] {boot more : Multiset Nat} {m t : Ram} {proc proc' : Slot → State.Proc} {file : Fp → File}
  {held held' : Slot → Multiset Nat} {extra : Fp → Int} {p : Slot} {q : State.Proc} {k : Kernel}

abbrev besides (boot : Multiset Nat) (k : Kernel) (held : Slot → Multiset Nat) (p : Slot) : Multiset Nat :=
  others held p + ((pipePages k.file).val + boot)

theorem relayout (sound : Sound boot m proc file held extra) (layout : Layout t proc' held' ((pipePages file).val + more))
    (kept : Keeps (pipePages file).val m t) (files : ∀ p, (proc' p).ofile = (proc p).ofile)
    (rest : ∀ p, ¬Busy (proc' p) → ∀ fd, (proc' p).ofile fd = none) : Sound more t proc' file held' extra := by
  refine ⟨layout, sound.pipes.keep fun pi mem w => by rw [kept pi mem], ?_, sound.idle, rest⟩
  rw [fds_congr files]
  exact sound.count

theorem rest_update (sound : Sound boot m proc file held extra)
    (rest : ¬Busy q → ∀ fd, q.ofile fd = none) (r : Slot) (idle : ¬Busy (update proc p q r)) (fd : Fin NOFILE) :
    (update proc p q r).ofile fd = none := by
  by_cases here : r = p
  · rw [here, update_self] at idle ⊢
    exact rest idle fd
  · rw [update_of_ne here] at idle ⊢
    exact sound.rest r idle fd

theorem fine_procs (proc' : Slot → State.Proc) (fine : Fine boot k held extra)
    (state : ∀ p, (proc' p).state = .unused ↔ (k.proc p).state = .unused)
    (pagetable : ∀ p, (proc' p).pagetable = (k.proc p).pagetable) (trapframe : ∀ p, (proc' p).trapframe = (k.proc p).trapframe)
    (sz : ∀ p, (proc' p).sz = (k.proc p).sz) (files : ∀ p, (proc' p).ofile = (k.proc p).ofile)
    (rest : ∀ p, ¬Busy (proc' p) → ∀ fd, (proc' p).ofile fd = none) : Fine boot { k with proc := proc' } held extra :=
  relayout fine (fine.layout.congr state pagetable trapframe sz) (Keeps.refl _ _) files rest

variable (fine : Fine boot k held extra)
include fine

theorem fine_proc (state : q.state = .unused ↔ (k.proc p).state = .unused)
    (pagetable : q.pagetable = (k.proc p).pagetable) (trapframe : q.trapframe = (k.proc p).trapframe)
    (sz : q.sz = (k.proc p).sz) (files : q.ofile = (k.proc p).ofile) (rest : ¬Busy q → ∀ fd, q.ofile fd = none) :
    Fine boot { k with proc := update k.proc p q } held extra := by
  refine fine_procs _ fine (fun r => ?_) (field_update State.Proc.pagetable pagetable)
    (field_update State.Proc.trapframe trapframe) (field_update State.Proc.sz sz) (field_update State.Proc.ofile files)
    (rest_update fine rest)
  by_cases here : r = p
  · rw [here, update_self]
    exact state
  · rw [update_of_ne here]

theorem fine_update {f : Nat → Nat} (live : q.state ≠ .unused)
    (mapped : Mapped f t q.pagetable (pages q.sz) q.trapframe ({q.trapframe} + besides boot k held p))
    (kept : Keeps (besides boot k held p) k.ram t) (files : q.ofile = (k.proc p).ofile)
    (rest : ¬Busy q → ∀ fd, q.ofile fd = none) :
    Fine boot { k with ram := t, proc := update k.proc p q }
      (update held p (nodes t 2 q.pagetable + (leaves f 0 (pages q.sz) + {q.trapframe}))) extra := by
  have ownKept : Keeps (others held p) k.ram t := fun x mem => kept x (Multiset.mem_add.mpr (Or.inl mem))
  refine relayout fine (fine.layout.update live mapped ownKept) (fun x mem => kept x ?_) (field_update _ files)
    (rest_update fine rest)
  exact Multiset.mem_add.mpr (Or.inr (Multiset.mem_add.mpr (Or.inl mem)))

theorem fine_clear (unused : q.state = .unused) (pagetable : q.pagetable = 0)
    (trapframe : q.trapframe = 0) (sz : q.sz = 0) (owns : Owns t (besides boot k held p))
    (kept : Keeps (besides boot k held p) k.ram t) (files : q.ofile = (k.proc p).ofile) (closed : ∀ fd, q.ofile fd = none) :
    Fine boot { k with ram := t, proc := update k.proc p q } (update held p 0) extra := by
  have ownKept : Keeps (others held p) k.ram t := fun x mem => kept x (Multiset.mem_add.mpr (Or.inl mem))
  refine relayout fine (fine.layout.clear unused pagetable trapframe sz owns ownKept) (fun x mem => kept x ?_)
    (field_update _ files) (rest_update fine fun _ => closed)
  exact Multiset.mem_add.mpr (Or.inr (Multiset.mem_add.mpr (Or.inl mem)))

omit fine

theorem mapped_frames {f : Nat → Nat} {n pt trapframe : Nat} (mapped : Mapped f m pt n trapframe ({trapframe} + more)) :
    trapframe ∈ frames ∧ pt ∈ frames := by
  have owns := mapped.space.owns
  refine ⟨owns.mem ?_, owns.mem (Multiset.mem_add.mpr (Or.inl (root_mem m 2 pt)))⟩
  simp only [Multiset.mem_add, Multiset.mem_singleton]
  exact Or.inr (Or.inr (Or.inl trivial))

theorem freepages_spec {E : Halt → Prop} {f : Nat → Nat} {sz pt trapframe : Nat}
    (mapped : Mapped f m pt (pages sz) trapframe ({trapframe} + more)) :
    Ends E (kfree trapframe >>= fun _ => procFreepagetable pt sz) m fun _ t => Owns t more ∧ Keeps more m t := by
  have space := mapped.space
  rw [add_left_comm] at space
  refine (Space.kfree space).bind fun _ t ⟨space', kept⟩ => ?_
  exact (procFreepagetable_spec ⟨f, mapped.shape, space'⟩).imp fun _ u done => ⟨done.1, kept.right.trans done.2⟩

include fine

theorem freeproc_spec (live : (k.proc p).state ≠ .unused) (closed : ∀ fd, (k.proc p).ofile fd = none) :
    Ends Excused (freeproc p) k fun _ t => t.proc = update k.proc p (cleared (k.proc p)) ∧ t.file = k.file ∧
      t.initproc = k.initproc ∧ Fine boot t (update held p 0) extra := by
  obtain ⟨_, mapped⟩ := fine.layout.mapped live
  obtain ⟨frame, root⟩ := mapped_frames mapped
  unfold freeproc
  rw [ends_get_bind]
  rw [if_pos (Nat.ne_of_gt (frame_pos frame)), if_pos (Nat.ne_of_gt (frame_pos root))]
  simp only [ends_onRam_bind]
  refine ends_bind.mp ((freepages_spec mapped).imp fun _ t ⟨owns, kept⟩ => ?_)
  exact ⟨rfl, rfl, rfl, fine_clear (k := k) fine rfl rfl rfl rfl owns kept rfl closed⟩

theorem unused_holds (unused : (k.proc p).state = .unused) :
    held p = 0 ∧ (k.proc p).sz = 0 ∧ (k.proc p).pagetable = 0 ∧ others held p = ∑ q, held q := by
  rcases fine.layout.holds p with ⟨-, pagetable, -, sz, nothing⟩ | ⟨live, -⟩
  · exact ⟨nothing, sz, pagetable, by rw [sum_others held p, nothing, zero_add]⟩
  · exact absurd unused live

omit fine

omit origin in
theorem freeproc_early {E : Halt → Prop} {Q : Unit → Kernel → Prop} (entry : k.proc p = q) (early : q.pagetable = 0)
    (after : Ends E (if q.trapframe ≠ 0 then kfree q.trapframe else pure ()) k.ram fun _ t =>
      Q () { k with ram := t, proc := update k.proc p (cleared q) }) : Ends E (freeproc p) k Q := by
  subst entry
  unfold freeproc
  rw [ends_get_bind]
  dsimp only
  rw [if_neg (show ¬(k.proc p).pagetable ≠ 0 from fun wrong => wrong early)]
  split
  next framed =>
    rw [if_pos framed] at after
    rw [ends_onRam_bind]
    exact after
  next unframed =>
    rw [if_neg unframed] at after
    exact after

def allocated (q : State.Proc) (pid trapframe pagetable : Nat) : State.Proc :=
  { q with pid := pid, state := .used, trapframe := trapframe, pagetable := pagetable }

theorem allocproc_spec (fine : Fine boot k held extra) :
    Ends Excused allocproc k fun r t => t.file = k.file ∧ t.initproc = k.initproc ∧ match r with
      | none => Fine boot t held extra
      | some p => (k.proc p).state = .unused ∧ ∃ trapframe pagetable hold,
          t.proc = update k.proc p (allocated (k.proc p) k.nextpid trapframe pagetable) ∧
            Fine boot t (update held p hold) extra := by
  unfold allocproc
  rw [ends_get_bind]
  rcases found : (List.finRange NPROC).find? fun p => (k.proc p).state = .unused with _ | p
  · exact ⟨rfl, rfl, fine⟩
  have unused : (k.proc p).state = .unused := by
    have unused := List.find?_some found
    simpa using unused
  obtain ⟨nothing, sz, table, all⟩ := unused_holds fine unused
  have closed := fine.rest p fun busy => busy.1 unused
  have owns : Owns k.ram (besides boot k held p) := by
    rw [besides, all]
    exact fine.layout.owns
  have same : update held p 0 = held := by rw [← nothing, update_eq_self]
  -- What a failure leaves, after memory was given back.
  have back : ∀ {t : Ram} {n : Nat} {q : State.Proc}, q.ofile = (k.proc p).ofile → Owns t (besides boot k held p) →
      Keeps (besides boot k held p) k.ram t →
      Fine boot { k with ram := t, nextpid := n, proc := update k.proc p (cleared q) } held extra := by
    intro t n q files owns kept
    have left := fine_clear (q := cleared q) fine rfl rfl rfl rfl owns kept files fun fd =>
      (congrFun files fd).trans (closed fd)
    rw [same] at left
    exact left
  simp only [ends_modify_bind, ends_setProc_bind, ends_onRam_bind, update_self, update_idem]
  refine (kalloc_spec owns).imp fun r t got => ?_
  cases r with
  | none =>
    rw [got]
    refine Ends.bind (R := fun _ t => t.file = k.file ∧ t.initproc = k.initproc ∧ Fine boot t held extra) ?_
      fun _ _ done => done
    refine freeproc_early (update_self ..) table ?_
    · rw [if_neg fun wrong => wrong rfl]
      rw [update_idem]
      exact ⟨rfl, rfl, back rfl owns (Keeps.refl _ _)⟩
  | some frame =>
    obtain ⟨fresh, owned, elsewhere⟩ := got
    have kept : Keeps (besides boot k held p) k.ram t := fun y mem => elsewhere y fun wrong => fresh (wrong ▸ mem)
    have real : frame ∈ frames := owned.mem (Multiset.mem_add.mpr (Or.inl (Multiset.mem_singleton_self frame)))
    dsimp only [Option.getD_some]
    rw [ends_onRam_bind]
    refine (procPagetable_spec owned real).imp ?_
    rintro r u ⟨kept', made⟩
    rw [ends_setProc_bind]
    dsimp only
    rw [update_self, update_idem]
    cases r with
    | none =>
      refine Ends.bind (R := fun _ t => t.file = k.file ∧ t.initproc = k.initproc ∧ Fine boot t held extra) ?_
        fun _ _ done => done
      refine freeproc_early (update_self ..) rfl ?_
      · rw [if_pos (Nat.ne_of_gt (frame_pos real))]
        rw [update_idem]
        refine (kfree_spec made).imp fun _ w both => ⟨rfl, rfl, back rfl both.1 fun y mem => ?_⟩
        rw [both.2 y fun wrong => fresh (wrong ▸ mem), kept'.right y mem, kept y mem]
    | some pt =>
      obtain ⟨f, mapped⟩ := made
      have whole : Mapped f u pt (pages (k.proc p).sz) frame ({frame} + besides boot k held p) := by
        rw [sz, pages_zero]
        exact mapped
      have new := fine_update (q := allocated (k.proc p) k.nextpid frame pt) fine (by simp [allocated]) whole
        (kept.trans kept'.right) rfl fun idle => absurd (busy_used rfl) idle
      exact ⟨rfl, rfl, unused, frame, pt, _, rfl, new⟩

end Xv6Monitor.Calls.Lives
