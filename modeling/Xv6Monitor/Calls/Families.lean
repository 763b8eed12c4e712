import Xv6Monitor.Calls.Lives

/-! `sbrk`, `fork`, `exit` and `wait` keep the counts of the files, the pipes and the memory in order. -/

namespace Xv6Monitor.Calls.Families
open Function Lib.Bytes Lib.Program Stops Process.Table Memory.Frames Memory.Trees Memory.Mappings Memory.Users
  Memory.Access State Holdings Sharing Descriptors Processes Lives

variable [image : Image] [origin : Origin] {boot : Multiset Nat} {held : Slot → Multiset Nat} {extra : Fp → Int} {p np : Slot} {k : Kernel}

def Moves (boot : Multiset Nat) (k t : Kernel) : Prop :=
  (∃ held, Fine boot t held 0) ∧ pipePages t.file = pipePages k.file ∧ t.initproc = k.initproc

theorem growproc_spec {E : Halt → Prop} {n : Int} (fine : Fine boot k held 0) (running : (k.proc p).state = .runnable) :
    Ends E (growproc p n) k fun r t => Moves boot k t ∧ (r = 0 ∨ r = -1 ∧ t.proc = k.proc ∧
      ∃ f, Tree k.ram 2 (k.proc p).pagetable f ∧ Tree t.ram 2 (k.proc p).pagetable f) := by
  have busy := busy_runnable running
  obtain ⟨f, mapped⟩ := fine.layout.mapped busy.1
  unfold growproc
  rw [ends_get_bind]
  split
  · rw [ends_onRam_bind]
    refine (grow_spec mapped (by decide)).imp fun r t ⟨kept, result⟩ => ?_
    rcases result with ⟨some, -, g, grown, -⟩ | ⟨zero, unchanged⟩
    · rw [if_neg some, ends_setProc_bind]
      have new := fine_update (q := { k.proc p with sz := r }) fine busy.1 grown kept.right rfl fun idle => absurd busy idle
      exact ⟨⟨⟨_, new⟩, rfl, rfl⟩, Or.inl rfl⟩
    · rw [if_pos zero]
      have new := fine_update (q := k.proc p) fine busy.1 unchanged kept.right rfl fun idle => absurd busy idle
      rw [update_eq_self] at new
      exact ⟨⟨⟨_, new⟩, rfl, rfl⟩, Or.inr ⟨rfl, rfl, f, mapped.space.tree, unchanged.space.tree⟩⟩
  · split
    · rw [ends_onRam_bind]
      refine (shrink_spec mapped).imp fun r t ⟨kept, _, g, shrunk⟩ => ?_
      have new := fine_update (q := { k.proc p with sz := r }) fine busy.1 shrunk kept.right rfl fun idle => absurd busy idle
      exact ⟨⟨⟨_, new⟩, rfl, rfl⟩, Or.inl rfl⟩
    · exact ⟨⟨⟨held, fine⟩, rfl, rfl⟩, Or.inl rfl⟩

theorem sysSbrk_spec {n : Int} (fine : Fine boot k held 0) (running : (k.proc p).state = .runnable) :
    Ends Excused (sysSbrk p n) k fun _ t => Moves boot k t := by
  unfold sysSbrk
  rw [ends_get_bind]
  refine (growproc_spec fine running).bind fun r t done => ?_
  split <;> exact done.1

theorem fine_frame {d : Data} {x : Nat} (fine : Fine boot k held extra) (live : (k.proc p).state ≠ .unused)
    (here : (k.proc p).trapframe = x) :
    Fine boot { k with ram := { k.ram with page := update k.ram.page x d } } held extra := by
  subst here
  obtain ⟨layout, kept⟩ := fine.layout.frame live d
  exact relayout fine layout (fun x mem => kept x (Multiset.mem_add.mpr (Or.inl mem))) (fun _ => rfl) fine.rest

theorem inheritFd_spec {fd : Fin NOFILE} (fine : Fine boot k held 0) (busy : Busy (k.proc np))
    (empty : (k.proc np).ofile fd = none) :
    Ends Excused (inheritFd p np fd) k fun _ t => Fine boot t held 0 ∧ t.initproc = k.initproc ∧
      pipePages t.file = pipePages k.file ∧ ∃ v, t.proc = (k.withFd np fd v).proc := by
  unfold inheritFd
  rw [ends_get_bind]
  rcases points : (k.proc p).ofile fd with _ | f
  · refine ⟨fine, rfl, rfl, none, ?_⟩
    rw [Kernel.withFd, ← empty, update_eq_self, update_eq_self]
  refine (filedup_spec fine (fine.pos points (le_refl 0))).bind ?_
  rintro _ t ⟨aside, ends, fine'⟩
  rw [← aside.proc] at busy empty
  have given := fine_given (f := f) fine' empty busy
  rw [zero_add, sub_self] at given
  rw [ends_setFd]
  refine ⟨given, aside.initproc, pipePages_congr ends, some f, ?_⟩
  unfold Kernel.withFd
  rw [aside.proc]

theorem inherit_spec {fds : List (Fin NOFILE)} (distinct : fds.Nodup) (fine : Fine boot k held 0) (busy : Busy (k.proc np))
    (empty : ∀ fd ∈ fds, (k.proc np).ofile fd = none) :
    Ends Excused (fds.forM (inheritFd p np)) k fun _ t => Fine boot t held 0 ∧ t.initproc = k.initproc ∧
      pipePages t.file = pipePages k.file ∧ ∃ g, t.proc = update k.proc np { k.proc np with ofile := g } := by
  induction fds generalizing k with
  | nil =>
    refine ⟨fine, rfl, rfl, (k.proc np).ofile, ?_⟩
    rw [update_eq_self]
  | cons fd _ ih =>
    obtain ⟨absent, distinct⟩ := List.nodup_cons.mp distinct
    refine (inheritFd_spec fine busy (empty fd List.mem_cons_self)).bind fun _ t ⟨fine', init, pipes, v, procs⟩ => ?_
    have entry : t.proc np = { k.proc np with ofile := update (k.proc np).ofile fd v } := by
      rw [procs]
      exact update_self ..
    refine (ih distinct fine' ?_ fun fd' mem => ?_).imp fun _ u ⟨fine₂, init₂, pipes₂, g, procs₂⟩ => ?_
    · rw [entry]
      exact busy
    · rw [entry]
      have other : fd' ≠ fd := fun same => absent (same ▸ mem)
      exact (update_of_ne other ..).trans (empty fd' (List.mem_cons_of_mem _ mem))
    · refine ⟨fine₂, init₂.trans init, pipes₂.trans pipes, g, ?_⟩
      rw [procs₂, entry, procs]
      exact update_idem ..

theorem same_free {t : Kernel} {more : Fp → Int} (fine : Fine boot k held extra) (fine' : Fine boot t held more)
    (pipes : pipePages t.file = pipePages k.file) : (t.ram.freelist : Multiset Nat) = k.ram.freelist := by
  have before := fine.layout.owns
  have after := fine'.layout.owns
  rw [pipes] at after
  exact add_right_cancel (after.all.trans before.all.symm)

theorem adopt_spec {f : Nat → Nat} {t : Ram} (fine : Fine boot k held 0) (used : (k.proc np).state = .used)
    (empty : ∀ fd, (k.proc np).ofile fd = none)
    (mapped : Mapped f t (k.proc np).pagetable (pages (k.proc p).sz) (k.proc np).trapframe
      ({(k.proc np).trapframe} + besides boot k held np)) (kept : Keeps (besides boot k held np) k.ram t) :
    Ends Excused (adopt p np) { k with ram := t } fun r u => Moves boot k u ∧ r ≠ -1 := by
  have busy := busy_used used
  have copied := fine_update (q := { k.proc np with sz := (k.proc p).sz }) fine busy.1 mapped kept rfl fun idle => absurd busy idle
  obtain ⟨q, atQ⟩ : ∃ q, { k.proc np with sz := (k.proc p).sz } = q := ⟨_, rfl⟩
  have used' : q.state = .used := by rw [← atQ, ← used]
  have frame : q.trapframe = (k.proc np).trapframe := by rw [← atQ]
  have files : ∀ fd, q.ofile fd = none := by
    rw [← atQ]
    exact empty
  rw [atQ] at copied
  have self : update k.proc np q np = q := update_self ..
  have live : (update k.proc np q np).state ≠ .unused := by
    rw [self, used']
    decide
  have here : (update k.proc np q np).trapframe = (k.proc np).trapframe := by rw [self, frame]
  unfold adopt
  rw [ends_get_bind, ends_setProc_bind]
  rw [atQ, ends_setPage_bind, setReg, ends_setPage_bind]
  refine (inherit_spec (List.nodup_finRange NOFILE) (fine_frame (fine_frame copied live here) live here) ?_
    fun fd _ => ?_).bind fun _ u ⟨fine', init, pipes, g, procs⟩ => ?_
  · dsimp only
    rw [self]
    exact busy_used used'
  · dsimp only
    rw [self]
    exact files fd
  rcases (k.proc p).cwd with _ | ip
  · trivial
  refine onFs_any_bind (fun _ => trivial) fun _ s => ?_
  have entry : u.proc np = { q with ofile := g } := by
    rw [procs]
    dsimp only
    rw [self]
    exact update_self ..
  have state : (u.proc np).state = .used := by
    rw [entry]
    exact used'
  have child := fine_proc (p := np)
    (q := { u.proc np with
      cwd := some ip, name := safestrcpy (k.proc p).name nameSize, parent := some p, state := .runnable })
    fine' (iff_of_false (fun wrong => nomatch wrong) fun wrong => nomatch state.symm.trans wrong) rfl rfl rfl rfl
    fun idle => absurd (busy_runnable rfl) idle
  exact ⟨⟨⟨_, child⟩, pipes, init⟩, by simp⟩

theorem fork_spec (fine : Fine boot k held 0) (running : (k.proc p).state = .runnable) :
    Ends Excused (fork p) k fun r t => Moves boot k t ∧ (r = -1 → (t.ram.freelist : Multiset Nat) = k.ram.freelist) := by
  unfold fork
  refine (allocproc_spec fine).bind ?_
  rintro r t ⟨files, init, got⟩
  rcases r with _ | np
  · exact ⟨⟨⟨held, got⟩, by rw [files], init⟩, fun _ => same_free fine got (by rw [files])⟩
  obtain ⟨unused, trapframe, pagetable, hold, procs, fine'⟩ := got
  obtain ⟨nothing, sz, -, -⟩ := unused_holds fine unused
  have apart : p ≠ np := by
    intro same
    rw [same, unused] at running
    cases running
  have entry : t.proc np = allocated (k.proc np) k.nextpid trapframe pagetable := by
    rw [procs, update_self]
  have self : t.proc p = k.proc p := by rw [procs, update_of_ne apart]
  have used : (t.proc np).state = .used := by
    rw [entry]
    rfl
  have empty : ∀ fd, (t.proc np).ofile fd = none := by
    rw [entry]
    exact fine.rest np fun busy => busy.1 unused
  rw [ends_get_bind, self, ends_onRam_bind]
  have busy := busy_used used
  obtain ⟨g, mapped⟩ := fine'.layout.mapped busy.1
  have noMemory : pages (t.proc np).sz = 0 := by
    rw [entry, allocated, sz, pages_zero]
  rw [noMemory] at mapped
  have alive : (t.proc p).state ≠ .unused := by
    rw [self]
    exact (busy_runnable running).1
  obtain ⟨f, source⟩ := fine'.layout.mapped alive
  have within : ∀ x ∈ nodes t.ram 2 (t.proc p).pagetable, x ∈ {(t.proc np).trapframe} +
      besides boot t (update held np hold) np := by
    intro x mem
    have inside := mem_others apart ((fine'.layout.holds p).nodes_mem alive mem)
    simp only [Multiset.mem_add]
    exact Or.inr (Or.inl inside)
  rw [self] at source within
  refine (copy_spec mapped source.shape source.space.tree within).imp ?_
  rintro done u ⟨kept, h, copied⟩
  cases done with
  | true =>
    rw [if_pos rfl] at copied ⊢
    rw [← self] at copied
    refine (adopt_spec fine' used empty copied kept.right).imp ?_
    rintro r w ⟨⟨fine₂, pipes, init₂⟩, positive⟩
    exact ⟨⟨fine₂, pipes.trans (by rw [files]), init₂.trans init⟩, fun wrong => absurd wrong positive⟩
  | false =>
    rw [if_neg (by decide)] at copied ⊢
    rw [← noMemory] at copied
    have back := fine_update (q := t.proc np) fine' busy.1 copied kept.right rfl fun idle => absurd busy idle
    rw [update_eq_self] at back
    refine (freeproc_spec back busy.1 empty).bind ?_
    rintro _ w ⟨_, files', init', fine₂⟩
    rw [update_idem, update_idem, ← nothing, update_eq_self] at fine₂
    have pipes : pipePages w.file = pipePages k.file := by rw [files', files]
    exact ⟨⟨⟨held, fine₂⟩, pipes, init'.trans init⟩, fun _ => same_free fine fine₂ pipes⟩

end Xv6Monitor.Calls.Families
