import Xv6Monitor.Calls.Families
import Xv6Monitor.Calls.Machine

/-! The first process, and the end of a process: `exit` closes its files, and `wait` gives back its pages. -/

namespace Xv6Monitor.Calls.Exits
open Function Lib.Bytes Lib.Program Lib.Tally Process.Table Memory.Frames Memory.Tables Memory.Mappings Memory.Boot
  FileSystem.Format State Files Sharing Closing Descriptors Processes Lives Families Machine

variable [image : Image] [origin : Origin] [sb : Superblock] {boot : Multiset Nat} {held : Slot → Multiset Nat} {p : Slot} {k : Kernel}

theorem closeFd_spec {fd : Fin NOFILE} (fine : Fine boot k held 0) (busy : Busy (k.proc p)) :
    Ends Excused (closeFd p fd) k fun _ t => Fine boot t held 0 ∧ t.initproc = k.initproc ∧
      t.proc = (k.withFd p fd none).proc := by
  unfold closeFd
  rw [ends_get_bind]
  rcases points : (k.proc p).ofile fd with _ | _
  · refine ⟨fine, rfl, ?_⟩
    rw [Kernel.withFd, ← points, update_eq_self, update_eq_self]
  refine (fileclose_spec fine (fine.pos points (le_refl 0))).bind ?_
  rintro _ t ⟨aside, fine'⟩
  rw [← aside.proc] at busy points
  have taken := fine_taken fine' points busy
  rw [zero_sub, neg_add_cancel] at taken
  rw [ends_setFd]
  refine ⟨taken, aside.initproc, ?_⟩
  unfold Kernel.withFd
  rw [aside.proc]

theorem closeAll_spec {fds : List (Fin NOFILE)} (fine : Fine boot k held 0) (busy : Busy (k.proc p))
    (closed : ∀ fd, fd ∉ fds → (k.proc p).ofile fd = none) :
    Ends Excused (fds.forM (closeFd p)) k fun _ t => Fine boot t held 0 ∧ t.initproc = k.initproc ∧
      t.proc = update k.proc p { k.proc p with ofile := fun _ => none } := by
  induction fds generalizing k with
  | nil =>
    have none : (k.proc p).ofile = fun _ => none := funext fun fd => closed fd List.not_mem_nil
    refine ⟨fine, rfl, ?_⟩
    rw [← none, update_eq_self]
  | cons fd _ ih =>
    refine (closeFd_spec fine busy).bind fun _ t ⟨fine', init, procs⟩ => ?_
    have entry : t.proc p = { k.proc p with ofile := update (k.proc p).ofile fd none } := by
      rw [procs]
      exact update_self ..
    refine (ih fine' ?_ fun other absent => ?_).imp fun _ u ⟨fine₂, init₂, procs₂⟩ => ⟨fine₂, init₂.trans init, ?_⟩
    · rw [entry]
      exact busy
    · rw [entry]
      dsimp only
      by_cases here : other = fd
      · rw [here, update_self]
      · rw [update_of_ne here]
        exact closed other fun mem => (List.mem_cons.mp mem).elim here absent
    · rw [procs₂, entry, procs]
      exact update_idem ..

omit image origin sb in
theorem reparent_field {β : Type} (get : State.Proc → β)
    (same : ∀ (q : State.Proc) (r : Option Slot), get { q with parent := r } = get q) (c : Slot) :
    get ((reparent k p).proc c) = get (k.proc c) := by
  unfold reparent
  dsimp only
  split
  · exact same ..
  · rfl

omit sb in
theorem fine_reparent (fine : Fine boot k held 0) : Fine boot (reparent k p) held 0 := by
  have state : ∀ c, ((reparent k p).proc c).state = (k.proc c).state := reparent_field State.Proc.state fun _ _ => rfl
  have files : ∀ c, ((reparent k p).proc c).ofile = (k.proc c).ofile := reparent_field State.Proc.ofile fun _ _ => rfl
  refine fine_procs (reparent k p).proc fine (fun c => ?_) (reparent_field State.Proc.pagetable fun _ _ => rfl)
    (reparent_field State.Proc.trapframe fun _ _ => rfl) (reparent_field State.Proc.sz fun _ _ => rfl) files
    fun c idle => ?_
  · rw [state]
  · rw [files]
    refine fine.rest c fun busy => idle ?_
    rw [Busy, state]
    exact busy

theorem exit_spec {status : Int} (fine : Fine boot k held 0) (running : (k.proc p).state = .runnable) :
    Ends Excused (exit p status) k fun _ t => Stays boot held k t := by
  have busy := busy_runnable running
  unfold exit
  rw [ends_get_bind]
  split
  · trivial
  refine (closeAll_spec fine busy fun fd absent => absurd (List.mem_finRange fd) absent).bind
    fun _ t ⟨fine', init, procs⟩ => ?_
  have entry : t.proc p = { k.proc p with ofile := fun _ => none } := by rw [procs, update_self]
  have state : (t.proc p).state = .runnable := by
    rw [entry]
    exact running
  have closed : ∀ fd, (t.proc p).ofile fd = none := fun fd => by rw [entry]
  rw [ends_get_bind]
  refine onFs_any_bind (fun _ => trivial) fun _ s => ?_
  have away := fine_proc (p := p) (q := { t.proc p with cwd := none }) fine' Iff.rfl rfl rfl rfl rfl
    fun idle => absurd (busy_runnable state) idle
  have passed := fine_reparent (p := p) away
  obtain ⟨u, same⟩ : ∃ u, reparent { t with proc := update t.proc p { t.proc p with cwd := none } } p = u :=
    ⟨_, rfl⟩
  have here : ∀ {β : Type} (get : State.Proc → β), (∀ (q : State.Proc) (r : Option Slot), get { q with parent := r } = get q) →
      get { t.proc p with cwd := none } = get (t.proc p) → get (u.proc p) = get (t.proc p) := by
    intro β get kept cwd
    rw [← same, reparent_field get kept]
    dsimp only
    rw [update_self, cwd]
  rw [same] at passed
  have gone := fine_proc (p := p) (q := { u.proc p with xstate := status, state := .zombie }) passed
    (iff_of_false (fun wrong => nomatch wrong) ?_) rfl rfl rfl rfl ?_
  · subst same
    exact ⟨gone, init⟩
  · rw [here State.Proc.state (fun _ _ => rfl) rfl, state]
    exact fun wrong => nomatch wrong
  · intro _ fd
    rw [here State.Proc.ofile (fun _ _ => rfl) rfl]
    exact closed fd

omit sb in
theorem wait_spec {addr : Nat} (fine : Fine boot k held 0) (running : (k.proc p).state = .runnable) :
    Ends Excused (wait p addr) k fun _ t => Moves boot k t := by
  have busy := busy_runnable running
  unfold wait
  rw [ends_get_bind]
  cases found : (List.finRange NPROC).find? fun c => (k.proc c).parent = some p ∧ (k.proc c).state = .zombie with
  | none =>
    dsimp only
    split
    · trivial
    · exact ⟨⟨held, fine⟩, rfl, rfl⟩
  | some c =>
    have zombie : (k.proc c).state = .zombie := by
      have zombie := List.find?_some found
      rw [decide_eq_true_eq] at zombie
      exact zombie.2
    have told : Ends Excused (if addr = 0 then pure true else
        onRam (copyout (k.proc p).pagetable addr (intBytes (uintArg (k.proc c).xstate)) 4)) k
        fun _ t => Aside k t ∧ t.file = k.file ∧ Fine boot t held 0 := by
      split
      · exact ⟨Aside.refl k, rfl, fine⟩
      · exact store_spec fine busy
    refine told.bind fun done t ⟨aside, files, fine'⟩ => ?_
    rw [← aside.proc] at zombie
    cases done with
    | false => exact ⟨⟨held, fine'⟩, by rw [files], aside.initproc⟩
    | true =>
      have live : (t.proc c).state ≠ .unused := by
        rw [zombie]
        decide
      refine (freeproc_spec fine' live (fine'.rest c fun idle => idle.2 zombie)).bind
        fun _ u ⟨_, files', init, fine₂⟩ => ?_
      exact ⟨⟨_, fine₂⟩, by rw [files', files], init.trans aside.initproc⟩

theorem fine_start {taken : List Nat} {m : Ram} (began : Began taken m) (disk : Nat → Data) (power : Option Nat) :
    Fine ↑taken (start m disk power) (fun _ => 0) 0 := by
  have noFile : ∀ pi w f, ¬IsEnd (start m disk power).file pi w f := fun pi w f found => nomatch found.1
  have noPipe : pipePages (start m disk power).file = ∅ := by
    refine Finset.eq_empty_of_forall_notMem fun pi mem => ?_
    obtain ⟨w, f, found⟩ := mem_pipePages.mp mem
    exact noFile pi w f found
  refine ⟨⟨fun p => Or.inl ⟨rfl, rfl, rfl, rfl, rfl⟩, ?_⟩, ⟨fun found => (noFile _ _ _ found).elim, fun pi mem => ?_⟩, ?_,
    fun f _ => rfl, fun p _ fd => rfl⟩
  · rw [noPipe, Finset.sum_const_zero, zero_add, Finset.empty_val, zero_add]
    exact began.owns
  · rw [noPipe] at mem
    exact absurd mem (Finset.notMem_empty pi)
  · have none : fds (start m disk power).proc = fun _ => none := rfl
    rw [none]
    funext f
    simp [refs, start, File.zero, tally, token_none]

omit origin sb in
theorem allocproc_enough {n : Nat} (unused : (k.proc p).state = .unused) (enough : n + 6 ≤ k.ram.freelist.length) :
    Ends (fun _ => True) allocproc k fun r t => (∃ p, r = some p) ∧ n ≤ t.ram.freelist.length := by
  unfold allocproc
  rw [ends_get_bind]
  rcases found : (List.finRange NPROC).find? fun p => (k.proc p).state = .unused with _ | c
  · have absent := List.find?_eq_none.mp found p (List.mem_finRange p)
    exact absurd (decide_eq_true unused) absent
  rw [ends_modify_bind, ends_setProc_bind, ends_onRam_bind]
  refine (kalloc_enough (n := n + 5) enough).imp fun r t ⟨⟨x, got⟩, left⟩ => ?_
  subst got
  rw [ends_setProc_bind, ends_onRam_bind]
  refine (procPagetable_enough left).imp fun r u ⟨⟨y, got⟩, left⟩ => ?_
  subst got
  exact ⟨⟨c, rfl⟩, left⟩

theorem userinit_spec {taken : List Nat} {m : Ram} {disk : Nat → Data} {power : Option Nat} {initcode : Data} (began : Began taken m) :
    Ends Excused (userinit initcode) (start m disk power) fun _ t => (∃ held, Fine ↑taken t held 0) ∧ t.initproc ≠ none ∧
      t.file = (start m disk power).file := by
  have fine := fine_start began disk power
  have enough := allocproc_enough (k := start m disk power) (p := ⟨0, by decide⟩) (n := 3) rfl began.room
  unfold userinit
  refine (((allocproc_spec fine).and enough).stops fun _ both => both.1).bind ?_
  rintro r t ⟨⟨files, init, got⟩, ⟨p, here⟩, left⟩
  subst here
  obtain ⟨unused, trapframe, pagetable, hold, procs, fine'⟩ := got
  have entry : t.proc p = allocated (Machine.Proc.zero) 1 trapframe pagetable := by rw [procs, update_self]; rfl
  have used : (t.proc p).state = .used := by
    rw [entry]
    rfl
  have busy := busy_used used
  obtain ⟨f, mapped⟩ := fine'.layout.mapped busy.1
  have noMemory : pages (t.proc p).sz = 0 := by
    rw [entry]
    exact pages_zero
  rw [noMemory] at mapped
  rw [ends_modify_bind, ends_get_bind, ends_onRam_bind]
  refine (uvmfirst_spec mapped (by decide +kernel) left).imp ?_
  rintro _ u ⟨⟨g, first⟩, kept⟩
  have one : pages PGSIZE = 1 := by
    have one := pages_mul 1
    rwa [Nat.one_mul] at one
  rw [← one] at first
  have grown := fine_update (q := { t.proc p with sz := PGSIZE }) fine' busy.1 first kept.right rfl fun idle => absurd busy idle
  obtain ⟨q, atQ⟩ : ∃ q, { t.proc p with sz := PGSIZE } = q := ⟨_, rfl⟩
  have used' : q.state = .used := by rw [← atQ, ← used]
  have frame : q.trapframe = (t.proc p).trapframe := by rw [← atQ]
  rw [atQ] at grown
  have self : update t.proc p q p = q := update_self ..
  have live : (update t.proc p q p).state ≠ .unused := by
    rw [self, used']
    decide
  have here : (update t.proc p q p).trapframe = (t.proc p).trapframe := by rw [self, frame]
  rw [ends_setProc_bind]
  rw [atQ, setReg, ends_setPage_bind, setReg, ends_setPage_bind]
  refine onFs_any_bind (fun _ => trivial) fun cwd s => ?_
  refine ⟨⟨_, fine_proc (fine_frame (fine_frame grown live here) live here) (iff_of_false (fun wrong => by cases wrong) live)
    rfl rfl rfl rfl fun idle => absurd (busy_runnable rfl) idle⟩, by simp, files⟩

end Xv6Monitor.Calls.Exits
