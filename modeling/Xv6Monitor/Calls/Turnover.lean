import Xv6Monitor.Calls.Opening
import Xv6Monitor.Calls.Runs
import Xv6Monitor.Mkfs.Image

/-! Processes come and go, and programs are loaded, with the references to inodes in balance; so they are
in balance in every run. -/

namespace Xv6Monitor.Calls.Turnover
open Function Lib.Bytes Lib.Program Lib.Tally Lib.Transition Process.Table Memory.Frames Memory.Tables FileSystem.Format
  FileSystem.Blocks FileSystem.Steady FileSystem.References State Files Names Processes Machine Sharing Balance Upkeep
  Opening Runs

/-- No process has changed its current directory. -/
abbrev Seated (k t : Kernel) : Prop := ∀ q, (t.proc q).cwd = (k.proc q).cwd

variable {k t : Kernel} {extra : Ip → Int} {locks : Ip → Bool} {ops : Nat} {p np : Slot}

theorem seated_update {q : State.Proc} (same : q.cwd = (k.proc p).cwd) :
    Seated k { k with proc := update k.proc p q } := field_update State.Proc.cwd same

theorem Linked.procs (linked : Linked k extra locks ops) (proc : Slot → State.Proc)
    (seated : ∀ q, (proc q).cwd = (k.proc q).cwd) (state : ∀ q, (proc q).state = (k.proc q).state) :
    Linked { k with proc := proc } extra locks ops := by
  have pointed : pointers k.file proc = pointers k.file k.proc := by
    funext i
    cases i with
    | inl _ => rfl
    | inr q => exact seated q
  refine ⟨?_, linked.idle, fun q idle => ?_⟩
  · dsimp only
    rw [pointed]
    exact linked.quiet
  · dsimp only at idle ⊢
    rw [Busy, state] at idle
    rw [seated]
    exact linked.rest q idle

variable [image : Image]

theorem freeproc_linked (linked : Linked k extra locks ops) (away : (k.proc p).cwd = none) :
    Ends Any (freeproc p) k fun _ t => Linked t extra locks ops ∧ Seated k t := by
  have last : ∀ m, Ends Any (setProc p cleared) { k with ram := m } fun _ t => Linked t extra locks ops ∧ Seated k t := by
    intro m
    exact ⟨(linked.ram m).setProc rfl fun _ => away, seated_update rfl⟩
  have table : ∀ m, Ends Any (do
      if (k.proc p).pagetable ≠ 0 then onRam (procFreepagetable (k.proc p).pagetable (k.proc p).sz)
      setProc p cleared) { k with ram := m } fun _ t => Linked t extra locks ops ∧ Seated k t := by
    intro m
    split
    · exact onRam_anyway fun _ m => last m
    · exact last m
  unfold freeproc
  rw [ends_get_bind]
  dsimp only
  split
  · exact onRam_anyway fun _ m => table m
  · exact table k.ram

theorem allocproc_linked (linked : Linked k extra locks ops) :
    Ends Any allocproc k fun r t => Linked t extra locks ops ∧ Seated k t ∧ ∀ np, r = some np → (k.proc np).cwd = none := by
  unfold allocproc
  rw [ends_get_bind]
  rcases found : (List.finRange NPROC).find? fun p => (k.proc p).state = .unused with _ | p
  · exact ⟨linked, fun _ => rfl, fun _ wrong => nomatch wrong⟩
  have unused : (k.proc p).state = .unused := by
    have unused := List.find?_some found
    simpa using unused
  have away := linked.rest p fun busy => busy.1 unused
  -- What is stored in the entry of the process does not touch its current directory.
  have store : ∀ {u : Kernel} {q : State.Proc}, Linked u extra locks ops ∧ Seated k u → q.cwd = (u.proc p).cwd →
      Linked { u with proc := update u.proc p q } extra locks ops ∧
        Seated k { u with proc := update u.proc p q } := by
    intro u q ⟨fine, seated⟩ same
    refine ⟨fine.setProc same fun _ => ?_, fun r => (seated_update same r).trans (seated r)⟩
    rw [same, seated]
    exact away
  have undo : ∀ {u : Kernel}, Linked u extra locks ops ∧ Seated k u → Ends Any (do freeproc p; pure none) u fun r t =>
      Linked t extra locks ops ∧ Seated k t ∧ ∀ np, r = some np → (k.proc np).cwd = none := by
    intro u ⟨fine, seated⟩
    refine (freeproc_linked fine ((seated p).trans away)).bind fun _ t ⟨freed, seated'⟩ => ?_
    exact ⟨freed, fun q => (seated' q).trans (seated q), fun _ wrong => nomatch wrong⟩
  rw [ends_modify_bind, ends_setProc_bind]
  have used := store (u := { k with nextpid := k.nextpid + 1 }) (q := { k.proc p with pid := k.nextpid, state := .used })
    ⟨⟨linked.quiet, linked.idle, linked.rest⟩, fun _ => rfl⟩ rfl
  refine onRam_anyway fun trapframe m => ?_
  rw [ends_setProc_bind]
  have framed := store ⟨used.1.ram m, used.2⟩ (q := { k.proc p with pid := k.nextpid, state := .used, trapframe := trapframe.getD 0 })
    (by simp)
  simp only [update_self]
  match trapframe with
  | none => exact undo framed
  | some trapframe =>
    refine onRam_anyway fun pagetable m => ?_
    rw [ends_setProc_bind]
    have tabled := store ⟨framed.1.ram m, framed.2⟩ (q := { k.proc p with pid := k.nextpid, state := .used, trapframe := trapframe, pagetable := pagetable.getD 0 })
      (by simp)
    simp only [update_self]
    match pagetable with
    | none => exact undo tabled
    | some pagetable =>
      refine ⟨tabled.1, tabled.2, fun np here => ?_⟩
      cases here
      exact away

omit image in
theorem inheritFd_linked {fd : Fin NOFILE} (linked : Linked k extra locks ops) :
    Ends Any (inheritFd p np fd) k fun _ t => Linked t extra locks ops ∧ Seated k t := by
  unfold inheritFd
  rw [ends_get_bind]
  split
  · exact ⟨linked, fun _ => rfl⟩
  · refine (filedup_linked linked).bind fun _ t ⟨shared, same⟩ => ?_
    rw [ends_setFd]
    refine ⟨shared.withFd, fun q => ?_⟩
    rw [withFd_cwd, same]

omit image in
theorem forM_linked {step : Fin NOFILE → KProg PUnit} (linked : Linked k extra locks ops) (fds : List (Fin NOFILE))
    (each : ∀ fd {t : Kernel}, Linked t extra locks ops → Ends Any (step fd) t fun _ u => Linked u extra locks ops ∧ Seated t u) :
    Ends Any (fds.forM step) k fun _ t => Linked t extra locks ops ∧ Seated k t := by
  induction fds generalizing k with
  | nil => exact ⟨linked, fun _ => rfl⟩
  | cons fd _ ih =>
    refine (each fd linked).bind fun _ t ⟨one, seated⟩ => (ih one).imp fun _ u ⟨all, seated'⟩ => ?_
    exact ⟨all, fun q => (seated' q).trans (seated q)⟩

omit image in
theorem adopt_balance (linked : Balanced k) (away : (k.proc np).cwd = none) :
    Ends Any (adopt p np) k fun _ t => Balanced t := by
  unfold adopt
  rw [ends_get_bind, ends_setProc_bind, ends_setPage_bind]
  unfold setReg
  rw [ends_setPage_bind]
  have sized := linked.setProc (p := np) (q := { k.proc np with sz := (k.proc p).sz }) rfl fun _ => away
  have seated : Seated k { k with proc := update k.proc np { k.proc np with sz := (k.proc p).sz } } :=
    seated_update rfl
  refine (forM_linked ((sized.ram _).ram _) _ fun fd t fine => inheritFd_linked fine).bind fun _ t ⟨shared, seated'⟩ => ?_
  rcases here : (k.proc p).cwd with _ | ip
  · trivial
  have stands : (t.proc p).cwd = some ip := ((seated' p).trans (seated p)).trans here
  have none : (t.proc np).cwd = none := ((seated' np).trans (seated np)).trans away
  refine onFs_then (idup_spec shared.quiet (referred (fun _ => le_refl 0) ip stands)) fun _ s more => ?_
  rw [add_assoc, zero_add] at more
  have moved := (shared.fs more).setCwd (p := np)
    (q := { t.proc np with
      cwd := some ip, name := safestrcpy (k.proc p).name nameSize, parent := some p, state := .runnable })
    fun idle => absurd (busy_runnable rfl) idle
  rw [none, token_none, token_some, add_zero, sub_self] at moved
  exact moved

theorem fork_balance (linked : Balanced k) : Ends Any (fork p) k fun _ t => Balanced t := by
  unfold fork
  refine (allocproc_linked linked).bind fun r t ⟨made, seated, away⟩ => ?_
  match r with
  | none => exact made
  | some np =>
    have none : (t.proc np).cwd = none := (seated np).trans (away np rfl)
    rw [ends_get_bind]
    refine onRam_anyway fun copied m => ?_
    split
    · exact adopt_balance (made.ram m) none
    · exact (freeproc_linked (made.ram m) none).bind fun _ _ ⟨freed, _⟩ => freed

theorem wait_balance {addr : Nat} (linked : Balanced k) : Ends Any (wait p addr) k fun _ t => Balanced t := by
  unfold wait
  rw [ends_get_bind]
  cases found : (List.finRange NPROC).find? fun c => (k.proc c).parent = some p ∧ (k.proc c).state = .zombie with
  | none =>
    dsimp only
    split
    · trivial
    · exact linked
  | some c =>
    have zombie := List.find?_some found
    simp only [decide_eq_true_eq] at zombie
    have away := linked.rest c fun busy => busy.2 zombie.2
    have told : Ends Any (if addr = 0 then pure true
        else onRam (copyout (k.proc p).pagetable addr (intBytes (uintArg (k.proc c).xstate)) 4)) k
        fun _ t => ∃ m, t = { k with ram := m } := by
      split
      · exact ⟨k.ram, rfl⟩
      · exact ends_onRam.mpr (ends_of (fun _ m _ => ⟨m, rfl⟩) fun _ _ => trivial)
    refine told.bind fun done t ⟨m, same⟩ => ?_
    subst same
    split
    · exact (freeproc_linked (linked.ram m) away).bind fun _ _ ⟨freed, _⟩ => freed
    · exact linked.ram m

variable [sb : Superblock]

theorem userinit_balance {initcode : Data} (linked : Balanced k) : Ends Any (userinit initcode) k fun _ t => Balanced t := by
  unfold userinit
  refine (allocproc_linked linked).bind fun r t ⟨made, seated, away⟩ => ?_
  match r with
  | none => trivial
  | some p =>
    have apart : (t.proc p).cwd = none := (seated p).trans (away p rfl)
    rw [ends_modify_bind, ends_get_bind]
    have noted : Balanced { t with initproc := some p } := ⟨made.quiet, made.idle, made.rest⟩
    refine onRam_anyway fun _ m => ?_
    rw [ends_setProc_bind]
    have sized := (noted.ram m).setProc (p := p) (q := { t.proc p with sz := PGSIZE }) rfl fun _ => apart
    refine (setPage_outside _).bind fun _ u one => (setPage_outside u).bind fun _ w two => ?_
    have ready := (sized.outside one).outside two
    have apart' : (w.proc p).cwd = none := by
      rw [two.proc, one.proc]
      dsimp only
      rw [update_self]
      exact apart
    refine onFs_then (namei_spec ready.quiet fun _ wrong => nomatch wrong) fun cwd s named => ?_
    rw [add_assoc, zero_add] at named
    have moved := (ready.fs named).setCwd (p := p)
      (q := { w.proc p with name := safestrcpy initcodeName nameSize, cwd := cwd, state := .runnable })
      fun idle => absurd (busy_runnable rfl) idle
    rw [apart', token_none, add_zero, sub_self] at moved
    exact moved

theorem closeFd_linked {fd : Fin NOFILE} (linked : Linked k extra locks ops) :
    Ends Any (closeFd p fd) k fun _ t => Linked t extra locks ops ∧ Seated k t := by
  unfold closeFd
  rw [ends_get_bind]
  split
  · exact ⟨linked, fun _ => rfl⟩
  · refine (fileclose_linked linked).bind fun _ t ⟨closed, same⟩ => ?_
    rw [ends_setFd]
    refine ⟨closed.withFd, fun q => ?_⟩
    rw [withFd_cwd, same]

theorem exit_balance {status : Int} (linked : Balanced k) : Ends Any (exit p status) k fun _ t => Balanced t := by
  unfold exit
  rw [ends_get_bind]
  split
  · trivial
  refine (forM_linked linked _ fun fd t fine => closeFd_linked fine).bind fun _ t ⟨closed, _⟩ => ?_
  rw [ends_get_bind]
  rcases here : (t.proc p).cwd with _ | ip
  · refine onFs_then (R := fun _ _ => False) ?_ fun _ _ wrong => wrong.elim
    exact (beginOp_spec closed.quiet).bind fun _ _ _ => trivial
  have put : Ends Any (do beginOp; putCwd (some ip); endOp) t.fs fun _ s =>
      Quiet s (tally (pointers t.file t.proc) + -Pi.single ip 1) (fun _ => false) 0 := by
    refine (beginOp_spec closed.quiet).bind fun _ _ begun => (iput_spec begun).bind fun _ _ put => ?_
    rw [add_zero] at put
    exact endOp_spec put
  refine onFs_then put fun _ s done => ?_
  have left := (closed.fs done).setCwd (p := p) (q := { t.proc p with cwd := none }) fun _ => rfl
  rw [here, token_some, neg_add_cancel] at left
  have passed := Linked.procs left (reparent _ p).proc (Exits.reparent_field State.Proc.cwd fun _ _ => rfl)
    (Exits.reparent_field State.Proc.state fun _ _ => rfl)
  have away : ((reparent { t with fs := s, proc := update t.proc p { t.proc p with cwd := none } } p).proc p).cwd =
      none := by
    rw [Exits.reparent_field State.Proc.cwd fun _ _ => rfl]
    dsimp only
    rw [update_self]
  exact passed.setProc rfl fun _ => away

variable {pagetable sz : Nat}

omit image in
theorem loadsegFrom_outside {va offset rounds i : Nat} {ip : Ip} :
    Along Outside (loadsegFrom pagetable va ip offset sz rounds i) := by
  induction rounds generalizing i with
  | zero =>
    unfold loadsegFrom
    split
    · exact along_stop _
    · exact along_pure _
  | succ rounds ih =>
    unfold loadsegFrom
    split
    · refine along_bind onRam_outside fun pa => ?_
      split
      · exact along_stop _
      · refine along_bind (onFs_outside readi_still) fun got => along_bind setPage_outside fun _ => ?_
        split
        · exact ih
        · exact along_pure _
    · exact along_pure _

theorem loadFrom_outside {n off : Nat} {ip : Ip} : Along Outside (loadFrom pagetable ip n off sz) := by
  induction n generalizing off sz with
  | zero => exact along_pure _
  | succ n ih =>
    refine along_bind (onFs_outside readi_still) fun got => ?_
    dsimp only
    split
    · exact along_pure _
    split
    · exact ih
    split
    · exact along_pure _
    refine along_bind onRam_outside fun sz1 => ?_
    split
    · exact along_pure _
    · refine along_bind loadsegFrom_outside fun loaded => ?_
      split
      · exact ih
      · exact along_pure _

variable {argv : List (List UInt8)}

omit image sb in
theorem pushArgs_outside {stackbase sp : Nat} {ustack : List Nat} :
    Along Outside (pushArgs pagetable stackbase argv sp ustack) := by
  induction argv generalizing sp ustack with
  | nil => exact along_pure _
  | cons _ _ ih =>
    unfold pushArgs
    split
    · exact along_pure _
    · refine along_bind onRam_outside fun done => ?_
      split
      · exact ih
      · exact along_pure _

omit sb in
theorem makeStack_outside : Along Outside (makeStack pagetable sz argv) := by
  refine along_bind onRam_outside fun sz1 => ?_
  split
  · exact along_pure _
  refine along_bind onRam_outside fun _ => along_bind pushArgs_outside fun r => ?_
  match r with
  | none => exact along_pure _
  | some (sp, ustack) =>
    dsimp only
    split
    · exact along_pure _
    · refine along_bind onRam_outside fun done => ?_
      split <;> exact along_pure _

omit sb in
theorem commitImage_linked {path : Path} {sp entry : Nat} (linked : Linked k extra locks ops) :
    Ends Any (commitImage p path pagetable sz sp entry) k fun _ t => Linked t extra locks ops := by
  unfold commitImage
  rw [ends_get_bind]
  refine (setPage_outside k).bind fun _ t outside => ?_
  rw [ends_setProc_bind]
  have moved := (linked.outside outside).setProc (p := p) (q := { t.proc p with
    name := safestrcpy (lastElement path) nameSize, pagetable := pagetable, sz := sz }) rfl fun idle => (linked.outside outside).rest p idle
  refine (setPage_outside _).bind fun _ _ one => (setPage_outside _).bind fun _ _ two => ?_
  exact (onRam_outside _).imp fun _ _ three => ((moved.outside one).outside two).outside three

theorem exec_balance {path : Path} (linked : Balanced k) :
    Ends Any (Processes.exec p path argv) k fun _ t => Balanced t := by
  unfold Processes.exec
  rw [ends_get_bind]
  refine onFs_then (beginOp_spec linked.quiet) fun _ s begun => ?_
  refine onFs_then (namei_spec begun (referred fun _ => le_refl 0)) fun r t named => ?_
  match r with
  | none =>
    rw [add_zero] at named
    exact onFs_then (endOp_spec named) fun _ _ ended => linked.fs ended
  | some ip =>
    rw [add_assoc, zero_add] at named
    dsimp only
    refine onFs_then (ilock_spec named) fun _ u ⟨_, free, locked⟩ => ?_
    refine onFs_then (locked.along readi_still) fun got w read => ?_
    -- The program is given up, wherever that happens.
    have give : ∀ {v : Kernel}, Linked v (Pi.single ip 1) (update (fun _ => false) ip true) 1 →
        Ends Any (onFs (putProgram ip)) v fun _ t => Balanced t := by
      intro v holds
      rw [ends_onFs]
      refine (iunlockput_spec holds.quiet).bind fun _ _ put => ?_
      rw [relock free, add_sub_cancel_right, ← add_zero (tally _)] at put
      exact (endOp_spec put).imp fun _ _ ended => holds.fs ended
    refine onRam_anyway fun r m => ?_
    have holds := (linked.fs read).ram m
    match r with
    | none => exact (give holds).bind fun _ _ done => done
    | some _ =>
      refine (loadFrom_outside _).bind fun (loaded, sz) v outside => ?_
      have holds := holds.outside outside
      split
      · refine (give holds).bind fun _ x balanced => ?_
        refine (makeStack_outside x).bind fun result y outside => ?_
        have balanced := balanced.outside outside
        match result with
        | (sz, none) => exact (onRam_outside y).bind fun _ _ outside => balanced.outside outside
        | (sz, some (sp, argc)) => exact (commitImage_linked balanced).bind fun _ _ done => done
      · exact (onRam_outside v).bind fun _ _ outside => (give (holds.outside outside)).bind fun _ _ done => done

omit image sb in
theorem fetchArgs_outside {uargv : Nat → Arg} {left i : Nat} {argv : List (Nat × List UInt8)} :
    Along Outside (fetchArgs uargv left i argv) := by
  induction left generalizing i argv with
  | zero => exact along_pure _
  | succ left ih =>
    unfold fetchArgs
    split
    · exact along_pure _
    · exact along_pure _
    refine along_bind onRam_outside fun r => ?_
    match r with
    | none => exact along_pure _
    | some _ =>
      dsimp only
      split
      · exact along_pure _
      · exact ih

theorem sysExec_balance {path : Option Path} {uargv : Nat → Arg} (linked : Balanced k) :
    Ends Any (sysExec p path uargv) k fun _ t => Balanced t := by
  unfold sysExec
  split
  · exact linked
  next path _ =>
  refine (fetchArgs_outside k).bind fun (fetched, argv) t outside => ?_
  have fetchedAll := linked.outside outside
  have ran : Ends Any (if fetched then Processes.exec p path (argv.map Prod.snd) else pure (-1)) t fun _ t => Balanced t := by
    split
    · exact exec_balance fetchedAll
    · exact fetchedAll
  refine ran.bind fun ret u done => ?_
  exact (along_forM (fun pa => onRam_outside) _ u).bind fun _ _ outside => done.outside outside

/-- Every call of a process that is alive, and the making of the first one. -/
theorem call_balance {c : Call} (linked : Balanced k) (allowed : Allowed k c) :
    Ends Any (syscall c) k fun _ t => Balanced t := by
  cases c with
  | userinit _ => exact (userinit_balance linked).bind fun _ _ done => done
  | store r _ _ =>
    unfold syscall
    rw [ends_get_bind]
    exact (onRam_outside k).bind fun _ _ outside => linked.outside outside
  | fork r => exact fork_balance linked
  | exit r _ => exact (exit_balance linked).bind fun _ _ done => done
  | wait r addr => exact wait_balance linked
  | sbrk r n => exact sysSbrk_balance linked
  | exec r path _ => exact sysExec_balance linked
  | dup r fd => exact sysDup_balance linked
  | close r fd => exact sysClose_balance linked
  | pipe r _ => exact sysPipe_balance linked
  | read r fd addr n console => exact sysRead_balance linked
  | write r fd _ n console => exact sysWrite_balance linked
  | fstat r fd addr stack => exact sysFstat_balance linked
  | openat r path _ => exact sysOpen_balance linked
  | link r _ _ => exact sysLink_balance linked
  | unlink r path => exact sysUnlink_balance linked
  | mkdir r path => exact makeInode_balance linked
  | mknod r path _ _ => exact makeInode_balance linked
  | chdir r path => exact sysChdir_balance linked (busy_runnable allowed)

variable {m : Ram} {disk : Nat → Data} {power : Option Nat}

omit image in
theorem start_balance : Balanced (start m disk power) := by
  have nothing : pointers (start m disk power).file (start m disk power).proc = fun _ => none := by
    funext i
    cases i <;> rfl
  refine ⟨⟨fun ip => ?_, fun _ => rfl, fun a b some => ?_, rfl⟩, fun _ _ => rfl, fun _ _ => rfl⟩
  · rw [nothing, add_zero, tally_apply]
    simp [start, Inode.zero]
  · rw [nothing, add_zero, tally_apply] at some
    simp at some

theorem reachable_balance (reachable : Reachable (machine m disk power) k) : Balanced k := by
  refine reachable.invariant start_balance fun k c t moved linked => ?_
  obtain ⟨allowed, _, ran⟩ := step_ran moved
  exact (call_balance linked allowed).ok ran

def openFiles (k : Kernel) (ip : Ip) : Nat :=
  (Finset.univ.filter fun f : Fp => 0 < (k.file f).ref ∧ inodeOf (k.file f) = some ip).card

def workingDirs (k : Kernel) (ip : Ip) : Nat := (Finset.univ.filter fun p : Slot => (k.proc p).cwd = some ip).card

omit image sb in
theorem tally_pointers (linked : Balanced k) (ip : Ip) :
    tally (pointers k.file k.proc) ip = openFiles k ip + workingDirs k ip := by
  have files : (Finset.univ.filter fun f : Fp => 0 < (k.file f).ref ∧ inodeOf (k.file f) = some ip) =
      Finset.univ.filter fun f : Fp => inodeOf (k.file f) = some ip := by
    refine Finset.filter_congr fun f _ => and_iff_right_of_imp fun points => ?_
    by_contra none
    rw [inodeOf, linked.idle f (not_lt.mp none)] at points
    cases points
  rw [tally, Finset.sum_apply, Fintype.sum_sum_type, openFiles, files]
  have each := fun {ι : Type} [Fintype ι] (ptr : ι → Option Ip) => (Finset.sum_apply ip Finset.univ fun i => token (ptr i)).symm.trans (tally_apply ptr ip)
  exact congrArg₂ (· + ·) (each _) (each _)

/-- In every run, whenever no call is in progress, an inode has as many references as there are open files
and current directories that are this inode, no inode is in the table twice, none is locked, and no
operation of the log is under way. -/
theorem inode_references (reachable : Reachable (machine m disk power) k) :
    (∀ ip, (k.fs.inode ip).ref = openFiles k ip + workingDirs k ip) ∧
    (∀ a b, 0 < (k.fs.inode a).ref → 0 < (k.fs.inode b).ref → (k.fs.inode a).dev = (k.fs.inode b).dev →
      (k.fs.inode a).inum = (k.fs.inode b).inum → a = b) ∧
    (∀ ip, (k.fs.inode ip).locked = false) ∧ k.fs.log.outstanding = 0 := by
  have linked := reachable_balance reachable
  have count : ∀ ip, (k.fs.inode ip).ref = tally (pointers k.file k.proc) ip := by
    intro ip
    rw [linked.quiet.count, add_zero]
  refine ⟨fun ip => ?_, fun a b => ?_, linked.quiet.held, linked.quiet.under⟩
  · rw [count, tally_pointers linked]
  · rw [count, count]
    have unique := linked.quiet.unique a b
    rw [add_zero] at unique
    exact unique

omit image sb in
/-- The first process has a child, which shares its current directory. -/
theorem inode_references_forked :
    letI := smallImage
    letI := Mkfs.Image.superblock
    ∃ k, Reachable (machine smallRam (fun _ _ => 0) none) k ∧ (k.fs.inode ⟨0, by decide⟩).ref = 2 ∧
      openFiles k ⟨0, by decide⟩ + workingDirs k ⟨0, by decide⟩ = 2 := by
  let := smallImage
  let := Mkfs.Image.superblock
  obtain ⟨k, reachable, two⟩ := reachable_exec (M := machine smallRam (fun _ _ => 0) none)
    (Q := fun k => (k.fs.inode ⟨0, by decide⟩).ref = 2) [.userinit fun _ => 0, .fork ⟨0, by decide⟩] (by decide +kernel)
  have count := (inode_references reachable).1 ⟨0, by decide⟩
  exact ⟨k, reachable, two, by omega⟩

end Xv6Monitor.Calls.Turnover
