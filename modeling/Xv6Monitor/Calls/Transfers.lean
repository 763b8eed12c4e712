import Xv6Monitor.Calls.Descriptors

/-! The calls that move data through a descriptor, and `open`, keep the counts of the files, the pipes
and the memory in order. -/

namespace Xv6Monitor.Calls.Transfers
open Function Lib.Bytes Lib.Program Process.Table Memory.Frames FileSystem.Format FileSystem.Blocks FileSystem.Inodes
  State Files Names Sharing Closing Descriptors

variable {k : Kernel} {f : Fp}

theorem pipe_mem (isPipe : (k.file f).type = .pipe) : (k.file f).pipe ∈ pipePages k.file :=
  mem_pipePages.mpr ⟨_, f, isPipe, rfl, rfl⟩

theorem opened_type (n : Dinode) (ip : Ip) (omode : UInt32) (g : File) : (opened n ip omode g).type ≠ .pipe := by
  unfold opened
  split <;> exact fun wrong => nomatch wrong

theorem opened_ref (n : Dinode) (ip : Ip) (omode : UInt32) (g : File) : (opened n ip omode g).ref = g.ref := by
  unfold opened
  split <;> rfl

variable [image : Image] [origin : Origin] {boot : Multiset Nat} {held : Slot → Multiset Nat} {extra : Fp → Int} {f : Fp} {p : Slot}
  {k : Kernel} {pi : Nat}

theorem fine_fill (data : Data) (fine : Fine boot k held extra) (mem : pi ∈ pipePages k.file)
    (same : ∀ w, load 4 data (openField w) = load 4 (k.ram.page pi) (openField w)) :
    Fine boot { k with ram := { k.ram with page := update k.ram.page pi data } } held extra :=
  Sharing.Sound.fill fine mem same

variable {addr : Nat} {src : Nat → Option UInt8}

section Shared

variable (fine : Fine boot k held extra)
include fine

theorem pipereadFrom_spec {left i : Nat} (busy : Busy (k.proc p))
    (mem : pi ∈ pipePages k.file) :
    Ends Excused (pipereadFrom pi (k.proc p).pagetable addr left i) k fun _ t => Aside k t ∧ Fine boot t held extra := by
  induction left generalizing k i with
  | zero => exact ⟨Aside.refl k, fine⟩
  | succ left ih =>
    unfold pipereadFrom
    rw [ends_get_bind]
    dsimp only
    split
    · exact ⟨Aside.refl k, fine⟩
    rw [setPipeField, ends_setPage_bind]
    have next := fine_fill (store 4 (k.ram.page pi) pipeNread (pipeField k pi pipeNread + 1)) fine mem fun w => by
      cases w <;> exact load_store_other (by decide)
    refine (store_spec next busy).bind ?_
    rintro done t ⟨aside, files, fine'⟩
    have aside' : Aside k t := ⟨aside.proc, aside.initproc⟩
    cases done with
    | false => exact ⟨aside', fine'⟩
    | true =>
      rw [← aside'.proc]
      rw [← aside'.proc] at busy
      refine (ih fine' busy (by rw [files]; exact mem)).imp fun _ u both => ⟨aside'.trans both.1, both.2⟩

theorem piperead_spec {n : Int} (busy : Busy (k.proc p))
    (mem : pi ∈ pipePages k.file) :
    Ends Excused (piperead p pi addr n) k fun _ t => Aside k t ∧ Fine boot t held extra := by
  unfold piperead
  rw [ends_get_bind]
  split
  · trivial
  · exact (pipereadFrom_spec fine busy mem).bind fun i t done => done

theorem pipewriteFrom_spec {left i : Nat} (mem : pi ∈ pipePages k.file) :
    Ends Excused (pipewriteFrom pi src left i) k fun _ t => Aside k t ∧ Fine boot t held extra := by
  induction left generalizing k i with
  | zero => exact ⟨Aside.refl k, fine⟩
  | succ left ih =>
    unfold pipewriteFrom
    rw [ends_get_bind]
    split
    · exact ⟨Aside.refl k, fine⟩
    dsimp only
    split
    · trivial
    rcases src i with _ | ch
    · exact ⟨Aside.refl k, fine⟩
    have apart : ∀ n w, ∀ j, openField w ≤ j → j ≠ pipeData + n % PIPESIZE := by
      intro n w j above same
      have low : n % PIPESIZE < 512 := Nat.mod_lt n (by decide)
      have field : 544 ≤ openField w := by cases w <;> decide
      unfold pipeData at same
      omega
    have first := fine_fill (update (k.ram.page pi)
      (pipeData + pipeField k pi pipeNwrite % PIPESIZE) ch) fine mem fun w =>
        load_congr fun j low _ => update_of_ne (apart _ w j low) ..
    have second := fine_fill (store 4 (update (k.ram.page pi)
      (pipeData + pipeField k pi pipeNwrite % PIPESIZE) ch) pipeNwrite (pipeField k pi pipeNwrite + 1)) first mem fun w => by
        dsimp only
        rw [update_self]
        cases w <;> exact load_store_other (by decide)
    rw [ends_setPage_bind, setPipeField, ends_setPage_bind]
    dsimp only at second ⊢
    rw [update_self]
    exact (ih second mem).imp fun _ t both => ⟨⟨both.1.proc, both.1.initproc⟩, both.2⟩

theorem fine_off {off : Nat} (notPipe : (k.file f).type ≠ .pipe) (pos : 0 < (k.file f).ref) :
    Fine boot { k with file := update k.file f { k.file f with off := off } } held extra :=
  Sharing.Sound.setFile fine notPipe notPipe rfl (Int.ne_of_gt pos)

theorem fine_cwd {cwd : Option Ip} :
    Fine boot { k with proc := update k.proc p { k.proc p with cwd := cwd } } held extra := by
  have states := field_update (i := p) (e := { k.proc p with cwd := cwd }) State.Proc.state rfl
  have files := field_update (i := p) (e := { k.proc p with cwd := cwd }) State.Proc.ofile rfl
  refine ⟨fine.layout.congr (fun r => by rw [states r]) (field_update State.Proc.pagetable rfl)
    (field_update State.Proc.trapframe rfl) (field_update State.Proc.sz rfl), fine.pipes, ?_, fine.idle, fun r rest => ?_⟩
  · rw [fds_congr files]
    exact fine.count
  · rw [Busy, states r] at rest
    rw [files r]
    exact fine.rest r rest

variable [sb : Superblock]

theorem filewriteFrom_spec {ip : Ip} {n rounds i : Nat}
    (notPipe : (k.file f).type ≠ .pipe) (pos : 0 < (k.file f).ref) :
    Ends Excused (filewriteFrom f ip src n rounds i) k fun _ t => Aside k t ∧ Fine boot t held extra := by
  induction rounds generalizing k i with
  | zero => exact ⟨Aside.refl k, fine⟩
  | succ rounds ih =>
    unfold filewriteFrom
    split
    · refine onFs_any_bind (fun _ => trivial) fun _ s => onFs_any_bind (fun _ => trivial) fun _ s₂ => ?_
      dsimp only
      rw [ends_get_bind]
      refine onFs_any_bind (fun _ => trivial) fun r s₃ => ?_
      have rest : ∀ {u : Kernel}, Aside k u → (u.file f).type ≠ .pipe → 0 < (u.file f).ref → Fine boot u held extra →
          Ends Excused (do
            onFs (iunlock ip)
            onFs endOp
            if r = some (min (n - i) maxWrite) then filewriteFrom f ip src n rounds (i + min (n - i) maxWrite) else pure i) u
            fun _ t => Aside k t ∧ Fine boot t held extra := by
        intro u aside notPipe' pos' fine'
        refine onFs_any_bind (fun _ => trivial) fun _ s => onFs_any_bind (fun _ => trivial) fun _ s₂ => ?_
        have aside₂ : Aside k { u with fs := s₂ } := ⟨aside.proc, aside.initproc⟩
        split
        · refine (ih (k := { u with fs := s₂ }) fine' notPipe' pos').imp fun _ t ⟨aside', done⟩ => ?_
          exact ⟨aside₂.trans aside', done⟩
        · exact ⟨aside₂, fine'⟩
      split
      · rw [ends_setFile_bind]
        refine rest ⟨rfl, rfl⟩ ?_ ?_ (fine_off fine notPipe pos)
        · simpa using notPipe
        · simpa using pos
      · exact rest ⟨rfl, rfl⟩ notPipe pos fine
    · exact ⟨Aside.refl k, fine⟩

end Shared

variable [sb : Superblock] (fine : Fine boot k held 0)
include fine

theorem sysRead_spec {fd n console : Int} (busy : Busy (k.proc p)) :
    Ends Excused (sysRead p fd addr n console) k fun _ t => Stays boot held k t := by
  unfold sysRead
  rw [ends_get_bind]
  rcases found : argfd k p fd with _ | result
  · exact ⟨fine, rfl⟩
  obtain ⟨i, f⟩ := result
  have pos := fine.pos (argfd_some found) (le_refl 0)
  rw [ends_get_bind]
  split
  · exact ⟨fine, rfl⟩
  split
  next isPipe =>
    exact (piperead_spec fine busy (pipe_mem isPipe)).imp fun _ t ⟨aside, done⟩ => ⟨done, aside.initproc⟩
  next => exact ⟨fine, rfl⟩
  next ip type found =>
    refine onFs_any_bind (fun _ => trivial) fun _ s => onFs_any_bind (fun _ => trivial) fun got s' => ?_
    refine (store_spec (k := { k with fs := s' }) fine busy).bind fun _ t ⟨aside, files, fine'⟩ => ?_
    have init : t.initproc = k.initproc := aside.initproc
    have notPipe : (t.file f).type ≠ .pipe := by
      rw [files]
      exact fun wrong => nomatch type.symm.trans wrong
    have pos' : 0 < (t.file f).ref := by
      rw [files]
      exact pos
    rcases got.total with _ | r
    · exact onFs_any_bind (fun _ => trivial) fun _ s => ⟨fine', init⟩
    dsimp only
    split
    · rw [ends_setFile_bind]
      exact onFs_any_bind (fun _ => trivial) fun _ s => ⟨fine_off fine' notPipe pos', init⟩
    · exact onFs_any_bind (fun _ => trivial) fun _ s => ⟨fine', init⟩
  next => trivial

theorem sysWrite_spec {fd n console : Int} :
    Ends Excused (sysWrite p fd src n console) k fun _ t => Stays boot held k t := by
  unfold sysWrite
  rw [ends_get_bind]
  rcases found : argfd k p fd with _ | result
  · exact ⟨fine, rfl⟩
  have pos := fine.pos (argfd_some found) (le_refl 0)
  dsimp only
  rw [ends_get_bind]
  split
  · exact ⟨fine, rfl⟩
  split
  next isPipe =>
    exact (pipewriteFrom_spec fine (pipe_mem isPipe)).imp fun _ t ⟨aside, done⟩ => ⟨done, aside.initproc⟩
  next => exact ⟨fine, rfl⟩
  next ip type found =>
    refine (filewriteFrom_spec fine (fun wrong => nomatch type.symm.trans wrong) pos).bind fun i t ⟨aside, done⟩ => ?_
    exact ⟨done, aside.initproc⟩
  next => trivial

theorem sysFstat_spec {fd : Int} {stack : Data} (busy : Busy (k.proc p)) :
    Ends Excused (sysFstat p fd addr stack) k fun _ t => Stays boot held k t := by
  unfold sysFstat
  rw [ends_get_bind]
  rcases found : argfd k p fd with _ | result
  · exact ⟨fine, rfl⟩
  obtain ⟨i, f⟩ := result
  rw [ends_get_bind]
  split
  · rcases (k.file f).ip with _ | ip
    · trivial
    refine onFs_any_bind (fun _ => trivial) fun _ s => ?_
    rw [ends_get_bind]
    refine onFs_any_bind (fun _ => trivial) fun _ s₂ => ?_
    refine (store_spec (k := { k with fs := s₂ }) fine busy).bind fun done t ⟨aside, _, fine'⟩ => ?_
    cases done with
    | false => exact ⟨fine', aside.initproc⟩
    | true => exact ⟨fine', aside.initproc⟩
  · exact ⟨fine, rfl⟩

theorem openFile_spec {n : Dinode} (busy : Busy (k.proc p)) :
    Ends Excused (openFile p n) k fun r t => Fine boot t held 0 ∧ t.initproc = k.initproc ∧
      ∀ f fd, r = some (f, fd) → (t.file f).type = .none ∧ (t.file f).ref ≠ 0 := by
  unfold openFile
  split
  · exact ⟨fine, rfl, fun f fd wrong => nomatch wrong⟩
  refine filealloc_spec.bind fun r t got => ?_
  match r with
  | none =>
    rw [got]
    exact ⟨fine, rfl, fun f fd wrong => nomatch wrong⟩
  | some f =>
    obtain ⟨zero, rfl⟩ := got
    have one := fine_filealloc fine zero
    rw [zero_add] at one
    refine fdalloc_spec.bind fun r u got => ?_
    match r with
    | none =>
      rw [got]
      have pos : 0 < ((k.withRef f 1).file f).ref := by
        rw [Kernel.withRef_self]
        decide
      refine (fileclose_spec one pos).bind fun _ u ⟨aside, after⟩ => ?_
      rw [sub_self] at after
      exact ⟨after, aside.initproc, fun f fd wrong => nomatch wrong⟩
    | some fd =>
      obtain ⟨empty, rfl⟩ := got
      have given := fine_given (f := f) one empty busy
      rw [sub_self] at given
      refine ⟨given, rfl, fun g fd' same => ?_⟩
      obtain ⟨rfl, rfl⟩ := Prod.mk.inj (Option.some.inj same)
      refine ⟨?_, ?_⟩
      · exact (Kernel.withRef_type k f 1 f).trans (fine.idle f zero)
      · exact fun wrong => absurd ((Kernel.withRef_self k f 1).symm.trans wrong) (by decide)

theorem sysOpen_spec {path : Option Path} {omode : UInt32} (busy : Busy (k.proc p)) :
    Ends Excused (sysOpen p path omode) k fun _ t => Stays boot held k t := by
  unfold sysOpen
  rcases argstr path with _ | path
  · exact ⟨fine, rfl⟩
  refine onFs_any_bind (fun _ => trivial) fun _ s => ?_
  rw [ends_get_bind]
  refine onFs_any_bind (fun _ => trivial) fun r s => ?_
  match r with
  | none => exact onFs_any_bind (fun _ => trivial) fun _ s => ⟨fine, rfl⟩
  | some ip =>
    rw [ends_get_bind]
    refine (openFile_spec (k := { k with fs := s }) fine busy).bind fun r t ⟨fine', init, new⟩ => ?_
    match r with
    | none =>
      exact onFs_any_bind (fun _ => trivial) fun _ s => onFs_any_bind (fun _ => trivial) fun _ s => ⟨fine', init⟩
    | some (f, fd) =>
      obtain ⟨type, used⟩ := new f fd rfl
      rw [ends_setFile_bind]
      have stored : Fine boot { t with file := update t.file f (opened (s.inode ip).copy ip omode (t.file f)) } held 0 :=
        Sharing.Sound.setFile fine' (fun wrong => nomatch type.symm.trans wrong) (opened_type _ _ _ _) (opened_ref _ _ _ _)
          (by rw [opened_ref]; exact used)
      split
      · refine onFs_any_bind (fun _ => trivial) fun _ s => onFs_any_bind (fun _ => trivial) fun _ s => ?_
        exact onFs_any_bind (fun _ => trivial) fun _ s => ⟨stored, init⟩
      · refine onFs_any_bind (fun _ => trivial) fun _ s => onFs_any_bind (fun _ => trivial) fun _ s => ?_
        exact ⟨stored, init⟩

theorem sysLink_spec {old new : Option Path} :
    Ends Excused (sysLink p old new) k fun _ t => Stays boot held k t := by
  unfold sysLink
  split
  · rw [ends_get_bind]
    refine onFs_any_bind (fun _ => trivial) fun _ s => onFs_any_bind (fun _ => trivial) fun _ s => ?_
    exact onFs_any_bind (fun _ => trivial) fun _ s => ⟨fine, rfl⟩
  · exact ⟨fine, rfl⟩

theorem sysUnlink_spec {path : Option Path} :
    Ends Excused (sysUnlink p path) k fun _ t => Stays boot held k t := by
  unfold sysUnlink
  split
  · exact ⟨fine, rfl⟩
  · rw [ends_get_bind]
    refine onFs_any_bind (fun _ => trivial) fun _ s => onFs_any_bind (fun _ => trivial) fun _ s => ?_
    exact onFs_any_bind (fun _ => trivial) fun _ s => ⟨fine, rfl⟩

theorem makeInode_spec {path : Option Path} {type major minor : Int16} :
    Ends Excused (makeInode p path type major minor) k fun _ t => Stays boot held k t := by
  unfold makeInode
  rw [ends_get_bind]
  refine onFs_any_bind (fun _ => trivial) fun _ s => onFs_any_bind (fun _ => trivial) fun r s => ?_
  match r with
  | none => exact onFs_any_bind (fun _ => trivial) fun _ s => ⟨fine, rfl⟩
  | some ip =>
    exact onFs_any_bind (fun _ => trivial) fun _ s => onFs_any_bind (fun _ => trivial) fun _ s => ⟨fine, rfl⟩

theorem sysChdir_spec {path : Option Path} :
    Ends Excused (sysChdir p path) k fun _ t => Stays boot held k t := by
  unfold sysChdir
  rw [ends_get_bind]
  refine onFs_any_bind (fun _ => trivial) fun _ s => onFs_any_bind (fun _ => trivial) fun r s => ?_
  match r with
  | none => exact onFs_any_bind (fun _ => trivial) fun _ s => ⟨fine, rfl⟩
  | some ip =>
    refine onFs_any_bind (fun _ => trivial) fun _ s => onFs_any_bind (fun _ => trivial) fun _ s' => ?_
    exact ⟨fine_cwd (k := { k with fs := s' }) fine, rfl⟩

end Xv6Monitor.Calls.Transfers
