import Xv6Monitor.Calls.Images

/-! `exec` gives a process a new address space, or gives back all that it has taken: then every page that
was in use has the contents that it had, and the same pages are free. -/

namespace Xv6Monitor.Calls.Exec
open Lib.Program Stops Process.Table Memory.Frames Memory.Spaces Memory.Mappings Memory.Users FileSystem.Format State
  Holdings Sharing Processes Lives Families Images

variable [image : Image] [origin : Origin] {boot : Multiset Nat} {held : Slot → Multiset Nat} {p : Slot} {k : Kernel}

/-- What `exec` leaves when it returns `r`: after a failure all that was in use is as it was. -/
structure Executed (boot : Multiset Nat) (held : Slot → Multiset Nat) (k : Kernel) (r : Int) (t : Kernel) : Prop where
  file : t.file = k.file
  initproc : t.initproc = k.initproc
  fine : ∃ held', Fine boot t held' 0 ∧ (r = -1 → held' = held)
  failed : r = -1 → Beside (inUse boot held k) k t
  result : r = -1 ∨ 0 ≤ r

theorem executed_back {t : Kernel} (fine : Fine boot k held 0) (beside : Beside (inUse boot held k) k t)
    (owns : Owns t.ram (inUse boot held k)) : Executed boot held k (-1) t :=
  ⟨beside.file, beside.initproc, ⟨held, fine_beside fine beside owns, fun _ => rfl⟩, fun _ => beside, Or.inl rfl⟩

variable [sb : Superblock]

theorem exec_spec {path : FileSystem.Format.Path} {argv : List (List UInt8)} (fine : Fine boot k held 0)
    (running : (k.proc p).state = .runnable) : Ends Filed (exec p path argv) k (Executed boot held k) := by
  have busy := busy_runnable running
  obtain ⟨g, current⟩ := fine.layout.mapped busy.1
  obtain ⟨frame, -⟩ := mapped_frames current
  unfold exec
  rw [ends_get_bind]
  refine onFs_any_bind (fun _ => trivial) fun _ s₁ => onFs_any_bind (fun _ => trivial) fun found s₂ => ?_
  rcases found with _ | ip
  · exact onFs_any_bind (fun _ => trivial) fun _ s =>
      executed_back fine ⟨rfl, rfl, rfl, Keeps.refl _ _⟩ fine.layout.owns
  refine onFs_any_bind (fun _ => trivial) fun _ s₃ => onFs_any_bind (fun _ => trivial) fun got s => ?_
  dsimp only
  rw [ends_onRam_bind]
  split
  · exact onFs_any_bind (fun _ => trivial) fun _ s => executed_back fine ⟨rfl, rfl, rfl, Keeps.refl _ _⟩ fine.layout.owns
  refine (procPagetable_spec fine.layout.owns frame).imp ?_
  rintro r m ⟨kept, space⟩
  rcases r with _ | pt
  · exact onFs_any_bind (fun _ => trivial) fun _ s => executed_back fine ⟨rfl, rfl, rfl, kept⟩ space
  obtain ⟨f, mapped⟩ := space
  rw [← pages_zero] at mapped
  refine (loadFrom_spec (k := { k with fs := s, ram := m }) mapped fun v under => ?_).bind fun r t both => ?_
  · rw [pages_zero] at under
    exact absurd under (Nat.not_lt_zero v)
  obtain ⟨beside, resident⟩ := both
  have beside := Beside.trans (⟨rfl, rfl, rfl, kept⟩ : Beside _ k { k with fs := s, ram := m }) beside
  split
  · refine onFs_any_bind (fun _ => trivial) fun _ s => ?_
    refine (makeStack_spec (k := { t with fs := s }) resident).bind ?_
    rintro r u ⟨beside', resident'⟩
    have beside := Beside.trans (⟨beside.proc, beside.initproc, beside.file, beside.kept⟩ : Beside _ k { t with fs := s }) beside'
    obtain ⟨sz, stack⟩ := r
    cases stack with
    | none =>
      rw [ends_onRam_bind]
      refine (procFreepagetable_spec resident').imp ?_
      rintro _ w ⟨owns, kept'⟩
      exact executed_back fine ⟨beside.proc, beside.initproc, beside.file, beside.kept.trans kept'⟩ owns
    | some stack =>
      obtain ⟨sp, argc⟩ := stack
      obtain ⟨g, stacked⟩ := resident'
      refine (commitImage_spec fine busy beside stacked).bind ?_
      rintro _ w ⟨files, init, held', fine'⟩
      have positive : ¬((argc : Int) = -1) := by omega
      exact ⟨files, init, ⟨held', fine', fun wrong => absurd wrong positive⟩, fun wrong => absurd wrong positive,
        Or.inr (Int.natCast_nonneg argc)⟩
  · rw [ends_onRam_bind]
    refine (procFreepagetable_spec resident).imp ?_
    rintro _ w ⟨owns, kept'⟩
    exact onFs_any_bind (fun _ => trivial) fun _ s =>
      executed_back fine ⟨beside.proc, beside.initproc, beside.file, beside.kept.trans kept'⟩ owns

omit sb in
theorem fine_kalloc (fine : Fine boot k held 0) :
    Ends Filed (onRam kalloc) k fun r t => Beside (inUse boot held k) k t ∧
      match r with
      | none => Fine boot t held 0
      | some x => Fine ({x} + boot) t held 0 := by
  rw [ends_onRam]
  refine (kalloc_spec fine.layout.owns).imp fun r m got => ?_
  match r with
  | none =>
    subst got
    exact ⟨Beside.refl _ k, fine⟩
  | some x =>
    obtain ⟨fresh, owns, elsewhere⟩ := got
    have beside : Beside (inUse boot held k) k { k with ram := m } :=
      ⟨rfl, rfl, rfl, fun y mem => elsewhere y fun same => fresh (same ▸ mem)⟩
    refine ⟨beside, fine_beside fine beside ?_⟩
    rw [add_left_comm, add_left_comm ({x} : Multiset Nat)] at owns
    exact owns

omit sb in
theorem fine_kfree {x : Nat} (fine : Fine ({x} + boot) k held 0) :
    Ends Filed (onRam (kfree x)) k fun _ t => Beside (inUse boot held k) k t ∧ Fine boot t held 0 := by
  rw [ends_onRam]
  have owns := fine.layout.owns
  rw [add_left_comm _ ({x} : Multiset Nat), add_left_comm _ ({x} : Multiset Nat)] at owns
  have apart : ∀ y ∈ inUse boot held k, y ≠ x := fun y mem same =>
    owns.apart (Multiset.mem_singleton_self x) (same ▸ mem)
  refine (kfree_spec owns).imp fun _ m ⟨freed, elsewhere⟩ => ?_
  have kept : Keeps (inUse boot held k) k.ram m := fun y mem => elsewhere y (apart y mem)
  have layout : Layout m k.proc held ((pipePages k.file).val + boot) :=
    fine.layout.keep (fun y mem => kept y (Multiset.mem_add.mpr (Or.inl mem))) freed
  refine ⟨⟨rfl, rfl, rfl, kept⟩, relayout fine layout (fun y mem => kept y ?_) (fun _ => rfl) fine.rest⟩
  exact Multiset.mem_add.mpr (Or.inr (Multiset.mem_add.mpr (Or.inl mem)))

omit image origin sb in
theorem inUse_le (more boot : Multiset Nat) (held : Slot → Multiset Nat) (k : Kernel) :
    inUse boot held k ≤ inUse (more + boot) held k :=
  add_le_add_right (add_le_add_right (Multiset.le_add_left boot more) _) _

omit image origin sb in
theorem Beside.inUse {t u : Kernel} (first : Beside (inUse boot held k) k t) (second : Beside (inUse boot held t) t u) :
    Beside (inUse boot held k) k u := by
  rw [Images.inUse, first.file] at second
  exact first.trans second

omit sb in
theorem fetchArgs_spec {uargv : Nat → Arg} {left i : Nat} {argv : List (Nat × List UInt8)}
    (fine : Fine (↑(argv.map Prod.fst) + boot) k held 0) :
    Ends Filed (fetchArgs uargv left i argv) k fun r t => Beside (inUse boot held k) k t ∧
      Fine (↑(r.2.map Prod.fst) + boot) t held 0 := by
  induction left generalizing k i argv with
  | zero => exact ⟨Beside.refl _ k, fine⟩
  | succ left ih =>
    unfold fetchArgs
    split
    · exact ⟨Beside.refl _ k, fine⟩
    · exact ⟨Beside.refl _ k, fine⟩
    refine (fine_kalloc fine).bind fun r t ⟨beside, got⟩ => ?_
    have beside := beside.mono (inUse_le ..)
    match r with
    | none => exact ⟨beside, got⟩
    | some pa =>
      have more : ∀ s : List UInt8, (({pa} + (↑(argv.map Prod.fst) + boot) : Multiset Nat)) =
          ↑((argv ++ [(pa, s)]).map Prod.fst) + boot := by
        intro s
        rw [List.map_append, ← add_assoc, add_comm ({pa} : Multiset Nat)]
        rfl
      dsimp only at got ⊢
      split
      · rw [more []] at got
        exact ⟨beside, got⟩
      next s _ =>
        rw [more s] at got
        exact (ih got).imp fun r u ⟨beside', last⟩ => ⟨Beside.inUse beside beside', last⟩

omit sb in
theorem freeArgs_spec {argv : List Nat} (fine : Fine (↑argv + boot) k held 0) :
    Ends Filed (argv.forM fun pa => onRam (kfree pa)) k fun _ t => Beside (inUse boot held k) k t ∧ Fine boot t held 0 := by
  induction argv generalizing k with
  | nil =>
    rw [Multiset.coe_nil, zero_add] at fine
    exact ⟨Beside.refl _ k, fine⟩
  | cons pa _ ih =>
    rw [← Multiset.cons_coe, ← Multiset.singleton_add, add_assoc] at fine
    refine (fine_kfree fine).bind fun _ t ⟨beside, fine'⟩ => ?_
    exact (ih fine').imp fun _ u ⟨beside', last⟩ => ⟨Beside.inUse (beside.mono (inUse_le ..)) beside', last⟩

theorem sysExec_spec {path : Option FileSystem.Format.Path} {uargv : Nat → Arg} (fine : Fine boot k held 0)
    (running : (k.proc p).state = .runnable) : Ends Filed (sysExec p path uargv) k (Executed boot held k) := by
  unfold sysExec
  split
  · exact executed_back fine (Beside.refl _ k) fine.layout.owns
  next path _ =>
    have none : Fine (↑(([] : List (Nat × List UInt8)).map Prod.fst) + boot) k held 0 := by
      rw [List.map_nil, Multiset.coe_nil, zero_add]
      exact fine
    refine (fetchArgs_spec none).bind fun r t ⟨beside, fine₁⟩ => ?_
    obtain ⟨fetched, argv⟩ := r
    rw [← beside.proc] at running
    have ran : Ends Filed (if fetched = true then exec p path (argv.map Prod.snd) else pure (-1)) t
        (Executed (↑(argv.map Prod.fst) + boot) held t) := by
      split
      · exact exec_spec fine₁ running
      · exact executed_back fine₁ (Beside.refl _ t) fine₁.layout.owns
    refine ran.bind fun r u done => ?_
    obtain ⟨held', fine₂, same⟩ := done.fine
    refine (freeArgs_spec fine₂).bind fun _ w ⟨beside', fine₃⟩ => ?_
    have files : w.file = k.file := by rw [beside'.file, done.file, beside.file]
    have init : w.initproc = k.initproc := by rw [beside'.initproc, done.initproc, beside.initproc]
    refine ⟨files, init, ⟨held', fine₃, same⟩, fun failed => ?_, done.result⟩
    rw [same failed] at beside'
    exact Beside.inUse beside (Beside.inUse ((done.failed failed).mono (inUse_le ..)) beside')

omit sb in
theorem Executed.moves {r : Int} {t : Kernel} (done : Executed boot held k r t) : Moves boot k t := by
  obtain ⟨held', fine', -⟩ := done.fine
  exact ⟨⟨held', fine'⟩, by rw [done.file], done.initproc⟩

omit sb in
theorem Executed.free {t : Kernel} (fine : Fine boot k held 0) (done : Executed boot held k (-1) t) :
    (t.ram.freelist : Multiset Nat) = k.ram.freelist := by
  obtain ⟨_, fine', same⟩ := done.fine
  rw [same rfl] at fine'
  exact same_free fine fine' (by rw [done.file])

omit image origin sb in
theorem filed_excused (e : Halt) (filed : Filed e) : Excused e := by
  cases e with
  | fs why => trivial
  | _ => exact filed.elim

end Xv6Monitor.Calls.Exec
