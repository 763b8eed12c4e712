import Xv6Monitor.Calls.Paths
import Xv6Monitor.Calls.Sharing

/-! The references to inodes that files and processes hold, through the functions of `kernel/file.c` and
`kernel/pipe.c` and the calls on open files. -/

namespace Xv6Monitor.Calls.Balance
open Function Lib.Bytes Lib.Program Lib.Tally Stops Process.Table Memory.Frames FileSystem.Format FileSystem.Blocks
  FileSystem.Steady FileSystem.References State Files Sharing

def inodeOf (g : File) : Option Ip :=
  match g.type with
  | .none | .pipe => none
  | .inode | .device => g.ip

def pointers (file : Fp → File) (proc : Slot → State.Proc) : Fp ⊕ Slot → Option Ip :=
  Sum.elim (fun f => inodeOf (file f)) fun p => (proc p).cwd

/-- The references are those of the pointers and `extra` ones of the call that runs; free files and
processes that are not there have none. -/
structure Linked (k : Kernel) (extra : Ip → Int) (locks : Ip → Bool) (ops : Nat) : Prop where
  quiet : Quiet k.fs (tally (pointers k.file k.proc) + extra) locks ops
  idle : ∀ f, (k.file f).ref ≤ 0 → (k.file f).type = .none
  rest : ∀ p, ¬Busy (k.proc p) → (k.proc p).cwd = none

variable {k : Kernel} {extra : Ip → Int} {locks : Ip → Bool} {ops : Nat} {f : Fp} {p : Slot} {ip : Ip}

variable (linked : Linked k extra locks ops)
include linked

theorem Linked.ram (m : Ram) : Linked { k with ram := m } extra locks ops :=
  ⟨linked.quiet, linked.idle, linked.rest⟩

structure Outside (k t : Kernel) : Prop where
  fs : Still k.fs t.fs
  file : t.file = k.file
  proc : t.proc = k.proc

instance : IsPreorder Kernel Outside where
  refl := fun k => ⟨refl_of Still k.fs, rfl, rfl⟩
  trans := fun _ _ _ first second =>
    ⟨trans_of Still first.fs second.fs, second.file.trans first.file, second.proc.trans first.proc⟩

theorem Linked.outside {t : Kernel} (outside : Outside k t) : Linked t extra locks ops := by
  refine ⟨?_, ?_, ?_⟩
  · rw [outside.file, outside.proc]
    exact linked.quiet.still outside.fs
  · rw [outside.file]
    exact linked.idle
  · rw [outside.proc]
    exact linked.rest

omit linked

theorem onRam_outside {α : Type} {x : Prog Halt Ram α} : Along Outside (onRam x) := fun _ =>
  ends_onRam.mpr (ends_of (fun _ _ _ => ⟨refl_of Still _, rfl, rfl⟩) fun _ _ => trivial)

theorem onFs_outside {α : Type} {x : FsProg α} (still : Along Still x) : Along Outside (onFs x) := fun k =>
  ends_onFs.mpr ((still k.fs).imp fun _ _ done => ⟨done, rfl, rfl⟩)

theorem setPage_outside {pa : Nat} {g : Data → Data} : Along Outside (setPage pa g) := fun _ =>
  ⟨refl_of Still _, rfl, rfl⟩

theorem Linked.fs {s : Fs} {extra' : Ip → Int} {locks' : Ip → Bool} {ops' : Nat} (linked : Linked k extra locks ops)
    (quiet : Quiet s (tally (pointers k.file k.proc) + extra') locks' ops') : Linked { k with fs := s } extra' locks' ops' :=
  ⟨quiet, linked.idle, linked.rest⟩

section Rules

variable {α β : Type} {Q : β → Kernel → Prop}

theorem onRam_anyway {x : Prog Halt Ram α} {g : α → KProg β} (next : ∀ a m, Ends Any (g a) { k with ram := m } Q) :
    Ends Any (onRam x >>= g) k Q :=
  ends_onRam_bind.mpr (ends_of (fun a m _ => next a m) fun _ _ => trivial)

theorem onFs_then {x : FsProg α} {R : α → Fs → Prop} {g : α → KProg β} (first : Ends Any x k.fs R)
    (next : ∀ a s, R a s → Ends Any (g a) { k with fs := s } Q) : Ends Any (onFs x >>= g) k Q :=
  ends_onFs_bind.mpr (first.imp fun a s done => next a s done)

end Rules

include linked

theorem Linked.point {g : File} (idle : g.ref ≤ 0 → g.type = .none) :
    Linked { k with file := update k.file f g } (extra + token (inodeOf (k.file f)) - token (inodeOf g)) locks ops := by
  have pointed : pointers (update k.file f g) k.proc = update (pointers k.file k.proc) (Sum.inl f) (inodeOf g) := by
    rw [pointers, pointers, Sum.update_elim_inl]
    exact congrArg (Sum.elim · _) (comp_update inodeOf k.file f g)
  refine ⟨?_, ?_, linked.rest⟩
  · dsimp only
    rw [pointed]
    exact (congrArg (Quiet k.fs · locks ops) (tally_replace (pointers k.file k.proc) (Sum.inl f) (inodeOf g) extra)).mpr linked.quiet
  · exact (forall_update_iff k.file fun _ h => h.ref ≤ 0 → h.type = .none).mpr ⟨idle, fun h _ => linked.idle h⟩

theorem Linked.setFile {g : File} (same : inodeOf g = inodeOf (k.file f)) (idle : g.ref ≤ 0 → g.type = .none) :
    Linked { k with file := update k.file f g } extra locks ops := by
  have pointed := linked.point (f := f) idle
  rwa [same, add_sub_cancel_right] at pointed

theorem Linked.withRef {r : Int} (some : 0 < r) : Linked (k.withRef f r) extra locks ops :=
  linked.setFile rfl fun none => absurd none (not_le.mpr some)

theorem Linked.setCwd {q : State.Proc} (rest : ¬Busy q → q.cwd = none) :
    Linked { k with proc := update k.proc p q } (extra + token (k.proc p).cwd - token q.cwd) locks ops := by
  have pointed : pointers k.file (update k.proc p q) = update (pointers k.file k.proc) (Sum.inr p) q.cwd := by
    rw [pointers, pointers, Sum.update_elim_inr]
    exact congrArg (Sum.elim _) (comp_update State.Proc.cwd k.proc p q)
  refine ⟨?_, linked.idle, ?_⟩
  · dsimp only
    rw [pointed]
    exact (congrArg (Quiet k.fs · locks ops) (tally_replace (pointers k.file k.proc) (Sum.inr p) q.cwd extra)).mpr linked.quiet
  · exact (forall_update_iff k.proc fun _ r => ¬Busy r → r.cwd = none).mpr ⟨rest, fun r _ => linked.rest r⟩

theorem Linked.setProc {q : State.Proc} (same : q.cwd = (k.proc p).cwd)
    (rest : ¬Busy q → q.cwd = none) : Linked { k with proc := update k.proc p q } extra locks ops := by
  have moved := linked.setCwd (p := p) rest
  rwa [same, add_sub_cancel_right] at moved

theorem Linked.withFd {fd : Fin NOFILE} {v : Option Fp} :
    Linked (k.withFd p fd v) extra locks ops := linked.setProc rfl fun idle => linked.rest p idle

omit linked

theorem withFd_cwd (k : Kernel) (p : Slot) (fd : Fin NOFILE) (v : Option Fp) (q : Slot) :
    ((k.withFd p fd v).proc q).cwd = (k.proc q).cwd := by
  by_cases here : q = p <;> simp [Kernel.withFd, here]

theorem referred (rest : ∀ e, 0 ≤ extra e) (ip : Ip)
    (here : (k.proc p).cwd = some ip) : 0 < (tally (pointers k.file k.proc) + extra) ip := by
  have counted : 0 < tally (pointers k.file k.proc) ip := tally_pos (i := Sum.inr p) here
  have more := rest ip
  rw [Pi.add_apply]
  omega

include linked

theorem filealloc_linked : Ends Any filealloc k fun r t => Linked t extra locks ops ∧ t.proc = k.proc ∧
      ∀ f, r = some f → (k.file f).ref = 0 ∧ (t.file f).ref = 1 ∧ (t.file f).type = .none ∧
        ∀ g ≠ f, t.file g = k.file g := by
  refine filealloc_spec.imp fun r t got => ?_
  match r with
  | none =>
    subst got
    exact ⟨linked, rfl, fun _ wrong => nomatch wrong⟩
  | some f =>
    obtain ⟨zero, rfl⟩ := got
    refine ⟨linked.withRef (by decide), rfl, fun g same => ?_⟩
    cases same
    refine ⟨zero, Kernel.withRef_self .., ?_, fun g other => update_of_ne other ..⟩
    rw [Kernel.withRef_type]
    exact linked.idle f (le_of_eq zero)

theorem filedup_linked : Ends Any (filedup f) k fun _ t => Linked t extra locks ops ∧ t.proc = k.proc := by
  unfold filedup
  rw [ends_get_bind]
  split
  · trivial
  · rw [ends_setFile]
    exact ⟨linked.withRef (by omega), rfl⟩

theorem fdalloc_linked : Ends Any (fdalloc p f) k fun _ t => Linked t extra locks ops ∧ t.file = k.file ∧
      ∀ q, (t.proc q).cwd = (k.proc q).cwd := by
  unfold fdalloc
  rw [ends_get_bind]
  split
  · exact ⟨linked, rfl, fun _ => rfl⟩
  · rw [ends_setFd_bind]
    exact ⟨linked.withFd, rfl, withFd_cwd k p _ _⟩

omit linked

variable [image : Image] [sb : Superblock]

include linked

omit sb in
theorem pipeclose_linked {pi : Nat} {w : Bool} :
    Ends Any (pipeclose pi w) k fun _ t => Linked t extra locks ops ∧ t.proc = k.proc := by
  have last : ∀ {t : Kernel}, Linked t extra locks ops → t.proc = k.proc →
      Ends Any (do
        let k ← get
        if pipeField k pi pipeReadopen = 0 ∧ pipeField k pi pipeWriteopen = 0 then onRam (kfree pi)) t fun _ t =>
          Linked t extra locks ops ∧ t.proc = k.proc := by
    intro t linked same
    rw [ends_get_bind]
    split
    · exact ends_onRam.mpr (ends_of (fun _ m _ => ⟨linked.ram m, same⟩) fun _ _ => trivial)
    · exact ⟨linked, same⟩
  unfold pipeclose
  split
  · rw [setPipeField, ends_setPage_bind]
    exact last (linked.ram _) rfl
  · rw [setPipeField, ends_setPage_bind]
    exact last (linked.ram _) rfl

theorem fileclose_linked : Ends Any (fileclose f) k fun _ t => Linked t extra locks ops ∧ t.proc = k.proc := by
  unfold fileclose
  rw [ends_get_bind]
  dsimp only
  split
  · trivial
  split
  next more =>
    exact ⟨linked.withRef (by omega), rfl⟩
  · rw [ends_setFile_bind]
    have closed := linked.point (f := f) (g := { k.file f with ref := 0, type := .none }) fun _ => rfl
    rw [show inodeOf { k.file f with ref := 0, type := FileType.none } = none from rfl, token_none, sub_zero] at closed
    unfold release
    cases type : (k.file f).type with
    | none =>
      rw [inodeOf, type, token_none, add_zero] at closed
      exact ⟨closed, rfl⟩
    | pipe =>
      rw [inodeOf, type, token_none, add_zero] at closed
      exact pipeclose_linked closed
    | inode | device =>
      rw [inodeOf, type] at closed
      dsimp only at closed ⊢
      rcases points : (k.file f).ip with _ | _
      · trivial
      rw [points, token_some] at closed
      rw [ends_onFs]
      refine (beginOp_spec closed.quiet).bind fun _ _ begun => (iput_spec begun).bind fun _ _ put => ?_
      refine (endOp_spec put).imp fun _ s done => ⟨closed.fs ?_, rfl⟩
      rw [← add_assoc, add_sub_cancel_right] at done
      exact done

end Xv6Monitor.Calls.Balance
