import Xv6Monitor.Calls.Files
import Xv6Monitor.Calls.Holdings
import Xv6Monitor.Lib.Tally

/-! Files are shared by descriptors and pipes by the files at their two ends. A file counts the
descriptors that point to it, and a pipe is there as long as one of its ends is. -/

namespace Xv6Monitor.Calls.Sharing
open Function Lib.Bytes Lib.Program Lib.Tally Stops Process.Table Memory.Frames State Files Holdings

def IsEnd (file : Fp → File) (pi : Nat) (writable : Bool) (f : Fp) : Prop :=
  (file f).type = .pipe ∧ (file f).pipe = pi ∧ (file f).writable = writable

def openField (writable : Bool) : Nat := if writable then pipeWriteopen else pipeReadopen

def pipePages (file : Fp → File) : Finset Nat :=
  (Finset.univ.filter fun f => (file f).type = .pipe).image fun f => (file f).pipe

structure Pipes (m : Ram) (file : Fp → File) : Prop where
  unique : ∀ {pi : Nat} {w : Bool} {f g : Fp}, IsEnd file pi w f → IsEnd file pi w g → f = g
  marked : ∀ pi ∈ pipePages file, ∀ w, load 4 (m.page pi) (openField w) ≠ 0 ↔ ∃ f, IsEnd file pi w f

def Busy (q : State.Proc) : Prop := q.state ≠ .unused ∧ q.state ≠ .zombie

theorem busy_used {q : State.Proc} (state : q.state = .used) : Busy q := by
  rw [Busy, state]
  decide

theorem busy_runnable {q : State.Proc} (state : q.state = .runnable) : Busy q := by
  rw [Busy, state]
  decide

def fds (proc : Slot → State.Proc) : Slot × Fin NOFILE → Option Fp := fun i => (proc i.1).ofile i.2

def refs (file : Fp → File) : Fp → Int := fun f => (file f).ref

/-- The calls do not stop for one of these reasons: a panic of the memory functions, of `filedup` or of
`fileclose`. -/
def Excused : Halt → Prop
  | .vm _ | .file .filedup | .file .fileclose => False
  | _ => True

section Ends

variable {m t : Ram} {file file' : Fp → File}

theorem mem_pipePages {pi : Nat} : pi ∈ pipePages file ↔ ∃ w f, IsEnd file pi w f := by
  unfold pipePages
  rw [Finset.mem_image]
  constructor
  · rintro ⟨f, mem, rfl⟩
    exact ⟨_, f, (Finset.mem_filter.mp mem).2, rfl, rfl⟩
  · rintro ⟨w, f, isPipe, same, -⟩
    exact ⟨f, Finset.mem_filter.mpr ⟨Finset.mem_univ f, isPipe⟩, same⟩

theorem pipePages_congr (same : ∀ pi w f, IsEnd file' pi w f ↔ IsEnd file pi w f) : pipePages file' = pipePages file := by
  ext pi
  rw [mem_pipePages, mem_pipePages]
  exact exists_congr fun w => exists_congr fun f => same pi w f

theorem Pipes.congr (pipes : Pipes m file) (same : ∀ pi w f, IsEnd file' pi w f ↔ IsEnd file pi w f) : Pipes m file' := by
  refine ⟨fun first second => pipes.unique ((same ..).mp first) ((same ..).mp second), fun pi mem w => ?_⟩
  rw [pipePages_congr same] at mem
  rw [pipes.marked pi mem w]
  exact exists_congr fun f => (same pi w f).symm

theorem Pipes.keep (pipes : Pipes m file)
    (same : ∀ pi ∈ pipePages file, ∀ w, load 4 (t.page pi) (openField w) = load 4 (m.page pi) (openField w)) :
    Pipes t file := by
  refine ⟨pipes.unique, fun pi mem w => ?_⟩
  rw [same pi mem w]
  exact pipes.marked pi mem w

theorem isEnd_update {f : Fp} {g : File} (before : (file f).type ≠ .pipe) (after : g.type ≠ .pipe) (pi : Nat) (w : Bool)
    (h : Fp) : IsEnd (update file f g) pi w h ↔ IsEnd file pi w h := by
  unfold IsEnd
  by_cases here : h = f
  · rw [here, update_self]
    exact iff_of_false (fun found => after found.1) fun found => before found.1
  · rw [update_of_ne here]

theorem isEnd_ref {f : Fp} (r : Int) (pi : Nat) (w : Bool) (h : Fp) :
    IsEnd (update file f { file f with ref := r }) pi w h ↔ IsEnd file pi w h := by
  unfold IsEnd
  by_cases here : h = f
  · rw [here, update_self]
  · rw [update_of_ne here]

theorem refs_update (file : Fp → File) (f : Fp) (g : File) :
    refs (update file f g) = refs file + Pi.single f (g.ref - (file f).ref) := by
  funext h
  by_cases here : h = f
  · rw [here, Pi.add_apply, Pi.single_eq_same, refs, update_self]
    unfold refs
    omega
  · rw [Pi.add_apply, Pi.single_eq_of_ne here, refs, update_of_ne here]
    unfold refs
    omega

theorem fds_update (proc : Slot → State.Proc) (p : Slot) (fd : Fin NOFILE) (v : Option Fp) :
    fds (update proc p { proc p with ofile := update (proc p).ofile fd v }) =
      update (fds proc) (p, fd) v := by
  funext ⟨r, i⟩
  unfold fds
  by_cases slot : r = p
  · subst slot
    by_cases index : i = fd
    · rw [index, update_self, update_self]
      exact update_self ..
    · rw [update_self, update_of_ne (fun same => index (Prod.ext_iff.mp same).2)]
      exact update_of_ne index ..
  · rw [update_of_ne slot, update_of_ne fun same => slot (Prod.ext_iff.mp same).1]

theorem fds_congr {proc proc' : Slot → State.Proc} (same : ∀ p, (proc' p).ofile = (proc p).ofile) :
    fds proc' = fds proc := funext fun i => congrFun (same i.1) i.2

theorem filealloc_spec {E : Halt → Prop} {k : Kernel} : Ends E filealloc k fun r t => match r with
    | none => t = k
    | some f => (k.file f).ref = 0 ∧ t = k.withRef f 1 := by
  unfold filealloc
  rw [ends_get_bind]
  cases found : (List.finRange NFILE).find? fun f => (k.file f).ref = 0 with
  | none => exact rfl
  | some f =>
    have zero := List.find?_some found
    simp only [decide_eq_true_eq] at zero
    exact ⟨zero, rfl⟩

end Ends

variable [image : Image] [origin : Origin]

/-- The state between and within the calls: `more` is allocated besides, and `extra` are the references
of the call that runs. -/
structure Sound (more : Multiset Nat) (m : Ram) (proc : Slot → State.Proc) (file : Fp → File)
    (held : Slot → Multiset Nat) (extra : Fp → Int) : Prop where
  layout : Layout m proc held ((pipePages file).val + more)
  pipes : Pipes m file
  count : refs file = tally (fds proc) + extra
  idle : ∀ f, (file f).ref = 0 → (file f).type = .none
  rest : ∀ p, ¬Busy (proc p) → ∀ fd, (proc p).ofile fd = none

def Fine (more : Multiset Nat) (k : Kernel) (held : Slot → Multiset Nat) (extra : Fp → Int) : Prop :=
  Sound more k.ram k.proc k.file held extra

variable {more : Multiset Nat} {m t : Ram} {proc : Slot → State.Proc} {file : Fp → File} {held : Slot → Multiset Nat}
  {extra : Fp → Int} {f : Fp} {p : Slot} {k : Kernel}

variable (sound : Sound more m proc file held extra)
include sound

theorem Sound.ref_eq (f : Fp) : (file f).ref = tally (fds proc) f + extra f := congrFun sound.count f

theorem Sound.pos {fd : Fin NOFILE} (points : (proc p).ofile fd = some f)
    (rest : 0 ≤ extra f) : 0 < (file f).ref := by
  have counted : 0 < tally (fds proc) f := tally_pos (i := (p, fd)) points
  rw [sound.ref_eq f]
  omega

theorem Sound.pos_extra (rest : 0 < extra f) : 0 < (file f).ref := by
  have counted : 0 ≤ tally (fds proc) f := tally_nonneg ..
  rw [sound.ref_eq f]
  omega

theorem Sound.setFd (fd : Fin NOFILE) (v : Option Fp) (busy : Busy (proc p)) :
    Sound more m (update proc p { proc p with ofile := update (proc p).ofile fd v }) file held
      (extra + token ((proc p).ofile fd) - token v) := by
  refine ⟨sound.layout.congr ?_ ?_ ?_ ?_, sound.pipes, ?_, sound.idle, fun r rest => ?_⟩
  · intro r
    have same := field_update (i := p)
      (e := { proc p with ofile := update (proc p).ofile fd v }) State.Proc.state rfl r
    rw [same]
  · exact field_update State.Proc.pagetable rfl
  · exact field_update State.Proc.trapframe rfl
  · exact field_update State.Proc.sz rfl
  · rw [sound.count, fds_update, tally_update]
    have cell : fds proc (p, fd) = (proc p).ofile fd := rfl
    rw [cell]
    abel
  · by_cases here : r = p
    · rw [here, update_self] at rest
      exact absurd busy rest
    · rw [update_of_ne here] at rest ⊢
      exact sound.rest r rest

theorem Sound.setRef {r : Int} (some : r ≠ 0) :
    Sound more m proc (update file f { file f with ref := r }) held (extra + Pi.single f (r - (file f).ref)) := by
  refine ⟨?_, sound.pipes.congr (isEnd_ref r), ?_, fun g zero => ?_, sound.rest⟩
  · rw [pipePages_congr (isEnd_ref r)]
    exact sound.layout
  · rw [refs_update, sound.count, add_assoc]
  by_cases here : g = f
  · rw [here, update_self] at zero
    exact absurd zero some
  · rw [update_of_ne here] at zero ⊢
    exact sound.idle g zero

theorem Sound.setFile {g : File} (before : (file f).type ≠ .pipe)
    (after : g.type ≠ .pipe) (count : g.ref = (file f).ref) (some : g.ref ≠ 0) :
    Sound more m proc (update file f g) held extra := by
  refine ⟨?_, sound.pipes.congr (isEnd_update before after), ?_, fun h zero => ?_, sound.rest⟩
  · rw [pipePages_congr (isEnd_update before after)]
    exact sound.layout
  · rw [refs_update, sound.count, count, sub_self, Pi.single_zero, add_zero]
  by_cases here : h = f
  · rw [here, update_self] at zero
    exact absurd zero some
  · rw [update_of_ne here] at zero ⊢
    exact sound.idle h zero

theorem Sound.fill {pi : Nat} {data : Data} (mem : pi ∈ pipePages file)
    (same : ∀ w, load 4 data (openField w) = load 4 (m.page pi) (openField w)) :
    Sound more { m with page := update m.page pi data } proc file held extra := by
  refine ⟨sound.layout.fill (Multiset.mem_add.mpr (Or.inl mem)) data, sound.pipes.keep fun other _ w => ?_, sound.count,
    sound.idle, sound.rest⟩
  dsimp only
  by_cases here : other = pi
  · rw [here, update_self]
    exact same w
  · rw [update_of_ne here]

omit sound

theorem filedup_spec (fine : Fine more k held extra) (pos : 0 < (k.file f).ref) :
    Ends Excused (filedup f) k fun _ t => Aside k t ∧ (∀ pi w g, IsEnd t.file pi w g ↔ IsEnd k.file pi w g) ∧
      Fine more t held (extra + Pi.single f 1) := by
  unfold filedup
  rw [ends_get_bind, if_neg (by omega)]
  refine ⟨⟨rfl, rfl⟩, isEnd_ref _, ?_⟩
  have next := fine.setRef (f := f) (r := (k.file f).ref + 1) (by omega)
  rw [add_sub_cancel_left] at next
  exact next

end Xv6Monitor.Calls.Sharing
