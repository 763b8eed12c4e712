import Xv6Monitor.Calls.Closing
import Xv6Monitor.Calls.Names

/-! The calls on file descriptors keep the counts of the files, the pipes and the memory in order. -/

namespace Xv6Monitor.Calls.Descriptors
open Function Lib.Bytes Lib.Program Lib.Tally Stops Process.Table Memory.Frames Memory.Tables Memory.Spaces
  FileSystem.Format State Files Sharing Closing

def paired (file : Fp → File) (pi : Nat) (f0 f1 : Fp) : Fp → File :=
  update
    (update file f0 { file f0 with type := .pipe, readable := true, writable := false, pipe := pi })
    f1 { file f1 with type := .pipe, readable := false, writable := true, pipe := pi }

def freshPipe (b : Data) : Data :=
  store 4 (store 4 (store 4 (store 4 b pipeReadopen 1) pipeWriteopen 1) pipeNwrite 0) pipeNread 0

theorem freshPipe_open (b : Data) (w : Bool) : load 4 (freshPipe b) (openField w) = 1 := by
  unfold freshPipe
  cases w with
  | true =>
    rw [load_store_other (by decide), load_store_other (by decide)]
    exact load_store 4 _ _ 1
  | false =>
    rw [load_store_other (by decide), load_store_other (by decide), load_store_other (by decide)]
    exact load_store 4 _ _ 1

section Paired

variable {file : Fp → File} {pi : Nat} {f0 f1 : Fp}

theorem isEnd_paired (pi : Nat) (apart : f0 ≠ f1) (first : (file f0).type ≠ .pipe) (second : (file f1).type ≠ .pipe) (x : Nat)
    (w : Bool) (g : Fp) :
    IsEnd (paired file pi f0 f1) x w g ↔ IsEnd file x w g ∨ (x = pi ∧ g = if w then f1 else f0) := by
  unfold IsEnd paired
  by_cases write : g = f1
  · subst write
    cases w with
    | true => simpa [second] using eq_comm
    | false => simp [second, Ne.symm apart]
  rw [update_of_ne write]
  by_cases read : g = f0
  · subst read
    cases w with
    | true => simp [first, apart]
    | false => simpa [first] using eq_comm
  · rw [update_of_ne read]
    cases w <;> simp [write, read]

theorem pipePages_paired (pi : Nat) (apart : f0 ≠ f1) (first : (file f0).type ≠ .pipe) (second : (file f1).type ≠ .pipe) :
    pipePages (paired file pi f0 f1) = insert pi (pipePages file) := by
  ext x
  rw [Finset.mem_insert, mem_pipePages, mem_pipePages]
  simp only [isEnd_paired pi apart first second]
  constructor
  · rintro ⟨w, g, found | ⟨here, -⟩⟩
    · exact Or.inr ⟨w, g, found⟩
    · exact Or.inl here
  · rintro (here | ⟨w, g, found⟩)
    · exact ⟨true, f1, Or.inr ⟨here, rfl⟩⟩
    · exact ⟨w, g, Or.inl found⟩

theorem refs_paired (file : Fp → File) (pi : Nat) (f0 f1 : Fp) : refs (paired file pi f0 f1) = refs file := by
  funext g
  unfold refs paired
  by_cases write : g = f1
  · rw [write, update_self]
  · rw [update_of_ne write]
    by_cases read : g = f0
    · rw [read, update_self]
    · rw [update_of_ne read]

end Paired

variable {k : Kernel} {f : Fp}

theorem argfd_some {p : Slot} {fd : Int} {n : Fin NOFILE} (found : argfd k p fd = some (n, f)) : (k.proc p).ofile n = some f := by
  unfold argfd at found
  split at found
  · obtain ⟨_, points, same⟩ := Option.map_eq_some_iff.mp found
    obtain ⟨index, value⟩ := Prod.mk.inj same
    rw [← index, points, value]
  · exact absurd found (by simp)

theorem fdalloc_spec {p : Slot} {E : Halt → Prop} : Ends E (fdalloc p f) k fun r t => match r with
    | none => t = k
    | some fd => (k.proc p).ofile fd = none ∧ t = k.withFd p fd (some f) := by
  unfold fdalloc
  rw [ends_get_bind]
  cases found : (List.finRange NOFILE).find? fun fd => ((k.proc p).ofile fd).isNone with
  | none => exact rfl
  | some fd =>
    have empty := List.find?_some found
    exact ⟨Option.isNone_iff_eq_none.mp empty, rfl⟩

def withPipe (k : Kernel) (pi : Nat) (f0 f1 : Fp) : Kernel :=
  let page := update k.ram.page pi (freshPipe (k.ram.page pi))
  { k with ram := { k.ram with page := page }, file := paired k.file pi f0 f1 }

theorem ends_pairing {E : Halt → Prop} {Q : Option (Fp × Fp) → Kernel → Prop} (apart : f0 ≠ f1)
    (after : Q (some (f0, f1)) (withPipe k pi f0 f1)) :
    Ends E (do
      setPipeField pi pipeReadopen 1
      setPipeField pi pipeWriteopen 1
      setPipeField pi pipeNwrite 0
      setPipeField pi pipeNread 0
      setFile f0 fun g => { g with type := .pipe, readable := true, writable := false, pipe := pi }
      setFile f1 fun g => { g with type := .pipe, readable := false, writable := true, pipe := pi }
      pure (some (f0, f1))) k Q := by
  simp only [setPipeField, ends_setPage_bind, ends_setFile_bind, update_self, update_idem,
    update_of_ne (Ne.symm apart), ends_pure]
  exact after

variable [image : Image] [origin : Origin] {boot : Multiset Nat} {m : Ram} {proc : Slot → State.Proc} {file : Fp → File}
  {held : Slot → Multiset Nat} {extra : Fp → Int} {f : Fp} {p : Slot} {k : Kernel}

theorem sound_paired {t : Ram} (sound : Sound boot m proc file held extra) (apart : f0 ≠ f1)
    (first : (file f0).type ≠ .pipe) (second : (file f1).type ≠ .pipe) (used : (file f0).ref ≠ 0) (used' : (file f1).ref ≠ 0)
    (fresh : pi ∉ (∑ p, held p) + ((pipePages file).val + boot))
    (owns : Owns t ({pi} + ((∑ p, held p) + ((pipePages file).val + boot)))) (elsewhere : ∀ y ≠ pi, t.page y = m.page y)
    (marks : ∀ w, load 4 (t.page pi) (openField w) = 1) :
    Sound boot t proc (paired file pi f0 f1) held extra := by
  have here : pi ∉ pipePages file := by
    intro mem
    refine fresh ?_
    simp only [Multiset.mem_add]
    exact Or.inr (Or.inl mem)
  have ends := isEnd_paired pi apart first second
  have refs := refs_paired file pi f0 f1
  have pages := pipePages_paired pi apart first second
  refine ⟨?_, ⟨?_, ?_⟩, ?_, ?_, sound.rest⟩
  · rw [pages, Finset.insert_val_of_notMem here, ← Multiset.singleton_add, add_assoc]
    refine sound.layout.keep (fun x mem => elsewhere x fun same => fresh ?_) ?_
    · rw [← same]
      exact Multiset.mem_add.mpr (Or.inl mem)
    · rw [add_left_comm]
      exact owns
  · intro x w g h one two
    rcases (ends ..).mp one with old | ⟨new, at₁⟩
    · rcases (ends ..).mp two with old' | ⟨new, -⟩
      · exact sound.pipes.unique old old'
      · exact absurd (mem_pipePages.mpr ⟨w, g, old⟩) (new ▸ here)
    · rcases (ends ..).mp two with old' | ⟨-, at₂⟩
      · exact absurd (mem_pipePages.mpr ⟨w, h, old'⟩) (new ▸ here)
      · rw [at₁, at₂]
  · intro x mem w
    simp only [ends]
    by_cases same : x = pi
    · rw [same, marks w]
      exact iff_of_true (by decide) ⟨_, Or.inr ⟨rfl, rfl⟩⟩
    · rw [pages, Finset.mem_insert] at mem
      rw [elsewhere x same, sound.pipes.marked x (mem.resolve_left same) w]
      exact exists_congr fun g => (or_iff_left fun wrong => same wrong.1).symm
  · rw [refs]
    exact sound.count
  · intro g zero
    have count : (file g).ref = 0 := (congrFun refs g).symm.trans zero
    have other : g ≠ f0 ∧ g ≠ f1 := ⟨fun same => used (same ▸ count), fun same => used' (same ▸ count)⟩
    rw [paired, update_of_ne other.2, update_of_ne other.1]
    exact sound.idle g count

theorem store_spec {va len : Nat} {src : Data} (fine : Fine boot k held extra) (busy : Busy (k.proc p)) :
    Ends Excused (onRam (copyout (k.proc p).pagetable va src len)) k fun _ t =>
      Aside k t ∧ t.file = k.file ∧ Fine boot t held extra := by
  rw [ends_onRam]
  refine (fine.layout.store busy.1).imp fun _ t ⟨layout, kept, _⟩ =>
    ⟨⟨rfl, rfl⟩, rfl, layout, ?_, fine.count, fine.idle, fine.rest⟩
  exact fine.pipes.keep fun pi mem w => by rw [kept pi (Multiset.mem_add.mpr (Or.inl mem))]

theorem fine_given {fd : Fin NOFILE} (fine : Fine boot k held extra) (empty : (k.proc p).ofile fd = none)
    (busy : Busy (k.proc p)) :
    Fine boot (k.withFd p fd (some f)) held (extra - Pi.single f 1) := by
  have next := fine.setFd fd (some f) busy
  rw [empty, token_none, add_zero] at next
  exact next

theorem fine_taken {fd : Fin NOFILE} (fine : Fine boot k held extra) (points : (k.proc p).ofile fd = some f)
    (busy : Busy (k.proc p)) :
    Fine boot (k.withFd p fd none) held (extra + Pi.single f 1) := by
  have next := fine.setFd fd none busy
  rw [points, token_none, sub_zero] at next
  exact next

def Stays (boot : Multiset Nat) (held : Slot → Multiset Nat) (k t : Kernel) : Prop :=
  Fine boot t held 0 ∧ t.initproc = k.initproc

theorem sysDup_spec {fd : Int} (fine : Fine boot k held 0) (busy : Busy (k.proc p)) :
    Ends Excused (sysDup p fd) k fun _ t => Stays boot held k t := by
  unfold sysDup
  rw [ends_get_bind]
  rcases found : argfd k p fd with _ | _
  · exact ⟨fine, rfl⟩
  refine fdalloc_spec.bind fun r t got => ?_
  match r with
  | none => exact ⟨got ▸ fine, by rw [got]⟩
  | some fd =>
    obtain ⟨empty, rfl⟩ := got
    have pos := fine.pos (argfd_some found) (le_refl 0)
    refine (filedup_spec (fine_given fine empty busy) pos).bind fun _ t ⟨aside, _, after⟩ => ?_
    rw [sub_add_cancel] at after
    exact ⟨after, aside.initproc⟩

theorem fine_filealloc (fine : Fine boot k held extra) (zero : (k.file f).ref = 0) :
    Fine boot (k.withRef f 1) held (extra + Pi.single f 1) := by
  have next := fine.setRef (f := f) (r := 1) (by decide)
  rw [zero] at next
  exact next

variable [sb : Superblock]

theorem sysClose_spec {fd : Int} (fine : Fine boot k held 0) (busy : Busy (k.proc p)) :
    Ends Excused (sysClose p fd) k fun _ t => Stays boot held k t := by
  unfold sysClose
  rw [ends_get_bind]
  rcases found : argfd k p fd with _ | _
  · exact ⟨fine, rfl⟩
  have points := argfd_some found
  have pos := fine.pos points (le_refl 0)
  rw [ends_setFd_bind]
  refine (fileclose_spec (fine_taken fine points busy) pos).bind fun _ t ⟨aside, after⟩ => ?_
  rw [add_sub_cancel_right] at after
  exact ⟨after, aside.initproc⟩

theorem close_both {α : Type} {rf wf : Fp} {r : α} (fine : Fine boot k held (Pi.single rf 1 + Pi.single wf 1)) :
    Ends Excused (do fileclose rf; fileclose wf; pure r) k fun a t => a = r ∧ Aside k t ∧ Fine boot t held 0 := by
  have first : 0 < (Pi.single rf 1 + Pi.single wf 1 : Fp → Int) rf := by
    rw [Pi.add_apply, Pi.single_eq_same, Pi.single_apply]
    split <;> decide
  refine (fileclose_spec fine (fine.pos_extra first)).bind fun _ t ⟨aside, after⟩ => ?_
  rw [add_sub_cancel_left] at after
  have second : 0 < (Pi.single wf 1 : Fp → Int) wf := by
    rw [Pi.single_eq_same]
    decide
  refine (fileclose_spec after (after.pos_extra second)).bind fun _ u ⟨aside', done⟩ => ?_
  rw [sub_self] at done
  exact ⟨rfl, aside.trans aside', done⟩

theorem pipealloc_spec (fine : Fine boot k held 0) :
    Ends Excused pipealloc k fun r t => Aside k t ∧ match r with
      | none => Fine boot t held 0
      | some (rf, wf) => Fine boot t held (Pi.single rf 1 + Pi.single wf 1) := by
  unfold pipealloc
  refine filealloc_spec.bind fun r t got => ?_
  match r with
  | none =>
    rw [got]
    exact ⟨⟨rfl, rfl⟩, fine⟩
  | some f0 =>
    obtain ⟨zero, rfl⟩ := got
    have one := fine_filealloc fine zero
    rw [zero_add] at one
    refine filealloc_spec.bind fun r t got => ?_
    match r with
    | none =>
      rw [got]
      have pos : 0 < ((k.withRef f0 1).file f0).ref := by
        rw [Kernel.withRef_self]
        decide
      refine (fileclose_spec one pos).bind fun _ u ⟨aside, after⟩ => ?_
      rw [sub_self] at after
      exact ⟨⟨aside.proc, aside.initproc⟩, after⟩
    | some f1 =>
      obtain ⟨zero', rfl⟩ := got
      have two := fine_filealloc one zero'
      have apart : f0 ≠ f1 := by
        intro same
        rw [← same, Kernel.withRef_self] at zero'
        exact absurd zero' (by decide)
      rw [Kernel.withRef_other (Ne.symm apart)] at zero'
      rw [ends_onRam_bind]
      refine (kalloc_spec two.layout.owns).imp fun r t got => ?_
      match r with
      | none =>
        rw [got]
        refine (close_both two).imp fun r u ⟨nothing, aside, after⟩ => ?_
        rw [nothing]
        exact ⟨⟨aside.proc, aside.initproc⟩, after⟩
      | some pi =>
        obtain ⟨fresh, owns, elsewhere⟩ := got
        refine ends_pairing apart ⟨⟨rfl, rfl⟩, ?_⟩
        have filled := owns.fill (Multiset.mem_add.mpr (Or.inl (Multiset.mem_singleton_self pi))) (freshPipe (t.page pi))
        refine sound_paired two apart ?_ ?_ ?_ ?_ fresh filled (fun y other => ?_) (fun w => ?_)
        · rw [Kernel.withRef_type, Kernel.withRef_type, fine.idle f0 zero]
          decide
        · rw [Kernel.withRef_type, Kernel.withRef_type, fine.idle f1 zero']
          decide
        · rw [Kernel.withRef_other apart, Kernel.withRef_self]
          decide
        · rw [Kernel.withRef_self]
          decide
        · exact (update_of_ne other ..).trans (elsewhere y other)
        · show load 4 (update t.page pi (freshPipe (t.page pi)) pi) (openField w) = 1
          rw [update_self]
          exact freshPipe_open _ w

theorem undo_pipe {rf wf : Fp} {fd0 fd1 : Fin NOFILE} (fine : Fine boot k held 0) (busy : Busy (k.proc p))
    (apart : fd0 ≠ fd1) (first : (k.proc p).ofile fd0 = some rf) (second : (k.proc p).ofile fd1 = some wf) :
    Ends Excused (do setFd p fd0 none; setFd p fd1 none; fileclose rf; fileclose wf; pure (-1 : Int)) k
      fun _ t => Stays boot held k t := by
  have second' : ((k.withFd p fd0 none).proc p).ofile fd1 = some wf := by
    simpa [Kernel.withFd, Ne.symm apart] using second
  have busy' : Busy ((k.withFd p fd0 none).proc p) := by
    simpa [Busy, Kernel.withFd] using busy
  have back := fine_taken (fine_taken fine first busy) second' busy'
  rw [zero_add] at back
  rw [ends_setFd_bind]
  exact (close_both back).imp fun _ t closed => ⟨closed.2.2, closed.2.1.initproc⟩

theorem sysPipe_spec {fdarray : Nat} (fine : Fine boot k held 0) (busy : Busy (k.proc p)) :
    Ends Excused (sysPipe p fdarray) k fun _ t => Stays boot held k t := by
  unfold sysPipe
  refine (pipealloc_spec fine).bind ?_
  rintro r t ⟨aside, got⟩
  rcases r with _ | ends
  · exact ⟨got, aside.initproc⟩
  obtain ⟨rf, wf⟩ := ends
  have busy₁ : Busy (t.proc p) := by
    rw [aside.proc]
    exact busy
  refine fdalloc_spec.bind fun r u got₁ => ?_
  rcases r with _ | fd0
  · rw [got₁]
    exact (close_both got).imp fun _ u closed => ⟨closed.2.2, closed.2.1.initproc.trans aside.initproc⟩
  obtain ⟨empty, rfl⟩ := got₁
  have first := fine_given (f := rf) got empty busy₁
  rw [add_sub_cancel_left] at first
  have busy₂ : Busy ((t.withFd p fd0 (some rf)).proc p) := by
    simpa [Busy, Kernel.withFd] using busy₁
  refine fdalloc_spec.bind fun r u got₂ => ?_
  cases r with
  | none =>
    rw [got₂]
    rw [ends_setFd_bind]
    have points : ((t.withFd p fd0 (some rf)).proc p).ofile fd0 = some rf := by simp [Kernel.withFd]
    have back := fine_taken first points busy₂
    rw [add_comm] at back
    exact (close_both back).imp fun _ u closed => ⟨closed.2.2, closed.2.1.initproc.trans aside.initproc⟩
  | some fd1 =>
    obtain ⟨empty', rfl⟩ := got₂
    have second := fine_given (f := wf) first empty' busy₂
    rw [sub_self] at second
    obtain ⟨v, atV⟩ : ∃ v, (t.withFd p fd0 (some rf)).withFd p fd1 (some wf) = v := ⟨_, rfl⟩
    have apart : fd0 ≠ fd1 := by
      intro same
      rw [← same] at empty'
      simp [Kernel.withFd] at empty'
    have points : (v.proc p).ofile fd0 = some rf := by simp [← atV, Kernel.withFd, apart]
    have points' : (v.proc p).ofile fd1 = some wf := by simp [← atV, Kernel.withFd]
    have busy₃ : Busy (v.proc p) := by simpa [Busy, ← atV, Kernel.withFd] using busy₁
    have init : v.initproc = k.initproc := by simpa [← atV, Kernel.withFd] using aside.initproc
    rw [atV] at second ⊢
    rw [ends_get_bind]
    refine (store_spec second busy₃).bind ?_
    rintro done u ⟨aside₁, _, fine₁⟩
    have undo : ∀ {w : Kernel}, Aside v w → Fine boot w held 0 →
        Ends Excused (do setFd p fd0 none; setFd p fd1 none; fileclose rf; fileclose wf; pure (-1 : Int)) w
          fun _ t => Stays boot held k t := by
      intro w aside' fine'
      rw [← aside'.proc] at busy₃ points points'
      refine (undo_pipe fine' busy₃ apart points points').imp fun _ x stays => ?_
      exact ⟨stays.1, stays.2.trans (aside'.initproc.trans init)⟩
    cases done with
    | false =>
      exact undo aside₁ fine₁
    | true =>
      rw [← aside₁.proc]
      rw [← aside₁.proc] at busy₃
      refine (store_spec fine₁ busy₃).bind ?_
      rintro both w ⟨aside₂, _, fine₂⟩
      cases both with
      | false => exact undo (aside₁.trans aside₂) fine₂
      | true => exact ⟨fine₂, (aside₁.trans aside₂).initproc.trans init⟩

end Xv6Monitor.Calls.Descriptors
