import Xv6Monitor.Calls.Sharing

/-! Closing a file and making a pipe: the page of a pipe goes back to the allocator with its last end. -/

namespace Xv6Monitor.Calls.Closing
open Function Lib.Bytes Lib.Program Lib.Tally Stops Process.Table Memory.Frames Memory.Spaces FileSystem.Format State
  Files Sharing

def without (file : Fp → File) (f : Fp) : Fp → File := update file f { file f with ref := 0, type := .none }

theorem openField_apart (w : Bool) : openField w + 4 ≤ openField (!w) ∨ openField (!w) + 4 ≤ openField w := by
  cases w <;> decide

section Last

variable {file : Fp → File} {f : Fp} {m t : Ram}

theorem isEnd_without (pi : Nat) (w : Bool) (h : Fp) : IsEnd (without file f) pi w h ↔ IsEnd file pi w h ∧ h ≠ f := by
  unfold IsEnd without
  by_cases here : h = f
  · rw [here, update_self]
    exact iff_of_false (fun found => nomatch found.1) fun found => found.2 rfl
  · rw [update_of_ne here]
    exact (and_iff_left here).symm

theorem refs_without (one : (file f).ref = 1) : refs (without file f) = refs file - Pi.single f 1 := by
  rw [without, refs_update, one, zero_sub, Pi.single_neg, sub_eq_add_neg]

theorem idle_without (idle : ∀ g, (file g).ref = 0 → (file g).type = .none) (g : Fp) (zero : (without file f g).ref = 0) :
    (without file f g).type = .none := by
  unfold without at zero ⊢
  by_cases same : g = f
  · rw [same, update_self]
  · rw [update_of_ne same] at zero ⊢
    exact idle g zero

theorem not_both {g : Fp} (other : IsEnd file (file f).pipe (!(file f).writable) g) : g ≠ f := by
  intro same
  have wrong := other.2.2
  rw [same] at wrong
  cases writable : (file f).writable <;> rw [writable] at wrong <;> exact absurd wrong (by decide)

theorem pipePages_other {g : Fp} (other : IsEnd file (file f).pipe (!(file f).writable) g) :
    pipePages (without file f) = pipePages file := by
  ext pi
  rw [mem_pipePages, mem_pipePages]
  simp only [isEnd_without]
  constructor
  · rintro ⟨w, h, found, -⟩
    exact ⟨w, h, found⟩
  rintro ⟨w, h, found⟩
  by_cases here : h = f
  · rw [here] at found
    exact ⟨_, g, found.2.1 ▸ other, not_both other⟩
  · exact ⟨w, h, found, here⟩

theorem pipePages_gone (pipes : Pipes m file) (isPipe : (file f).type = .pipe)
    (alone : ¬∃ g, IsEnd file (file f).pipe (!(file f).writable) g) :
    pipePages (without file f) = (pipePages file).erase (file f).pipe := by
  ext pi
  rw [Finset.mem_erase, mem_pipePages, mem_pipePages]
  simp only [isEnd_without]
  constructor
  · rintro ⟨w, h, found, other⟩
    refine ⟨fun same => ?_, w, h, found⟩
    rw [same] at found
    by_cases side : w = (file f).writable
    · rw [side] at found
      exact other (pipes.unique found ⟨isPipe, rfl, rfl⟩)
    · refine alone ⟨h, ?_⟩
      rwa [← Bool.eq_not_of_ne side]
  · rintro ⟨other, w, h, found⟩
    refine ⟨w, h, found, fun same => other ?_⟩
    rw [same] at found
    exact found.2.1.symm

theorem pipes_without (pipes : Pipes m file) (isPipe : (file f).type = .pipe)
    (mine : (file f).pipe ∈ pipePages (without file f) → load 4 (t.page (file f).pipe) (openField (file f).writable) = 0)
    (its : (file f).pipe ∈ pipePages (without file f) →
      load 4 (t.page (file f).pipe) (openField !(file f).writable) = load 4 (m.page (file f).pipe) (openField !(file f).writable))
    (elsewhere : ∀ pi ∈ pipePages file, pi ≠ (file f).pipe → t.page pi = m.page pi) :
    Pipes t (without file f) := by
  refine ⟨fun first second => pipes.unique ((isEnd_without ..).mp first).1 ((isEnd_without ..).mp second).1, ?_⟩
  intro pi mem w
  have before : pi ∈ pipePages file := by
    obtain ⟨v, h, found⟩ := mem_pipePages.mp mem
    exact mem_pipePages.mpr ⟨v, h, ((isEnd_without ..).mp found).1⟩
  simp only [isEnd_without]
  by_cases here : pi = (file f).pipe
  · subst here
    by_cases side : w = (file f).writable
    · rw [side, mine mem]
      refine iff_of_false (fun wrong => wrong rfl) ?_
      rintro ⟨g, found, other⟩
      exact other (pipes.unique found ⟨isPipe, rfl, rfl⟩)
    · rw [Bool.eq_not_of_ne side, its mem, pipes.marked _ before]
      exact exists_congr fun g => (and_iff_left_of_imp not_both).symm
  · rw [elsewhere pi before here, pipes.marked pi before w]
    refine exists_congr fun g => (and_iff_left_of_imp fun found same => ?_).symm
    rw [same] at found
    exact here found.2.1.symm

end Last

variable [image : Image] [origin : Origin] {more : Multiset Nat} {proc : Slot → State.Proc} {file : Fp → File} {held : Slot → Multiset Nat}
  {extra : Fp → Int} {f : Fp} {k : Kernel}

omit origin in
theorem pipeclose_run {pi : Nat} {w : Bool} {E : Halt → Prop} {Q : Unit → Kernel → Prop}
    (after : Ends E (if load 4 (k.ram.page pi) (openField !w) = 0 then onRam (kfree pi) else pure ())
      { k with ram := { k.ram with page := update k.ram.page pi (store 4 (k.ram.page pi) (openField w) 0) } } Q) :
    Ends E (pipeclose pi w) k Q := by
  have mine : load 4 (store 4 (k.ram.page pi) (openField w) 0) (openField w) = 0 := by
    rw [load_store, Nat.zero_mod]
  have its : load 4 (store 4 (k.ram.page pi) (openField w) 0) (openField !w) = load 4 (k.ram.page pi) (openField !w) :=
    load_store_other (openField_apart w)
  unfold pipeclose
  cases w with
  | true =>
    rw [if_pos rfl]
    simp only [setPipeField, ends_setPage_bind, ends_get_bind, pipeField, update_self]
    simp only [openField, ↓reduceIte] at after mine its
    simp only [mine, and_true]
    exact after
  | false =>
    rw [if_neg (by decide)]
    simp only [setPipeField, ends_setPage_bind, ends_get_bind, pipeField, update_self]
    simp only [openField, Bool.false_eq_true, ↓reduceIte] at after mine its
    simp only [mine, true_and]
    exact after

theorem pipeclose_spec (sound : Sound more k.ram proc file held extra) (isPipe : (file f).type = .pipe)
    (one : (file f).ref = 1) :
    Ends Excused (pipeclose (file f).pipe (file f).writable) k fun _ t => t = { k with ram := t.ram } ∧
      Sound more t.ram proc (without file f) held (extra - Pi.single f 1) := by
  have here : (file f).pipe ∈ pipePages file := mem_pipePages.mpr ⟨_, f, isPipe, rfl, rfl⟩
  have count : refs (without file f) = tally (fds proc) + (extra - Pi.single f 1) := by
    rw [refs_without one, sound.count, add_sub_assoc]
  have idle := idle_without (f := f) sound.idle
  have layout := sound.layout.fill (Multiset.mem_add.mpr (Or.inl here))
    (store 4 (k.ram.page (file f).pipe) (openField (file f).writable) 0)
  have marked := sound.pipes.marked _ here (!(file f).writable)
  refine pipeclose_run ?_
  by_cases last : load 4 (k.ram.page (file f).pipe) (openField !(file f).writable) = 0
  · have left := pipePages_gone sound.pipes isPipe fun found => marked.mpr found last
    have split : (pipePages file).val = {(file f).pipe} + (pipePages (without file f)).val := by
      rw [left, Finset.erase_val, Multiset.singleton_add, Multiset.cons_erase here]
    have absent : (file f).pipe ∉ pipePages (without file f) := by
      rw [left]
      exact Finset.notMem_erase _ _
    have owns := layout.owns
    rw [split, add_assoc, add_left_comm] at owns
    rw [if_pos last, ends_onRam]
    refine (kfree_spec owns).imp fun _ t ⟨freed, elsewhere⟩ => ⟨rfl, ?_, ?_, count, idle, sound.rest⟩
    · refine layout.keep (fun x mem => elsewhere x fun same => ?_) freed
      rw [same] at mem
      exact layout.owns.apart mem (Multiset.mem_add.mpr (Or.inl here))
    · refine pipes_without sound.pipes isPipe (fun mem => absurd mem absent) (fun mem => absurd mem absent) fun pi _ other => ?_
      exact (elsewhere pi other).trans (update_of_ne other ..)
  · rw [if_neg last]
    obtain ⟨_, other⟩ := marked.mp last
    refine ⟨rfl, ?_, ?_, count, idle, sound.rest⟩
    · rw [pipePages_other other]
      exact layout
    refine pipes_without sound.pipes isPipe (fun _ => ?_) (fun _ => ?_) fun pi _ other => update_of_ne other ..
    · dsimp only
      rw [update_self, load_store, Nat.zero_mod]
    · dsimp only
      rw [update_self, load_store_other (openField_apart _)]

omit origin in
theorem release_spec [Superblock] {ff : File} (notPipe : ff.type ≠ .pipe) :
    Ends Excused (release ff) k fun _ t => t = { k with fs := t.fs } := by
  unfold release
  cases type : ff.type with
  | none => exact rfl
  | pipe => exact absurd type notPipe
  | inode | device =>
    cases ff.ip with
    | none => trivial
    | some ip => exact onFs_any (fun _ => trivial) fun _ s => rfl

theorem sound_without (sound : Sound more k.ram proc file held extra) (notPipe : (file f).type ≠ .pipe)
    (one : (file f).ref = 1) : Sound more k.ram proc (without file f) held (extra - Pi.single f 1) := by
  have same : ∀ pi w g, IsEnd (without file f) pi w g ↔ IsEnd file pi w g :=
    isEnd_update notPipe (fun wrong => nomatch wrong)
  refine ⟨?_, sound.pipes.congr same, ?_, idle_without sound.idle, sound.rest⟩
  · rw [pipePages_congr same]
    exact sound.layout
  · rw [refs_without one, sound.count, add_sub_assoc]

theorem fileclose_spec [Superblock] (fine : Fine more k held extra) (pos : 0 < (k.file f).ref) :
    Ends Excused (fileclose f) k fun _ t => Aside k t ∧ Fine more t held (extra - Pi.single f 1) := by
  unfold fileclose
  rw [ends_get_bind]
  rw [if_neg (by omega)]
  by_cases shared : 0 < (k.file f).ref - 1
  · rw [if_pos shared, ends_setFile]
    refine ⟨⟨rfl, rfl⟩, ?_⟩
    have next := fine.setRef (f := f) (r := (k.file f).ref - 1) (by omega)
    rw [sub_sub_cancel_left, Pi.single_neg] at next
    exact next
  have one : (k.file f).ref = 1 := by omega
  rw [if_neg shared]
  by_cases isPipe : (k.file f).type = .pipe
  · unfold release
    rw [isPipe]
    refine (pipeclose_spec (k := { k with file := without k.file f }) fine isPipe one).imp fun _ t ⟨frame, after⟩ => ?_
    rw [frame]
    exact ⟨⟨rfl, rfl⟩, after⟩
  · refine (release_spec isPipe).imp fun _ t frame => ?_
    rw [frame]
    exact ⟨⟨rfl, rfl⟩, sound_without fine isPipe one⟩

end Xv6Monitor.Calls.Closing
