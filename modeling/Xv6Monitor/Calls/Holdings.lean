import Xv6Monitor.Calls.State
import Xv6Monitor.Memory.Boot

/-! Which process holds which page of memory. The pages of a live process are those of its page table,
of its user memory and its trapframe; with the pages held otherwise they are all that is allocated. -/

namespace Xv6Monitor.Calls.Holdings
open Lib.Program Stops Process.Table Memory.Frames Memory.Tables Memory.Trees Memory.Spaces Memory.Mappings Memory.Users
  Memory.Access

variable [image : Image] {E : Halt → Prop} {m t : Ram} {q : State.Proc} {proc : Slot → State.Proc}
  {held : Slot → Multiset Nat} {other more hold : Multiset Nat} {p : Slot}

def Holds (m : Ram) (q : State.Proc) (hold : Multiset Nat) : Prop :=
  (q.state = .unused ∧ q.pagetable = 0 ∧ q.trapframe = 0 ∧ q.sz = 0 ∧ hold = 0) ∨
  (q.state ≠ .unused ∧ ∃ f, Shape f (pages q.sz) q.trapframe ∧ Tree m 2 q.pagetable f ∧
    hold = nodes m 2 q.pagetable + (leaves f 0 (pages q.sz) + {q.trapframe}))

def others (held : Slot → Multiset Nat) (p : Slot) : Multiset Nat := ∑ q ∈ Finset.univ.erase p, held q

omit image in
theorem sum_others (held : Slot → Multiset Nat) (p : Slot) : ∑ q, held q = held p + others held p :=
  (Finset.add_sum_erase _ held (Finset.mem_univ p)).symm

omit image in
theorem others_update (held : Slot → Multiset Nat) (p : Slot) (hold : Multiset Nat) :
    others (Function.update held p hold) p = others held p :=
  Finset.sum_congr rfl fun q mem => by rw [Function.update_of_ne (Finset.ne_of_mem_erase mem)]

omit image in
theorem mem_others {q : Slot} {x : Nat} (apart : q ≠ p) (mem : x ∈ held q) : x ∈ others held p :=
  Multiset.mem_sum.mpr ⟨q, Finset.mem_erase.mpr ⟨apart, Finset.mem_univ q⟩, mem⟩

omit image in
theorem mem_all {x : Nat} (mem : x ∈ held p) : x ∈ ∑ q, held q := Multiset.mem_sum.mpr ⟨p, Finset.mem_univ p, mem⟩

theorem Holds.keep (holds : Holds m q hold) (same : q.state ≠ .unused → Keeps (nodes m 2 q.pagetable) m t) :
    Holds t q hold := by
  rcases holds with unused | ⟨live, f, shape, tree, all⟩
  · exact Or.inl unused
  · exact Or.inr ⟨live, f, shape, tree.congr (same live), by rw [nodes_congr (same live), all]⟩

theorem Holds.nodes_mem {x : Nat} (holds : Holds m q hold) (live : q.state ≠ .unused) (mem : x ∈ nodes m 2 q.pagetable) :
    x ∈ hold := by
  rcases holds with ⟨unused, -⟩ | ⟨-, f, -, -, all⟩
  · exact absurd unused live
  · rw [all]
    exact Multiset.mem_add.mpr (Or.inl mem)

theorem Holds.frame_mem (holds : Holds m q hold) (live : q.state ≠ .unused) : q.trapframe ∈ hold := by
  rcases holds with ⟨unused, -⟩ | ⟨-, f, -, -, all⟩
  · exact absurd unused live
  · rw [all]
    simp

theorem Holds.congr {q' : State.Proc} (holds : Holds m q hold) (state : q'.state = .unused ↔ q.state = .unused)
    (pagetable : q'.pagetable = q.pagetable) (trapframe : q'.trapframe = q.trapframe) (sz : q'.sz = q.sz) :
    Holds m q' hold := by
  unfold Holds
  rw [pagetable, trapframe, sz, Ne, state]
  exact holds

variable [origin : Origin]

structure Layout (m : Ram) (proc : Slot → State.Proc) (held : Slot → Multiset Nat) (other : Multiset Nat) : Prop where
  holds : ∀ p, Holds m (proc p) (held p)
  owns : Owns m (∑ p, held p + other)

variable (layout : Layout m proc held other)
include layout

theorem Layout.keep (kept : Keeps (∑ p, held p) m t)
    (owns : Owns t (∑ p, held p + more)) : Layout t proc held more :=
  ⟨fun p => (layout.holds p).keep fun live x mem => kept x (mem_all ((layout.holds p).nodes_mem live mem)), owns⟩

theorem Layout.congr {proc' : Slot → State.Proc}
    (state : ∀ p, (proc' p).state = .unused ↔ (proc p).state = .unused)
    (pagetable : ∀ p, (proc' p).pagetable = (proc p).pagetable) (trapframe : ∀ p, (proc' p).trapframe = (proc p).trapframe)
    (sz : ∀ p, (proc' p).sz = (proc p).sz) : Layout m proc' held other :=
  ⟨fun p => (layout.holds p).congr (state p) (pagetable p) (trapframe p) (sz p), layout.owns⟩

theorem Layout.mapped (live : (proc p).state ≠ .unused) :
    ∃ f, Mapped f m (proc p).pagetable (pages (proc p).sz) (proc p).trapframe
      ({(proc p).trapframe} + (others held p + other)) := by
  rcases layout.holds p with ⟨unused, -⟩ | ⟨-, f, shape, tree, all⟩
  · exact absurd unused live
  refine ⟨f, shape, tree, ?_⟩
  have owns := layout.owns
  rw [sum_others held p, all] at owns
  simp only [add_assoc] at owns ⊢
  exact owns

theorem Layout.update (live : q.state ≠ .unused) {f : Nat → Nat}
    (mapped : Mapped f t q.pagetable (pages q.sz) q.trapframe ({q.trapframe} + (others held p + more)))
    (kept : Keeps (others held p) m t) :
    Layout t (Function.update proc p q)
      (Function.update held p (nodes t 2 q.pagetable + (leaves f 0 (pages q.sz) + {q.trapframe}))) more := by
  refine ⟨fun r => ?_, ?_⟩
  · by_cases here : r = p
    · rw [here, Function.update_self, Function.update_self]
      exact Or.inr ⟨live, f, mapped.shape, mapped.space.tree, rfl⟩
    · rw [Function.update_of_ne here, Function.update_of_ne here]
      exact (layout.holds r).keep fun live x mem => kept x (mem_others here ((layout.holds r).nodes_mem live mem))
  · rw [sum_others _ p, others_update, Function.update_self]
    have owns := mapped.space.owns
    simp only [add_assoc] at owns ⊢
    exact owns

theorem Layout.clear (unused : q.state = .unused) (pagetable : q.pagetable = 0)
    (trapframe : q.trapframe = 0) (sz : q.sz = 0) (owns : Owns t (others held p + more)) (kept : Keeps (others held p) m t) :
    Layout t (Function.update proc p q) (Function.update held p 0) more := by
  refine ⟨fun r => ?_, ?_⟩
  · by_cases here : r = p
    · rw [here, Function.update_self, Function.update_self]
      exact Or.inl ⟨unused, pagetable, trapframe, sz, rfl⟩
    · rw [Function.update_of_ne here, Function.update_of_ne here]
      exact (layout.holds r).keep fun live x mem => kept x (mem_others here ((layout.holds r).nodes_mem live mem))
  · rw [sum_others _ p, others_update, Function.update_self, zero_add]
    exact owns

theorem Layout.fill {x : Nat} (mem : x ∈ other) (data : Lib.Bytes.Data) :
    Layout { m with page := Function.update m.page x data } proc held other := by
  refine layout.keep (fun y inside => ?_) (layout.owns.fill (Multiset.mem_add.mpr (Or.inr mem)) data)
  refine Function.update_of_ne (fun same => ?_) ..
  rw [same] at inside
  exact layout.owns.apart inside mem

theorem Layout.frame (live : (proc p).state ≠ .unused) (data : Lib.Bytes.Data) :
    Layout { m with page := Function.update m.page (proc p).trapframe data } proc held other ∧
      Keeps other m { m with page := Function.update m.page (proc p).trapframe data } := by
  obtain ⟨_, mapped⟩ := layout.mapped live
  have mine := (layout.holds p).frame_mem live
  have owns := mapped.space.owns
  refine ⟨⟨fun r => (layout.holds r).keep fun alive x mem => ?_,
    layout.owns.fill (Multiset.mem_add.mpr (Or.inl (mem_all mine))) data⟩, fun x mem => ?_⟩
  · refine Function.update_of_ne (fun same => ?_) ..
    by_cases here : r = p
    · rw [here, same] at mem
      refine owns.apart mem ?_
      simp
    have theirs := (layout.holds r).nodes_mem alive mem
    have all := layout.owns
    rw [sum_others held p, add_assoc] at all
    rw [same] at theirs
    exact all.apart mine (Multiset.mem_add.mpr (Or.inl (mem_others here theirs)))
  · refine Function.update_of_ne (fun same => ?_) ..
    rw [same] at mem
    exact layout.owns.apart (mem_all mine) mem

theorem Layout.store {va len : Nat} {src : Lib.Bytes.Data} (live : (proc p).state ≠ .unused) :
    Ends E (copyout (proc p).pagetable va src len) m fun _ t =>
      Layout t proc held other ∧ Keeps other m t ∧ t.freelist = m.freelist := by
  obtain ⟨_, mapped⟩ := layout.mapped live
  refine (copyout_spec mapped).imp fun _ t ⟨after, kept, free⟩ =>
    ⟨⟨fun r => ?_, ?_, after.space.owns.linked⟩, fun x mem => kept x ?_, free⟩
  · refine (layout.holds r).keep fun alive x mem => kept x ?_
    by_cases here : r = p
    · rw [here] at mem
      exact Multiset.mem_add.mpr (Or.inl mem)
    · have inside : x ∈ others held p := mem_others here ((layout.holds r).nodes_mem alive mem)
      simp only [Multiset.mem_add]
      exact Or.inr (Or.inr (Or.inl inside))
  · rw [free]
    exact layout.owns.all
  · simp only [Multiset.mem_add]
    exact Or.inr (Or.inr (Or.inr mem))

end Xv6Monitor.Calls.Holdings
