import Xv6Monitor.Memory.Growth

/-! Giving a page table back to the allocator, page by page. -/

namespace Xv6Monitor.Memory.Release
open Stops Lib.Program Frames Tables Words Trees Spaces Mappings

variable {E : Halt → Prop} {m t : Ram} {pt : Nat} {f : Nat → Nat} {rest : Multiset Nat}

def freeEntry (free : Nat → Prog Halt Ram Unit) (pt i : Nat) : Prog Halt Ram Unit := do
  let entry := pte (← get) ⟨pt, i⟩
  if Valid entry ∧ entry &&& (PTE_R ||| PTE_W ||| PTE_X) = 0 then
    free (PTE2PA entry)
    setPte ⟨pt, i⟩ 0
  else if Valid entry then
    stop (.vm .freewalkLeaf)

/-- What is below an entry that `freewalk` comes to: a table that maps nothing, or nothing. -/
def Hollow (m : Ram) (level pt i : Nat) : Prop :=
  (Valid (pte m ⟨pt, i⟩) ∧ pte m ⟨pt, i⟩ &&& (PTE_R ||| PTE_W ||| PTE_X) = 0 ∧
    Tree m level (PTE2PA (pte m ⟨pt, i⟩)) fun _ => 0) ∨ pte m ⟨pt, i⟩ = 0

variable {level : Nat}

theorem Hollow.congr {i : Nat} (hollow : Hollow m level pt i) (entry : pte t ⟨pt, i⟩ = pte m ⟨pt, i⟩)
    (same : ∀ x ∈ branch m level pt i, t.page x = m.page x) : Hollow t level pt i := by
  rw [Hollow, entry]
  refine hollow.imp_left fun ⟨valid, inner, child⟩ => ⟨valid, inner, child.congr fun x mem => same x ?_⟩
  exact mem_branch valid mem

variable {is : List Nat}

theorem mem_sum {i x : Nat} {part : Nat → Multiset Nat} (mem : i ∈ is) (inside : x ∈ part i) :
    x ∈ (is.map part).sum := by
  induction is with
  | nil => cases mem
  | cons _ is ih =>
    rw [List.map_cons, List.sum_cons, Multiset.mem_add]
    rcases List.mem_cons.mp mem with rfl | later
    · exact Or.inl inside
    · exact Or.inr (ih later)

variable {free : Nat → Prog Halt Ram Unit}

theorem freeEntries_lowest (tree : Tree m 0 pt fun _ => 0)
    (below : ∀ i ∈ is, i < 512) : Ends E (is.forM (freeEntry free pt)) m fun _ t => t = m := by
  induction is with
  | nil => exact rfl
  | cons i is ih =>
    have zero : pte m ⟨pt, i⟩ = 0 := tree i (below i List.mem_cons_self)
    show Ends E (freeEntry free pt i >>= fun _ => is.forM (freeEntry free pt)) m _
    rw [ends_bind, freeEntry, ends_get_bind]
    rw [zero]
    exact ih fun j mem => below j (List.mem_cons_of_mem i mem)

variable [image : Image] [origin : Origin]

/-- The loop of `freewalk` over the entries of `is`, given what the call below it does. -/
theorem freeEntries_spec
    (below : ∀ {m : Ram} {pt : Nat} {rest : Multiset Nat}, Tree m level pt (fun _ => 0) → Owns m (nodes m level pt + rest) →
      Ends E (free pt) m fun _ t => Owns t rest ∧ Keeps rest m t) (distinct : is.Nodup) (hollow : ∀ i ∈ is, Hollow m level pt i)
    (owns : Owns m ({pt} + ((is.map (branch m level pt)).sum + rest))) :
    Ends E (is.forM (freeEntry free pt)) m fun _ t => Owns t ({pt} + rest) ∧ Keeps rest m t := by
  induction is generalizing m with
  | nil =>
    rw [List.map_nil, List.sum_nil, zero_add] at owns
    exact ⟨owns, Keeps.refl rest m⟩
  | cons i is ih =>
    obtain ⟨notLater, distinct⟩ := List.nodup_cons.mp distinct
    rw [List.map_cons, List.sum_cons] at owns
    show Ends E (freeEntry free pt i >>= fun _ => is.forM (freeEntry free pt)) m _
    rw [ends_bind, freeEntry, ends_get_bind]
    rcases hollow i List.mem_cons_self with ⟨valid, inner, child⟩ | zero
    · rw [if_pos ⟨valid, inner⟩]
      rw [branch, if_pos valid] at owns
      have owned : Owns m (nodes m level (PTE2PA (pte m ⟨pt, i⟩)) +
          ({pt} + ((is.map (branch m level pt)).sum + rest))) := by
        rwa [add_assoc, add_left_comm] at owns
      refine (below child owned).bind ?_
      rintro _ t ⟨freed, kept⟩
      have outside : ∀ x ∈ (is.map (branch m level pt)).sum + rest, x ≠ pt := by
        intro x mem same
        rw [same] at mem
        exact freed.apart (Multiset.mem_singleton_self pt) mem
      have same : ∀ x ∈ (is.map (branch m level pt)).sum + rest, (put t ⟨pt, i⟩ 0).page x = m.page x := by
        intro x mem
        rw [put_page (outside x mem)]
        exact kept x (Multiset.mem_add.mpr (Or.inr mem))
      have entry : ∀ j ∈ is, pte (put t ⟨pt, i⟩ 0) ⟨pt, j⟩ = pte m ⟨pt, j⟩ := by
        intro j mem
        have other : (⟨pt, j⟩ : Entry) ≠ ⟨pt, i⟩ := fun here => notLater ((Entry.mk.inj here).2 ▸ mem)
        rw [pte_put_other other]
        exact pte_congr (kept pt (Multiset.mem_add.mpr (Or.inl (Multiset.mem_singleton_self pt))))
      have inSum : ∀ j ∈ is, ∀ x ∈ branch m level pt j, x ∈ (is.map (branch m level pt)).sum + rest := by
        intro j mem x inside
        exact Multiset.mem_add.mpr (Or.inl (mem_sum mem inside))
      have branches : is.map (branch (put t ⟨pt, i⟩ 0) level pt) = is.map (branch m level pt) :=
        List.map_congr_left fun j mem => branch_congr (entry j mem) fun x inside => same x (inSum j mem x inside)
      refine (ih distinct (fun j mem => ?_) ?_).imp fun _ u done => ⟨done.1, ?_⟩
      · exact (hollow j (List.mem_cons_of_mem i mem)).congr (entry j mem) fun x inside => same x (inSum j mem x inside)
      · rw [branches]
        exact freed.write (Multiset.mem_add.mpr (Or.inl (Multiset.mem_singleton_self pt))) rfl fun y other => put_page other
      · exact Keeps.trans (fun x mem => same x (Multiset.mem_add.mpr (Or.inr mem))) done.2
    · have invalid : ¬Valid (pte m ⟨pt, i⟩) := by
        rw [zero]
        exact not_valid_zero
      rw [if_neg fun both => invalid both.1, if_neg invalid]
      rw [branch, if_neg invalid, zero_add] at owns
      exact ih distinct (fun j mem => hollow j (List.mem_cons_of_mem i mem)) owns

theorem kfree_root (owns : Owns m ({pt} + rest)) : Ends E (kfree pt) m fun _ t => Owns t rest ∧ Keeps rest m t := by
  refine (kfree_spec owns).imp fun _ t ⟨freed, elsewhere⟩ => ⟨freed, fun x mem => elsewhere x fun same => ?_⟩
  rw [same] at mem
  exact owns.apart (Multiset.mem_singleton_self pt) mem

theorem freewalk_spec (tree : Tree m level pt fun _ => 0) (owns : Owns m (nodes m level pt + rest)) :
    Ends E (freewalk (level + 1) pt) m fun _ t => Owns t rest ∧ Keeps rest m t := by
  induction level generalizing m pt rest with
  | zero =>
    refine (freeEntries_lowest tree fun i mem => mem_slots.mp mem).bind fun _ t same => ?_
    subst same
    rw [nodes_zero] at owns
    exact kfree_root owns
  | succ level ih =>
    rw [nodes_succ, sum_indices, add_assoc] at owns
    have hollow : ∀ i ∈ slots, Hollow m level pt i := by
      intro i mem
      exact (tree i (mem_slots.mp mem)).imp_right fun zero => zero.1
    refine (freeEntries_spec ih slots_nodup hollow owns).bind fun _ t ⟨freed, kept⟩ => ?_
    exact (kfree_root freed).imp fun _ u done => ⟨done.1, kept.trans done.2⟩

end Xv6Monitor.Memory.Release
