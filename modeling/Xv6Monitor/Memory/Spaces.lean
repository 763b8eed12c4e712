import Mathlib.Tactic.Abel
import Xv6Monitor.Memory.Trees

/-! Pages have one owner: each is on the free list or belongs to what was allocated, and the functions
on a page table move pages between the two and leave every page of others as it was. -/

namespace Xv6Monitor.Memory.Spaces
open Function Stops Lib.Bytes Lib.Program Process.Table Frames Tables Words Trees

variable {E : Halt → Prop} {m t : Ram} {level pt va : Nat} {f : Nat → Nat} {rest : Multiset Nat}

theorem PGROUNDUP_eq {sz : Nat} (small : sz + PGSIZE ≤ 2 ^ 64) : PGROUNDUP sz = (sz + PGSIZE - 1) / PGSIZE * PGSIZE := by
  rw [PGROUNDUP, uint64, Nat.mod_eq_of_lt (by simp only [PGSIZE] at *; omega)]

theorem PHYSTOP_eq : PHYSTOP = 2281701376 := by decide

theorem KERNBASE_eq : KERNBASE = 2147483648 := by decide

theorem walkFrom_lookup (va level pt : Nat) (m : Ram) : walkFrom va false level pt m = .ok (slot m va level pt, m) := by
  induction level generalizing pt with
  | zero => rfl
  | succ level ih =>
    show (if Valid (pte m ⟨pt, PX (level + 1) va⟩) then _ else _ : Prog Halt Ram (Option Entry)) m = _
    rw [slot]
    split
    next => exact ih _
    next => rfl

theorem walk_lookup (below : va < MAXVA) : walk pt va false m = .ok (slot m va 2 pt, m) := by
  rw [walk, if_neg (by omega)]
  exact walkFrom_lookup va 2 pt m

variable [image : Image]

theorem kend_round : image.kend ≤ PGROUNDUP image.kend ∧ PGROUNDUP image.kend % PGSIZE = 0 := by
  have below := image.kend_below
  have small : image.kend + PGSIZE ≤ 2 ^ 64 := by
    rw [PHYSTOP_eq] at below
    simp only [PGSIZE]
    omega
  rw [PGROUNDUP_eq small]
  simp only [PGSIZE]
  omega

variable {x : Nat}

theorem mem_frames (mem : x ∈ frames) : x % PGSIZE = 0 ∧ image.kend ≤ x ∧ x < PHYSTOP := by
  obtain ⟨i, below, rfl⟩ := List.mem_map.mp mem
  have below := List.mem_range.mp below
  have round := kend_round
  simp only [count, PGSIZE] at *
  omega

theorem frames_nodup : frames.Nodup := by
  refine (List.nodup_range).map fun i j same => ?_
  simp only [PGSIZE] at same
  omega

theorem frames_length : frames.length ≤ 2 ^ 15 := by
  have above := image.kend_above
  have round := kend_round
  rw [KERNBASE_eq] at above
  rw [frames, List.length_map, List.length_range, count, PHYSTOP_eq]
  simp only [PGSIZE] at *
  omega

theorem frame_not_foreign (mem : x ∈ frames) : ¬Foreign x := by
  obtain ⟨aligned, low, high⟩ := mem_frames mem
  simp only [Foreign]
  omega

theorem frame_lt (mem : x ∈ frames) : x < 2 ^ 64 := by
  have high := (mem_frames mem).2.2
  rw [PHYSTOP_eq] at high
  omega

theorem frame_pos (mem : x ∈ frames) : 0 < x := by
  have low := (mem_frames mem).2.1
  have above := image.kend_above
  rw [KERNBASE_eq] at above
  omega

variable [origin : Origin]

/-- Every page of the allocator is on the free list or among `pages`, once, and the links of the free list are in
order if they were at the beginning: nobody writes to a free page. -/
structure Owns (m : Ram) (pages : Multiset Nat) : Prop where
  all : ↑m.freelist + pages = (frames : Multiset Nat)
  linked : Linked origin.ram → Linked m

variable {pages : Multiset Nat}

theorem Owns.nodup (owns : Owns m pages) : (↑m.freelist + pages).Nodup := by
  rw [owns.all]
  exact Multiset.coe_nodup.mpr frames_nodup

theorem Owns.mem (owns : Owns m pages) (mem : x ∈ pages) : x ∈ frames := by
  have inside : x ∈ ↑m.freelist + pages := Multiset.mem_add.mpr (Or.inr mem)
  rw [owns.all] at inside
  exact Multiset.mem_coe.mp inside

theorem Owns.free (owns : Owns m pages) (mem : x ∈ pages) : x ∉ m.freelist :=
  fun free => Multiset.disjoint_left.mp (Multiset.nodup_add.mp owns.nodup).2.2 free mem

/-- A page that is not free can be written. -/
theorem Owns.write (owns : Owns m pages) (mem : x ∈ pages) (list : t.freelist = m.freelist)
    (elsewhere : ∀ y ≠ x, t.page y = m.page y) : Owns t pages := by
  refine ⟨by rw [list, owns.all], fun start => ?_⟩
  unfold Linked
  rw [list]
  exact chained_congr (fun y free => elsewhere y fun same => owns.free mem (same ▸ free)) (owns.linked start)

theorem Owns.fill (owns : Owns m pages) (mem : x ∈ pages) (data : Data) : Owns { m with page := update m.page x data } pages :=
  owns.write mem rfl fun _ other => update_of_ne other ..

theorem Owns.apart {left right : Multiset Nat} (owns : Owns m (left + right)) (mem : x ∈ left) : x ∉ right :=
  Multiset.disjoint_left.mp (Multiset.nodup_add.mp (Multiset.nodup_add.mp owns.nodup).2.1).2.2 mem

theorem Owns.part {left right : Multiset Nat} (owns : Owns m (left + right)) : left.Nodup :=
  (Multiset.nodup_add.mp (Multiset.nodup_add.mp owns.nodup).2.1).1

theorem kalloc_spec (owns : Owns m pages) : Ends E kalloc m fun r t => match r with
      | none => t = m
      | some x => x ∉ pages ∧ Owns t ({x} + pages) ∧ ∀ y ≠ x, t.page y = m.page y := by
  unfold kalloc
  rw [ends_get_bind]
  split
  next => exact rfl
  next x list listed =>
    have whole := owns.all
    have nodup := owns.nodup
    rw [listed] at nodup
    rw [listed, ← Multiset.cons_coe, ← Multiset.singleton_add] at whole
    refine ⟨fun mem => owns.free mem (by rw [listed]; exact List.mem_cons_self), ⟨?_, fun start => ?_⟩,
      fun y other => update_of_ne other ..⟩
    · show ↑list + ({x} + pages) = _
      rw [← whole]
      abel
    · have chained := owns.linked start
      unfold Linked at chained
      rw [listed] at chained
      have new := (List.nodup_cons.mp (Multiset.coe_nodup.mp (Multiset.nodup_add.mp nodup).1)).1
      have others : ∀ y ∈ list, y ≠ x := fun y free same => new (same ▸ free)
      exact chained_congr (fun y free => update_of_ne (others y free) ..) chained.2

theorem kfree_spec (owns : Owns m ({x} + pages)) :
    Ends E (kfree x) m fun _ t => Owns t pages ∧ ∀ y ≠ x, t.page y = m.page y := by
  have real := owns.mem (Multiset.mem_add.mpr (Or.inl (Multiset.mem_singleton_self x)))
  have here : x ∈ {x} + pages := Multiset.mem_add.mpr (Or.inl (Multiset.mem_singleton_self x))
  refine kfree_ends (frame_not_foreign real) fun t list elsewhere link => ⟨⟨?_, fun start => ?_⟩, elsewhere⟩
  · rw [list, ← owns.all, ← Multiset.cons_coe, ← Multiset.singleton_add]
    abel
  · unfold Linked
    rw [list]
    refine chained_push (owns.linked start) (owns.free here) ?_ link elsewhere
    cases listed : m.freelist with
    | nil => decide
    | cons r list =>
      have free : r ∈ ↑m.freelist + ({x} + pages) := Multiset.mem_add.mpr (Or.inl (by simp [listed]))
      rw [owns.all] at free
      exact frame_lt (Multiset.mem_coe.mp free)

/-- With `alloc`, `walk` adds pages to the table until it has one for `va` or memory runs out. The
induction is on the level; what is above the entry and beside it belongs to the rest. -/
theorem walkFrom_spec (tree : Tree m level pt f) (owns : Owns m (nodes m level pt + rest)) :
    Ends E (walkFrom va true level pt) m fun r t =>
      Tree t level pt f ∧ Owns t (nodes t level pt + rest) ∧ (∀ x ∈ rest, t.page x = m.page x) ∧
        ∀ p, r = some p → slot t va level pt = some p := by
  induction level generalizing m pt f rest with
  | zero => exact ⟨tree, owns, fun _ _ => rfl, fun p same => same⟩
  | succ level ih =>
    have index := PX_lt (level + 1) va
    -- What remains once the entry is valid.
    have descend : ∀ n : Ram, Tree n (level + 1) pt f → Owns n (nodes n (level + 1) pt + rest) →
        (∀ x ∈ rest, n.page x = m.page x) → Valid (pte n ⟨pt, PX (level + 1) va⟩) →
        Ends E (walkFrom va true level (PTE2PA (pte n ⟨pt, PX (level + 1) va⟩))) n fun r t =>
          Tree t (level + 1) pt f ∧ Owns t (nodes t (level + 1) pt + rest) ∧ (∀ x ∈ rest, t.page x = m.page x) ∧
            ∀ p, r = some p → slot t va (level + 1) pt = some p := by
      intro n tree owns same valid
      rcases tree _ index with ⟨-, inner, child⟩ | ⟨zero, -⟩
      · rw [nodes_split n level pt index, branch, if_pos valid, add_assoc] at owns
        refine (ih child owns).imp ?_
        rintro r t ⟨subtree, owned, kept, found⟩
        have outside : ∀ x ∈ others n level pt (PX (level + 1) va), t.page x = n.page x :=
          fun x mem => kept x (Multiset.mem_add.mpr (Or.inl mem))
        have root := outside pt (root_others ..)
        have entry : ∀ i, pte t ⟨pt, i⟩ = pte n ⟨pt, i⟩ := fun i => pte_congr root
        refine ⟨fun i below => ?_, ?_, fun x mem => ?_, fun p got => ?_⟩
        · rw [entry]
          by_cases here : i = PX (level + 1) va
          · subst here
            exact Or.inl ⟨valid, inner, subtree⟩
          · refine (tree i below).imp_left ?_
            rintro ⟨valid', inner', child'⟩
            refine ⟨valid', inner', child'.congr fun x mem => ?_⟩
            exact outside x (sibling_others below here (mem_branch valid' mem))
        · rw [nodes_split t level pt index, branch, entry, if_pos valid, others_same outside, add_assoc]
          exact owned
        · exact (kept x (Multiset.mem_add.mpr (Or.inr mem))).trans (same x mem)
        · rw [slot, entry, if_pos valid]
          exact found p got
      · rw [zero] at valid
        exact absurd valid not_valid_zero
    unfold walkFrom
    rw [ends_get_bind]
    by_cases valid : Valid (pte m ⟨pt, PX (level + 1) va⟩)
    · rw [if_pos valid]
      exact descend m tree owns (fun _ _ => rfl) valid
    rw [if_neg valid, if_pos rfl]
    refine (kalloc_spec owns).bind fun r n got => ?_
    rcases r with _ | child
    · subst got
      exact ⟨tree, owns, fun _ _ => rfl, by simp⟩
    obtain ⟨fresh, owned, kept⟩ := got
    have real := owned.mem (Multiset.mem_add.mpr (Or.inl (Multiset.mem_singleton_self child)))
    have outside : child ∉ nodes m (level + 1) pt := fun mem => fresh (Multiset.mem_add.mpr (Or.inl mem))
    show Ends E (walkFrom va true level child) (put { n with page := update n.page child fun _ => 0 }
      ⟨pt, PX (level + 1) va⟩ (PA2PTE child ||| PTE_V)) _
    generalize cleared : ({ n with page := update n.page child fun _ => 0 } : Ram) = z
    have zero : ∀ k, z.page child k = 0 := by
      intro k
      rw [← cleared]
      exact congrFun (update_self child (fun _ => (0 : UInt8)) n.page) k
    have elsewhere : ∀ y ≠ child, z.page y = m.page y := by
      intro y other
      rw [← cleared]
      exact (update_of_ne other ..).trans (kept y other)
    have inTable : ∀ x ∈ nodes m (level + 1) pt, z.page x = m.page x :=
      fun x mem => elsewhere x fun same => outside (same ▸ mem)
    have sameNodes := nodes_congr inTable
    have empty : ¬Valid (pte z ⟨pt, PX (level + 1) va⟩) := by
      rw [pte_congr (inTable pt (root_mem ..))]
      exact valid
    obtain ⟨-, address, points, -⟩ := pointer (mem_frames real).1 (frame_lt real)
    obtain ⟨wiredTree, wiredNodes⟩ := (tree.congr inTable).wire (sameNodes ▸ owns.part) index empty
      (sameNodes ▸ outside) zero (mem_frames real).1 (frame_lt real)
    have entry : pte (put z ⟨pt, PX (level + 1) va⟩ (PA2PTE child ||| PTE_V)) ⟨pt, PX (level + 1) va⟩ =
        PA2PTE child ||| PTE_V := pte_put (pointer (mem_frames real).1 (frame_lt real)).1
    have blank : Owns z ({child} + (nodes m (level + 1) pt + rest)) := by
      rw [← cleared]
      exact owned.fill (Multiset.mem_add.mpr (Or.inl (Multiset.mem_singleton_self child))) _
    have wired : Owns (put z ⟨pt, PX (level + 1) va⟩ (PA2PTE child ||| PTE_V)) ({child} + (nodes m (level + 1) pt + rest)) :=
      blank.write (Multiset.mem_add.mpr (Or.inr (Multiset.mem_add.mpr (Or.inl (root_mem ..))))) rfl fun y other => put_page other
    have next := descend _ wiredTree (by rw [wiredNodes, sameNodes, add_assoc]; exact wired)
      (fun x mem => ?_) (by rw [entry]; exact points)
    · rwa [entry, address] at next
    · have inRest : child ≠ x := fun same => fresh (Multiset.mem_add.mpr (Or.inr (same ▸ mem)))
      have notRoot : x ≠ pt := fun same => owns.apart (root_mem m (level + 1) pt) (same ▸ mem)
      rw [put_page notRoot]
      exact elsewhere x inRest.symm

end Xv6Monitor.Memory.Spaces
