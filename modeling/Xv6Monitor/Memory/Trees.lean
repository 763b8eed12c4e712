import Mathlib.Algebra.BigOperators.Group.Finset.Basic
import Xv6Monitor.Memory.Words

/-! A page table as a tree: the pages that hold it, and the entry that it has for every page number. -/

namespace Xv6Monitor.Memory.Trees
open Function Lib.Bytes Frames Tables Words

variable {m m' : Ram} {level pt va : Nat} {f g : Nat → Nat}

def indices : Finset Nat := Finset.range 512

variable {i : Nat}

theorem mem_indices : i ∈ indices ↔ i < 512 := Finset.mem_range

theorem sum_range (n : Nat) (count : Nat → Multiset Nat) :
    ∑ i ∈ Finset.range n, count i = ((List.range n).map count).sum := by
  rw [Finset.sum, Finset.range_val, Multiset.range, Multiset.map_coe, Multiset.sum_coe]

theorem sum_indices (count : Nat → Multiset Nat) : ∑ i ∈ indices, count i = (slots.map count).sum := by
  unfold slots
  exact sum_range 512 count

attribute [irreducible] indices

def nodes (m : Ram) : (level : Nat) → (pt : Nat) → Multiset Nat
  | 0, pt => {pt}
  | level + 1, pt => {pt} + ∑ i ∈ indices,
      if Valid (pte m ⟨pt, i⟩) then nodes m level (PTE2PA (pte m ⟨pt, i⟩)) else 0

def branch (m : Ram) (level pt i : Nat) : Multiset Nat :=
  if Valid (pte m ⟨pt, i⟩) then nodes m level (PTE2PA (pte m ⟨pt, i⟩)) else 0

def others (m : Ram) (level pt i : Nat) : Multiset Nat :=
  {pt} + ∑ j ∈ indices.erase i, branch m level pt j

theorem nodes_zero (m : Ram) (pt : Nat) : nodes m 0 pt = {pt} := by rw [nodes]

theorem nodes_succ (m : Ram) (level pt : Nat) :
    nodes m (level + 1) pt = {pt} + ∑ i ∈ indices, branch m level pt i := by rw [nodes]; rfl

attribute [irreducible] nodes

/-- The table maps page number `v` by the entry `f v`. An entry above the lowest level points to a table
and has none of the flags of a leaf, or it is zero. -/
def Tree (m : Ram) : (level : Nat) → (pt : Nat) → (f : Nat → Nat) → Prop
  | 0, pt, f => ∀ i < 512, pte m ⟨pt, i⟩ = f i
  | level + 1, pt, f => ∀ i < 512,
      (Valid (pte m ⟨pt, i⟩) ∧ pte m ⟨pt, i⟩ &&& (PTE_R ||| PTE_W ||| PTE_X) = 0 ∧
        Tree m level (PTE2PA (pte m ⟨pt, i⟩)) fun v => f (i * 512 ^ (level + 1) + v)) ∨
      (pte m ⟨pt, i⟩ = 0 ∧ ∀ v < 512 ^ (level + 1), f (i * 512 ^ (level + 1) + v) = 0)

def slot (m : Ram) (va : Nat) : (level : Nat) → (pt : Nat) → Option Entry
  | 0, pt => some ⟨pt, PX 0 va⟩
  | level + 1, pt =>
    if Valid (pte m ⟨pt, PX (level + 1) va⟩) then slot m va level (PTE2PA (pte m ⟨pt, PX (level + 1) va⟩)) else none

def vpn (level va : Nat) : Nat := va / PGSIZE % 512 ^ (level + 1)

theorem PX_eq (level va : Nat) : PX level va = va / PGSIZE / 512 ^ level % 512 := by
  rw [PX, Nat.shiftRight_eq_div_pow, show (0x1FF : Nat) = 2 ^ 9 - 1 from rfl, Nat.and_two_pow_sub_one_eq_mod, Nat.pow_add,
    Nat.pow_mul, ← Nat.div_div_eq_div_mul, PGSIZE]

theorem PX_lt (level va : Nat) : PX level va < 512 := by
  rw [PX_eq]
  exact Nat.mod_lt _ (by decide)

theorem vpn_zero (va : Nat) : vpn 0 va = PX 0 va := by simp [vpn, PX_eq]

theorem vpn_succ (level va : Nat) : vpn (level + 1) va = PX (level + 1) va * 512 ^ (level + 1) + vpn level va := by
  rw [vpn, vpn, PX_eq, Nat.pow_succ 512 (level + 1), Nat.mod_mul, Nat.mul_comm, Nat.add_comm]

theorem vpn_lt (level va : Nat) : vpn level va < 512 ^ (level + 1) := Nat.mod_lt _ (Nat.pow_pos (by decide))

variable {p : Entry}

theorem pte_congr (same : m'.page p.table = m.page p.table) : pte m' p = pte m p := by
  rw [pte, pte, same]

theorem root_mem (m : Ram) (level pt : Nat) : pt ∈ nodes m level pt := by
  cases level with
  | zero =>
    rw [nodes_zero]
    exact Multiset.mem_singleton_self pt
  | succ level =>
    rw [nodes_succ, Multiset.mem_add]
    exact Or.inl (Multiset.mem_singleton_self pt)

variable {x : Nat}

theorem mem_branch (valid : Valid (pte m ⟨pt, i⟩)) (mem : x ∈ nodes m level (PTE2PA (pte m ⟨pt, i⟩))) :
    x ∈ branch m level pt i := by
  rw [branch, if_pos valid]
  exact mem

theorem branch_mem (below : i < 512) (mem : x ∈ branch m level pt i) : x ∈ nodes m (level + 1) pt := by
  rw [nodes_succ, Multiset.mem_add, Multiset.mem_sum]
  exact Or.inr ⟨i, mem_indices.mpr below, mem⟩

theorem root_others (m : Ram) (level pt i : Nat) : pt ∈ others m level pt i := by
  rw [others, Multiset.mem_add]
  exact Or.inl (Multiset.mem_singleton_self pt)

theorem sibling_others {j : Nat} (below : j < 512) (other : j ≠ i) (mem : x ∈ branch m level pt j) :
    x ∈ others m level pt i := by
  rw [others, Multiset.mem_add, Multiset.mem_sum]
  exact Or.inr ⟨j, Finset.mem_erase.mpr ⟨other, mem_indices.mpr below⟩, mem⟩

theorem nodes_split (m : Ram) (level pt : Nat) (below : i < 512) :
    nodes m (level + 1) pt = branch m level pt i + others m level pt i := by
  rw [nodes_succ, others, ← Finset.add_sum_erase _ _ (mem_indices.mpr below), add_left_comm]

theorem nodes_congr (same : ∀ x ∈ nodes m level pt, m'.page x = m.page x) : nodes m' level pt = nodes m level pt := by
  induction level generalizing pt with
  | zero => rw [nodes_zero, nodes_zero]
  | succ level ih =>
    rw [nodes_succ, nodes_succ]
    refine congrArg (fun rest : Multiset Nat => {pt} + rest) (Finset.sum_congr rfl fun i mem => ?_)
    rw [branch, branch, pte_congr (p := ⟨pt, i⟩) (same pt (root_mem m _ pt))]
    by_cases valid : Valid (pte m ⟨pt, i⟩)
    · rw [if_pos valid, if_pos valid]
      exact ih fun x inside => same x (branch_mem (mem_indices.mp mem) (mem_branch valid inside))
    · rw [if_neg valid, if_neg valid]

theorem branch_congr (entry : pte m' ⟨pt, i⟩ = pte m ⟨pt, i⟩)
    (same : ∀ x ∈ branch m level pt i, m'.page x = m.page x) : branch m' level pt i = branch m level pt i := by
  rw [branch, branch, entry]
  by_cases valid : Valid (pte m ⟨pt, i⟩)
  · rw [if_pos valid, if_pos valid]
    exact nodes_congr fun x inside => same x (mem_branch valid inside)
  · rw [if_neg valid, if_neg valid]

theorem others_congr (entries : ∀ j ≠ i, pte m' ⟨pt, j⟩ = pte m ⟨pt, j⟩)
    (same : ∀ j < 512, j ≠ i → ∀ x ∈ branch m level pt j, m'.page x = m.page x) :
    others m' level pt i = others m level pt i := by
  refine congrArg (fun rest : Multiset Nat => {pt} + rest) (Finset.sum_congr rfl fun j mem => ?_)
  have other := Finset.mem_erase.mp mem
  exact branch_congr (entries j other.1) (same j (mem_indices.mp other.2) other.1)

theorem others_same (same : ∀ x ∈ others m level pt i, m'.page x = m.page x) :
    others m' level pt i = others m level pt i := by
  refine others_congr (fun j _ => pte_congr (same pt (root_others ..))) fun j below other x mem => ?_
  exact same x (sibling_others below other mem)

theorem Tree.congr (tree : Tree m level pt f) (same : ∀ x ∈ nodes m level pt, m'.page x = m.page x) :
    Tree m' level pt f := by
  induction level generalizing pt f with
  | zero =>
    intro i below
    rw [pte_congr (same pt (root_mem m 0 pt))]
    exact tree i below
  | succ level ih =>
    intro i below
    rw [pte_congr (same pt (root_mem m _ pt))]
    refine (tree i below).imp_left fun ⟨valid, inner, child⟩ => ⟨valid, inner, ih child ?_⟩
    exact fun x inside => same x (branch_mem below (mem_branch valid inside))

theorem Tree.ext (tree : Tree m level pt f) (same : ∀ v < 512 ^ (level + 1), g v = f v) : Tree m level pt g := by
  induction level generalizing pt f g with
  | zero =>
    intro i below
    rw [same i (by simpa using below)]
    exact tree i below
  | succ level ih =>
    intro i below
    have inside : ∀ v < 512 ^ (level + 1), i * 512 ^ (level + 1) + v < 512 ^ (level + 1 + 1) := by
      intro v low
      calc i * 512 ^ (level + 1) + v < i * 512 ^ (level + 1) + 512 ^ (level + 1) := Nat.add_lt_add_left low _
        _ = (i + 1) * 512 ^ (level + 1) := (Nat.succ_mul ..).symm
        _ ≤ 512 * 512 ^ (level + 1) := Nat.mul_le_mul_right _ below
        _ = 512 ^ (level + 1) * 512 := Nat.mul_comm ..
    rcases tree i below with ⟨valid, inner, child⟩ | ⟨zero, none⟩
    · exact Or.inl ⟨valid, inner, ih child fun v low => same _ (inside v low)⟩
    · exact Or.inr ⟨zero, fun v low => (same _ (inside v low)).trans (none v low)⟩

theorem slot_mem (found : slot m va level pt = some p) : p.table ∈ nodes m level pt := by
  induction level generalizing pt with
  | zero =>
    cases found
    exact root_mem m 0 pt
  | succ level ih =>
    rw [slot] at found
    split at found
    next valid => exact branch_mem (PX_lt ..) (mem_branch valid (ih found))
    next => cases found

theorem slot_congr (same : ∀ x ∈ nodes m level pt, m'.page x = m.page x) : slot m' va level pt = slot m va level pt := by
  induction level generalizing pt with
  | zero => rfl
  | succ level ih =>
    rw [slot, slot, pte_congr (p := ⟨pt, _⟩) (same pt (root_mem m _ pt))]
    by_cases valid : Valid (pte m ⟨pt, PX (level + 1) va⟩)
    · rw [if_pos valid, if_pos valid]
      exact ih fun x inside => same x (branch_mem (PX_lt ..) (mem_branch valid inside))
    · rw [if_neg valid, if_neg valid]

theorem Tree.slot_some (tree : Tree m level pt f) (found : slot m va level pt = some p) :
    pte m p = f (vpn level va) := by
  induction level generalizing pt f with
  | zero =>
    cases found
    rw [vpn_zero]
    exact tree _ (PX_lt 0 va)
  | succ level ih =>
    rw [slot] at found
    split at found
    next valid =>
      rcases tree _ (PX_lt (level + 1) va) with ⟨-, -, child⟩ | ⟨zero, -⟩
      · rw [vpn_succ]
        exact ih child found
      · rw [zero] at valid
        exact absurd valid not_valid_zero
    next => cases found

theorem Tree.slot_none (tree : Tree m level pt f) (missing : slot m va level pt = none) : f (vpn level va) = 0 := by
  induction level generalizing pt f with
  | zero => cases missing
  | succ level ih =>
    rw [vpn_succ]
    rw [slot] at missing
    split at missing
    next valid =>
      rcases tree _ (PX_lt (level + 1) va) with ⟨-, -, child⟩ | ⟨zero, -⟩
      · exact ih child missing
      · rw [zero] at valid
        exact absurd valid not_valid_zero
    next invalid =>
      rcases tree _ (PX_lt (level + 1) va) with ⟨valid, -, -⟩ | ⟨-, none⟩
      · exact absurd valid invalid
      · exact none _ (vpn_lt level va)

variable {w : Nat}

theorem put_page (other : x ≠ p.table) : (put m p w).page x = m.page x :=
  update_of_ne other ..

theorem put_self (m : Ram) (p : Entry) (w : Nat) :
    (put m p w).page p.table = store 8 (m.page p.table) (8 * p.index) w := update_self ..

theorem pte_put (small : w < 256 ^ 8) : pte (put m p w) p = w := by
  rw [pte, put_self, load_store, Nat.mod_eq_of_lt small]

theorem pte_put_other {q : Entry} (other : q ≠ p) : pte (put m p w) q = pte m q := by
  by_cases table : q.table = p.table
  · have index : q.index ≠ p.index := by
      intro same
      exact other (by cases p; cases q; simp_all)
    rw [pte, table, put_self, load_store_other (by omega), pte, table]
  · exact pte_congr (put_page table)

theorem quotient_eq {n j u v : Nat} (left : u < n) (right : v < n) (same : i * n + u = j * n + v) : i = j := by
  have positive : 0 < n := by omega
  have quotient := congrArg (· / n) same
  simpa only [Nat.mul_comm _ n, Nat.mul_add_div positive, Nat.div_eq_of_lt left, Nat.div_eq_of_lt right,
    Nat.add_zero] using quotient

theorem apart (below : i < 512) (nodup : (nodes m (level + 1) pt).Nodup) (mem : x ∈ branch m level pt i)
    (other : x ∈ others m level pt i) : False := by
  rw [nodes_split m level pt below] at nodup
  exact Multiset.disjoint_left.mp (Multiset.nodup_add.mp nodup).2.2 mem other

theorem branch_nodup (below : i < 512) (nodup : (nodes m (level + 1) pt).Nodup) :
    (branch m level pt i).Nodup := by
  rw [nodes_split m level pt below] at nodup
  exact (Multiset.nodup_add.mp nodup).1

/-- Setting the entry for `va` changes what the table maps it by, and nothing else. -/
theorem Tree.put (tree : Tree m level pt f) (nodup : (nodes m level pt).Nodup)
    (found : slot m va level pt = some p) (small : w < 256 ^ 8) :
    Tree (put m p w) level pt (update f (vpn level va) w) ∧
      nodes (put m p w) level pt = nodes m level pt := by
  induction level generalizing pt f with
  | zero =>
    cases found
    refine ⟨fun i below => ?_, by rw [nodes_zero, nodes_zero]⟩
    by_cases here : i = PX 0 va
    · rw [here, pte_put small, vpn_zero, update_self]
    · rw [pte_put_other (by simpa using here), vpn_zero, update_of_ne here]
      exact tree i below
  | succ level ih =>
    have index := PX_lt (level + 1) va
    rw [slot] at found
    obtain ⟨valid, found⟩ := Option.ite_none_right_eq_some.mp found
    have inside : p.table ∈ branch m level pt (PX (level + 1) va) := mem_branch valid (slot_mem found)
    have untouched : ∀ x ∈ others m level pt (PX (level + 1) va), (Tables.put m p w).page x = m.page x := by
      intro x mem
      exact put_page fun here => apart index nodup inside (here ▸ mem)
    have root := untouched pt (root_others ..)
    have nodup' := branch_nodup index nodup
    rw [branch, if_pos valid] at nodup'
    rcases tree _ index with ⟨-, inner, child⟩ | ⟨zero, -⟩
    · obtain ⟨childTree, childNodes⟩ := ih child nodup' found
      constructor
      · intro i below
        rw [pte_congr root]
        by_cases here : i = PX (level + 1) va
        · subst here
          refine Or.inl ⟨valid, inner, childTree.ext fun v low => ?_⟩
          by_cases same : v = vpn level va
          · rw [same, ← vpn_succ, update_self, update_self]
          · rw [update_of_ne same, update_of_ne]
            rw [vpn_succ]
            omega
        · have apartIndex : ∀ v < 512 ^ (level + 1), i * 512 ^ (level + 1) + v ≠ vpn (level + 1) va := by
            intro v low same
            rw [vpn_succ] at same
            exact here (quotient_eq low (vpn_lt level va) same)
          rcases tree i below with ⟨valid', inner', child'⟩ | ⟨zero, none⟩
          · refine Or.inl ⟨valid', inner', (child'.congr fun x mem => ?_).ext fun v low => ?_⟩
            · exact untouched x (sibling_others below here (mem_branch valid' mem))
            · exact update_of_ne (apartIndex v low) ..
          · refine Or.inr ⟨zero, fun v low => ?_⟩
            rw [update_of_ne (apartIndex v low)]
            exact none v low
      · rw [nodes_split _ level pt index, nodes_split m level pt index, others_same untouched]
        rw [branch, branch, pte_congr (p := ⟨pt, _⟩) root, if_pos valid, if_pos valid, childNodes]
    · rw [zero] at valid
      exact absurd valid not_valid_zero

theorem blank (level : Nat) (zero : ∀ i, m.page pt i = 0) :
    Tree m level pt (fun _ => 0) ∧ nodes m level pt = {pt} := by
  have entry : ∀ i, pte m ⟨pt, i⟩ = 0 := by
    intro i
    have digits : ∀ k < 8, m.page pt (8 * i + k) = UInt8.ofNat (0 / 256 ^ k) := fun k _ => by simp [zero]
    exact (load_digits digits).trans (Nat.zero_mod _)
  cases level with
  | zero => exact ⟨fun i _ => entry i, nodes_zero m pt⟩
  | succ level =>
    refine ⟨fun i _ => Or.inr ⟨entry i, fun _ _ => rfl⟩, ?_⟩
    rw [nodes_succ, Finset.sum_eq_zero, add_zero]
    intro i _
    rw [branch, entry, if_neg not_valid_zero]

theorem pointer {child : Nat} (aligned : child % PGSIZE = 0) (low : child < 2 ^ 64) :
    PA2PTE child ||| PTE_V < 256 ^ 8 ∧ PTE2PA (PA2PTE child ||| PTE_V) = child ∧ Valid (PA2PTE child ||| PTE_V) ∧
      (PA2PTE child ||| PTE_V) &&& (PTE_R ||| PTE_W ||| PTE_X) = 0 := by
  have plain : word child 0 = PA2PTE child ||| PTE_V := by rw [word, Nat.or_zero]
  rw [← plain]
  exact ⟨word_lt low (by decide), PTE2PA_word aligned low (by decide), word_valid (by decide),
    word_and (by decide) (by decide)⟩

/-- Pointing an empty entry to a fresh page of zeroes adds that page to the table. -/
theorem Tree.wire {child : Nat} (tree : Tree m (level + 1) pt f) (nodup : (nodes m (level + 1) pt).Nodup) (below : i < 512)
    (empty : ¬Valid (pte m ⟨pt, i⟩)) (fresh : child ∉ nodes m (level + 1) pt) (zero : ∀ k, m.page child k = 0)
    (aligned : child % PGSIZE = 0) (low : child < 2 ^ 64) :
    Tree (Tables.put m ⟨pt, i⟩ (PA2PTE child ||| PTE_V)) (level + 1) pt f ∧
      nodes (Tables.put m ⟨pt, i⟩ (PA2PTE child ||| PTE_V)) (level + 1) pt = {child} + nodes m (level + 1) pt := by
  obtain ⟨small, address, valid, inner⟩ := pointer aligned low
  generalize wired : Tables.put m ⟨pt, i⟩ (PA2PTE child ||| PTE_V) = w
  have notRoot : child ≠ pt := fun same => fresh (same ▸ root_mem m (level + 1) pt)
  have none := (tree i below).resolve_left fun here => empty here.1
  have entry : pte w ⟨pt, i⟩ = PA2PTE child ||| PTE_V := by
    rw [← wired]
    exact pte_put small
  have sibling : ∀ j, j ≠ i → pte w ⟨pt, j⟩ = pte m ⟨pt, j⟩ := by
    intro j other
    rw [← wired]
    exact pte_put_other (by simpa using other)
  have siblings : ∀ j < 512, j ≠ i → ∀ x ∈ branch m level pt j, w.page x = m.page x := by
    intro j under other x mem
    rw [← wired]
    exact put_page fun same => apart under nodup mem (same ▸ root_others ..)
  have blankPage : ∀ k, w.page child k = 0 := by
    intro k
    rw [← wired, put_page notRoot]
    exact zero k
  obtain ⟨blankTree, blankNodes⟩ := blank level blankPage
  constructor
  · intro j under
    by_cases here : j = i
    · subst here
      rw [entry, address]
      exact Or.inl ⟨valid, inner, blankTree.ext fun v low => none.2 v low⟩
    · rw [sibling j here]
      refine (tree j under).imp_left fun ⟨valid', inner', child'⟩ => ⟨valid', inner', child'.congr fun x mem => ?_⟩
      exact siblings j under here x (mem_branch valid' mem)
  · rw [nodes_split w level pt below, nodes_split m level pt below, others_congr sibling siblings, branch, branch,
      entry, if_pos valid, address, blankNodes, if_neg empty, zero_add]

end Xv6Monitor.Memory.Trees
