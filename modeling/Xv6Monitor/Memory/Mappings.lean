import Mathlib.Algebra.BigOperators.Intervals
import Xv6Monitor.Memory.Spaces

/-! What the functions of `kernel/vm.c` do to the mappings of a user page table. -/

namespace Xv6Monitor.Memory.Mappings
open Function Stops Lib.Program Frames Tables Words Trees Spaces

/-- The pages that a run of `n` page numbers from `a` on is mapped to. -/
def leaves (f : Nat → Nat) (a n : Nat) : Multiset Nat := ∑ v ∈ Finset.Ico a (a + n), {PTE2PA (f v)}

section Leaves

variable {f g : Nat → Nat} {a n : Nat}

@[simp] theorem leaves_zero (f : Nat → Nat) (a : Nat) : leaves f a 0 = 0 := by simp [leaves]

theorem leaves_head (f : Nat → Nat) (a n : Nat) : leaves f a (n + 1) = {PTE2PA (f a)} + leaves f (a + 1) n := by
  rw [leaves, leaves, Finset.sum_eq_sum_Ico_succ_bot (by omega), show a + (n + 1) = a + 1 + n by omega]

theorem leaves_last (f : Nat → Nat) (a n : Nat) : leaves f a (n + 1) = {PTE2PA (f (a + n))} + leaves f a n := by
  rw [leaves, leaves, ← Nat.add_assoc, Finset.sum_Ico_succ_top (by omega), add_comm]

theorem leaves_congr (same : ∀ v, a ≤ v → v < a + n → f v = g v) : leaves f a n = leaves g a n := by
  refine Finset.sum_congr rfl fun v mem => ?_
  have bounds := Finset.mem_Ico.mp mem
  rw [same v bounds.1 bounds.2]

theorem leaves_add (f : Nat → Nat) (a n k : Nat) : leaves f a (n + k) = leaves f a n + leaves f (a + n) k := by
  rw [leaves, leaves, leaves, ← Nat.add_assoc, Finset.sum_Ico_consecutive _ (by omega) (by omega)]

@[simp] theorem leaves_card (f : Nat → Nat) (a n : Nat) : (leaves f a n).card = n := by
  induction n with
  | zero => simp
  | succ n ih => rw [leaves_last, Multiset.card_add, ih, Multiset.card_singleton, Nat.add_comm]

end Leaves

variable {va : Nat}

theorem vpn_eq (below : va < MAXVA) : vpn 2 va = va / PGSIZE := by
  rw [MAXVA_eq] at below
  rw [vpn, PGSIZE]
  exact Nat.mod_eq_of_lt (by omega)

/-- The mappings without `n` page numbers from `a` on. -/
def cleared (f : Nat → Nat) (a n : Nat) : Nat → Nat := fun v => if a ≤ v ∧ v < a + n then 0 else f v

theorem cleared_zero (f : Nat → Nat) (a : Nat) : cleared f a 0 = f := by
  funext v
  exact if_neg (by omega)

theorem cleared_head (f : Nat → Nat) (a n : Nat) : cleared (update f a 0) (a + 1) n = cleared f a (n + 1) := by
  funext v
  by_cases here : v = a
  · rw [here, cleared, cleared, if_neg (by omega), if_pos (by omega), update_self]
  · by_cases inside : a + 1 ≤ v ∧ v < a + 1 + n
    · rw [cleared, cleared, if_pos inside, if_pos (by omega)]
    · rw [cleared, cleared, if_neg inside, if_neg (by omega), update_of_ne here]

theorem cleared_last {k w : Nat} (empty : f (a + k) = 0) :
    cleared (update f (a + k) w) a (k + 1) = cleared f a k := by
  funext v
  by_cases here : v = a + k
  · rw [here, cleared, cleared, if_pos (by omega), if_neg (by omega), empty]
  · by_cases inside : a ≤ v ∧ v < a + k
    · rw [cleared, cleared, if_pos (by omega), if_pos inside]
    · rw [cleared, cleared, if_neg (by omega), if_neg inside, update_of_ne here]

def pages (sz : Nat) : Nat := (sz + PGSIZE - 1) / PGSIZE

theorem PGROUNDUP_pages {sz : Nat} (small : sz + PGSIZE ≤ 2 ^ 64) : PGROUNDUP sz = pages sz * PGSIZE := PGROUNDUP_eq small

theorem pages_mul (n : Nat) : pages (n * PGSIZE) = n := by
  simp only [pages, PGSIZE]
  omega

theorem pages_zero : pages 0 = 0 := by
  have none := pages_mul 0
  rwa [Nat.zero_mul] at none

theorem pages_mono {sz sz' : Nat} (le : sz ≤ sz') : pages sz ≤ pages sz' := by
  simp only [pages, PGSIZE]
  omega

variable {E : Halt → Prop} {m t : Ram} {pt va : Nat} {f g : Nat → Nat} {rest : Multiset Nat}

/-- The pages of `rest` keep their contents. -/
def Keeps (rest : Multiset Nat) (m t : Ram) : Prop := ∀ x ∈ rest, t.page x = m.page x

theorem Keeps.refl (rest : Multiset Nat) (m : Ram) : Keeps rest m m := fun _ _ => rfl

theorem Keeps.trans {u : Ram} (first : Keeps rest m t) (second : Keeps rest t u) : Keeps rest m u :=
  fun x mem => (second x mem).trans (first x mem)

theorem Keeps.right {more : Multiset Nat} (keeps : Keeps (more + rest) m t) : Keeps rest m t :=
  fun x mem => keeps x (Multiset.mem_add.mpr (Or.inr mem))

theorem Keeps.tree {level : Nat} (keeps : Keeps rest m t) (within : ∀ x ∈ nodes m level pt, x ∈ rest)
    (tree : Tree m level pt f) : Tree t level pt f ∧ nodes t level pt = nodes m level pt :=
  ⟨tree.congr fun x mem => keeps x (within x mem), nodes_congr fun x mem => keeps x (within x mem)⟩

variable [image : Image] [origin : Origin]

/-- The table at `pt` maps by `f`; its pages and `rest` are all that is allocated. -/
structure Space (m : Ram) (pt : Nat) (f : Nat → Nat) (rest : Multiset Nat) : Prop where
  tree : Tree m 2 pt f
  owns : Owns m (nodes m 2 pt + rest)

theorem Space.put {p : Entry} {w : Nat} (space : Space m pt f rest) (below : va < MAXVA) (found : slot m va 2 pt = some p)
    (small : w < 256 ^ 8) : Space (put m p w) pt (update f (va / PGSIZE) w) rest ∧ Keeps rest m (put m p w) := by
  obtain ⟨tree, same⟩ := space.tree.put space.owns.part found small
  rw [vpn_eq below] at tree
  refine ⟨⟨tree, ?_⟩, fun x mem => ?_⟩
  · rw [same]
    exact space.owns.write (Multiset.mem_add.mpr (Or.inl (slot_mem found))) rfl fun y other => put_page other
  · have other : x ≠ p.table := fun here => space.owns.apart (slot_mem found) (here ▸ mem)
    exact put_page other

theorem walk_spec (space : Space m pt f rest) (below : va < MAXVA) :
    Ends E (walk pt va true) m fun r t => Space t pt f rest ∧ Keeps rest m t ∧
      ∀ p, r = some p → slot t va 2 pt = some p := by
  rw [walk, if_neg (by omega)]
  refine (walkFrom_spec space.tree space.owns).imp fun r t done => ?_
  exact ⟨⟨done.1, done.2.1⟩, done.2.2.1, done.2.2.2⟩

theorem mappages_spec {pa perm : Nat} (space : Space m pt f rest) (aligned : va % PGSIZE = 0) (below : va < MAXVA)
    (low : pa < 2 ^ 64) (flags : perm < 1024) (empty : ¬Valid (f (va / PGSIZE))) :
    Ends E (mappages pt va PGSIZE pa perm) m fun done t =>
      Space t pt (if done then update f (va / PGSIZE) (word pa perm) else f) rest ∧ Keeps rest m t := by
  rw [mappages, if_neg (by omega), if_neg (by simp), if_neg (Nat.ne_of_gt PGSIZE_pos), Nat.div_self PGSIZE_pos]
  unfold mapFrom
  refine (walk_spec space below).bind fun r t ⟨walked, kept, found⟩ => ?_
  match r with
  | none => exact ⟨walked, kept⟩
  | some p =>
    have entry : pte t p = f (va / PGSIZE) := by rw [walked.tree.slot_some (found p rfl), vpn_eq below]
    rw [ends_get_bind, if_neg (entry ▸ empty)]
    obtain ⟨mapped, same⟩ := walked.put below (found p rfl) (word_lt low flags)
    exact ⟨mapped, kept.trans same⟩

theorem unmap_one {doFree : Bool} {Q : Unit → Ram → Prop}
    (space : Space m pt f ((if doFree then {PTE2PA (f (va / PGSIZE))} else 0) + rest)) (below : va < MAXVA)
    (leaf : Leaf (f (va / PGSIZE)))
    (next : ∀ t, Space t pt (update f (va / PGSIZE) 0) rest → Keeps rest m t →
      Ends E (unmapFrom pt doFree n (va + PGSIZE)) t Q) : Ends E (unmapFrom pt doFree (n + 1) va) m Q := by
  unfold unmapFrom
  have looked : Ends E (walk pt va false) m fun r t => r = slot m va 2 pt ∧ t = m := by
    rw [Ends, walk_lookup below]
    exact ⟨rfl, rfl⟩
  refine looked.bind ?_
  rintro r t ⟨at_, same⟩
  subst same
  subst at_
  cases found : slot t va 2 pt with
  | none =>
    have zero := space.tree.slot_none found
    rw [vpn_eq below] at zero
    exact absurd (zero ▸ leaf.valid) not_valid_zero
  | some p =>
    have entry : pte t p = f (va / PGSIZE) := by rw [space.tree.slot_some found, vpn_eq below]
    rw [ends_get_bind]
    rw [if_neg (by rw [entry]; exact not_not.mpr leaf.valid), if_neg (by rw [entry]; exact leaf.flags), entry]
    cases doFree with
    | false =>
      obtain ⟨cleared, kept⟩ := (show Space t pt f rest by simpa using space).put below found (w := 0) (by decide)
      exact next _ cleared kept
    | true =>
      have owned : Owns t ({PTE2PA (f (va / PGSIZE))} + (nodes t 2 pt + rest)) := by
        have all := space.owns
        rwa [if_pos rfl, add_left_comm] at all
      refine (kfree_spec owned).bind ?_
      rintro _ u ⟨freed, elsewhere⟩
      have outside : ∀ x ∈ nodes t 2 pt + rest, x ≠ PTE2PA (f (va / PGSIZE)) :=
        fun x mem same => owned.apart (Multiset.mem_singleton_self _) (same ▸ mem)
      have kept : Keeps (nodes t 2 pt + rest) t u := fun x mem => elsewhere x (outside x mem)
      obtain ⟨tree, sameNodes⟩ := kept.tree (fun x mem => Multiset.mem_add.mpr (Or.inl mem)) space.tree
      have still : slot u va 2 pt = some p := (slot_congr fun x mem => kept x (Multiset.mem_add.mpr (Or.inl mem))).trans found
      obtain ⟨cleared, kept'⟩ := (Space.mk tree (sameNodes ▸ freed)).put below still (w := 0) (by decide)
      exact next _ cleared (kept.right.trans kept')

theorem unmapFrom_spec (doFree : Bool) (space : Space m pt f ((if doFree then leaves f a n else 0) + rest))
    (mapped : ∀ v, a ≤ v → v < a + n → Leaf (f v)) (below : (a + n) * PGSIZE ≤ MAXVA) :
    Ends E (unmapFrom pt doFree n (a * PGSIZE)) m fun _ t => Space t pt (cleared f a n) rest ∧ Keeps rest m t := by
  induction n generalizing m f a with
  | zero =>
    rw [cleared_zero]
    have same : Space m pt f rest := by cases doFree <;> simpa using space
    exact ⟨same, Keeps.refl rest m⟩
  | succ n ih =>
    have page : a * PGSIZE / PGSIZE = a := Nat.mul_div_cancel a PGSIZE_pos
    have low : a * PGSIZE < MAXVA :=
      Nat.lt_of_lt_of_le (Nat.mul_lt_mul_of_pos_right (by omega) PGSIZE_pos) below
    have later : leaves (update f a 0) (a + 1) n = leaves f (a + 1) n :=
      leaves_congr fun v low _ => update_of_ne (by omega) ..
    have first : Space m pt f ((if doFree then {PTE2PA (f (a * PGSIZE / PGSIZE))} else 0) +
        ((if doFree then leaves f (a + 1) n else 0) + rest)) := by
      rw [page]
      cases doFree with
      | false => simpa using space
      | true => simpa only [if_true, leaves_head, add_assoc] using space
    refine unmap_one first low ?_ fun t stepped kept => ?_
    · rw [page]
      exact mapped a (Nat.le_refl a) (by omega)
    rw [page, ← later] at stepped
    have next : a * PGSIZE + PGSIZE = (a + 1) * PGSIZE := (Nat.succ_mul a PGSIZE).symm
    rw [next, ← cleared_head]
    have fits : (a + 1 + n) * PGSIZE ≤ MAXVA := by
      rw [Nat.add_assoc, Nat.add_comm 1 n]
      exact below
    refine (ih stepped (fun v low high => ?_) fits).imp fun _ u done => ?_
    · rw [update_of_ne (by omega)]
      exact mapped v (by omega) (by omega)
    · exact ⟨done.1, kept.right.trans done.2⟩

theorem uvmunmap_spec (doFree : Bool) (space : Space m pt f ((if doFree then leaves f a n else 0) + rest))
    (mapped : ∀ v, a ≤ v → v < a + n → Leaf (f v)) (below : (a + n) * PGSIZE ≤ MAXVA) :
    Ends E (uvmunmap pt (a * PGSIZE) n doFree) m fun _ t => Space t pt (cleared f a n) rest ∧ Keeps rest m t := by
  rw [uvmunmap, if_neg (by simp)]
  exact unmapFrom_spec doFree space mapped below

theorem uvmdealloc_spec {oldsz newsz : Nat} (shrinks : newsz < oldsz) (below : oldsz + PGSIZE ≤ MAXVA)
    (space : Space m pt f (leaves f (pages newsz) (pages oldsz - pages newsz) + rest))
    (mapped : ∀ v, pages newsz ≤ v → v < pages oldsz → Leaf (f v)) :
    Ends E (uvmdealloc pt oldsz newsz) m fun r t => r = newsz ∧
      Space t pt (cleared f (pages newsz) (pages oldsz - pages newsz)) rest ∧ Keeps rest m t := by
  rw [MAXVA_eq] at below
  unfold uvmdealloc
  rw [if_neg (by omega), PGROUNDUP_pages (by omega), PGROUNDUP_pages (by omega)]
  by_cases fewer : pages newsz < pages oldsz
  · rw [if_pos (by simp only [PGSIZE]; omega), ← Nat.sub_mul, Nat.mul_div_cancel _ PGSIZE_pos]
    have fits : (pages newsz + (pages oldsz - pages newsz)) * PGSIZE ≤ MAXVA := page_le (by
      simp only [pages, PGSIZE] at *
      omega)
    refine (uvmunmap_spec true space (fun v low high => mapped v low (by omega)) fits).bind fun _ t done => ?_
    exact ⟨rfl, done⟩
  · have none : pages oldsz - pages newsz = 0 := by omega
    rw [if_neg (by simp only [PGSIZE]; omega), none, cleared_zero]
    rw [none, leaves_zero, zero_add] at space
    exact ⟨rfl, space, Keeps.refl rest m⟩

end Xv6Monitor.Memory.Mappings
