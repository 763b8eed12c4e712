import Xv6Monitor.Memory.Users

/-! What the calls do with the address space of a process: grow and shrink it, copy it, and store in it. -/

namespace Xv6Monitor.Memory.Access
open Function Stops Lib.Bytes Lib.Program Frames Tables Words Trees Spaces Mappings Growth Users

theorem size_bound {sz k : Nat} (bound : pages sz < k) : sz < k * PGSIZE := by
  unfold pages PGSIZE at bound
  unfold PGSIZE
  omega

theorem leaves_split (f : Nat → Nat) {a b : Nat} (le : a ≤ b) : leaves f 0 b = leaves f 0 a + leaves f a (b - a) := by
  conv_lhs => rw [← Nat.add_sub_cancel' le, leaves_add, Nat.zero_add]

theorem leaf_mem {f : Nat → Nat} {n v : Nat} (under : v < n) : PTE2PA (f v) ∈ leaves f 0 n := by
  unfold leaves
  rw [Multiset.mem_sum]
  exact ⟨v, Finset.mem_Ico.mpr (by omega), Multiset.mem_singleton_self _⟩

theorem cleared_word {w : Nat} (leaf : Leaf w) : Leaf (w - (w &&& PTE_U)) ∧ PTE2PA (w - (w &&& PTE_U)) = PTE2PA w := by
  have low : w &&& PTE_U = w % 1024 &&& PTE_U := and_low (by decide)
  have small : w % 1024 &&& PTE_U ≤ w % 1024 := Nat.and_le_left
  have bits : ∀ r < 1024, (r - (r &&& PTE_U)) &&& PTE_V = r &&& PTE_V ∧ (r - (r &&& PTE_U)) &&& PTE_R = r &&& PTE_R := by
    decide +kernel
  have rest : (w - (w &&& PTE_U)) % 1024 = w % 1024 - (w % 1024 &&& PTE_U) := by
    omega
  have same : ∀ mask < 1024, (w % 1024 - (w % 1024 &&& PTE_U)) &&& mask = w % 1024 &&& mask →
      (w - (w &&& PTE_U)) &&& mask = w &&& mask := by
    intro mask bound equal
    rw [and_low bound, rest, equal, ← and_low bound]
  have known := bits (w % 1024) (Nat.mod_lt _ (by decide))
  refine ⟨⟨?_, ?_⟩, ?_⟩
  · rw [Valid, same PTE_V (by decide) known.1]
    exact leaf.valid
  · rw [same PTE_R (by decide) known.2]
    exact leaf.readable
  · have top : (w - (w &&& PTE_U)) / 1024 = w / 1024 := by
      omega
    rw [PTE2PA, PTE2PA, Nat.shiftRight_eq_div_pow, Nat.shiftRight_eq_div_pow, top]

variable [image : Image] [origin : Origin] {E : Halt → Prop} {m t : Ram} {pt n trapframe : Nat} {f g : Nat → Nat} {rest : Multiset Nat}

theorem mapped_small {sz : Nat} (mapped : Mapped f m pt (pages sz) trapframe rest) : sz + PGSIZE ≤ 2 ^ 28 := by
  have bound := size_bound mapped.bound
  unfold PGSIZE at bound ⊢
  omega

theorem grow_spec {oldsz newsz xperm : Nat} (mapped : Mapped f m pt (pages oldsz) trapframe rest) (flags : xperm < 1024) :
    Ends E (uvmalloc pt oldsz newsz xperm) m fun r t => Keeps rest m t ∧
      ((r ≠ 0 ∧ r = max oldsz newsz ∧ ∃ g, Mapped g t pt (pages r) trapframe rest ∧ (∀ v < pages oldsz, g v = f v) ∧
        ∀ v, pages oldsz ≤ v → v < pages r → UserLeaf (g v)) ∨
      (r = 0 ∧ Mapped f t pt (pages oldsz) trapframe rest)) := by
  have shape := mapped.shape
  have above := ceiling_above
  have small := mapped_small mapped
  by_cases shrinks : newsz < oldsz
  · unfold uvmalloc
    rw [if_pos shrinks]
    refine ⟨Keeps.refl rest m, Or.inl ⟨by omega, (Nat.max_eq_left (Nat.le_of_lt shrinks)).symm, f, mapped, fun _ _ => rfl, ?_⟩⟩
    intro v low high
    omega
  have grows : oldsz ≤ newsz := Nat.le_of_not_lt shrinks
  have free : ∀ v, pages oldsz ≤ v → v < ceiling → f v = 0 := fun v low high => shape.none v low (by omega) (by omega)
  have held : pages oldsz ≤ (leaves f 0 (pages oldsz) + rest).card := by
    rw [Multiset.card_add, leaves_card]
    omega
  refine (uvmalloc_spec mapped.space grows (by omega) free held flags).imp fun r t ⟨kept, result⟩ => ⟨kept.right, ?_⟩
  rcases result with ⟨new, g, space, user, same⟩ | ⟨zero, space⟩
  · have mono := pages_mono grows
    have before : leaves f 0 (pages oldsz) = leaves g 0 (pages oldsz) :=
      leaves_congr fun v _ high => (same v (by omega)).symm
    have whole : Space t pt g (leaves g 0 (pages newsz) + rest) := by
      rw [leaves_split g mono, ← before, add_comm (leaves f 0 _), add_assoc]
      exact space
    have low : pages newsz < 2 ^ 15 := by
      have bound := Space.bound whole
      rw [Multiset.card_add, leaves_card] at bound
      omega
    by_cases zero : r = 0
    · have unchanged : g = f := by
        funext v
        refine same v (Or.inr ?_)
        rw [← new, zero, pages_zero]
        exact Nat.zero_le v
      have both : oldsz = 0 ∧ newsz = 0 := by omega
      rw [both.2] at whole
      rw [unchanged] at whole
      refine Or.inr ⟨zero, ?_⟩
      rw [both.1] at shape ⊢
      exact ⟨shape, whole⟩
    refine Or.inl ⟨zero, by rw [new, Nat.max_eq_right grows], g, ⟨⟨fun v under => ?_, ?_, ?_, fun v high frame line => ?_, ?_⟩, ?_⟩,
      fun v under => same v (Or.inl under), ?_⟩
    · rw [new] at under
      by_cases old : v < pages oldsz
      · rw [same v (Or.inl old)]
        exact shape.user v old
      · exact (user v (by omega) under).toLeaf
    · rw [same _ (Or.inr (by omega)), shape.trapframe]
    · rw [same _ (Or.inr (by omega)), shape.trampoline]
    · rw [new] at high
      rw [same v (Or.inr high)]
      exact shape.none v (by omega) frame line
    · rw [new]
      omega
    · rw [new]
      exact whole
    · rw [new]
      exact user
  · exact Or.inr ⟨zero, shape, space⟩

theorem shrink_spec {oldsz newsz : Nat} (mapped : Mapped f m pt (pages oldsz) trapframe rest) :
    Ends E (uvmdealloc pt oldsz newsz) m fun r t => Keeps rest m t ∧ r = min oldsz newsz ∧
      Resident t pt (pages r) trapframe rest := by
  have shape := mapped.shape
  have bound := mapped.bound
  have above := ceiling_above
  have small := mapped_small mapped
  by_cases grows : oldsz ≤ newsz
  · unfold uvmdealloc
    rw [if_pos grows]
    exact ⟨Keeps.refl rest m, (Nat.min_eq_left grows).symm, f, mapped⟩
  have shrinks : newsz < oldsz := Nat.lt_of_not_le grows
  have mono := pages_mono (Nat.le_of_lt shrinks)
  have space : Space m pt f (leaves f (pages newsz) (pages oldsz - pages newsz) + (leaves f 0 (pages newsz) + rest)) := by
    have space := mapped.space
    rw [leaves_split f mono, add_comm (leaves f 0 _), add_assoc] at space
    exact space
  have fits : oldsz + PGSIZE ≤ MAXVA := by
    rw [MAXVA_eq]
    omega
  refine (uvmdealloc_spec shrinks fits space fun v _ high => shape.user v high).imp fun r t ⟨new, space', kept⟩ => ?_
  have low : ∀ v < pages newsz, cleared f (pages newsz) (pages oldsz - pages newsz) v = f v := by
    intro v under
    rw [cleared, if_neg (by omega)]
  refine ⟨kept.right, by rw [new, Nat.min_eq_right (Nat.le_of_lt shrinks)],
    cleared f (pages newsz) (pages oldsz - pages newsz), ⟨?_, ?_, ?_, ?_, ?_⟩, ?_⟩
  · intro v under
    rw [new] at under
    rw [low v under]
    exact shape.user v (by omega)
  · rw [cleared, if_neg (by omega), shape.trapframe]
  · rw [cleared, if_neg (by omega), shape.trampoline]
  · intro v high frame line
    rw [new] at high
    by_cases gone : v < pages oldsz
    · rw [cleared, if_pos (by omega)]
    · rw [cleared, if_neg (by omega)]
      exact shape.none v (by omega) frame line
  · rw [new]
    omega
  · rw [new, leaves_congr (g := f) fun v _ high => low v (by omega)]
    exact space'

theorem copy_spec {old new sz frame : Nat} (mapped : Mapped g m new 0 trapframe rest) (shape : Shape f (pages sz) frame)
    (tree : Tree m 2 old f) (within : ∀ x ∈ nodes m 2 old, x ∈ rest) :
    Ends E (uvmcopy old new sz) m fun done t => Keeps rest m t ∧
      Resident t new (if done then pages sz else 0) trapframe rest := by
  have start := mapped.space
  have free : ∀ v, 0 ≤ v → v < ceiling → g v = 0 := fun v _ high => mapped.shape.none v (Nat.zero_le v) (by omega) (by omega)
  have low : 0 + pages sz ≤ ceiling := by
    have below := shape.below
    omega
  have copied := copyFrom_spec (E := E) (n := pages sz) start (fun v under => absurd under (Nat.not_lt_zero v)) free tree
    within (fun v _ high => shape.user v (by omega)) low
  unfold uvmcopy
  rw [Nat.zero_mul] at copied
  refine copied.imp fun done t ⟨kept, result⟩ => ⟨kept, ?_⟩
  cases done with
  | true =>
    obtain ⟨h, space, user, same⟩ := result
    rw [Nat.zero_add] at space user same
    refine ⟨h, ⟨user, ?_, ?_, fun v high frame line => ?_, shape.below⟩, space⟩
    · rw [same _ (by omega), mapped.shape.trapframe]
    · rw [same _ (by omega), mapped.shape.trampoline]
    · rw [same _ high]
      exact mapped.shape.none v (Nat.zero_le v) frame line
  | false =>
    have back : Space t new (Mappings.cleared g 0 0) rest := result
    refine ⟨g, mapped.shape, ?_⟩
    rw [if_neg (by decide), leaves_zero, zero_add]
    exact back

variable (mapped : Mapped f m pt n trapframe rest)
include mapped

theorem Mapped.fill {v : Nat} (under : v < n) (data : Data) :
    Mapped f { m with page := update m.page (PTE2PA (f v)) data } pt n trapframe rest ∧
      Keeps (nodes m 2 pt + rest) m { m with page := update m.page (PTE2PA (f v)) data } := by
  obtain ⟨_, split⟩ := Multiset.exists_cons_of_mem (leaf_mem (f := f) under)
  have space := mapped.space
  rw [split, ← Multiset.singleton_add, add_assoc] at space
  obtain ⟨space', kept⟩ := Space.fill space data
  refine ⟨⟨mapped.shape, ?_⟩, fun x mem => ?_⟩
  · rw [split, ← Multiset.singleton_add, add_assoc]
    exact space'
  rcases Multiset.mem_add.mp mem with node | other
  · refine update_of_ne (fun same => ?_) ..
    rw [same] at node
    exact mapped.space.owns.apart node (Multiset.mem_add.mpr (Or.inl (leaf_mem under)))
  · exact kept.right x other

omit mapped

omit origin in
theorem Shape.below_of_user {v : Nat} (shape : Shape f n trapframe) (user : f v &&& PTE_U ≠ 0) : v < n := by
  by_contra high
  by_cases frame : v = ceiling
  · rw [frame, shape.trapframe, word_and (by decide) (by decide)] at user
    exact user (by decide)
  by_cases line : v = ceiling + 1
  · rw [line, shape.trampoline, word_and (by decide) (by decide)] at user
    exact user (by decide)
  · rw [shape.none v (by omega) frame line] at user
    exact user (by decide)

include mapped

theorem copyoutFrom_spec {rounds dstva len : Nat} {src : Data} :
    Ends E (copyoutFrom pt rounds dstva src len) m fun _ t =>
      Mapped f t pt n trapframe rest ∧ Keeps (nodes m 2 pt + rest) m t ∧ t.freelist = m.freelist := by
  have same : Mapped f m pt n trapframe rest ∧ Keeps (nodes m 2 pt + rest) m m ∧ m.freelist = m.freelist :=
    ⟨mapped, Keeps.refl _ m, rfl⟩
  induction rounds generalizing m dstva src len with
  | zero => exact same
  | succ rounds ih =>
    unfold copyoutFrom
    by_cases none : len = 0
    · rw [if_pos none]
      exact same
    rw [if_neg none]
    by_cases high : MAXVA ≤ PGROUNDDOWN dstva
    · simp only [if_pos high]
      exact same
    simp only [if_neg high]
    have below : PGROUNDDOWN dstva < MAXVA := Nat.lt_of_not_le high
    rw [ends_bind, Ends, walk_lookup below]
    dsimp only
    rcases found : slot m (PGROUNDDOWN dstva) 2 pt with _ | p
    · exact same
    have entry : pte m p = f (PGROUNDDOWN dstva / PGSIZE) := by
      rw [mapped.space.tree.slot_some found, vpn_eq below]
    rw [ends_get_bind, entry]
    by_cases refused : ¬Valid (f (PGROUNDDOWN dstva / PGSIZE)) ∨ f (PGROUNDDOWN dstva / PGSIZE) &&& PTE_U = 0 ∨
        f (PGROUNDDOWN dstva / PGSIZE) &&& PTE_W = 0
    · rw [if_pos refused]
      exact same
    rw [if_neg refused, ends_modify_bind]
    push Not at refused
    have under := Shape.below_of_user mapped.shape refused.2.1
    obtain ⟨stored, kept⟩ := Mapped.fill mapped under
      (splice (m.page (PTE2PA (f (PGROUNDDOWN dstva / PGSIZE)))) (dstva - PGROUNDDOWN dstva)
        (min (PGSIZE - (dstva - PGROUNDDOWN dstva)) len) src)
    refine (ih stored ⟨stored, Keeps.refl _ _, rfl⟩).imp ?_
    rintro _ t ⟨mapped', kept', free⟩
    refine ⟨mapped', ?_, free⟩
    have nodesSame := nodes_congr fun x mem => kept x (Multiset.mem_add.mpr (Or.inl mem))
    rw [nodesSame] at kept'
    exact kept.trans kept'

theorem copyout_spec {dstva len : Nat} {src : Data} : Ends E (copyout pt dstva src len) m fun _ t =>
      Mapped f t pt n trapframe rest ∧ Keeps (nodes m 2 pt + rest) m t ∧ t.freelist = m.freelist :=
  copyoutFrom_spec mapped

theorem walkaddr_spec {va : Nat} (under : va / PGSIZE < n) (user : UserLeaf (f (va / PGSIZE))) :
    walkaddr pt va m = .ok (PTE2PA (f (va / PGSIZE)), m) := by
  have bound := mapped.bound
  have below : va < MAXVA := by
    rw [MAXVA_eq]
    unfold PGSIZE at under
    omega
  obtain ⟨p, found, entry⟩ := walk_source mapped.space.tree below user.toLeaf
  have valid : ¬(¬Valid (f (va / PGSIZE)) ∨ f (va / PGSIZE) &&& PTE_U = 0) := by
    push Not
    exact ⟨user.valid, user.user⟩
  simp only [walkaddr, if_neg (Nat.not_le.mpr below), bind, StateT.bind, Except.bind, found, get, getThe,
    MonadStateOf.get, StateT.get, pure, Except.pure, entry, if_neg valid]
  rfl

theorem uvmclear_spec {v : Nat} (under : v < n) :
    Ends E (uvmclear pt (v * PGSIZE)) m fun _ t => Resident t pt n trapframe rest ∧ Keeps rest m t := by
  have shape := mapped.shape
  have below := shape.below
  have top := ceiling_eq
  have page : v * PGSIZE / PGSIZE = v := Nat.mul_div_cancel v PGSIZE_pos
  have inRange : v * PGSIZE < MAXVA := page_lt (by omega)
  have leaf : Leaf (f (v * PGSIZE / PGSIZE)) := by
    rw [page]
    exact shape.user v under
  unfold uvmclear
  rw [ends_bind, Ends, walk_lookup inRange]
  dsimp only
  cases found : slot m (v * PGSIZE) 2 pt with
  | none =>
    have zero := mapped.space.tree.slot_none found
    rw [vpn_eq inRange] at zero
    exact absurd (zero ▸ leaf.valid) not_valid_zero
  | some p =>
    have entry : pte m p = f v := by
      rw [mapped.space.tree.slot_some found, vpn_eq inRange, page]
    rw [page] at leaf
    obtain ⟨leaf', address⟩ := cleared_word leaf
    have small : f v - (f v &&& PTE_U) < 256 ^ 8 := by
      have bound : pte m p < 256 ^ 8 := load_lt 8 ..
      omega
    obtain ⟨space, kept⟩ := mapped.space.put inRange found small
    rw [page] at space
    rw [ends_get_bind, ends_get_bind, entry]
    have same : leaves (update f v (f v - (f v &&& PTE_U))) 0 n = leaves f 0 n := by
      unfold leaves
      refine Finset.sum_congr rfl fun u _ => ?_
      by_cases here : u = v
      · rw [here, update_self, address]
      · rw [update_of_ne here]
    refine ⟨⟨update f v (f v - (f v &&& PTE_U)), ⟨fun u low => ?_, ?_, ?_, fun u high frame line => ?_, below⟩, ?_⟩,
      kept.right⟩
    · by_cases here : u = v
      · rw [here, update_self]
        exact leaf'
      · rw [update_of_ne here]
        exact shape.user u low
    · rw [update_of_ne (by omega), shape.trapframe]
    · rw [update_of_ne (by omega), shape.trampoline]
    · rw [update_of_ne (by omega)]
      exact shape.none u high frame line
    · rw [same]
      exact space

end Xv6Monitor.Memory.Access
