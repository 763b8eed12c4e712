import Xv6Monitor.Memory.Mappings

/-! Growing and copying a user address space, with the way back when memory runs out in the middle. -/

namespace Xv6Monitor.Memory.Growth
open Function Stops Lib.Bytes Lib.Program Frames Tables Words Trees Spaces Mappings

def ceiling : Nat := TRAPFRAME / PGSIZE

theorem ceiling_eq : ceiling = 67108862 := by
  rw [ceiling, TRAPFRAME_page, Nat.mul_div_cancel _ PGSIZE_pos]

attribute [irreducible] ceiling

variable {E : Halt → Prop} {m t : Ram} {pt : Nat} {f g : Nat → Nat} {rest : Multiset Nat}

theorem walk_source {old va : Nat} (tree : Tree m 2 old f) (below : va < MAXVA) (leaf : Leaf (f (va / PGSIZE))) :
    ∃ p, walk old va false m = .ok (some p, m) ∧ pte m p = f (va / PGSIZE) := by
  rw [walk_lookup below]
  cases found : slot m va 2 old with
  | none =>
    have zero := tree.slot_none found
    rw [vpn_eq below] at zero
    exact absurd (zero ▸ leaf.valid) not_valid_zero
  | some p => exact ⟨p, rfl, by rw [tree.slot_some found, vpn_eq below]⟩

variable [image : Image] [origin : Origin]

theorem Space.bound (space : Space m pt f rest) : rest.card < 2 ^ 15 := by
  have total := congrArg Multiset.card space.owns.all
  have root : 0 < (nodes m 2 pt).card := Multiset.card_pos_iff_exists_mem.mpr ⟨pt, root_mem m 2 pt⟩
  have all := frames_length
  simp only [Multiset.card_add, Multiset.coe_card] at total
  omega

theorem Space.fill {x : Nat} (space : Space m pt f ({x} + rest)) (data : Data) :
    Space { m with page := update m.page x data } pt f ({x} + rest) ∧
      Keeps rest m { m with page := update m.page x data } := by
  have outside : ∀ y, y ∈ nodes m 2 pt → y ≠ x := by
    intro y mem same
    exact space.owns.apart mem (Multiset.mem_add.mpr (Or.inl (Multiset.mem_singleton.mpr same)))
  have apart : ∀ y ∈ rest, y ≠ x := by
    intro y mem same
    have owns := space.owns
    rw [add_left_comm] at owns
    exact owns.apart (Multiset.mem_singleton_self x) (Multiset.mem_add.mpr (Or.inr (same ▸ mem)))
  have kept : ∀ y, y ∈ nodes m 2 pt → update m.page x data y = m.page y :=
    fun y mem => update_of_ne (outside y mem) ..
  refine ⟨⟨space.tree.congr kept, ?_⟩, fun y mem => update_of_ne (apart y mem) ..⟩
  rw [nodes_congr kept]
  exact space.owns.fill (Multiset.mem_add.mpr (Or.inr (Multiset.mem_add.mpr (Or.inl (Multiset.mem_singleton_self x))))) data

theorem Space.kalloc (space : Space m pt f rest) :
    Ends E kalloc m fun r t => match r with
      | none => t = m
      | some x => x ∈ frames ∧ Space t pt f ({x} + rest) ∧ Keeps rest m t := by
  refine (kalloc_spec space.owns).imp fun r t got => ?_
  match r with
  | none => exact got
  | some x =>
    obtain ⟨fresh, owned, elsewhere⟩ := got
    have kept : Keeps (nodes m 2 pt + rest) m t := fun y mem => elsewhere y fun same => fresh (same ▸ mem)
    obtain ⟨tree, same⟩ := kept.tree (fun y mem => Multiset.mem_add.mpr (Or.inl mem)) space.tree
    refine ⟨owned.mem (Multiset.mem_add.mpr (Or.inl (Multiset.mem_singleton_self x))), ⟨tree, ?_⟩, kept.right⟩
    rw [same, add_left_comm]
    exact owned

theorem Space.kfree {x : Nat} (space : Space m pt f ({x} + rest)) :
    Ends E (kfree x) m fun _ t => Space t pt f rest ∧ Keeps rest m t := by
  have owns := space.owns
  rw [add_left_comm] at owns
  refine (kfree_spec owns).imp fun _ t ⟨freed, elsewhere⟩ => ?_
  have kept : Keeps (nodes m 2 pt + rest) m t :=
    fun y mem => elsewhere y fun same => owns.apart (Multiset.mem_singleton_self x) (same ▸ mem)
  obtain ⟨tree, same⟩ := kept.tree (fun y mem => Multiset.mem_add.mpr (Or.inl mem)) space.tree
  exact ⟨⟨tree, same ▸ freed⟩, kept.right⟩

theorem Space.mapped {x a k perm : Nat} (real : x ∈ frames) (flags : perm < 1024)
    (space : Space m pt (update f (a + k) (word x perm)) ({x} + (leaves f a k + rest))) :
    Space m pt (update f (a + k) (word x perm)) (leaves (update f (a + k) (word x perm)) a (k + 1) + rest) := by
  have before : leaves (update f (a + k) (word x perm)) a k = leaves f a k :=
    leaves_congr fun v _ high => update_of_ne (by omega) ..
  rw [leaves_last, before, update_self, PTE2PA_word (mem_frames real).1 (frame_lt real) flags, add_assoc]
  exact space

theorem undo {a k : Nat} (space : Space m pt f (leaves f a k + rest)) (mapped : ∀ v, a ≤ v → v < a + k → Leaf (f v))
    (low : a + k < 2 ^ 15) :
    Ends E (uvmdealloc pt ((a + k) * PGSIZE) (a * PGSIZE)) m fun _ t => Space t pt (cleared f a k) rest ∧ Keeps rest m t := by
  by_cases some : 0 < k
  · have shrinks : a * PGSIZE < (a + k) * PGSIZE := Nat.mul_lt_mul_of_pos_right (by omega) PGSIZE_pos
    have below : (a + k) * PGSIZE + PGSIZE ≤ MAXVA := by
      rw [← Nat.succ_mul]
      exact page_le (by omega)
    have count : pages ((a + k) * PGSIZE) - pages (a * PGSIZE) = k := by
      rw [pages_mul, pages_mul, Nat.add_sub_cancel_left]
    have space' : Space m pt f (leaves f (pages (a * PGSIZE)) (pages ((a + k) * PGSIZE) - pages (a * PGSIZE)) + rest) := by
      rw [count, pages_mul]
      exact space
    have mapped' : ∀ v, pages (a * PGSIZE) ≤ v → v < pages ((a + k) * PGSIZE) → Leaf (f v) := by
      rw [pages_mul, pages_mul]
      exact mapped
    refine (uvmdealloc_spec shrinks below space' mapped').imp fun r t done => ?_
    rw [count, pages_mul] at done
    exact done.2
  · have none : k = 0 := by omega
    subst none
    rw [cleared_zero]
    rw [leaves_zero, zero_add] at space
    unfold uvmdealloc
    rw [Nat.add_zero, if_pos (Nat.le_refl _)]
    exact ⟨space, Keeps.refl rest m⟩

theorem allocFrom_spec {a k n xperm : Nat} (space : Space m pt f (leaves f a k + rest))
    (mapped : ∀ v, a ≤ v → v < a + k → UserLeaf (f v)) (free : ∀ v, a + k ≤ v → v < ceiling → f v = 0)
    (held : a ≤ rest.card) (flags : xperm < 1024) :
    Ends E (allocFrom pt (a * PGSIZE) xperm n ((a + k) * PGSIZE)) m fun done t => Keeps rest m t ∧
      if done then ∃ g, Space t pt g (leaves g a (k + n) + rest) ∧ (∀ v, a ≤ v → v < a + (k + n) → UserLeaf (g v)) ∧
        ∀ v, v < a + k ∨ a + (k + n) ≤ v → g v = f v
      else Space t pt (cleared f a k) rest := by
  induction n generalizing m f k with
  | zero => exact ⟨Keeps.refl rest m, f, space, mapped, fun _ _ => rfl⟩
  | succ n ih =>
    have low : a + k < 2 ^ 15 := by
      have bound := Space.bound space
      rw [Multiset.card_add, leaves_card] at bound
      omega
    have top := ceiling_eq
    have page : (a + k) * PGSIZE / PGSIZE = a + k := Nat.mul_div_cancel _ PGSIZE_pos
    have perm : PTE_R ||| PTE_U ||| xperm < 1024 := Nat.or_lt_two_pow (n := 10) (by decide) flags
    unfold allocFrom
    refine (Space.kalloc space).bind fun r t got => ?_
    rcases r with _ | x
    · subst got
      exact (undo space (fun v low high => (mapped v low high).toLeaf) low).bind fun _ u done => ⟨done.2, done.1⟩
    obtain ⟨real, owned, kept⟩ := got
    obtain ⟨zeroed, kept'⟩ := Space.fill owned fun _ => 0
    have inRange : (a + k) * PGSIZE < MAXVA := page_lt (by omega)
    simp only [ends_memset_bind]
    refine (mappages_spec zeroed (by simp) inRange (frame_lt real) perm ?_).bind fun done u result => ?_
    · rw [page, free _ (Nat.le_refl _) (by omega)]
      exact not_valid_zero
    rw [page] at result
    have keeps : Keeps (leaves f a k + rest) m u := (kept.trans kept').trans result.2.right
    cases done with
    | true =>
      have grown := Space.mapped real perm result.1
      have next : (a + k) * PGSIZE + PGSIZE = (a + (k + 1)) * PGSIZE := by
        rw [← Nat.add_assoc, Nat.succ_mul]
      rw [next]
      refine (ih grown (fun v low high => ?_) (fun v low high => ?_)).imp fun done w final => ?_
      · by_cases here : v = a + k
        · rw [here, update_self]
          exact userLeaf_word flags
        · rw [update_of_ne here]
          exact mapped v low (by omega)
      · rw [update_of_ne (by omega)]
        exact free v (by omega) high
      refine ⟨keeps.right.trans final.1, ?_⟩
      have result := final.2
      cases done with
      | true =>
        obtain ⟨g, space, mapped, same⟩ := result
        have count : k + (n + 1) = k + 1 + n := by omega
        rw [count]
        refine ⟨g, space, mapped, fun v outside => ?_⟩
        rw [same v (by omega), update_of_ne (by omega)]
      | false =>
        have empty : f (a + k) = 0 := free _ (Nat.le_refl _) (by omega)
        rwa [← cleared_last empty]
    | false =>
      refine (Space.kfree result.1).bind ?_
      rintro _ w ⟨freed, kept''⟩
      refine (undo freed (fun v low high => (mapped v low high).toLeaf) low).bind fun _ z done => ?_
      exact ⟨keeps.right.trans (kept''.right.trans done.2), done.1⟩

/-- `uvmalloc` maps the pages up to the new size, or leaves the mappings as they were. -/
theorem uvmalloc_spec {oldsz newsz xperm : Nat} (space : Space m pt f rest) (grows : oldsz ≤ newsz)
    (small : oldsz + PGSIZE ≤ 2 ^ 64) (free : ∀ v, pages oldsz ≤ v → v < ceiling → f v = 0)
    (held : pages oldsz ≤ rest.card) (flags : xperm < 1024) :
    Ends E (uvmalloc pt oldsz newsz xperm) m fun r t => Keeps rest m t ∧
      ((r = newsz ∧ ∃ g, Space t pt g (leaves g (pages oldsz) (pages newsz - pages oldsz) + rest) ∧
        (∀ v, pages oldsz ≤ v → v < pages newsz → UserLeaf (g v)) ∧ ∀ v, v < pages oldsz ∨ pages newsz ≤ v → g v = f v) ∨
      (r = 0 ∧ Space t pt f rest)) := by
  have count : (newsz - pages oldsz * PGSIZE + PGSIZE - 1) / PGSIZE = pages newsz - pages oldsz := by
    simp only [pages, PGSIZE]
    omega
  have start : Space m pt f (leaves f (pages oldsz) 0 + rest) := by
    rw [leaves_zero, zero_add]
    exact space
  unfold uvmalloc
  rw [if_neg (by omega), PGROUNDUP_pages small]
  dsimp only
  rw [count]
  refine (allocFrom_spec start (fun v low high => by omega) free held flags).bind ?_
  rintro done t ⟨kept, result⟩
  cases done with
  | true =>
    obtain ⟨g, grown, mapped, same⟩ := result
    rw [Nat.zero_add] at grown mapped same
    refine ⟨kept, Or.inl ⟨rfl, g, grown, fun v low high => mapped v low (by omega), fun v outside => same v (by omega)⟩⟩
  | false =>
    have back : Space t pt (cleared f (pages oldsz) 0) rest := result
    rw [cleared_zero] at back
    exact ⟨kept, Or.inr ⟨rfl, back⟩⟩

theorem uncopy {new k : Nat} (space : Space m new g (leaves g 0 k + rest)) (mapped : ∀ v < k, Leaf (g v))
    (low : k ≤ ceiling) :
    Ends E (uvmunmap new 0 (k * PGSIZE / PGSIZE) true) m fun _ t => Space t new (cleared g 0 k) rest ∧ Keeps rest m t := by
  have top := ceiling_eq
  have fits : (0 + k) * PGSIZE ≤ MAXVA := page_le (by omega)
  rw [Nat.mul_div_cancel _ PGSIZE_pos]
  have unmapped := uvmunmap_spec (E := E) true space (fun v _ high => mapped v (by omega)) fits
  rwa [Nat.zero_mul] at unmapped

theorem copyFrom_spec {old new k n : Nat} (space : Space m new g (leaves g 0 k + rest)) (mapped : ∀ v < k, Leaf (g v))
    (free : ∀ v, k ≤ v → v < ceiling → g v = 0) (tree : Tree m 2 old f) (within : ∀ x ∈ nodes m 2 old, x ∈ rest)
    (source : ∀ v, k ≤ v → v < k + n → Leaf (f v)) (low : k + n ≤ ceiling) :
    Ends E (copyFrom old new n (k * PGSIZE)) m fun done t => Keeps rest m t ∧
      if done then ∃ h, Space t new h (leaves h 0 (k + n) + rest) ∧ (∀ v < k + n, Leaf (h v)) ∧
        ∀ v, k + n ≤ v → h v = g v
      else Space t new (cleared g 0 k) rest := by
  have top := ceiling_eq
  induction n generalizing m g k with
  | zero => exact ⟨Keeps.refl rest m, g, space, mapped, fun _ _ => rfl⟩
  | succ n ih =>
    have page : k * PGSIZE / PGSIZE = k := Nat.mul_div_cancel _ PGSIZE_pos
    have inRange : k * PGSIZE < MAXVA := page_lt (by omega)
    have here := source k (Nat.le_refl k) (by omega)
    obtain ⟨p, looked, entry⟩ := walk_source tree inRange (by rw [page]; exact here)
    rw [page] at entry
    unfold copyFrom
    have walked : Ends E (walk old (k * PGSIZE) false) m fun r t => r = some p ∧ t = m := by
      rw [Ends, looked]
      exact ⟨rfl, rfl⟩
    refine walked.bind ?_
    rintro r t ⟨same, unchanged⟩
    subst same unchanged
    simp only [ends_get_bind, entry]
    rw [if_neg (not_not.mpr here.valid)]
    refine (Space.kalloc space).bind fun r u got => ?_
    rcases r with _ | x
    · subst got
      exact (uncopy space mapped (by omega)).bind fun _ w done => ⟨done.2, done.1⟩
    obtain ⟨real, owned, kept⟩ := got
    obtain ⟨filled, kept'⟩ := Space.fill owned (u.page (PTE2PA (f k)))
    simp only [ends_modify_bind]
    refine (mappages_spec filled (by simp) inRange (frame_lt real) (PTE_FLAGS_lt _) ?_).bind fun done w result => ?_
    · rw [page, free k (Nat.le_refl k) (by omega)]
      exact not_valid_zero
    rw [page] at result
    have keeps : Keeps (leaves g 0 k + rest) t w := (kept.trans kept').trans result.2.right
    cases done with
    | true =>
      have grown := Space.mapped (a := 0) (k := k) real (PTE_FLAGS_lt (f k)) (by rw [Nat.zero_add]; exact result.1)
      rw [Nat.zero_add] at grown
      obtain ⟨tree', nodes'⟩ := keeps.right.tree within tree
      rw [← Nat.succ_mul]
      refine (ih grown (fun v low => ?_) (fun v low high => ?_) tree' (by rw [nodes']; exact within)
        (fun v low high => source v (by omega) (by omega)) (by omega)).imp fun done z final => ?_
      · by_cases last : v = k
        · rw [last, update_self]
          exact here.copied
        · rw [update_of_ne last]
          exact mapped v (by omega)
      · rw [update_of_ne (by omega)]
        exact free v (by omega) high
      refine ⟨keeps.right.trans final.1, ?_⟩
      have result := final.2
      cases done with
      | true =>
        obtain ⟨h, space, mapped, same⟩ := result
        have count : k + (n + 1) = k + 1 + n := by omega
        rw [count]
        refine ⟨h, space, mapped, fun v outside => ?_⟩
        rw [same v outside, update_of_ne (by omega)]
      | false =>
        have empty : g (0 + k) = 0 := free _ (by omega) (by omega)
        have back := cleared_last (w := word x (PTE_FLAGS (f k))) empty
        rw [Nat.zero_add] at back
        rwa [← back]
    | false =>
      refine (Space.kfree result.1).bind ?_
      rintro _ z ⟨freed, kept''⟩
      refine (uncopy freed mapped (by omega)).bind fun _ y done => ?_
      exact ⟨keeps.right.trans (kept''.right.trans done.2), done.1⟩

end Xv6Monitor.Memory.Growth
