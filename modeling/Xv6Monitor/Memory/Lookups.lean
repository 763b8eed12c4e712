import Xv6Monitor.Memory.Mappings

/-! A page table as a partial map from virtual pages to physical pages with flags: what `mappages` adds to it
and what `uvmunmap` takes away. -/

namespace Xv6Monitor.Memory.Lookups
open Function Stops Lib.Program Process.Table Frames Tables Words Trees Spaces Mappings

def mapping (w : Nat) : Option (Nat × Nat) := if Valid w then some (PTE2PA w, PTE_FLAGS w) else none

def lookup (m : Ram) (pt va : Nat) : Option (Nat × Nat) := (slot m va 2 pt).bind fun p => mapping (pte m p)

section Entries

variable {m : Ram} {pt va pa flags w : Nat} {f : Nat → Nat}

theorem mapping_none : mapping w = none ↔ ¬Valid w := by
  unfold mapping
  split
  next valid => exact iff_of_false nofun (not_not.mpr valid)
  next invalid => exact iff_of_true rfl invalid

theorem mapping_zero : mapping 0 = none := mapping_none.mpr not_valid_zero

theorem mapping_some {pair : Nat × Nat} (mapped : mapping w = some pair) :
    Valid w ∧ PTE2PA w = pair.1 ∧ PTE_FLAGS w = pair.2 := by
  unfold mapping at mapped
  obtain ⟨valid, ⟨⟩⟩ := Option.ite_none_right_eq_some.mp mapped
  exact ⟨valid, rfl, rfl⟩

theorem mapping_word (aligned : pa % PGSIZE = 0) (low : pa < 2 ^ 64) (bound : flags < 1024) :
    mapping (word pa flags) = some (pa, flags ||| PTE_V) := by
  have small : flags ||| 1 < 1024 := Nat.or_lt_two_pow (n := 10) bound (by decide)
  have kept : PTE_FLAGS (word pa flags) = flags ||| PTE_V := by
    rw [PTE_FLAGS_eq, word_eq bound, Nat.mul_add_mod, Nat.mod_eq_of_lt small, PTE_V]
  rw [mapping, if_pos (word_valid bound), PTE2PA_word aligned low bound, kept]

theorem lookup_eq (tree : Tree m 2 pt f) (below : va < MAXVA) : lookup m pt va = mapping (f (va / PGSIZE)) := by
  rw [lookup]
  cases found : slot m va 2 pt with
  | none =>
    have zero := tree.slot_none found
    rw [vpn_eq below] at zero
    rw [zero]
    rfl
  | some _ =>
    have entry := tree.slot_some found
    rw [vpn_eq below] at entry
    rw [← entry]
    rfl

end Entries

def nth (pa k : Nat) : Nat := uint64 (pa + k * PGSIZE)

theorem nth_zero {pa : Nat} (low : pa < 2 ^ 64) : nth pa 0 = pa := by
  rw [nth, Nat.zero_mul]
  exact uint64_of_lt low

theorem nth_succ (pa k : Nat) : nth (nth pa 1) k = nth pa (k + 1) := by
  have sum : pa + (k + 1) * PGSIZE = pa + 1 * PGSIZE + k * PGSIZE := by
    rw [Nat.add_mul, Nat.add_comm (k * PGSIZE), Nat.add_assoc]
  rw [nth, nth, nth, sum, uint64, uint64, uint64, Nat.mod_add_mod]

theorem nth_lt (pa k : Nat) : nth pa k < 2 ^ 64 := Nat.mod_lt _ (by decide)

theorem nth_aligned {pa : Nat} (aligned : pa % PGSIZE = 0) (k : Nat) : nth pa k % PGSIZE = 0 := by
  rw [nth, uint64]
  simp only [PGSIZE] at *
  omega

section Ranges

variable [image : Image] {E : Halt → Prop} {m : Ram} {pt pa perm : Nat} {f : Nat → Nat} {rest : Multiset Nat}

theorem mapFrom_spec [origin : Origin] {n a : Nat} (space : Space m pt f rest) (aligned : pa % PGSIZE = 0) (low : pa < 2 ^ 64)
    (flags : perm < 1024) (below : a + n ≤ 67108864) (empty : ∀ v, a ≤ v → v < a + n → ¬Valid (f v)) :
    Ends E (mapFrom pt perm n (a * PGSIZE) pa) m fun done t => ∃ g, Space t pt g rest ∧
      (∀ v, v < a ∨ a + n ≤ v → g v = f v) ∧ (done = true → ∀ k < n, g (a + k) = word (nth pa k) perm) := by
  induction n generalizing m f a pa with
  | zero => exact ⟨f, space, fun _ _ => rfl, fun _ k less => absurd less (Nat.not_lt_zero k)⟩
  | succ n ih =>
    have here : a * PGSIZE < MAXVA := page_lt (by omega)
    have page : a * PGSIZE / PGSIZE = a := Nat.mul_div_cancel a PGSIZE_pos
    unfold mapFrom
    refine (walk_spec space here).bind ?_
    rintro r t ⟨walked, _, found⟩
    rcases r with _ | p
    · exact ⟨f, walked, fun _ _ => rfl, fun all => absurd all Bool.false_ne_true⟩
    have entry : pte t p = f a := by rw [walked.tree.slot_some (found p rfl), vpn_eq here, page]
    rw [ends_get_bind, if_neg (entry ▸ empty a (Nat.le_refl a) (by omega))]
    obtain ⟨mapped, -⟩ := walked.put here (found p rfl) (word_lt low flags)
    rw [page] at mapped
    have later : ∀ v, a + 1 ≤ v → v < a + 1 + n → ¬Valid (update f a (word pa perm) v) := by
      intro v lower upper
      rw [update_of_ne (by omega)]
      exact empty v (by omega) (by omega)
    have next : a * PGSIZE + PGSIZE = (a + 1) * PGSIZE := (Nat.succ_mul a PGSIZE).symm
    have advance : uint64 (pa + PGSIZE) = nth pa 1 := by rw [nth, Nat.one_mul]
    have rounds := ih mapped (nth_aligned aligned 1) (nth_lt pa 1) (by omega) later
    rw [← next, ← advance] at rounds
    refine rounds.imp ?_
    rintro done u ⟨g, space', outside, inside⟩
    refine ⟨g, space', fun v apart => ?_, fun all k less => ?_⟩
    · rw [outside v (by omega), update_of_ne (by omega)]
    rcases k with _ | k
    · rw [Nat.add_zero, outside a (by omega), update_self, nth_zero low]
    · rw [← nth_succ, ← advance, ← inside all k (by omega)]
      congr 1
      omega

theorem unmapFrom_clears (doFree : Bool) {n a : Nat} (tree : Tree m 2 pt f) (nodup : (nodes m 2 pt).Nodup)
    (below : a + n ≤ 67108864) (mapped : ∀ v, a ≤ v → v < a + n → Valid (f v) ∧ PTE_FLAGS (f v) ≠ PTE_V)
    (apart : doFree = true → ∀ v, a ≤ v → v < a + n → PTE2PA (f v) ∉ nodes m 2 pt)
    (stops : doFree = true → ∀ v, a ≤ v → v < a + n → Foreign (PTE2PA (f v)) → E (.vm .kfree)) :
    Ends E (unmapFrom pt doFree n (a * PGSIZE)) m fun _ t => Tree t 2 pt (cleared f a n) := by
  induction n generalizing m f a with
  | zero =>
    rw [cleared_zero]
    exact tree
  | succ n ih =>
    have low : a * PGSIZE < MAXVA := page_lt (by omega)
    have page : a * PGSIZE / PGSIZE = a := Nat.mul_div_cancel a PGSIZE_pos
    have first := mapped a (Nat.le_refl a) (by omega)
    -- The rest of the loop, once the entry is cleared.
    have rest : ∀ (u : Ram) (p : Entry), Tree u 2 pt f → nodes u 2 pt = nodes m 2 pt → slot u (a * PGSIZE) 2 pt = some p →
        Ends E (unmapFrom pt doFree n (a * PGSIZE + PGSIZE)) (put u p 0) fun _ t => Tree t 2 pt (cleared f a (n + 1)) := by
      intro u p tree same found
      obtain ⟨cleared, kept⟩ := tree.put (same ▸ nodup) found (w := 0) (by decide)
      rw [vpn_eq low, page] at cleared
      have next : a * PGSIZE + PGSIZE = (a + 1) * PGSIZE := (Nat.succ_mul a PGSIZE).symm
      have other : ∀ v, a + 1 ≤ v → update f a 0 v = f v := fun v lower => update_of_ne (by omega) ..
      rw [next, ← cleared_head]
      refine ih cleared (by rw [kept, same]; exact nodup) (by omega) (fun v lower upper => ?_) (fun freed v lower upper => ?_)
        fun freed v lower upper => ?_
      · rw [other v lower]
        exact mapped v (by omega) (by omega)
      · rw [other v lower, kept, same]
        exact apart freed v (by omega) (by omega)
      · rw [other v lower]
        exact stops freed v (by omega) (by omega)
    unfold unmapFrom
    have looked : Ends E (walk pt (a * PGSIZE) false) m fun r t => r = slot m (a * PGSIZE) 2 pt ∧ t = m := by
      rw [Ends, walk_lookup low]
      exact ⟨rfl, rfl⟩
    refine looked.bind ?_
    rintro r t ⟨at_, same⟩
    subst same
    subst at_
    cases found : slot t (a * PGSIZE) 2 pt with
    | none =>
      have zero := tree.slot_none found
      rw [vpn_eq low, page] at zero
      exact absurd (zero ▸ first.1) not_valid_zero
    | some p =>
      have entry : pte t p = f a := by rw [tree.slot_some found, vpn_eq low, page]
      rw [ends_get_bind]
      rw [entry, if_neg (not_not.mpr first.1), if_neg first.2]
      cases doFree with
      | false => exact rest t p tree rfl found
      | true =>
        rw [if_pos rfl, ends_bind]
        by_cases foreign : Foreign (PTE2PA (f a))
        · unfold kfree
          rw [if_pos foreign]
          exact stops rfl a (Nat.le_refl a) (by omega) foreign
        refine kfree_ends foreign fun u _ elsewhere _ => ?_
        have kept : ∀ x ∈ nodes t 2 pt, u.page x = t.page x := by
          intro x mem
          exact elsewhere x fun here => apart rfl a (Nat.le_refl a) (by omega) (here ▸ mem)
        exact rest u p (tree.congr kept) (nodes_congr kept) ((slot_congr kept).trans found)

end Ranges

/-- A well-formed page table: its pages are pages of the allocator, all different, and neither free nor mapped. -/
structure PageTable [image : Image] where
  ram : Ram
  root : Nat
  entries : Nat → Nat
  tree : Tree ram 2 root entries
  owned : ↑ram.freelist + nodes ram 2 root ≤ (frames : Multiset Nat)
  data : ∀ v, Valid (entries v) → PTE2PA (entries v) ∉ nodes ram 2 root

/-- A table that shares no page with what it maps. -/
def PageTable.ofSpace [image : Image] [origin : Origin] {m : Ram} {pt : Nat} {f : Nat → Nat} {rest : Multiset Nat} (space : Space m pt f rest)
    (data : ∀ v, Valid (f v) → PTE2PA (f v) ∈ rest) : PageTable where
  ram := m
  root := pt
  entries := f
  tree := space.tree
  owned := by
    rw [← space.owns.all, ← add_assoc]
    exact Multiset.le_add_right ..
  data := fun v valid mem => space.owns.apart mem (data v valid)

section Small

attribute [local instance] smallImage

def smallEntries : Nat → Nat := update (fun _ => 0) 1 (word 2281639936 (PTE_R ||| PTE_W ||| PTE_U))

theorem smallEntries_one : smallEntries 1 = word 2281639936 (PTE_R ||| PTE_W ||| PTE_U) := update_self ..

theorem smallEntries_only {v : Nat} (valid : Valid (smallEntries v)) : v = 1 := by
  by_contra other
  rw [smallEntries, update_of_ne other] at valid
  exact not_valid_zero valid

def spareRam : Ram := ⟨fun _ _ => 0, frames.drop 2⟩

theorem smallTable : ∃ s : PageTable, s.entries = smallEntries := by
  have zero : ∀ i, spareRam.page 2281635840 i = 0 := fun _ => rfl
  obtain ⟨tree, alone⟩ := blank 2 zero
  let : Origin := ⟨spareRam⟩
  have space : Space spareRam 2281635840 (fun _ => 0) {2281639936} := by
    refine ⟨tree, ?_, id⟩
    rw [alone]
    decide +kernel
  have done : (mappages 2281635840 4096 PGSIZE 2281639936 (PTE_R ||| PTE_W ||| PTE_U) spareRam).toOption.any (·.1) = true := by
    decide +kernel
  have maps : Ends (fun _ => False) (mappages 2281635840 4096 PGSIZE 2281639936 (PTE_R ||| PTE_W ||| PTE_U)) spareRam _ :=
    mappages_spec space (by decide +kernel) (by decide +kernel) (by decide) (by decide) not_valid_zero
  obtain ⟨r, t, ran, mapped, -⟩ := maps.returns
  rw [ran] at done
  rw [if_pos (show r = true from done), show 4096 / PGSIZE = 1 by decide +kernel] at mapped
  refine ⟨.ofSpace mapped fun v valid => Multiset.mem_singleton.mpr ?_, rfl⟩
  rw [smallEntries_only valid, update_self]
  exact PTE2PA_word (by decide +kernel) (by decide) (by decide)

end Small

section Maps

variable [image : Image]

namespace PageTable

variable (s : PageTable)

theorem space [origin : Origin] (linked : Linked origin.ram → Linked s.ram) :
    Space s.ram s.root s.entries (↑frames - (↑s.ram.freelist + nodes s.ram 2 s.root)) := by
  refine ⟨s.tree, ?_, linked⟩
  rw [← add_assoc]
  exact add_tsub_cancel_of_le s.owned

theorem nodes_nodup : (nodes s.ram 2 s.root).Nodup :=
  (Multiset.nodup_add.mp (Multiset.nodup_of_le s.owned (Multiset.coe_nodup.mpr frames_nodup))).2.1

theorem lookup_entries {va : Nat} (below : va < MAXVA) : lookup s.ram s.root va = mapping (s.entries (va / PGSIZE)) :=
  lookup_eq s.tree below

end PageTable

omit image in
theorem page_range {va size a : Nat} (aligned : va % PGSIZE = 0) (whole : size % PGSIZE = 0) :
    a / PGSIZE < va / PGSIZE ∨ va / PGSIZE + size / PGSIZE ≤ a / PGSIZE ↔ a < va ∨ va + size ≤ a := by
  simp only [PGSIZE] at *
  omega

/-- `mappages` maps every page of its range and no other, or leaves at least all others as they were; `uvmunmap`
removes the pages of its range and no other. -/
theorem page_table_map (s : PageTable) :
    (∀ va size pa perm, va % PGSIZE = 0 → size ≠ 0 → va + size ≤ MAXVA → pa % PGSIZE = 0 → pa < 2 ^ 64 → perm < 1024 →
      perm &&& (PTE_R ||| PTE_W ||| PTE_X) ≠ 0 → (∀ a, va ≤ a → a < va + size → lookup s.ram s.root a = none) →
      Ends (fun e => e = .vm .sizeNotAligned ∧ size % PGSIZE ≠ 0) (mappages s.root va size pa perm) s.ram fun done t =>
        (done = true → ∀ k, k * PGSIZE < size →
          lookup t s.root (va + k * PGSIZE) = some (uint64 (pa + k * PGSIZE), perm ||| PTE_V)) ∧
        ∀ a < MAXVA, a < va ∨ va + size ≤ a → lookup t s.root a = lookup s.ram s.root a) ∧
    (∀ va npages doFree, va % PGSIZE = 0 → va + npages * PGSIZE ≤ MAXVA →
      (∀ a, va ≤ a → a < va + npages * PGSIZE → ∃ pa flags, lookup s.ram s.root a = some (pa, flags) ∧ flags ≠ PTE_V) →
      Ends (fun e => e = .vm .kfree ∧ doFree = true ∧ ∃ a, va ≤ a ∧ a < va + npages * PGSIZE ∧
          ∃ pa flags, lookup s.ram s.root a = some (pa, flags) ∧ Foreign pa)
        (uvmunmap s.root va npages doFree) s.ram fun _ t =>
        ∀ a < MAXVA, lookup t s.root a =
          if va ≤ a ∧ a < va + npages * PGSIZE then none else lookup s.ram s.root a) := by
  constructor
  · intro va size pa perm aligned some fits paAligned low flags _ empty
    unfold mappages
    rw [if_neg (not_not.mpr aligned)]
    by_cases whole : size % PGSIZE = 0
    · have start : va / PGSIZE * PGSIZE = va := Nat.div_mul_cancel (Nat.dvd_of_mod_eq_zero aligned)
      have bound : va / PGSIZE + size / PGSIZE ≤ 67108864 := by
        rw [MAXVA_eq] at fits
        simp only [PGSIZE] at *
        omega
      have unmapped : ∀ v, va / PGSIZE ≤ v → v < va / PGSIZE + size / PGSIZE → ¬Valid (s.entries v) := by
        intro v lower upper
        have inside : va ≤ v * PGSIZE ∧ v * PGSIZE < va + size := by
          simp only [PGSIZE] at *
          omega
        have none := empty _ inside.1 inside.2
        rw [s.lookup_entries (by omega), Nat.mul_div_cancel v PGSIZE_pos] at none
        exact mapping_none.mp none
      rw [if_neg (not_not.mpr whole), if_neg some, ← start]
      let : Origin := ⟨s.ram⟩
      refine (mapFrom_spec (s.space id) paAligned low flags bound unmapped).imp ?_
      rintro done t ⟨g, space, outside, inside⟩
      refine ⟨fun all k less => ?_, fun a below apart => ?_⟩
      · rw [start, lookup_eq space.tree (by omega)]
        have number : (va + k * PGSIZE) / PGSIZE = va / PGSIZE + k := Nat.add_mul_div_right _ _ PGSIZE_pos
        have within : k < size / PGSIZE := by
          simp only [PGSIZE] at *
          omega
        rw [number, inside all k within, mapping_word (nth_aligned paAligned k) (nth_lt pa k) flags, nth]
      · rw [start] at apart
        rw [lookup_eq space.tree below, s.lookup_entries below, outside _ ((page_range aligned whole).mpr apart)]
    · rw [if_pos whole]
      exact ⟨rfl, whole⟩
  · intro va npages doFree aligned fits mapped
    have start : va / PGSIZE * PGSIZE = va := Nat.div_mul_cancel (Nat.dvd_of_mod_eq_zero aligned)
    have bound : va / PGSIZE + npages ≤ 67108864 := by
      rw [MAXVA_eq] at fits
      simp only [PGSIZE] at *
      omega
    have inside : ∀ v, va / PGSIZE ≤ v → v < va / PGSIZE + npages → va ≤ v * PGSIZE ∧ v * PGSIZE < va + npages * PGSIZE := by
      intro v lower upper
      simp only [PGSIZE] at *
      omega
    have entry : ∀ v, va / PGSIZE ≤ v → v < va / PGSIZE + npages →
        lookup s.ram s.root (v * PGSIZE) = mapping (s.entries v) := by
      intro v lower upper
      rw [s.lookup_entries (Nat.lt_of_lt_of_le (inside v lower upper).2 fits), Nat.mul_div_cancel v PGSIZE_pos]
    have leaf : ∀ v, va / PGSIZE ≤ v → v < va / PGSIZE + npages → Valid (s.entries v) ∧ PTE_FLAGS (s.entries v) ≠ PTE_V := by
      intro v lower upper
      obtain ⟨pa, flags, looked, leaf⟩ := mapped _ (inside v lower upper).1 (inside v lower upper).2
      rw [entry v lower upper] at looked
      obtain ⟨valid, -, same⟩ := mapping_some looked
      exact ⟨valid, by rw [same]; exact leaf⟩
    unfold uvmunmap
    rw [if_neg (not_not.mpr aligned), ← start]
    refine (unmapFrom_clears doFree s.tree s.nodes_nodup bound leaf (fun _ v lower upper => s.data v (leaf v lower upper).1)
      fun freed v lower upper foreign => ?_).imp fun _ t tree a below => ?_
    · rw [start]
      refine ⟨rfl, freed, v * PGSIZE, (inside v lower upper).1, (inside v lower upper).2, PTE2PA (s.entries v),
        PTE_FLAGS (s.entries v), ?_, foreign⟩
      rw [entry v lower upper, mapping, if_pos (leaf v lower upper).1]
    · have range := page_range (a := a) aligned (Nat.mul_mod_left npages PGSIZE)
      rw [Nat.mul_div_cancel npages PGSIZE_pos] at range
      rw [start, lookup_eq tree below, s.lookup_entries below, cleared]
      by_cases within : va ≤ a ∧ a < va + npages * PGSIZE
      · rw [if_pos within, if_pos (by omega), mapping_zero]
      · rw [if_neg within, if_neg (by omega)]

end Maps

/-- A page is mapped, another one is mapped beside it, and the first one is given back. -/
theorem page_table_map_small :
    letI := smallImage
    ∃ s : PageTable, lookup s.ram s.root 4096 = some (2281639936, 23) ∧
    (Ends (fun _ => False) (mappages s.root 8192 4096 2281656320 PTE_R) s.ram fun done t =>
      (done = true → lookup t s.root 8192 = some (2281656320, 3)) ∧ lookup t s.root 4096 = some (2281639936, 23)) ∧
    Ends (fun _ => False) (uvmunmap s.root 4096 1 true) s.ram fun _ t => lookup t s.root 4096 = none := by
  let := smallImage
  obtain ⟨s, entries⟩ := smallTable
  have looked : ∀ a < 12288, lookup s.ram s.root a = mapping (smallEntries (a / PGSIZE)) := fun a below => by
    rw [s.lookup_entries (lt_trans below (by decide +kernel)), entries]
  have first : ∀ a, 4096 ≤ a → a < 8192 → lookup s.ram s.root a = some (2281639936, 23) := by
    intro a low high
    rw [looked a (by omega), show a / PGSIZE = 1 by simp only [PGSIZE]; omega, smallEntries_one]
    exact mapping_word (by decide +kernel) (by decide) (by decide)
  have second : ∀ a, 8192 ≤ a → a < 12288 → lookup s.ram s.root a = none := by
    intro a low high
    rw [looked a (by omega), show a / PGSIZE = 2 by simp only [PGSIZE]; omega]
    exact mapping_zero
  obtain ⟨maps, unmaps⟩ := page_table_map s
  have pages : PGSIZE = 4096 := by decide +kernel
  refine ⟨s, first 4096 (by omega) (by omega), ?_, ?_⟩
  · have mapped := maps 8192 4096 2281656320 PTE_R (by decide +kernel) (by decide) (by decide +kernel) (by decide +kernel)
      (by decide) (by decide) (by decide) second
    refine (mapped.stops fun e stopped => stopped.2 (by decide +kernel)).imp fun done t after => ?_
    obtain ⟨inside, outside⟩ := after
    refine ⟨fun all => ?_, ?_⟩
    · have page := inside all 0 (by omega)
      rw [Nat.zero_mul, Nat.add_zero, Nat.add_zero, uint64_of_lt (by decide)] at page
      exact page
    · rw [outside 4096 (by decide +kernel) (by omega)]
      exact first 4096 (by omega) (by omega)
  · have unmapped := unmaps 4096 1 true (by decide +kernel) (by decide +kernel) fun a low high =>
      ⟨_, _, first a low (by omega), by decide⟩
    refine (unmapped.stops fun e stopped => ?_).imp fun _ t after => ?_
    · obtain ⟨-, -, a, low, high, pa, flags, found, foreign⟩ := stopped
      rw [first a low (by omega)] at found
      cases found
      exact absurd foreign (by decide +kernel)
    · rw [after 4096 (by decide +kernel), if_pos (by omega)]

end Xv6Monitor.Memory.Lookups
