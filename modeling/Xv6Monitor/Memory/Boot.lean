import Xv6Monitor.Memory.Access

/-! The memory that booting leaves, and the memory of the first process. -/

namespace Xv6Monitor.Memory.Boot
open Function Stops Lib.Bytes Lib.Program Frames Tables Words Spaces Mappings Growth Users

def takePages : Nat → Prog Halt Ram (List Nat)
  | 0 => pure []
  | n + 1 => do
    match ← kalloc with
    | none => pure []
    | some x => do
      let more ← takePages n
      pure (x :: more)

variable {E : Halt → Prop} {m t : Ram} {pt trapframe : Nat} {f : Nat → Nat} {rest : Multiset Nat}

theorem kalloc_enough {n : Nat} (enough : n + 1 ≤ m.freelist.length) :
    Ends E kalloc m fun r t => (∃ x, r = some x) ∧ n ≤ t.freelist.length := by
  unfold kalloc
  rw [ends_get_bind]
  cases free : m.freelist with
  | nil =>
    rw [free] at enough
    exact absurd enough (by simp)
  | cons r _ =>
    rw [free] at enough
    exact ⟨⟨r, rfl⟩, Nat.le_of_succ_le_succ enough⟩

theorem walkFrom_enough {va level n : Nat} (enough : n + level ≤ m.freelist.length) :
    Ends E (walkFrom va true level pt) m fun r t => (∃ p, r = some p) ∧ n ≤ t.freelist.length := by
  induction level generalizing m pt with
  | zero => exact ⟨⟨_, rfl⟩, enough⟩
  | succ level ih =>
    unfold walkFrom
    rw [ends_get_bind]
    by_cases valid : Valid (pte m ⟨pt, PX (level + 1) va⟩)
    · simp only [if_pos valid]
      exact ih (by omega)
    · simp only [if_neg valid]
      refine (kalloc_enough (n := n + level) (by omega)).bind fun r t ⟨⟨x, got⟩, left⟩ => ?_
      subst got
      exact ih left

theorem mappages_enough {va pa perm n : Nat} (enough : n + 2 ≤ m.freelist.length) :
    Ends (fun _ => True) (mappages pt va PGSIZE pa perm) m fun done t => done = true ∧ n ≤ t.freelist.length := by
  have one : PGSIZE / PGSIZE = 1 := Nat.div_self PGSIZE_pos
  unfold mappages
  split
  · trivial
  split
  · trivial
  split
  · trivial
  rw [one]
  unfold mapFrom walk
  split
  · trivial
  refine (walkFrom_enough enough).bind ?_
  rintro r t ⟨⟨p, got⟩, left⟩
  subst got
  simp only [ends_get_bind]
  split
  · trivial
  · exact ⟨rfl, left⟩

theorem uvmcreate_enough {n : Nat} (enough : n + 1 ≤ m.freelist.length) :
    Ends E uvmcreate m fun r t => (∃ x, r = some x) ∧ n ≤ t.freelist.length := by
  unfold uvmcreate
  refine (kalloc_enough enough).bind fun r t ⟨⟨x, got⟩, left⟩ => ?_
  subst got
  exact ⟨⟨x, rfl⟩, left⟩

variable [image : Image]

theorem procPagetable_enough {n : Nat} (enough : n + 5 ≤ m.freelist.length) :
    Ends (fun _ => True) (procPagetable trapframe) m fun r t => (∃ x, r = some x) ∧ n ≤ t.freelist.length := by
  unfold procPagetable
  refine (uvmcreate_enough (n := n + 4) (by omega)).bind fun r t ⟨⟨x, got⟩, left⟩ => ?_
  subst got
  refine (mappages_enough (n := n + 2) left).bind fun done u ⟨mapped, left⟩ => ?_
  subst mapped
  refine (mappages_enough left).bind fun done w ⟨mapped, left⟩ => ?_
  subst mapped
  exact ⟨⟨x, rfl⟩, left⟩

theorem freerange_spec {p n : Nat} (inside : ∀ i < n, ¬Foreign (p + i * PGSIZE)) (below : ∀ x ∈ m.freelist, x < p)
    (linked : Linked m) : Ends E (freerange p n) m fun _ t => Linked t ∧
      (t.freelist : Multiset Nat) = ((List.range n).map fun i => p + i * PGSIZE : List Nat) + ↑m.freelist := by
  induction n generalizing p m with
  | zero =>
    refine ⟨linked, ?_⟩
    simp
  | succ n ih =>
    have first : ¬Foreign p := by
      have first := inside 0 (Nat.succ_pos n)
      rwa [Nat.zero_mul, Nat.add_zero] at first
    have next : ∀ i, p + PGSIZE + i * PGSIZE = p + (i + 1) * PGSIZE := fun i => by rw [Nat.succ_mul]; omega
    have high := PHYSTOP_eq
    simp only [Foreign, not_or, not_not, Nat.not_lt, Nat.not_le] at first
    have small : m.freelist.headD 0 < 2 ^ 64 := by
      cases listed : m.freelist with
      | nil => decide
      | cons r list =>
        have low := below r (by simp [listed])
        rw [List.headD_cons]
        omega
    unfold freerange
    rw [ends_bind]
    refine kfree_ends (by simp only [Foreign]; omega) fun u list elsewhere link => ?_
    refine (ih (fun i low => ?_) (fun x mem => ?_) ?_).imp fun _ t after => ⟨after.1, ?_⟩
    · rw [next]
      exact inside (i + 1) (by omega)
    · have some := PGSIZE_pos
      rw [list] at mem
      rcases List.mem_cons.mp mem with rfl | mem
      · omega
      · have := below x mem
        omega
    · unfold Linked
      rw [list]
      exact chained_push linked (fun mem => Nat.lt_irrefl p (below p mem)) small link elsewhere
    · rw [after.2, list, List.range_succ_eq_map]
      simp only [List.map_cons, List.map_map, Nat.zero_mul, Nat.add_zero, Function.comp_def, next]
      rw [← Multiset.cons_coe, ← Multiset.cons_coe, Multiset.add_cons, Multiset.cons_add]

variable [origin : Origin]

theorem kinit_spec (empty : m.freelist = []) : Ends E kinit m fun _ t => Owns t 0 := by
  unfold kinit
  refine (freerange_spec (fun i low => ?_) ?_ ?_).imp fun _ t ⟨linked, free⟩ => ⟨?_, fun _ => linked⟩
  · exact frame_not_foreign (List.mem_map.mpr ⟨i, List.mem_range.mpr low, rfl⟩)
  · simp [empty]
  · rw [Linked, empty]
    trivial
  · rw [free, empty, Multiset.coe_nil, add_zero, add_zero]
    rfl

theorem takePages_spec (n : Nat) (owns : Owns m rest) : Ends E (takePages n) m fun taken t => Owns t (↑taken + rest) := by
  induction n generalizing m rest with
  | zero =>
    rw [← zero_add rest] at owns
    exact owns
  | succ n ih =>
    unfold takePages
    refine (kalloc_spec owns).bind fun r t got => ?_
    match r with
    | none =>
      subst got
      rw [← zero_add rest] at owns
      exact owns
    | some x =>
      refine (ih got.2.1).bind fun more t owns => ?_
      rw [add_left_comm, ← add_assoc, Multiset.singleton_add, Multiset.cons_coe] at owns
      exact owns

theorem boot_owns (content : Nat → Data) (n : Nat) :
    Ends E (kinit >>= fun _ => takePages n) ⟨content, []⟩ fun taken t => Owns t ↑taken := by
  refine (kinit_spec rfl).bind fun _ u owns => (takePages_spec n owns).imp fun taken t owns => ?_
  rwa [add_zero] at owns

omit origin in
/-- Booting leaves the free list linked. -/
theorem boot_linked (content : Nat → Data) (n : Nat) :
    Ends E (kinit >>= fun _ => takePages n) ⟨content, []⟩ fun _ t => Linked t := by
  let : Origin := ⟨⟨content, []⟩⟩
  exact (boot_owns content n).imp fun _ t owns => owns.linked trivial

/-- The memory after `kinit` and the allocations of booting, which have left room for the first process:
`userinit` does not look whether all of its allocations succeed. -/
structure Booted (taken : List Nat) (m : Ram) : Prop where
  pages : ∃ (content : Nat → Data) (n : Nat) (t : Ram),
    (kinit >>= fun _ => takePages n) ⟨content, []⟩ = .ok (taken, t) ∧ t.freelist = m.freelist
  room : 9 ≤ m.freelist.length

structure Began (taken : List Nat) (m : Ram) : Prop extends Booted taken m where
  linked : Linked origin.ram → Linked m

theorem Began.owns {taken : List Nat} (began : Began taken m) : Owns m ↑taken := by
  obtain ⟨content, n, t, ran, same⟩ := began.pages
  have owns := ((boot_owns content n).ok (E := fun _ => True) ran).all
  rw [same] at owns
  exact ⟨owns, began.linked⟩

theorem uvmfirst_spec {src : Data} {sz : Nat} (mapped : Mapped f m pt 0 trapframe rest) (small : sz < PGSIZE)
    (enough : 3 ≤ m.freelist.length) :
    Ends E (uvmfirst pt src sz) m fun _ t => Resident t pt 1 trapframe rest ∧ Keeps rest m t := by
  have shape := mapped.shape
  have above := ceiling_above
  have start : Space m pt f rest := by
    have space := mapped.space
    rw [leaves_zero, zero_add] at space
    exact space
  have flags : PTE_W ||| PTE_R ||| PTE_X ||| PTE_U < 1024 := by decide
  have page : 0 / PGSIZE = 0 := Nat.zero_div PGSIZE
  have inRange : 0 < MAXVA := by
    rw [MAXVA_eq]
    decide
  unfold uvmfirst
  rw [if_neg (Nat.not_le.mpr small)]
  refine ((Space.kalloc start).and (kalloc_enough (E := E) (n := 2) enough)).stops (fun _ both => both.1) |>.bind
    fun r t ⟨got, ⟨x, here⟩, left⟩ => ?_
  subst here
  obtain ⟨real, space, kept⟩ := got
  obtain ⟨zeroed, kept'⟩ := Space.fill space fun _ => 0
  simp only [ends_memset_bind]
  have empty : ¬Valid (f (0 / PGSIZE)) := by
    rw [page, shape.none 0 (Nat.le_refl 0) (by omega) (by omega)]
    exact not_valid_zero
  refine ((mappages_spec zeroed (Nat.zero_mod _) inRange (frame_lt real) flags empty).and (mappages_enough left)).stops (fun _ both => both.1) |>.bind fun done u both => ?_
  obtain ⟨⟨space', kept''⟩, yes, -⟩ := both
  subst yes
  rw [page] at space'
  obtain ⟨space₃, kept₃⟩ := Space.fill space' (splice (u.page x) 0 sz src)
  have grown : Space { u with page := update u.page x (splice (u.page x) 0 sz src) } pt
      (update f 0 (word x (PTE_W ||| PTE_R ||| PTE_X ||| PTE_U)))
      (leaves (update f 0 (word x (PTE_W ||| PTE_R ||| PTE_X ||| PTE_U))) 0 1 + rest) := by
    rw [← zero_add rest] at space₃
    exact Space.mapped (a := 0) (k := 0) real flags space₃
  refine ⟨⟨_, ⟨fun v under => ?_, ?_, ?_, fun v high frame line => ?_, by omega⟩, grown⟩,
    ((kept.trans kept').trans kept''.right).trans kept₃⟩
  · have here : v = 0 := by omega
    rw [here]
    exact leaf_word flags (by decide)
  · rw [update_of_ne (by omega), shape.trapframe]
  · rw [update_of_ne (by omega), shape.trampoline]
  · rw [update_of_ne (by omega)]
    exact shape.none v (Nat.zero_le v) frame line

end Xv6Monitor.Memory.Boot
