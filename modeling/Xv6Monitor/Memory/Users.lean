import Xv6Monitor.Memory.Release

/-! The address space of a process: its user memory from `0` on, the trapframe and the trampoline. -/

namespace Xv6Monitor.Memory.Users
open Function Stops Lib.Program Frames Tables Words Trees Spaces Mappings Growth Release

theorem TRAPFRAME_eq : TRAPFRAME = ceiling * PGSIZE := by rw [ceiling_eq, TRAPFRAME_page]

theorem TRAMPOLINE_eq : TRAMPOLINE = (ceiling + 1) * PGSIZE := by rw [ceiling_eq, TRAMPOLINE_page]

theorem ceiling_above : 2 ^ 15 < ceiling := by
  rw [ceiling_eq]
  decide

variable [image : Image] {E : Halt → Prop} {m t : Ram} {pt n trapframe : Nat} {f g : Nat → Nat} {rest : Multiset Nat}

/-- The mappings of a process with `n` pages of user memory. -/
structure Shape (f : Nat → Nat) (n trapframe : Nat) : Prop where
  user : ∀ v < n, Leaf (f v)
  trapframe : f ceiling = word trapframe (PTE_R ||| PTE_W)
  trampoline : f (ceiling + 1) = word image.trampoline (PTE_R ||| PTE_X)
  none : ∀ v, n ≤ v → v ≠ ceiling → v ≠ ceiling + 1 → f v = 0
  below : n ≤ ceiling

theorem Shape.leaf_trapframe (shape : Shape f n trapframe) : Leaf (f ceiling) := by
  rw [shape.trapframe]
  exact leaf_word (by decide) (by decide)

theorem Shape.leaf_trampoline (shape : Shape f n trapframe) : Leaf (f (ceiling + 1)) := by
  rw [shape.trampoline]
  exact leaf_word (by decide) (by decide)

/-- The mappings between the two calls of `mappages` in `proc_pagetable`. -/
def started : Nat → Nat := update (fun _ => 0) (ceiling + 1) (word image.trampoline (PTE_R ||| PTE_X))

theorem started_ceiling : started ceiling = 0 := update_of_ne (by omega) ..

theorem shape_new (trapframe : Nat) :
    Shape (update started ceiling (word trapframe (PTE_R ||| PTE_W))) 0 trapframe where
  user := fun v under => absurd under (Nat.not_lt_zero v)
  trapframe := update_self ..
  trampoline := (update_of_ne (by omega) ..).trans (update_self ..)
  none := fun _ _ notFrame notLine => (update_of_ne notFrame ..).trans (update_of_ne notLine ..)
  below := Nat.zero_le _

variable [origin : Origin]

/-- The table at `pt` has these mappings, and its pages, the pages it maps as user memory and `rest` are
all that is allocated. -/
structure Mapped (f : Nat → Nat) (m : Ram) (pt n trapframe : Nat) (rest : Multiset Nat) : Prop where
  shape : Shape f n trapframe
  space : Space m pt f (leaves f 0 n + rest)

def Resident (m : Ram) (pt n trapframe : Nat) (rest : Multiset Nat) : Prop := ∃ f, Mapped f m pt n trapframe rest

theorem Mapped.bound (mapped : Mapped f m pt n trapframe rest) : n < 2 ^ 15 := by
  have bound := Space.bound mapped.space
  rw [Multiset.card_add, leaves_card] at bound
  omega

theorem uvmfree_spec (space : Space m pt f (leaves f 0 n + rest)) (user : ∀ v < n, Leaf (f v))
    (none : ∀ v, n ≤ v → f v = 0) {sz : Nat} (size : pages sz = n) (low : n ≤ ceiling) :
    Ends E (uvmfree pt sz) m fun _ t => Owns t rest ∧ Keeps rest m t := by
  have free : ∀ {k : Ram}, Space k pt (cleared f 0 n) rest → Keeps rest m k →
      Ends E (freewalk 3 pt) k fun _ t => Owns t rest ∧ Keeps rest m t := by
    intro k emptied kept
    have zero : Tree k 2 pt fun _ => 0 := by
      refine emptied.tree.ext fun v _ => ?_
      by_cases inside : v < n
      · rw [cleared, if_pos (by omega)]
      · rw [cleared, if_neg (by omega), none v (by omega)]
    exact (freewalk_spec zero emptied.owns).imp fun _ t done => ⟨done.1, kept.trans done.2⟩
  unfold uvmfree
  by_cases some : 0 < sz
  · have top := ceiling_eq
    have small : sz + PGSIZE ≤ 2 ^ 64 := by
      simp only [pages, PGSIZE] at *
      omega
    have fits : (0 + n) * PGSIZE ≤ MAXVA := page_le (by omega)
    rw [if_pos some, PGROUNDUP_pages small, Nat.mul_div_cancel _ PGSIZE_pos, size]
    have unmapped := uvmunmap_spec (E := E) true space (fun v _ high => user v (by omega)) fits
    rw [Nat.zero_mul] at unmapped
    exact unmapped.bind fun _ k done => free done.1 done.2
  · have zero : n = 0 := by
      simp only [pages, PGSIZE] at size
      omega
    rw [if_neg some]
    subst zero
    rw [leaves_zero, zero_add] at space
    exact free space (Keeps.refl rest m)

theorem procFreepagetable_spec {sz : Nat} (resident : Resident m pt (pages sz) trapframe rest) :
    Ends E (procFreepagetable pt sz) m fun _ t => Owns t rest ∧ Keeps rest m t := by
  obtain ⟨f, shape, space⟩ := resident
  have top := ceiling_eq
  unfold procFreepagetable
  rw [TRAMPOLINE_eq, TRAPFRAME_eq]
  have first : Space m pt f ((if false = true then leaves f (ceiling + 1) 1 else 0) + (leaves f 0 (pages sz) + rest)) := by
    rw [if_neg (by decide), zero_add]
    exact space
  have fits : (ceiling + 1 + 1) * PGSIZE ≤ MAXVA := page_le (by omega)
  refine (uvmunmap_spec false first (fun v low high => ?_) fits).bind fun _ t ⟨stepped, kept⟩ => ?_
  · have here : v = ceiling + 1 := by omega
    rw [here]
    exact shape.leaf_trampoline
  have second : Space t pt (cleared f (ceiling + 1) 1)
      ((if false = true then leaves (cleared f (ceiling + 1) 1) ceiling 1 else 0) + (leaves f 0 (pages sz) + rest)) := by
    rw [if_neg (by decide), zero_add]
    exact stepped
  have fits' : (ceiling + 1) * PGSIZE ≤ MAXVA := page_le (by omega)
  refine (uvmunmap_spec false second (fun v low high => ?_) fits').bind fun _ u ⟨stepped', kept'⟩ => ?_
  · have here : v = ceiling := by omega
    rw [here, cleared, if_neg (by omega)]
    exact shape.leaf_trapframe
  have below := shape.below
  have low : ∀ v, v < ceiling → cleared (cleared f (ceiling + 1) 1) ceiling 1 v = f v := by
    intro v under
    rw [cleared, if_neg (by omega), cleared, if_neg (by omega)]
  have pagesSame : leaves f 0 (pages sz) = leaves (cleared (cleared f (ceiling + 1) 1) ceiling 1) 0 (pages sz) :=
    leaves_congr fun v _ high => (low v (by omega)).symm
  rw [pagesSame] at stepped'
  refine (uvmfree_spec stepped' (fun v under => ?_) (fun v above => ?_) rfl below).imp fun _ w done => ?_
  · rw [low v (by omega)]
    exact shape.user v under
  · by_cases isTrapframe : v = ceiling
    · rw [isTrapframe, cleared, if_pos (by omega)]
    · by_cases isTrampoline : v = ceiling + 1
      · rw [isTrampoline, cleared, if_neg (by omega), cleared, if_pos (by omega)]
      · rw [cleared, if_neg (by omega), cleared, if_neg (by omega)]
        exact shape.none v above isTrapframe isTrampoline
  · exact ⟨done.1, (kept.trans kept').right.trans done.2⟩

theorem uvmcreate_spec (owns : Owns m rest) :
    Ends E uvmcreate m fun r t => Keeps rest m t ∧ match r with
      | none => Owns t rest
      | some pt => Space t pt (fun _ => 0) rest := by
  unfold uvmcreate
  refine (kalloc_spec owns).bind fun r t got => ?_
  match r with
  | none =>
    subst got
    exact ⟨Keeps.refl rest t, owns⟩
  | some x =>
    obtain ⟨fresh, owned, elsewhere⟩ := got
    have zero : ∀ i, update t.page x (fun _ => 0) x i = 0 := fun i => by rw [update_self]
    obtain ⟨tree, alone⟩ := blank (m := { t with page := update t.page x fun _ => 0 }) 2 zero
    have apart : ∀ y ∈ rest, y ≠ x := fun y mem same => fresh (same ▸ mem)
    refine ⟨fun y mem => ?_, tree, ?_⟩
    · exact (update_of_ne (apart y mem) ..).trans (elsewhere y (apart y mem))
    · rw [alone]
      exact owned.fill (Multiset.mem_add.mpr (Or.inl (Multiset.mem_singleton_self x))) _

theorem uvmfree_empty (space : Space m pt (fun _ => 0) rest) :
    Ends E (uvmfree pt 0) m fun _ t => Owns t rest ∧ Keeps rest m t := by
  rw [← Nat.zero_mul PGSIZE]
  refine uvmfree_spec (n := 0) (f := fun _ => 0) ?_ (fun v under => by omega) (fun _ _ => rfl) (pages_mul 0) (Nat.zero_le _)
  rw [leaves_zero, zero_add]
  exact space

theorem unmap_started (space : Space m pt started rest) :
    Ends E (uvmunmap pt ((ceiling + 1) * PGSIZE) 1 false) m fun _ t => Space t pt (fun _ => 0) rest ∧ Keeps rest m t := by
  have top := ceiling_eq
  have first : Space m pt started ((if false = true then leaves started (ceiling + 1) 1 else 0) + rest) := by
    rw [if_neg (by decide), zero_add]
    exact space
  refine (uvmunmap_spec false first (fun v low high => ?_) (page_le (by omega))).imp fun _ t done => ?_
  · have here : v = ceiling + 1 := by omega
    rw [here, started, update_self]
    exact leaf_word (by decide) (by decide)
  have zero : cleared started (ceiling + 1) 1 = fun _ => 0 := by
    funext v
    by_cases here : v = ceiling + 1
    · rw [cleared, if_pos (by omega)]
    · rw [cleared, if_neg (by omega), started, update_of_ne here]
  rwa [zero] at done

theorem procPagetable_spec (owns : Owns m rest) (real : trapframe ∈ frames) :
    Ends E (procPagetable trapframe) m fun r t => Keeps rest m t ∧ match r with
      | none => Owns t rest
      | some pt => Resident t pt 0 trapframe rest := by
  have top := ceiling_eq
  have trampoline : image.trampoline < 2 ^ 64 := by
    have below := image.trampoline_below
    have kend := image.kend_below
    rw [PHYSTOP_eq] at kend
    omega
  have page : ∀ v, v * PGSIZE / PGSIZE = v := fun v => Nat.mul_div_cancel v PGSIZE_pos
  unfold procPagetable
  rw [TRAMPOLINE_eq, TRAPFRAME_eq]
  refine (uvmcreate_spec owns).bind fun r t ⟨kept, made⟩ => ?_
  match r with
  | none => exact ⟨kept, made⟩
  | some pt =>
    refine (mappages_spec made (by simp) (page_lt (by omega)) trampoline (by decide) not_valid_zero).bind
      fun done u ⟨space, kept'⟩ => ?_
    rw [page] at space
    cases done with
    | false => exact (uvmfree_empty space).bind fun _ w done => ⟨(kept.trans kept').trans done.2, done.1⟩
    | true =>
      have empty : ¬Valid (started (ceiling * PGSIZE / PGSIZE)) := by
        rw [page, started_ceiling]
        exact not_valid_zero
      refine (mappages_spec space (by simp) (page_lt (by omega)) (frame_lt real) (by decide) empty).bind
        fun done w ⟨space', kept''⟩ => ?_
      rw [page] at space'
      have keeps := (kept.trans kept').trans kept''
      cases done with
      | true =>
        refine ⟨keeps, _, shape_new trapframe, ?_⟩
        rw [leaves_zero, zero_add]
        exact space'
      | false =>
        refine (unmap_started space').bind fun _ y ⟨emptied, kept₃⟩ => ?_
        exact (uvmfree_empty emptied).bind fun _ z done => ⟨(keeps.trans kept₃).trans done.2, done.1⟩

end Xv6Monitor.Memory.Users
