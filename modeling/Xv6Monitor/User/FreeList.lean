import Xv6Monitor.User.Malloc
import Mathlib.Data.List.Perm.Subperm
import Mathlib.Algebra.Order.Group.Nat

/-! The free list of the allocator: a ring through `base`, with its blocks in the order of their addresses
and no two of them next to each other; `free` keeps it so. -/

namespace Xv6Monitor.User.FreeList
open Function Lib.Links Lib.Tiling Malloc

variable [layout : Layout]

/-- The blocks of the list, in the order of their addresses, and those that the program has. -/
structure Sane (h : Heap) (fl live : List Nat) : Prop where
  ring : Trail h.ptr (layout.base :: fl) layout.base
  /-- A block ends before the next one begins, and does not meet it. -/
  spaced : (layout.base :: fl).Pairwise fun a b => a + h.size a < b
  freep : ∃ f ∈ layout.base :: fl, h.freep = some f
  empty : h.size layout.base = 0
  tiles : Tiles h.size (fl ++ live) layout.start h.brk
  order : layout.start ≤ h.brk
  bound : h.brk ≤ layout.start + limit

section Search

variable {h : Heap} {fl live us vs : List Nat} {bp p : Nat}

omit layout in
theorem spaced_lt {size : Nat → Nat} {l r : List Nat} {x : Nat}
    (spaced : (l ++ x :: r).Pairwise fun a b => a + size a < b) : ∀ v ∈ r, x + size x < v :=
  (List.pairwise_cons.mp (List.pairwise_append.mp spaced).2.1).1

theorem place_iff (trail : Trail h.ptr (us ++ p :: vs) layout.base)
    (spaced : (us ++ p :: vs).Pairwise fun a b => a + h.size a < b) (low : layout.base ≤ p) (above : layout.base < bp) :
    h.place bp p = true ↔ p < bp ∧ ∀ v ∈ vs, bp < v := by
  have next : h.ptr p = vs.headD layout.base := (trail_append.mp trail).2.1
  have order := spaced_lt spaced
  unfold Heap.place
  rw [decide_eq_true_eq, next]
  rcases vs with _ | ⟨v, rest⟩
  · simp only [List.headD_nil, List.not_mem_nil, false_implies, implies_true, and_true]
    omega
  have near := order v (List.mem_cons_self ..)
  have far : ∀ w ∈ rest, v < w := by
    intro w mem
    have tail := (List.pairwise_append.mp spaced).2.1
    have less := (List.pairwise_cons.mp (List.pairwise_cons.mp tail).2).1 w mem
    omega
  rw [List.headD_cons, List.forall_mem_cons]
  constructor
  · intro ends
    refine ⟨by omega, by omega, fun w mem => ?_⟩
    have := far w mem
    omega
  · rintro ⟨less, more, -⟩
    exact Or.inl ⟨less, more⟩

omit layout in
theorem split_at (l : List Nat) {a bp : Nat} {size : Nat → Nat} (spaced : (a :: l).Pairwise fun a b => a + size a < b)
    (low : a < bp) (fresh : bp ∉ l) : ∃ us p vs, a :: l = us ++ p :: vs ∧ p < bp ∧ ∀ v ∈ vs, bp < v := by
  induction l generalizing a with
  | nil => exact ⟨[], a, [], rfl, low, fun _ mem => absurd mem List.not_mem_nil⟩
  | cons b l ih =>
    rw [List.mem_cons, not_or] at fresh
    have rest := (List.pairwise_cons.mp spaced).2
    by_cases less : b < bp
    · obtain ⟨us, p, vs, split, below, above⟩ := ih rest less fresh.2
      exact ⟨a :: us, p, vs, by rw [split]; rfl, below, above⟩
    · refine ⟨[], a, b :: l, rfl, low, List.forall_mem_cons.mpr ⟨by omega, fun v mem => ?_⟩⟩
      have := (List.pairwise_cons.mp rest).1 v mem
      omega

end Search

section Free

variable {h : Heap} {fl live us vs : List Nat} {bp p : Nat}

theorem Sane.nodup (sane : Sane h fl live) : (layout.base :: fl).Nodup := by
  refine sane.spaced.imp fun {a b} less => ?_
  omega

theorem Sane.length (sane : Sane h fl live) : (layout.base :: fl).length ≤ h.brk + 1 := by
  have inside : fl ⊆ List.range h.brk := by
    intro a mem
    have last := sane.tiles.last (List.mem_append_left _ mem)
    have some := sane.tiles.some a (List.mem_append_left _ mem)
    exact List.mem_range.mpr (by omega)
  have less := ((List.nodup_cons.mp sane.nodup).2.subperm inside).length_le
  rw [List.length_range] at less
  rw [List.length_cons]
  omega

theorem Sane.unmet (sane : Sane h fl live) {a b : Nat} (memA : a ∈ layout.base :: fl) (memB : b ∈ fl) : a + h.size a ≠ b := by
  intro meet
  have some := sane.tiles.some b (List.mem_append_left _ memB)
  obtain ⟨us, vs, split⟩ := List.append_of_mem (List.mem_cons_of_mem layout.base memB)
  have spaced := sane.spaced
  rw [split] at spaced memA
  rcases List.mem_append.mp memA with before | after
  · have less := (List.pairwise_append.mp spaced).2.2 a before b (List.mem_cons_self ..)
    omega
  · rcases List.mem_cons.mp after with rfl | after
    · omega
    · have less := spaced_lt spaced a after
      omega

structure Pending (h : Heap) (us : List Nat) (p : Nat) (vs : List Nat) (bp : Nat) (fl live : List Nat) : Prop where
  split : layout.base :: fl = us ++ p :: vs
  ring : Trail (update h.ptr p (h.ptr bp)) (us ++ p :: vs) layout.base
  spaced : (us ++ p :: vs).Pairwise fun a b => a + h.size a < b
  empty : h.size layout.base = 0
  tiles : Tiles h.size (bp :: (fl ++ live)) layout.start h.brk
  order : layout.start ≤ h.brk
  bound : h.brk ≤ layout.start + limit
  below : p < bp
  above : ∀ v ∈ vs, bp + h.size bp < v

theorem search_place (sane : Sane h fl (bp :: live)) :
    ∃ f us p vs, h.freep = some f ∧ layout.base :: fl = us ++ p :: vs ∧ p < bp ∧ (∀ v ∈ vs, bp < v) ∧
      walk h.ptr (h.place bp) (h.brk + 1) f = some p := by
  obtain ⟨f, mem, freep⟩ := sane.freep
  have low : layout.base < bp := lt_of_lt_of_le layout.below (sane.tiles.first (List.mem_append_right _ (List.mem_cons_self ..)))
  have fresh : bp ∉ fl := by
    intro wrong
    have nodup := sane.tiles.nodup
    exact (List.nodup_append.mp nodup).2.2 bp wrong bp (List.mem_cons_self ..) rfl
  have least : ∀ a ∈ layout.base :: fl, layout.base ≤ a := by
    intro a inside
    rcases List.mem_cons.mp inside with rfl | inside
    · exact le_refl _
    · exact le_of_lt (lt_of_lt_of_le layout.below (sane.tiles.first (List.mem_append_left _ inside)))
  have ends : ∀ us p vs, layout.base :: fl = us ++ p :: vs → (h.place bp p = true ↔ p < bp ∧ ∀ v ∈ vs, bp < v) := by
    intro us p vs split
    have ring := sane.ring
    have spaced := sane.spaced
    have inside : p ∈ layout.base :: fl := by
      rw [split]
      exact List.mem_append_right _ (List.mem_cons_self ..)
    rw [split] at ring spaced
    exact place_iff ring spaced (least p inside) low
  obtain ⟨us, x, vs, split, below, above⟩ := split_at fl sane.spaced low fresh
  have here : x ∈ layout.base :: fl := by
    rw [split]
    exact List.mem_append_right _ (List.mem_cons_self ..)
  have ring : Ring h.ptr (layout.base :: fl) := sane.ring
  obtain ⟨p, inside, stops, walked⟩ := walk_ring ring mem here ((ends us x vs split).mpr ⟨below, above⟩)
  obtain ⟨us, vs, split⟩ := List.append_of_mem inside
  obtain ⟨below, above⟩ := (ends us p vs split).mp stops
  exact ⟨f, us, p, vs, freep, split, below, above, walked _ sane.length⟩

theorem split_remove {v : Nat} (split : layout.base :: fl = us ++ p :: v :: vs) :
    ∃ fl', layout.base :: fl' = us ++ p :: vs ∧ fl.Perm (v :: fl') := by
  cases us with
  | nil =>
    cases split
    exact ⟨vs, rfl, List.Perm.refl _⟩
  | cons _ us =>
    obtain ⟨rfl, rfl⟩ := List.cons.inj split
    refine ⟨us ++ p :: vs, rfl, ?_⟩
    have middle : (us ++ [p] ++ v :: vs).Perm (v :: (us ++ [p] ++ vs)) := List.perm_middle
    rwa [List.append_assoc, List.append_assoc] at middle

theorem split_insert (split : layout.base :: fl = us ++ p :: vs) (v : Nat) :
    ∃ fl', layout.base :: fl' = us ++ p :: v :: vs ∧ fl'.Perm (v :: fl) := by
  cases us with
  | nil =>
    cases split
    exact ⟨v :: fl, rfl, List.Perm.refl _⟩
  | cons _ us =>
    obtain ⟨rfl, rfl⟩ := List.cons.inj split
    refine ⟨us ++ p :: v :: vs, rfl, ?_⟩
    have middle : (us ++ [p] ++ v :: vs).Perm (v :: (us ++ [p] ++ vs)) := List.perm_middle
    rwa [List.append_assoc, List.append_assoc] at middle

theorem Sane.fresh (sane : Sane h fl (bp :: live)) : bp ∉ layout.base :: fl := by
  have nodup := sane.tiles.nodup
  have first := sane.tiles.first (List.mem_append_right fl (List.mem_cons_self (a := bp) (l := live)))
  have below := layout.below
  rw [List.mem_cons, not_or]
  refine ⟨by omega, fun wrong => ?_⟩
  exact (List.nodup_append.mp nodup).2.2 bp wrong bp (List.mem_cons_self ..) rfl

theorem joined_small {size : Nat → Nat} {a b : Nat} {l : List Nat} {hi : Nat} (tiles : Tiles size (a :: b :: l) layout.start hi)
    (meet : a + size a = b) (bound : hi ≤ layout.start + limit) : (size a + size b) % 2 ^ 32 = size a + size b := by
  have last := tiles.last (List.mem_cons_of_mem _ (List.mem_cons_self ..))
  have first := tiles.first (List.mem_cons_self ..)
  have small : limit < 2 ^ 32 := by decide
  exact Nat.mod_eq_of_lt (by omega)

structure Frame (h t : Heap) (live : List Nat) : Prop where
  brk : t.brk = h.brk
  sizes : ∀ a ∈ live, t.size a = h.size a

variable (sane : Sane h fl (bp :: live))
include sane

theorem mergeUp_apart (split : layout.base :: fl = us ++ p :: vs) (below : p < bp)
    (above : ∀ v ∈ vs, bp + h.size bp < v) (apart : bp + h.size bp ≠ h.ptr p) :
    Pending (h.mergeUp bp p) us p vs bp fl live := by
  have fresh := sane.fresh
  have ring := sane.ring
  have spaced := sane.spaced
  rw [split] at ring spaced fresh
  unfold Heap.mergeUp
  rw [if_neg apart]
  refine ⟨split, ?_, spaced, sane.empty, ?_, sane.order, sane.bound, below, above⟩
  · refine ring.congr fun a mem => ?_
    dsimp only
    rw [update_self]
    by_cases here : a = p
    · rw [here, update_self]
    · rw [update_of_ne here, update_of_ne]
      rintro rfl
      exact fresh mem
  · exact sane.tiles.perm List.perm_middle

theorem mergeUp_meet {v : Nat} (split : layout.base :: fl = us ++ p :: v :: vs) (below : p < bp)
    (meet : bp + h.size bp = v) : ∃ fl', Pending (h.mergeUp bp p) us p vs bp fl' live ∧
      (h.mergeUp bp p).size bp = h.size bp + h.size v := by
  obtain ⟨fl', split', perm⟩ := split_remove split
  have fresh := sane.fresh
  have nodup := sane.nodup
  have ring := sane.ring
  have spaced := sane.spaced
  rw [split] at ring spaced fresh nodup
  have next : h.ptr p = v := (trail_append.mp ring).2.1
  have tiles : Tiles h.size (bp :: v :: (fl' ++ live)) layout.start h.brk := by
    refine sane.tiles.perm (List.perm_middle.trans (List.Perm.cons _ ?_))
    exact perm.append_right live
  have sum := joined_small tiles meet sane.bound
  have away : ∀ a ∈ us ++ p :: vs, a ≠ bp := by
    rintro a mem rfl
    refine fresh (List.Sublist.subset ?_ mem)
    exact List.Sublist.append_left ((List.sublist_cons_self v vs).cons_cons p) us
  have spaced' : (us ++ p :: vs).Pairwise fun a b => a + h.size a < b :=
    spaced.sublist (List.Sublist.append_left ((List.sublist_cons_self v vs).cons_cons p) us)
  refine ⟨fl', ?_, ?_⟩
  · unfold Heap.mergeUp
    rw [if_pos (meet.trans next.symm), next, sum]
    refine ⟨split', ?_, ?_, ?_, tiles.join meet, sane.order, sane.bound, below, fun w mem => ?_⟩
    · refine (ring.remove nodup).congr fun a mem => ?_
      dsimp only
      rw [update_self]
      by_cases here : a = p
      · rw [here, update_self, update_self]
      · rw [update_of_ne here, update_of_ne here, update_of_ne (away a mem)]
    · refine spaced'.imp_of_mem fun memA _ less => ?_
      dsimp only
      rw [update_of_ne (away _ memA)]
      exact less
    · refine (update_of_ne (away _ ?_) ..).trans sane.empty
      rw [← split']
      exact List.mem_cons_self ..
    · dsimp only
      rw [update_self]
      have tail := (List.pairwise_append.mp spaced).2.1
      have far := (List.pairwise_cons.mp (List.pairwise_cons.mp tail).2).1 w mem
      omega
  · unfold Heap.mergeUp
    rw [if_pos (meet.trans next.symm), next, sum]
    exact update_self ..

theorem mergeUp_frame (p : Nat) : Frame h (h.mergeUp bp p) live := by
  have nodup := sane.tiles.nodup
  have outside : bp ∉ live := (List.nodup_cons.mp (List.nodup_append.mp nodup).2.1).1
  unfold Heap.mergeUp
  dsimp only
  split
  · refine ⟨rfl, fun a mem => update_of_ne ?_ ..⟩
    rintro rfl
    exact outside mem
  · exact ⟨rfl, fun _ _ => rfl⟩

theorem mergeUp_pending (split : layout.base :: fl = us ++ p :: vs) (below : p < bp)
    (above : ∀ v ∈ vs, bp < v) :
    ∃ fl' vs', Pending (h.mergeUp bp p) us p vs' bp fl' live ∧ h.size bp ≤ (h.mergeUp bp p).size bp := by
  have ring := sane.ring
  have spaced := sane.spaced
  rw [split] at ring spaced
  have next : h.ptr p = vs.headD layout.base := (trail_append.mp ring).2.1
  have first := sane.tiles.first (List.mem_append_right fl (List.mem_cons_self (a := bp) (l := live)))
  have base := layout.below
  by_cases meet : bp + h.size bp = h.ptr p
  · cases vs with
    | nil =>
      rw [next, List.headD_nil] at meet
      omega
    | cons v vs =>
      obtain ⟨fl', pending, size⟩ := mergeUp_meet sane split below (meet.trans next)
      exact ⟨fl', vs, pending, by omega⟩
  · refine ⟨fl, vs, mergeUp_apart sane split below (fun v mem => ?_) meet, ?_⟩
    · have ends : ∀ v ∈ vs, bp + h.size bp ≤ v := by
        intro v mem
        have behind := above v mem
        have listed : v ∈ layout.base :: fl := by
          rw [split]
          exact List.mem_append_right _ (List.mem_cons_of_mem _ mem)
        have inside : v ∈ fl := (List.mem_cons.mp listed).resolve_left (by omega)
        rcases (List.pairwise_append.mp sane.tiles.apart).2.2 v inside bp (List.mem_cons_self ..) with wrong | apart
        · omega
        · exact apart
      rcases vs with _ | ⟨w, vs⟩
      · exact absurd mem List.not_mem_nil
      rw [next, List.headD_cons] at meet
      have near := ends w (List.mem_cons_self ..)
      rcases List.mem_cons.mp mem with rfl | mem
      · omega
      · have tail := (List.pairwise_append.mp spaced).2.1
        have far := (List.pairwise_cons.mp (List.pairwise_cons.mp tail).2).1 v mem
        omega
    · unfold Heap.mergeUp
      rw [if_neg meet]

omit sane

variable (pending : Pending h us p vs bp fl live)
include pending

theorem Pending.before : p + h.size p ≤ bp ∧ (p + h.size p = bp → p ∈ fl) ∧ bp ∉ us ++ p :: vs := by
  have first := pending.tiles.first (List.mem_cons_self ..)
  have base := layout.below
  have below := pending.below
  have apart := List.pairwise_cons.mp pending.tiles.apart
  have listed : p ∈ layout.base :: fl := by
    rw [pending.split]
    exact List.mem_append_right _ (List.mem_cons_self ..)
  have fresh : bp ∉ us ++ p :: vs := by
    rw [← pending.split, List.mem_cons, not_or]
    refine ⟨by omega, fun wrong => ?_⟩
    exact (List.nodup_cons.mp pending.tiles.nodup).1 (List.mem_append_left _ wrong)
  rcases List.mem_cons.mp listed with rfl | inside
  · have empty := pending.empty
    exact ⟨by omega, fun wrong => by omega, fresh⟩
  · refine ⟨?_, fun _ => inside, fresh⟩
    rcases apart.1 p (List.mem_append_left _ inside) with wrong | less
    · omega
    · exact less

theorem mergeDown_meet (meet : p + h.size p = bp) :
    Sane { h.mergeDown bp p with freep := some p } fl live ∧ (h.mergeDown bp p).size p = h.size p + h.size bp := by
  obtain ⟨-, inside, fresh⟩ := pending.before
  have inside := inside meet
  have split := pending.split
  have tiles : Tiles h.size (p :: bp :: (fl.erase p ++ live)) layout.start h.brk := by
    refine pending.tiles.perm ((List.Perm.cons bp ?_).trans (List.Perm.swap ..))
    exact (List.perm_cons_erase inside).append_right live
  have sum := joined_small tiles meet pending.bound
  have joined := tiles.join meet
  have nodup : (us ++ p :: vs).Nodup := pending.spaced.imp fun {a b} less => by omega
  unfold Heap.mergeDown
  rw [if_pos meet, sum]
  refine ⟨⟨?_, ?_, ⟨p, List.mem_cons_of_mem _ inside, rfl⟩, ?_, ?_, pending.order, pending.bound⟩, update_self ..⟩
  · rw [split]
    exact pending.ring
  · rw [split]
    refine pending.spaced.imp_of_mem fun {a b} _ memB less => ?_
    dsimp only
    by_cases here : a = p
    · subst here
      rw [update_self]
      have behind : b ∈ vs := by
        rcases List.mem_append.mp memB with wrong | memB
        · have := (List.pairwise_append.mp pending.spaced).2.2 b wrong a (List.mem_cons_self ..)
          omega
        · exact (List.mem_cons.mp memB).resolve_left (by omega)
      have above := pending.above b behind
      omega
    · rw [update_of_ne here]
      exact less
  · refine (update_of_ne ?_ ..).trans pending.empty
    rw [← split] at nodup
    rintro rfl
    exact (List.nodup_cons.mp nodup).1 inside
  · exact joined.perm ((List.perm_cons_erase inside).append_right live).symm

theorem mergeDown_apart (apart : p + h.size p ≠ bp) :
    ∃ fl', Sane { h.mergeDown bp p with freep := some p } fl' live ∧ bp ∈ fl' ∧
      (h.mergeDown bp p).ptr p = bp := by
  obtain ⟨fl', split, perm⟩ := split_insert pending.split bp
  obtain ⟨before, -, fresh⟩ := pending.before
  have below := pending.below
  have nodup : (us ++ p :: vs).Nodup := pending.spaced.imp fun {a b} less => by omega
  unfold Heap.mergeDown
  rw [if_neg apart]
  refine ⟨fl', ⟨?_, ?_, ⟨p, ?_, rfl⟩, pending.empty, ?_, pending.order, pending.bound⟩, ?_, update_self ..⟩
  · rw [split]
    refine (pending.ring.insert fresh nodup).congr fun a _ => ?_
    dsimp only
    by_cases here : a = p
    · rw [here, update_self, update_self]
    · rw [update_of_ne here, update_of_ne here]
      by_cases new : a = bp
      · rw [new, update_self, update_self]
      · rw [update_of_ne new, update_of_ne here]
  · rw [split]
    obtain ⟨front, rest, cross⟩ := List.pairwise_append.mp pending.spaced
    obtain ⟨behind, back⟩ := List.pairwise_cons.mp rest
    refine List.pairwise_append.mpr ⟨front, List.pairwise_cons.mpr ⟨?_, List.pairwise_cons.mpr ⟨pending.above, back⟩⟩,
      fun a mem b mem' => ?_⟩
    · exact List.forall_mem_cons.mpr ⟨lt_of_le_of_ne before apart, behind⟩
    rcases List.mem_cons.mp mem' with rfl | mem'
    · exact cross a mem b (List.mem_cons_self ..)
    · rcases List.mem_cons.mp mem' with rfl | mem'
      · have less := cross a mem p (List.mem_cons_self ..)
        exact less.trans below
      · exact cross a mem b (List.mem_cons_of_mem _ mem')
  · rw [split]
    exact List.mem_append_right _ (List.mem_cons_self ..)
  · exact pending.tiles.perm (perm.append_right live).symm
  · exact perm.mem_iff.mpr (List.mem_cons_self ..)

theorem mergeDown_frame : Frame h (h.mergeDown bp p) live := by
  unfold Heap.mergeDown
  split
  next meet =>
    obtain ⟨-, inside, -⟩ := pending.before
    have nodup := (List.nodup_cons.mp pending.tiles.nodup).2
    refine ⟨rfl, fun a mem => update_of_ne ?_ ..⟩
    rintro rfl
    exact (List.nodup_append.mp nodup).2.2 a (inside meet) a mem rfl
  · exact ⟨rfl, fun _ _ => rfl⟩

omit pending

/-- What `free` leaves: the list is in order, and it has a block with all of the freed one, either where
`freep` is or right after it. -/
structure Freed (h t : Heap) (bp : Nat) (fl' live : List Nat) : Prop where
  sane : Sane t fl' live
  frame : Frame h t live
  found : ∃ p q, t.freep = some p ∧ q ∈ fl' ∧ (q = p ∨ t.ptr p = q) ∧ h.size bp ≤ t.size q

theorem free_spec (sane : Sane h fl (bp :: live)) : ∃ t fl', h.free (bp + 1) = some t ∧ Freed h t bp fl' live := by
  obtain ⟨f, us, p, vs, freep, split, below, above, walked⟩ := search_place sane
  obtain ⟨fl₁, vs₁, pending, grown⟩ := mergeUp_pending sane split below above
  have up := mergeUp_frame sane p
  have down := mergeDown_frame pending
  have frame : Frame h ((h.mergeUp bp p).mergeDown bp p) live :=
    ⟨down.brk.trans up.brk, fun a mem => (down.sizes a mem).trans (up.sizes a mem)⟩
  have ran : h.free (bp + 1) = some { (h.mergeUp bp p).mergeDown bp p with freep := some p } := by
    unfold Heap.free
    rw [freep]
    show (walk h.ptr (h.place bp) (h.brk + 1) f).bind _ = _
    rw [walked]
    rfl
  by_cases meet : p + (h.mergeUp bp p).size p = bp
  · obtain ⟨after, size⟩ := mergeDown_meet pending meet
    obtain ⟨-, inside, -⟩ := pending.before
    refine ⟨_, fl₁, ran, after, ⟨frame.brk, frame.sizes⟩, p, p, rfl, inside meet, Or.inl rfl, ?_⟩
    show h.size bp ≤ ((h.mergeUp bp p).mergeDown bp p).size p
    omega
  · obtain ⟨fl', after, mem, linked⟩ := mergeDown_apart pending meet
    refine ⟨_, fl', ran, after, ⟨frame.brk, frame.sizes⟩, p, bp, rfl, mem, Or.inr linked, ?_⟩
    have same : ((h.mergeUp bp p).mergeDown bp p).size = (h.mergeUp bp p).size := by
      rw [Heap.mergeDown, if_neg meet]
    rw [same]
    exact grown

end Free

end Xv6Monitor.User.FreeList
