import Xv6Monitor.User.FreeList

/-! `malloc` keeps the free list in order and finds room whenever it gets memory, so that in every run the
blocks of a program are its own. -/

namespace Xv6Monitor.User.Allocation
open Function Lib.Bytes Lib.Links Lib.Tiling Lib.Transition Malloc FreeList

variable [layout : Layout]

section Allocate

variable {h : Heap} {fl live : List Nat} {n prevp : Nat}

structure Given (h t : Heap) (n ap : Nat) (live : List Nat) : Prop where
  sane : ∃ fl, Sane t fl ((ap - 1) :: live)
  real : ap ≠ 0
  size : t.size (ap - 1) = n
  others : ∀ a ∈ live, t.size a = h.size a

theorem allocate_whole {us vs : List Nat} {p : Nat} (sane : Sane h fl live)
    (split : layout.base :: fl = us ++ prevp :: p :: vs) :
    ∃ fl', Sane { h with ptr := update h.ptr prevp (h.ptr p), freep := some prevp } fl' (p :: live) := by
  obtain ⟨fl', split', perm⟩ := split_remove split
  have ring := sane.ring
  have nodup := sane.nodup
  have spaced := sane.spaced
  rw [split] at ring nodup spaced
  refine ⟨fl', ?_, ?_, ⟨prevp, ?_, rfl⟩, sane.empty, ?_, sane.order, sane.bound⟩
  · rw [split']
    exact ring.remove nodup
  · rw [split']
    exact spaced.sublist (List.Sublist.append_left ((List.sublist_cons_self p vs).cons_cons prevp) us)
  · rw [split']
    exact List.mem_append_right _ (List.mem_cons_self ..)
  · refine sane.tiles.perm ((perm.append_right live).trans ?_)
    exact List.perm_middle.symm

theorem allocate_end {p : Nat} (sane : Sane h fl live) (mem : prevp ∈ layout.base :: fl) (inside : p ∈ fl) (part : 0 < n)
    (less : n < h.size p) :
    Sane { h with
      size := update (update h.size p (h.size p - n)) (p + (h.size p - n)) n, freep := some prevp } fl
      ((p + (h.size p - n)) :: live) := by
  have tiles : Tiles h.size (p :: (fl.erase p ++ live)) layout.start h.brk :=
    sane.tiles.perm ((List.perm_cons_erase inside).append_right live)
  have cut := tiles.split part less
  have whole : (p :: (p + (h.size p - n)) :: (fl.erase p ++ live)).Perm (fl ++ (p + (h.size p - n)) :: live) := by
    refine (List.Perm.swap ..).trans (List.Perm.trans ?_ List.perm_middle.symm)
    exact ((List.perm_cons_erase inside).append_right live).symm.cons _
  have final := cut.perm whole
  have new : p + (h.size p - n) ∉ layout.base :: fl := by
    have first := final.first (List.mem_append_right fl (List.mem_cons_self ..))
    have base := layout.below
    rw [List.mem_cons, not_or]
    refine ⟨by omega, fun wrong => ?_⟩
    exact (List.nodup_append.mp final.nodup).2.2 _ wrong _ (List.mem_cons_self ..) rfl
  have smaller : ∀ a ∈ layout.base :: fl,
      update (update h.size p (h.size p - n)) (p + (h.size p - n)) n a ≤ h.size a := by
    intro a mem
    have other : a ≠ p + (h.size p - n) := by
      rintro rfl
      exact new mem
    rw [update_of_ne other]
    by_cases here : a = p
    · rw [here, update_self]
      exact Nat.sub_le ..
    · rw [update_of_ne here]
  refine ⟨sane.ring, ?_, ⟨prevp, mem, rfl⟩, ?_, final, sane.order, sane.bound⟩
  · refine sane.spaced.imp_of_mem fun memA _ less => lt_of_le_of_lt ?_ less
    exact Nat.add_le_add_left (smaller _ memA) _
  · have zero := smaller layout.base (List.mem_cons_self ..)
    rw [sane.empty] at zero
    exact Nat.le_zero.mp zero

theorem allocate_spec (sane : Sane h fl live) (mem : prevp ∈ layout.base :: fl) (part : 0 < n)
    (fits : n ≤ h.size (h.ptr prevp)) : Given h (h.allocate n prevp).1 n (h.allocate n prevp).2 live := by
  obtain ⟨us, vs, split⟩ := List.append_of_mem mem
  have ring := sane.ring
  rw [split] at ring
  have next : h.ptr prevp = vs.headD layout.base := (trail_append.mp ring).2.1
  rcases vs with _ | ⟨p, vs⟩
  · rw [next, List.headD_nil, sane.empty] at fits
    omega
  rw [List.headD_cons] at next
  rw [next] at fits
  obtain ⟨fl', -, perm⟩ := split_remove split
  have inside : p ∈ fl := perm.mem_iff.mpr (List.mem_cons_self ..)
  have others : ∀ a ∈ live, a ≠ p := by
    rintro a mem rfl
    exact (List.nodup_append.mp sane.tiles.nodup).2.2 a inside a mem rfl
  unfold Heap.allocate
  rw [next]
  by_cases exactly : h.size p = n
  · rw [if_pos exactly]
    exact ⟨allocate_whole sane split, Nat.succ_ne_zero p, exactly, fun _ _ => rfl⟩
  rw [if_neg exactly]
  have after := allocate_end sane mem inside part (lt_of_le_of_ne fits (Ne.symm exactly))
  refine ⟨⟨fl, after⟩, Nat.succ_ne_zero _, update_self .., fun a mem => ?_⟩
  have outside := (List.nodup_cons.mp (List.nodup_append.mp after.tiles.nodup).2.1).1
  have new : a ≠ p + (h.size p - n) := by
    rintro rfl
    exact outside mem
  dsimp only
  rw [update_of_ne new, update_of_ne (others a mem)]

end Allocate

section Malloc

variable {h : Heap} {fl live : List Nat} {n : Nat}

omit layout in
theorem toInt_small (small : n < 2 ^ 31) : toInt n = n := by
  rw [toInt_eq]
  omega

theorem extend_sane (sane : Sane h fl live) (more : 0 < n) (room : h.brk + n ≤ limit) :
    Sane { h with brk := h.brk + n, size := update h.size h.brk n } fl (h.brk :: live) := by
  have outside : ∀ a ∈ layout.base :: fl, a ≠ h.brk := by
    intro a mem
    have base := layout.below
    have order := sane.order
    rcases List.mem_cons.mp mem with rfl | mem
    · omega
    · have last := sane.tiles.last (List.mem_append_left _ mem)
      have some := sane.tiles.some a (List.mem_append_left _ mem)
      omega
  refine ⟨sane.ring, ?_, sane.freep, ?_, ?_, ?_, ?_⟩
  · refine sane.spaced.imp_of_mem fun memA _ less => ?_
    dsimp only
    rw [update_of_ne (outside _ memA)]
    exact less
  · exact (update_of_ne (outside _ (List.mem_cons_self ..)) ..).trans sane.empty
  · exact (sane.tiles.extend more sane.order).perm List.perm_middle.symm
  · exact le_trans sane.order (Nat.le_add_right ..)
  · exact le_trans room (Nat.le_add_left ..)

def Roomy (t : Heap) (n : Nat) (fl : List Nat) : Prop :=
  ∃ p q, t.freep = some p ∧ q ∈ fl ∧ (q = p ∨ t.ptr p = q) ∧ n ≤ t.size q

theorem morecore_spec (sane : Sane h fl live) (small : n * headerSize < 2 ^ 31) (grant : Bool) :
    h.morecore n grant = some (h, false) ∨ ∃ t fl', h.morecore n grant = some (t, true) ∧ Sane t fl' live ∧ Roomy t n fl' ∧
      ∀ a ∈ live, t.size a = h.size a := by
  -- The number of units that is asked for.
  obtain ⟨m, asked, enough, more, fits⟩ : ∃ m, (if n < 4096 then 4096 else n) = m ∧ n ≤ m ∧ 0 < m ∧ m * headerSize < 2 ^ 31 := by
    unfold headerSize at small ⊢
    split
    · exact ⟨4096, rfl, by omega, by omega, by omega⟩
    · exact ⟨n, rfl, le_refl n, by omega, small⟩
  have bytes : (m * headerSize : Int) / headerSize = m := Int.mul_ediv_cancel _ (by decide)
  unfold Heap.morecore Heap.sbrk
  dsimp only
  rw [asked, toInt_small fits]
  push_cast
  rw [bytes]
  by_cases given : grant = true ∧ (h.brk : Int) + m ≤ limit
  · right
    have moved : resized h.brk m = h.brk + m := by exact_mod_cast resized_up h.brk (Int.natCast_nonneg m)
    rw [if_pos (Or.inr given), moved]
    have room : h.brk + m ≤ limit := by exact_mod_cast given.2
    obtain ⟨t, fl', freed, after⟩ := free_spec (extend_sane sane more room)
    refine ⟨t, fl', congrArg (fun r => r.bind fun h => some (h, true)) freed, after.sane, ?_, fun a mem => ?_⟩
    · obtain ⟨p, q, freep, inside, near, size⟩ := after.found
      dsimp only at size
      rw [update_self] at size
      exact ⟨p, q, freep, inside, near, enough.trans size⟩
    · have last := sane.tiles.last (List.mem_append_right fl mem)
      have some := sane.tiles.some a (List.mem_append_right fl mem)
      exact (after.frame.sizes a mem).trans (update_of_ne (by omega) ..)
  · left
    rw [if_neg]
    rintro (wrong | granted)
    · unfold headerSize at wrong
      omega
    · exact given granted

/-- The result of `malloc`: nothing, or a block of `n` units. -/
def Outcome (h : Heap) (n : Nat) (live : List Nat) : Heap × Option Nat → Prop
  | (t, none) => (∃ fl, Sane t fl live) ∧ ∀ a ∈ live, t.size a = h.size a
  | (t, some ap) => Given h t n ap live

/-- A search either finds a block or comes back to `freep`. -/
theorem search_spec (sane : Sane h fl live) (n : Nat) : ∃ f prevp, h.freep = some f ∧ prevp ∈ layout.base :: fl ∧
    walk h.ptr (h.fits n f) (h.brk + 1) f = some prevp ∧ (n ≤ h.size (h.ptr prevp) ∨ h.ptr prevp = f) ∧
    (n ≤ h.size (h.ptr f) → prevp = f) := by
  obtain ⟨f, mem, freep⟩ := sane.freep
  have ring : Ring h.ptr (layout.base :: fl) := sane.ring
  obtain ⟨x, inside, linked⟩ := ring.pred mem
  have stops : h.fits n f x = true := decide_eq_true (Or.inr linked)
  obtain ⟨prevp, found, ends, walked⟩ := walk_ring ring mem inside stops
  have walked := walked _ sane.length
  refine ⟨f, prevp, freep, found, walked, of_decide_eq_true ends, fun fits => ?_⟩
  have first : h.fits n f f = true := decide_eq_true (Or.inl fits)
  rw [walk, if_pos first] at walked
  exact (Option.some.inj walked).symm

theorem mallocLoop_found {f searches : Nat} {grants : List Bool} (sane : Sane h fl live) (part : 0 < n)
    (freep : h.freep = some f) (mem : prevp ∈ layout.base :: fl) (walked : walk h.ptr (h.fits n f) (h.brk + 1) f = some prevp)
    (fits : n ≤ h.size (h.ptr prevp)) : ∃ r, h.mallocLoop n (searches + 1) grants = some r ∧ Outcome h n live r := by
  refine ⟨((h.allocate n prevp).1, some (h.allocate n prevp).2), ?_, allocate_spec sane mem part fits⟩
  unfold Heap.mallocLoop
  rw [freep]
  show (walk h.ptr (h.fits n f) (h.brk + 1) f).bind _ = _
  rw [walked]
  exact if_pos fits

theorem mallocLoop_roomy (sane : Sane h fl live) (part : 0 < n) (roomy : Roomy h n fl) (searches : Nat) (grants : List Bool) :
    ∃ r, h.mallocLoop n (searches + 1) grants = some r ∧ Outcome h n live r := by
  obtain ⟨f, _, freep, mem, walked, ends, first⟩ := search_spec sane n
  obtain ⟨p, _, freep', -, near, size⟩ := roomy
  have same : p = f := Option.some.inj (freep'.symm.trans freep)
  refine mallocLoop_found sane part freep mem walked ?_
  rcases near with rfl | next
  · rcases ends with fits | back
    · exact fits
    · rw [back, ← same]
      exact size
  · rw [← same, next] at first
    rw [first size, next]
    exact size

theorem mallocLoop_spec (sane : Sane h fl live) (part : 0 < n) (small : n * headerSize < 2 ^ 31) (grants : List Bool) :
    ∃ r, h.mallocLoop n 2 grants = some r ∧ Outcome h n live r := by
  obtain ⟨f, prevp, freep, mem, walked, -, -⟩ := search_spec sane n
  by_cases fits : n ≤ h.size (h.ptr prevp)
  · exact mallocLoop_found sane part freep mem walked fits
  rw [Heap.mallocLoop, freep]
  show ∃ r, (walk h.ptr (h.fits n f) (h.brk + 1) f).bind _ = some r ∧ _
  rw [walked]
  simp only [Option.bind_some, if_neg fits]
  rcases morecore_spec sane small (grants.headD false) with refused | ⟨t, fl', got, after, roomy, sizes⟩
  · rw [refused]
    exact ⟨(h, none), rfl, ⟨fl, sane⟩, fun _ _ => rfl⟩
  rw [got]
  obtain ⟨⟨u, result⟩, ran, outcome⟩ := mallocLoop_roomy after part roomy 0 grants.tail
  refine ⟨(u, result), ran, ?_⟩
  cases result with
  | none => exact ⟨outcome.1, fun a mem => (outcome.2 a mem).trans (sizes a mem)⟩
  | some _ => exact ⟨outcome.sane, outcome.real, outcome.size, fun a mem => (outcome.others a mem).trans (sizes a mem)⟩

end Malloc

section Runs

variable {ptr size : Nat → Nat} {s t : Sys}

def Ready (h : Heap) (live : List Nat) : Prop :=
  (h.freep = none ∧ live = [] ∧ h.brk = layout.start) ∨ ∃ fl, Sane h fl live

theorem init_sane (ready : Ready h live) :
    (∃ fl, Sane h.init fl live) ∧ ∀ a ∈ live, h.init.size a = h.size a := by
  rcases ready with ⟨fresh, rfl, brk⟩ | ⟨fl, sane⟩
  · refine ⟨⟨[], ?_⟩, fun _ mem => absurd mem List.not_mem_nil⟩
    unfold Heap.init
    rw [fresh]
    refine ⟨⟨update_self .., trivial⟩, List.pairwise_singleton .., ⟨_, List.mem_cons_self .., rfl⟩,
      update_self .., ?_, le_of_eq brk.symm, ?_⟩
    · show Tiles _ [] layout.start h.brk
      rw [brk]
      exact tiles_nil ..
    · show h.brk ≤ layout.start + limit
      omega
  · obtain ⟨f, -, freep⟩ := sane.freep
    have same : h.init = h := by
      unfold Heap.init
      rw [freep]
    rw [same]
    exact ⟨⟨fl, sane⟩, fun _ _ => rfl⟩

variable {nbytes : Nat}

omit layout in
theorem nunits_eq (small : nbytes ≤ largest) :
    0 < nunits nbytes ∧ nunits nbytes * headerSize < 2 ^ 31 ∧ nbytes ≤ headerSize * (nunits nbytes - 1) := by
  unfold nunits headerSize largest at *
  omega

theorem malloc_spec (ready : Ready h live) (small : nbytes ≤ largest)
    (grants : List Bool) : ∃ r, h.malloc nbytes grants = some r ∧ Outcome h (nunits nbytes) live r := by
  obtain ⟨⟨_, sane⟩, sizes⟩ := init_sane ready
  obtain ⟨part, fits, -⟩ := nunits_eq small
  obtain ⟨⟨t, result⟩, ran, outcome⟩ := mallocLoop_spec sane part fits grants
  refine ⟨(t, result), ran, ?_⟩
  cases result with
  | none => exact ⟨outcome.1, fun a mem => (outcome.2 a mem).trans (sizes a mem)⟩
  | some _ => exact ⟨outcome.sane, outcome.real, outcome.size, fun a mem => (outcome.others a mem).trans (sizes a mem)⟩

/-- The heap is in order, and every block of the program is as big as it asked for. -/
structure Sound (s : Sys) : Prop where
  ready : Ready s.heap s.live
  usable : ∀ a ∈ s.live, s.asked a ≤ headerSize * (s.heap.size a - 1)

theorem malloc_sound (sound : Sound s) {ap : Nat}
    (given : Given s.heap h (nunits nbytes) ap s.live) (small : nbytes ≤ largest) :
    Sound ⟨h, (ap - 1) :: s.live, update s.asked (ap - 1) nbytes⟩ := by
  obtain ⟨fl, sane⟩ := given.sane
  have outside : ap - 1 ∉ s.live := (List.nodup_cons.mp (List.nodup_append.mp sane.tiles.nodup).2.1).1
  refine ⟨Or.inr ⟨fl, sane⟩, List.forall_mem_cons.mpr ⟨?_, fun a mem => ?_⟩⟩
  · dsimp only
    rw [update_self, given.size]
    exact (nunits_eq small).2.2
  have other : a ≠ ap - 1 := by
    rintro rfl
    exact outside mem
  dsimp only
  rw [update_of_ne other, given.others a mem]
  exact sound.usable a mem

theorem free_sound (sound : Sound s) {bp : Nat} (mem : bp ∈ s.live) :
    ∃ h, s.heap.free (bp + 1) = some h ∧ Sound { s with heap := h, live := s.live.erase bp } := by
  rcases sound.ready with ⟨-, none, -⟩ | ⟨fl, sane⟩
  · rw [none] at mem
    exact absurd mem List.not_mem_nil
  have sane : Sane s.heap fl (bp :: s.live.erase bp) :=
    ⟨sane.ring, sane.spaced, sane.freep, sane.empty, sane.tiles.perm ((List.perm_cons_erase mem).append_left fl), sane.order,
      sane.bound⟩
  obtain ⟨h, fl', ran, freed⟩ := free_spec sane
  refine ⟨h, ran, Or.inr ⟨fl', freed.sane⟩, fun a inside => ?_⟩
  rw [freed.frame.sizes a inside]
  exact sound.usable a (List.mem_of_mem_erase inside)

theorem step_sound {a : Action} (moved : step s a = some t) (sound : Sound s) : Sound t := by
  cases a with
  | malloc nbytes grants =>
    unfold step at moved
    obtain ⟨small, moved⟩ := Option.ite_none_right_eq_some.mp moved
    obtain ⟨⟨h, result⟩, ran, outcome⟩ := malloc_spec sound.ready small grants
    rw [ran] at moved
    cases result with
    | none =>
      cases moved
      refine ⟨Or.inr outcome.1, fun a mem => ?_⟩
      rw [outcome.2 a mem]
      exact sound.usable a mem
    | some ap =>
      cases moved
      exact malloc_sound sound outcome small
  | free ap =>
    unfold step at moved
    obtain ⟨mine, moved⟩ := Option.ite_none_right_eq_some.mp moved
    obtain ⟨h, ran, after⟩ := free_sound sound mine.2
    have back : ap - 1 + 1 = ap := Nat.sub_add_cancel (Nat.pos_of_ne_zero mine.1)
    rw [back] at ran
    rw [ran] at moved
    cases moved
    exact after

/-- In every run, the free list is a ring through `base` in the order of addresses, without blocks that
meet; free blocks and blocks of the program cover all memory that was got, without overlapping; every
block of the program has the bytes that were asked for; and every call returns. -/
theorem heap_blocks (run : Run (machine ptr size) s) :
    (s.heap.freep = none → s.live = [] ∧ s.heap.brk = layout.start) ∧
      (∀ f, s.heap.freep = some f → ∃ fl, f ∈ layout.base :: fl ∧ Ring s.heap.ptr (layout.base :: fl) ∧
        (layout.base :: fl).Pairwise (· < ·) ∧ (∀ a ∈ layout.base :: fl, ∀ b ∈ fl, a + s.heap.size a ≠ b) ∧
        s.heap.size layout.base = 0 ∧ Tiles s.heap.size (fl ++ s.live) layout.start s.heap.brk) ∧
      (∀ a ∈ s.live, s.asked a ≤ headerSize * (s.heap.size a - 1)) ∧
      (∀ nbytes grants, nbytes ≤ largest → (s.heap.malloc nbytes grants).isSome = true) ∧
      ∀ ap, ap ≠ 0 → ap - 1 ∈ s.live → (s.heap.free ap).isSome = true := by
  have sound : Sound s := by
    refine run.invariant (fun _ _ _ moved => step_sound moved) ?_
    exact ⟨Or.inl ⟨rfl, rfl, rfl⟩, fun _ mem => absurd mem List.not_mem_nil⟩
  refine ⟨fun null => ?_, fun f freep => ?_, sound.usable, fun nbytes grants small => ?_, fun ap real mine => ?_⟩
  · rcases sound.ready with ⟨-, live, brk⟩ | ⟨fl, sane⟩
    · exact ⟨live, brk⟩
    · obtain ⟨f, -, freep⟩ := sane.freep
      exact nomatch null.symm.trans freep
  · rcases sound.ready with ⟨null, -⟩ | ⟨fl, sane⟩
    · exact nomatch null.symm.trans freep
    obtain ⟨g, mem, freep'⟩ := sane.freep
    have same : g = f := Option.some.inj (freep'.symm.trans freep)
    rw [same] at mem
    refine ⟨fl, mem, sane.ring, sane.spaced.imp fun less => by omega, fun a memA b memB meet => ?_, sane.empty, sane.tiles⟩
    exact sane.unmet memA memB meet
  · obtain ⟨r, ran, -⟩ := malloc_spec sound.ready small grants
    rw [ran]
    rfl
  · obtain ⟨h, ran, -⟩ := free_sound sound mine
    rw [Nat.sub_add_cancel (Nat.pos_of_ne_zero real)] at ran
    rw [ran]
    rfl

end Runs

end Xv6Monitor.User.Allocation
