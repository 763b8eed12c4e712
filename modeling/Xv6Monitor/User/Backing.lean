import Xv6Monitor.Calls.Partition
import Xv6Monitor.User.Allocation

/-! What `malloc` gets from `sbrk`: the byte count of `morecore` goes through an `int` into `growproc`. -/

namespace Xv6Monitor.User.Backing
open Function Lib.Bytes Lib.Program Lib.Transition Memory.Frames Memory.Tables Memory.Access Memory.Boot FileSystem.Format
  Calls.State Calls.Processes Calls.Machine Calls.Families Calls.Runs Calls.Partition Allocation
open Malloc (Heap Layout headerSize largest nunits resized resized_up resized_units)
open Process.Table (Slot)

def wanted (nbytes : Nat) : Nat := (if nunits nbytes < 4096 then 4096 else nunits nbytes) * headerSize

/-- Wherever `sbrk` reports success, the break has moved by the bytes that are wanted. -/
def Backed (nbytes : Nat) : Prop :=
  ∀ [Image] [Superblock] (taken m disk power k p r t), Booted taken m → Reachable (machine m disk power) k →
    (k.proc p).state = .runnable → sysSbrk p (toInt (wanted nbytes)) k = .ok (r, t) → r ≠ -1 →
      (t.proc p).sz = (k.proc p).sz + wanted nbytes

/-- In a heap that is in order, `malloc` returns `0` or a block below the break that has room for the request. -/
def Served (nbytes : Nat) : Prop :=
  ∀ [layout : Layout] (h live grants), Ready h live → ∃ t r, h.malloc nbytes grants = some (t, r) ∧
    ∀ ap ∈ r, layout.start < ap ∧ ap - 1 + t.size (ap - 1) ≤ t.brk ∧ nbytes ≤ headerSize * (t.size (ap - 1) - 1)

section Kernel

variable [Image] {k : Kernel} {p : Slot} {n : Int}

theorem uvmalloc_result (pt oldsz newsz xperm : Nat) (m : Ram) :
    Ends Any (uvmalloc pt oldsz newsz xperm) m fun r _ => newsz < oldsz ∨ r = newsz ∨ r = 0 := by
  unfold uvmalloc
  split
  next less => exact Or.inl less
  next =>
    refine Ends.bind (R := fun _ _ => True) (ends_of (fun _ _ _ => trivial) fun _ _ => trivial) fun done t _ => ?_
    cases done
    · exact Or.inr (Or.inr rfl)
    · exact Or.inr (Or.inl rfl)

theorem uvmdealloc_result (pt oldsz newsz : Nat) (m : Ram) :
    Ends Any (uvmdealloc pt oldsz newsz) m fun r _ => r = min oldsz newsz := by
  unfold uvmdealloc
  split
  next le => exact (min_eq_left le).symm
  next less =>
    have least : newsz = min oldsz newsz := (min_eq_right (not_le.mp less).le).symm
    split
    · exact Ends.bind (R := fun _ _ => True) (ends_of (fun _ _ _ => trivial) fun _ _ => trivial) fun _ _ _ => least
    · exact least

theorem growproc_result (small : (k.proc p).sz ≤ 2 ^ 28) (int : -2 ^ 31 ≤ n ∧ n < 2 ^ 31) :
    Ends Any (growproc p n) k fun r t => (t.proc p).state = (k.proc p).state ∧
      (r = 0 ∧ (t.proc p).sz = resized (k.proc p).sz n ∨ r = -1 ∧ 0 < n ∧ (t.proc p).sz = (k.proc p).sz) := by
  unfold growproc
  rw [ends_get_bind]
  dsimp only
  split
  next up =>
    rw [ends_onRam_bind]
    refine (uvmalloc_result _ _ _ _ _).imp fun r m result => ?_
    split
    next => exact ⟨rfl, Or.inr ⟨rfl, up, rfl⟩⟩
    next some =>
      rw [ends_setProc_bind]
      refine ⟨by simp only [update_self], Or.inl ⟨rfl, ?_⟩⟩
      simp only [update_self]
      unfold resized
      split <;> omega
  next =>
    split
    next =>
      rw [ends_onRam_bind]
      refine (uvmdealloc_result _ _ _ _).imp fun r m result => ?_
      rw [ends_setProc_bind]
      refine ⟨by simp only [update_self], Or.inl ⟨rfl, ?_⟩⟩
      simp only [update_self]
      unfold resized
      split <;> omega
    next =>
      refine ⟨rfl, Or.inl ⟨rfl, ?_⟩⟩
      unfold resized
      split <;> omega

variable [Superblock] {taken : List Nat} {m : Ram} {disk : Nat → Data} {power : Option Nat}

theorem sysSbrk_result (booted : Booted taken m) (reachable : Reachable (machine m disk power) k)
    (running : (k.proc p).state = .runnable) (int : -2 ^ 31 ≤ n ∧ n < 2 ^ 31) :
    Ends (fun _ => False) (sysSbrk p n) k fun r t => (t.proc p).sz ≤ 2 ^ 28 ∧
      (r = (k.proc p).sz ∧ (t.proc p).sz = resized (k.proc p).sz n ∨ r = -1 ∧ 0 < n ∧ (t.proc p).sz = (k.proc p).sz) := by
  let : Origin := ⟨m⟩
  obtain ⟨held, fine⟩ := reachable_fine booted reachable
  have small := process_small booted reachable (p := p) (by rw [running]; decide)
  have grows := (growproc_spec (E := fun _ => False) (n := n) fine running).and (growproc_result small int)
  unfold sysSbrk
  rw [ends_get_bind]
  refine (grows.stops fun _ both => both.1).bind fun r t outcome => ?_
  obtain ⟨⟨⟨⟨held', fine'⟩, -⟩, -⟩, state, result⟩ := outcome
  obtain ⟨f, mapped⟩ := fine'.layout.mapped (p := p) (by rw [state, running]; decide)
  have bound := le_trans (Nat.le_add_right ..) (mapped_small mapped)
  obtain ⟨rfl, size⟩ | ⟨rfl, more, same⟩ := result
  · exact ⟨bound, Or.inl ⟨rfl, size⟩⟩
  · exact ⟨bound, Or.inr ⟨rfl, more, same⟩⟩

/-- The kernel moves the break of a process as `Heap.sbrk` does, and it may refuse. -/
theorem sysSbrk_heap (booted : Booted taken m) (reachable : Reachable (machine m disk power) k)
    (running : (k.proc p).state = .runnable) (int : -2 ^ 31 ≤ n ∧ n < 2 ^ 31) (units : (headerSize : Int) ∣ n) (h : Heap)
    (same : (k.proc p).sz = headerSize * h.brk) :
    Ends (fun _ => False) (sysSbrk p n) k fun r t => ∃ h', (t.proc p).sz = headerSize * h'.brk ∧
      ((∃ addr : Nat, r = headerSize * addr ∧ h.sbrk n true = some (addr, h')) ∨ r = -1 ∧ h.sbrk n false = none ∧ h' = h) := by
  refine (sysSbrk_result booted reachable running int).imp fun r t outcome => ?_
  obtain ⟨d, rfl⟩ := units
  have exactly : (headerSize : Int) * d / headerSize = d := Int.mul_ediv_cancel_left _ (by decide)
  unfold Heap.sbrk
  rw [exactly]
  obtain ⟨bound, ⟨rfl, size⟩ | ⟨rfl, more, stays⟩⟩ := outcome
  · rw [same, resized_units] at size
    refine ⟨{ h with brk := resized h.brk d }, size, Or.inl ⟨h.brk, by rw [same, Nat.cast_mul], if_pos ?_⟩⟩
    by_cases up : 0 ≤ d
    · have moved := resized_up h.brk up
      unfold headerSize at size
      exact Or.inr ⟨rfl, by unfold Malloc.limit headerSize; omega⟩
    · exact Or.inl (by unfold headerSize; omega)
  · refine ⟨h, stays.trans same, Or.inr ⟨rfl, if_neg ?_, rfl⟩⟩
    simp [not_le.mpr more]

end Kernel

theorem wanted_cases (nbytes : UInt32) :
    nbytes.toNat ≤ largest ∧ toInt (wanted nbytes.toNat) = wanted nbytes.toNat ∧ 0 < wanted nbytes.toNat ∧
      wanted nbytes.toNat < 2 ^ 31 ∨
    largest < nbytes.toNat ∧ 2 ^ 31 ≤ wanted nbytes.toNat ∧
      (toInt (wanted nbytes.toNat) ≤ 0 ∨ toInt (wanted nbytes.toNat) = 16) := by
  have word := nbytes.toNat_lt
  rw [toInt_eq]
  unfold wanted nunits headerSize largest
  split <;> omega

theorem served (nbytes : Nat) (small : nbytes ≤ largest) : Served nbytes := by
  intro layout h live grants ready
  obtain ⟨⟨t, r⟩, ran, outcome⟩ := malloc_spec ready small grants
  refine ⟨t, r, ran, fun ap given => ?_⟩
  cases given
  obtain ⟨fl, sane⟩ := outcome.sane
  have mem : ap - 1 ∈ fl ++ (ap - 1) :: live := List.mem_append_right _ List.mem_cons_self
  have first := (sane.tiles.cover (ap - 1)).mp ⟨ap - 1, mem, Nat.le_refl _, by have := sane.tiles.some _ mem; omega⟩
  have last := sane.tiles.last mem
  have room := (nunits_eq small).2.2
  rw [outcome.size] at last ⊢
  have real := outcome.real
  exact ⟨by omega, last, room⟩

section Small

attribute [local instance] smallImage Mkfs.Image.superblock

theorem sixteen : ∃ k p r t, Reachable (machine smallRam (fun _ _ => 0) none) k ∧ (k.proc p).state = .runnable ∧
    sysSbrk p 16 k = .ok (r, t) ∧ r ≠ -1 := by
  obtain ⟨k, reachable, running, success⟩ := reachable_exec (M := machine smallRam (fun _ _ => 0) none)
    (Q := fun k => (k.proc 0).state = .runnable ∧ (sysSbrk 0 16 k).toOption.any (·.1 != -1) = true)
    [.userinit fun _ => 0] (by decide +kernel)
  obtain ⟨r, t, ran, -⟩ := (sysSbrk_result smallRam_booted reachable running (n := 16) (by decide)).returns
  rw [ran] at success
  exact ⟨k, 0, r, t, reachable, running, ran, by simpa [Except.toOption] using success⟩

/-- Every request that goes through `sbrk` unchanged is backed by memory, and no larger one is. -/
theorem requests_backed_iff (nbytes : UInt32) : Backed nbytes.toNat ∧ Served nbytes.toNat ↔ nbytes.toNat ≤ largest := by
  constructor
  · rintro ⟨backed, -⟩
    by_contra large
    obtain ⟨-, huge, down⟩ := (wanted_cases nbytes).resolve_left fun small => large small.1
    obtain ⟨k, p, r, t, reachable, running, ran, success⟩ := sixteen
    obtain ⟨r', t', ran', small, outcome⟩ :=
      (sysSbrk_result smallRam_booted reachable running (toInt_range (wanted nbytes.toNat))).returns
    have same : r' ≠ -1 := by
      rcases down with le | one
      · omega
      · rw [one, ran] at ran'
        cases ran'
        exact success
    have grown := backed _ _ _ _ _ _ _ _ smallRam_booted reachable running ran' same
    omega
  · intro small
    obtain ⟨-, same, more⟩ := (wanted_cases nbytes).resolve_right fun large => absurd small (by omega)
    refine ⟨?_, served _ small⟩
    intro image sb taken m disk power k p r t booted reachable running ran success
    have outcome := ((sysSbrk_result booted reachable running (toInt_range _)).ok ran).2
    have moved := resized_up (k.proc p).sz (n := toInt (wanted nbytes.toNat)) (by omega)
    omega

/-- For the largest `uint` the break moves by one header only. -/
theorem largest_unbacked : ∃ k p r t, Reachable (machine smallRam (fun _ _ => 0) none) k ∧ (k.proc p).state = .runnable ∧
    wanted (2 ^ 32 - 1) = 2 ^ 32 + 16 ∧ sysSbrk p (toInt (wanted (2 ^ 32 - 1))) k = .ok (r, t) ∧ r ≠ -1 ∧
    (t.proc p).sz = (k.proc p).sz + 16 := by
  obtain ⟨k, p, r, t, reachable, running, ran, success⟩ := sixteen
  have outcome := ((sysSbrk_result smallRam_booted reachable running (by decide)).ok ran).2
  have moved := resized_up (k.proc p).sz (n := 16) (by decide)
  exact ⟨k, p, r, t, reachable, running, by decide, ran, success, by omega⟩

end Small

end Xv6Monitor.User.Backing
