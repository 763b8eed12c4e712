import Mathlib.Algebra.Group.Nat.Defs
import Xv6Monitor.Lib.Bytes
import Xv6Monitor.Lib.Links
import Xv6Monitor.Lib.Tiling
import Xv6Monitor.Lib.Transition

/-! The memory allocator of user programs, `user/umalloc.c`. Addresses are in units of `sizeof(Header)`, so
that pointer arithmetic on headers is addition; of the memory only the headers are modelled. -/

namespace Xv6Monitor.User.Malloc
open Function Lib.Links Lib.Transition
open Lib.Bytes (toInt)

def headerSize : Nat := 16

/-- Where a program has `base`, and where its heap begins. -/
class Layout where
  base : Nat
  start : Nat
  below : base < start

structure Heap where
  ptr : Nat → Nat
  size : Nat → Nat
  /-- `none` is the null pointer. -/
  freep : Option Nat
  brk : Nat

/-- The kernel gives no process more memory than this, as the machine has no more: `Calls.Partition.process_small`. -/
def limit : Nat := 2 ^ 28 / headerSize

/-- The size that `growproc(n)` gives: below zero the sum wraps around, and `uvmdealloc` takes nothing away. -/
def resized (sz : Nat) (n : Int) : Nat := if 0 ≤ sz + n then (sz + n).toNat else sz

theorem resized_up (sz : Nat) {n : Int} (up : 0 ≤ n) : (resized sz n : Int) = sz + n := by
  rw [resized, if_pos (by omega)]
  omega

theorem resized_units (b : Nat) (d : Int) : resized (headerSize * b) (headerSize * d) = headerSize * resized b d := by
  unfold resized headerSize
  split <;> split <;> omega

/-- `sbrk(n)`, in bytes; the kernel may refuse to give memory. -/
def Heap.sbrk (h : Heap) (n : Int) (grant : Bool) : Option (Nat × Heap) :=
  if n ≤ 0 ∨ (grant = true ∧ h.brk + n / headerSize ≤ limit) then
    some (h.brk, { h with brk := resized h.brk (n / headerSize) })
  else
    none

def Heap.place (h : Heap) (bp p : Nat) : Bool :=
  (p < bp ∧ bp < h.ptr p) ∨ (h.ptr p ≤ p ∧ (p < bp ∨ bp < h.ptr p))

def Heap.mergeUp (h : Heap) (bp p : Nat) : Heap :=
  let q := h.ptr p
  if bp + h.size bp = q then
    { h with
      size := update h.size bp ((h.size bp + h.size q) % 2 ^ 32),
      ptr := update h.ptr bp (h.ptr q) }
  else
    { h with ptr := update h.ptr bp q }

def Heap.mergeDown (h : Heap) (bp p : Nat) : Heap :=
  if p + h.size p = bp then
    { h with
      size := update h.size p ((h.size p + h.size bp) % 2 ^ 32),
      ptr := update h.ptr p (h.ptr bp) }
  else
    { h with ptr := update h.ptr p bp }

/-- `free(ap)`; the search may make as many rounds as there are units. -/
def Heap.free (h : Heap) (ap : Nat) : Option Heap := do
  let bp := ap - 1
  let freep ← h.freep
  let p ← walk h.ptr (h.place bp) (h.brk + 1) freep
  some { (h.mergeUp bp p).mergeDown bp p with freep := some p }

/-- `morecore(nu)`, and whether it got memory; the argument of `sbrk` is of type `int`. -/
def Heap.morecore (h : Heap) (nu : Nat) (grant : Bool) : Option (Heap × Bool) :=
  let nu := if nu < 4096 then 4096 else nu
  match h.sbrk (toInt (nu * headerSize)) grant with
  | none => some (h, false)
  | some (hp, h) => do
    let h ← { h with size := update h.size hp nu }.free (hp + 1)
    some (h, true)

def nunits (nbytes : Nat) : Nat := ((nbytes + headerSize - 1) / headerSize + 1) % 2 ^ 32

/-- The block that follows `prevp` is given out, or the end of it. -/
def Heap.allocate (h : Heap) (nunits prevp : Nat) : Heap × Nat :=
  let p := h.ptr prevp
  if h.size p = nunits then
    ({ h with ptr := update h.ptr prevp (h.ptr p), freep := some prevp }, p + 1)
  else
    let rest := h.size p - nunits
    ({ h with
      size := update (update h.size p rest) (p + rest) nunits,
      freep := some prevp }, p + rest + 1)

def Heap.fits (h : Heap) (nunits freep prevp : Nat) : Bool := nunits ≤ h.size (h.ptr prevp) ∨ h.ptr prevp = freep

/-- The loop of `malloc`. A search begins with `prevp = freep`, at first as well as after `morecore`; the
kernel's answers to `sbrk` are in `grants`. -/
def Heap.mallocLoop (nunits : Nat) : (searches : Nat) → (grants : List Bool) → Heap → Option (Heap × Option Nat)
  | 0, _, _ => none
  | searches + 1, grants, h => do
    let freep ← h.freep
    let prevp ← walk h.ptr (h.fits nunits freep) (h.brk + 1) freep
    if nunits ≤ h.size (h.ptr prevp) then
      let (h, ap) := h.allocate nunits prevp
      some (h, some ap)
    else
      match ← h.morecore nunits (grants.headD false) with
      | (h, false) => some (h, none)
      | (h, true) => mallocLoop nunits searches grants.tail h

variable [layout : Layout]

def Heap.init (h : Heap) : Heap :=
  match h.freep with
  | none => { h with
      ptr := update h.ptr layout.base layout.base, freep := some layout.base,
      size := update h.size layout.base 0 }
  | some _ => h

def Heap.malloc (h : Heap) (nbytes : Nat) (grants : List Bool) : Option (Heap × Option Nat) :=
  h.init.mallocLoop (nunits nbytes) 2 grants

/-- A program with its heap: the blocks that it has, and how much it asked for in each. -/
structure Sys where
  heap : Heap
  live : List Nat
  asked : Nat → Nat

inductive Action where
  | malloc (nbytes : Nat) (grants : List Bool)
  | free (ap : Nat)

def largest : Nat := 2 ^ 31 - 32

def step (s : Sys) : Action → Option Sys
  | .malloc nbytes grants =>
    if nbytes ≤ largest then
      (s.heap.malloc nbytes grants).map fun r =>
        match r.2 with
        | none => { s with heap := r.1 }
        | some ap => ⟨r.1, (ap - 1) :: s.live, update s.asked (ap - 1) nbytes⟩
    else
      none
  | .free ap =>
    if ap ≠ 0 ∧ ap - 1 ∈ s.live then
      (s.heap.free ap).map fun h => { s with heap := h, live := s.live.erase (ap - 1) }
    else
      none

def machine (ptr size : Nat → Nat) : Machine Sys Action := ⟨⟨⟨ptr, size, none, layout.start⟩, [], fun _ => 0⟩, step⟩

end Xv6Monitor.User.Malloc
