import Xv6Monitor.Stops
import Xv6Monitor.Lib.Program
import Xv6Monitor.Process.Table

/-! Physical memory and its allocator, `kernel/kalloc.c`. A page is its bytes. The free list is the list
of the pages on it, which also hold the links of the source: `kfree` stores them, and `Linked` says that they
lead along the list. -/

namespace Xv6Monitor.Memory.Frames
open Stops Lib.Bytes Lib.Program Process.Table

def PGSIZE : Nat := 4096

theorem PGSIZE_pos : 0 < PGSIZE := by decide

-- Unification would count up to the page size when it compares products with it.
attribute [irreducible] PGSIZE

/-- `kernel/memlayout.h` -/
def KERNBASE : Nat := 0x80000000

def PHYSTOP : Nat := KERNBASE + 128 * 1024 * 1024

def PGROUNDUP (sz : Nat) : Nat := uint64 (sz + PGSIZE - 1) / PGSIZE * PGSIZE

def PGROUNDDOWN (a : Nat) : Nat := a / PGSIZE * PGSIZE

/-- What the linker decides: where the kernel ends and where its trampoline page is. -/
class Image where
  kend : Nat
  trampoline : Nat
  kend_above : KERNBASE ≤ kend
  kend_below : kend ≤ PHYSTOP
  trampoline_aligned : trampoline % PGSIZE = 0
  trampoline_below : trampoline < kend

/-- A machine whose kernel leaves sixteen pages to the allocator. -/
abbrev smallImage : Image where
  kend := 2281635840
  trampoline := 2147512320
  kend_above := by decide
  kend_below := by decide
  trampoline_aligned := by decide +kernel
  trampoline_below := by decide

structure Ram where
  page : Nat → Data
  freelist : List Nat

/-- The memory that a run begins with. -/
class Origin where
  ram : Ram

/-- Each page of the list begins with the address of the next one, the last with `0`. -/
def Chained (page : Nat → Data) : List Nat → Prop
  | [] => True
  | r :: rest => load 8 (page r) 0 = rest.headD 0 ∧ Chained page rest

/-- The list that begins at `kmem.freelist` is the free list. -/
def Linked (m : Ram) : Prop := Chained m.page m.freelist

theorem chained_congr {page page' : Nat → Data} {list : List Nat} (same : ∀ x ∈ list, page' x = page x)
    (chained : Chained page list) : Chained page' list := by
  induction list with
  | nil => trivial
  | cons r rest ih =>
    refine ⟨?_, ih (fun x mem => same x (List.mem_cons_of_mem r mem)) chained.2⟩
    rw [same r List.mem_cons_self]
    exact chained.1

/-- `r->next = kmem.freelist; kmem.freelist = r` -/
theorem chained_push {page page' : Nat → Data} {list : List Nat} {r : Nat} {data : Data} (chained : Chained page list)
    (fresh : r ∉ list) (small : list.headD 0 < 2 ^ 64) (link : page' r = store 8 data 0 (list.headD 0))
    (same : ∀ x ≠ r, page' x = page x) : Chained page' (r :: list) := by
  refine ⟨?_, chained_congr (fun x mem => same x fun here => fresh (here ▸ mem)) chained⟩
  rw [link, load_store]
  exact Nat.mod_eq_of_lt small

def memset (pa : Nat) (byte : UInt8) : Prog Halt Ram Unit :=
  modify fun m => { m with page := Function.update m.page pa fun _ => byte }

@[simp] theorem ends_memset_bind {α : Type} {E : Halt → Prop} {m : Ram} {pa : Nat} {byte : UInt8}
    {f : Unit → Prog Halt Ram α} {Q : α → Ram → Prop} :
    Ends E (memset pa byte >>= f) m Q ↔ Ends E (f ()) { m with page := Function.update m.page pa fun _ => byte } Q := Iff.rfl

def kalloc : Prog Halt Ram (Option Nat) := do
  match (← get).freelist with
  | [] => pure none
  | r :: rest =>
    modify fun m => { m with freelist := rest }
    memset r 5
    pure (some r)

variable [image : Image]

def Foreign (pa : Nat) : Prop := pa % PGSIZE ≠ 0 ∨ pa < image.kend ∨ PHYSTOP ≤ pa

instance (pa : Nat) : Decidable (Foreign pa) := inferInstanceAs (Decidable (_ ∨ _))

def kfree (pa : Nat) : Prog Halt Ram Unit := do
  if Foreign pa then
    stop (.vm .kfree)
  else
    -- Fill with junk to catch dangling refs.
    memset pa 1
    modify fun m => { m with
      page := Function.update m.page pa (store 8 (m.page pa) 0 (m.freelist.headD 0))
      freelist := pa :: m.freelist }

theorem kfree_ends {E : Halt → Prop} {m : Ram} {pa : Nat} {Q : Unit → Ram → Prop} (real : ¬Foreign pa)
    (done : ∀ t : Ram, t.freelist = pa :: m.freelist → (∀ x ≠ pa, t.page x = m.page x) →
      t.page pa = store 8 (fun _ => 1) 0 (m.freelist.headD 0) → Q () t) : Ends E (kfree pa) m Q := by
  unfold kfree
  rw [if_neg real, ends_memset_bind, ends_modify]
  refine done _ rfl (fun x other => ?_) ?_
  · exact (Function.update_of_ne other ..).trans (Function.update_of_ne other ..)
  · dsimp only
    rw [Function.update_self, Function.update_self]

def freerange (p : Nat) : Nat → Prog Halt Ram Unit
  | 0 => pure ()
  | n + 1 => do
    kfree p
    freerange (p + PGSIZE) n

def count : Nat := (PHYSTOP - PGROUNDUP image.kend) / PGSIZE

def kinit : Prog Halt Ram Unit := freerange (PGROUNDUP image.kend) count

def frames : List Nat := (List.range count).map fun i => PGROUNDUP image.kend + i * PGSIZE

end Xv6Monitor.Memory.Frames
