import Xv6Monitor.Memory.Frames

/-! User page tables, `kernel/vm.c`. A page-table page is a page of memory that holds 512 entries of
64 bits, and a pointer to an entry is the page with the index. -/

namespace Xv6Monitor.Memory.Tables
open Function Stops Lib.Bytes Lib.Program Process.Table Frames

/-- `kernel/riscv.h` -/
def PTE_V : Nat := 1
def PTE_R : Nat := 2
def PTE_W : Nat := 4
def PTE_X : Nat := 8
def PTE_U : Nat := 16

def MAXVA : Nat := 1 <<< (9 + 9 + 9 + 12 - 1)

/-- `kernel/memlayout.h` -/
def TRAMPOLINE : Nat := MAXVA - PGSIZE

def TRAPFRAME : Nat := TRAMPOLINE - PGSIZE

theorem MAXVA_eq : MAXVA = 274877906944 := by decide

theorem MAXVA_page : MAXVA = 67108864 * PGSIZE := by decide +kernel

theorem TRAMPOLINE_page : TRAMPOLINE = 67108863 * PGSIZE := by decide +kernel

theorem TRAPFRAME_page : TRAPFRAME = 67108862 * PGSIZE := by decide +kernel

attribute [irreducible] MAXVA TRAMPOLINE TRAPFRAME

theorem page_lt {v : Nat} (low : v < 67108864) : v * PGSIZE < MAXVA := by
  rw [MAXVA_page]
  exact Nat.mul_lt_mul_of_pos_right low PGSIZE_pos

theorem page_le {v : Nat} (low : v ≤ 67108864) : v * PGSIZE ≤ MAXVA := by
  rw [MAXVA_page]
  exact Nat.mul_le_mul_right _ low

def PA2PTE (pa : Nat) : Nat := (pa >>> 12) <<< 10

def PTE2PA (pte : Nat) : Nat := uint64 ((pte >>> 10) <<< 12)

def PTE_FLAGS (pte : Nat) : Nat := pte &&& 0x3FF

def PX (level va : Nat) : Nat := (va >>> (12 + 9 * level)) &&& 0x1FF

def Valid (entry : Nat) : Prop := entry &&& PTE_V ≠ 0

instance (entry : Nat) : Decidable (Valid entry) := inferInstanceAs (Decidable (_ ≠ _))

structure Entry where
  table : Nat
  index : Nat
  deriving DecidableEq, Repr

def pte (m : Ram) (p : Entry) : Nat := load 8 (m.page p.table) (8 * p.index)

def put (m : Ram) (p : Entry) (v : Nat) : Ram :=
  { m with page := update m.page p.table (store 8 (m.page p.table) (8 * p.index) v) }

def setPte (p : Entry) (v : Nat) : Prog Halt Ram Unit := modify fun m => put m p v

/-- The indices of a page-table page: there are 2^9 = 512 PTEs in a page table. -/
def slots : List Nat := List.range 512

theorem mem_slots {i : Nat} : i ∈ slots ↔ i < 512 := List.mem_range

theorem slots_nodup : slots.Nodup := List.nodup_range

attribute [irreducible] slots

def walkFrom (va : Nat) (alloc : Bool) : (level : Nat) → (pagetable : Nat) → Prog Halt Ram (Option Entry)
  | 0, pagetable => pure (some ⟨pagetable, PX 0 va⟩)
  | level + 1, pagetable => do
    let entry := pte (← get) ⟨pagetable, PX (level + 1) va⟩
    if Valid entry then
      walkFrom va alloc level (PTE2PA entry)
    else if alloc then
      match ← kalloc with
      | none => pure none
      | some child =>
        memset child 0
        setPte ⟨pagetable, PX (level + 1) va⟩ (PA2PTE child ||| PTE_V)
        walkFrom va alloc level child
    else
      pure none

def walk (pagetable va : Nat) (alloc : Bool) : Prog Halt Ram (Option Entry) :=
  if MAXVA ≤ va then stop (.vm .walk) else walkFrom va alloc 2 pagetable

def walkaddr (pagetable va : Nat) : Prog Halt Ram Nat := do
  if MAXVA ≤ va then
    pure 0
  else
    match ← walk pagetable va false with
    | none => pure 0
    | some p =>
      let entry := pte (← get) p
      if ¬Valid entry ∨ entry &&& PTE_U = 0 then pure 0 else pure (PTE2PA entry)

def mapFrom (pagetable perm : Nat) : (n a pa : Nat) → Prog Halt Ram Bool
  | 0, _, _ => pure true
  | n + 1, a, pa => do
    match ← walk pagetable a true with
    | none => pure false
    | some p =>
      if Valid (pte (← get) p) then
        stop (.vm .remap)
      else
        setPte p (PA2PTE pa ||| perm ||| PTE_V)
        mapFrom pagetable perm n (a + PGSIZE) (uint64 (pa + PGSIZE))

def mappages (pagetable va size pa perm : Nat) : Prog Halt Ram Bool :=
  if va % PGSIZE ≠ 0 then stop (.vm .vaNotAligned)
  else if size % PGSIZE ≠ 0 then stop (.vm .sizeNotAligned)
  else if size = 0 then stop (.vm .size)
  else mapFrom pagetable perm (size / PGSIZE) va pa

variable [image : Image]

def unmapFrom (pagetable : Nat) (doFree : Bool) : (npages a : Nat) → Prog Halt Ram Unit
  | 0, _ => pure ()
  | n + 1, a => do
    match ← walk pagetable a false with
    | none => stop (.vm .unmapWalk)
    | some p =>
      let entry := pte (← get) p
      if ¬Valid entry then
        stop (.vm .notMapped)
      else if PTE_FLAGS entry = PTE_V then
        stop (.vm .notALeaf)
      else
        if doFree then kfree (PTE2PA entry)
        setPte p 0
        unmapFrom pagetable doFree n (a + PGSIZE)

def uvmunmap (pagetable va npages : Nat) (doFree : Bool) : Prog Halt Ram Unit :=
  if va % PGSIZE ≠ 0 then stop (.vm .unmapNotAligned) else unmapFrom pagetable doFree npages va

def uvmcreate : Prog Halt Ram (Option Nat) := do
  match ← kalloc with
  | none => pure none
  | some pagetable =>
    memset pagetable 0
    pure (some pagetable)

def uvmdealloc (pagetable oldsz newsz : Nat) : Prog Halt Ram Nat := do
  if oldsz ≤ newsz then
    pure oldsz
  else
    if PGROUNDUP newsz < PGROUNDUP oldsz then
      uvmunmap pagetable (PGROUNDUP newsz) ((PGROUNDUP oldsz - PGROUNDUP newsz) / PGSIZE) true
    pure newsz

/-- The loop of `uvmalloc`, which undoes its work from `oldsz` on when it runs out of memory. -/
def allocFrom (pagetable oldsz xperm : Nat) : (n a : Nat) → Prog Halt Ram Bool
  | 0, _ => pure true
  | n + 1, a => do
    match ← kalloc with
    | none =>
      let _ ← uvmdealloc pagetable a oldsz
      pure false
    | some mem =>
      memset mem 0
      if ← mappages pagetable a PGSIZE mem (PTE_R ||| PTE_U ||| xperm) then
        allocFrom pagetable oldsz xperm n (a + PGSIZE)
      else
        kfree mem
        let _ ← uvmdealloc pagetable a oldsz
        pure false

def uvmalloc (pagetable oldsz newsz xperm : Nat) : Prog Halt Ram Nat := do
  if newsz < oldsz then
    pure oldsz
  else
    let start := PGROUNDUP oldsz
    if ← allocFrom pagetable start xperm ((newsz - start + PGSIZE - 1) / PGSIZE) start then
      pure newsz
    else
      pure 0

/-- A user page table has three levels, so that the recursion of `freewalk` is `3` deep on one. -/
def freewalk : (depth : Nat) → (pagetable : Nat) → Prog Halt Ram Unit
  | 0, _ => stop .endless
  | depth + 1, pagetable => do
    slots.forM fun i => do
      let entry := pte (← get) ⟨pagetable, i⟩
      if Valid entry ∧ entry &&& (PTE_R ||| PTE_W ||| PTE_X) = 0 then
        freewalk depth (PTE2PA entry)
        setPte ⟨pagetable, i⟩ 0
      else if Valid entry then
        stop (.vm .freewalkLeaf)
    kfree pagetable

def uvmfree (pagetable sz : Nat) : Prog Halt Ram Unit := do
  if 0 < sz then uvmunmap pagetable 0 (PGROUNDUP sz / PGSIZE) true
  freewalk 3 pagetable

def copyFrom (old new : Nat) : (n i : Nat) → Prog Halt Ram Bool
  | 0, _ => pure true
  | n + 1, i => do
    match ← walk old i false with
    | none => stop (.vm .pteShouldExist)
    | some p =>
      let entry := pte (← get) p
      if ¬Valid entry then
        stop (.vm .pageNotPresent)
      else
        match ← kalloc with
        | none =>
          uvmunmap new 0 (i / PGSIZE) true
          pure false
        | some mem =>
          modify fun m => { m with page := update m.page mem (m.page (PTE2PA entry)) }
          if ← mappages new i PGSIZE mem (PTE_FLAGS entry) then
            copyFrom old new n (i + PGSIZE)
          else
            kfree mem
            uvmunmap new 0 (i / PGSIZE) true
            pure false

def uvmcopy (old new sz : Nat) : Prog Halt Ram Bool := copyFrom old new ((sz + PGSIZE - 1) / PGSIZE) 0

def uvmclear (pagetable va : Nat) : Prog Halt Ram Unit := do
  match ← walk pagetable va false with
  | none => stop (.vm .uvmclear)
  | some p =>
    -- `pte & ~PTE_U`
    setPte p (pte (← get) p - (pte (← get) p &&& PTE_U))

def uvmfirst (pagetable : Nat) (src : Data) (sz : Nat) : Prog Halt Ram Unit := do
  if PGSIZE ≤ sz then
    stop (.vm .moreThanAPage)
  else
    match ← kalloc with
    | none => stop .nullPointer
    | some mem =>
      memset mem 0
      -- The result is not looked at.
      let _ ← mappages pagetable 0 PGSIZE mem (PTE_W ||| PTE_R ||| PTE_X ||| PTE_U)
      modify fun m => { m with page := update m.page mem (splice (m.page mem) 0 sz src) }

/-- `proc_pagetable` of `kernel/proc.c`, for a process with this trapframe. -/
def procPagetable (trapframe : Nat) : Prog Halt Ram (Option Nat) := do
  match ← uvmcreate with
  | none => pure none
  | some pagetable =>
    if ← mappages pagetable TRAMPOLINE PGSIZE image.trampoline (PTE_R ||| PTE_X) then
      if ← mappages pagetable TRAPFRAME PGSIZE trapframe (PTE_R ||| PTE_W) then
        pure (some pagetable)
      else
        uvmunmap pagetable TRAMPOLINE 1 false
        uvmfree pagetable 0
        pure none
    else
      uvmfree pagetable 0
      pure none

def procFreepagetable (pagetable sz : Nat) : Prog Halt Ram Unit := do
  uvmunmap pagetable TRAMPOLINE 1 false
  uvmunmap pagetable TRAPFRAME 1 false
  uvmfree pagetable sz

def copyoutFrom (pagetable : Nat) : (rounds dstva : Nat) → (src : Data) → (len : Nat) → Prog Halt Ram Bool
  | 0, _, _, _ => pure true
  | rounds + 1, dstva, src, len => do
    if len = 0 then
      pure true
    else
      let va0 := PGROUNDDOWN dstva
      if MAXVA ≤ va0 then
        pure false
      else
        match ← walk pagetable va0 false with
        | none => pure false
        | some p =>
          let entry := pte (← get) p
          if ¬Valid entry ∨ entry &&& PTE_U = 0 ∨ entry &&& PTE_W = 0 then
            pure false
          else
            let pa0 := PTE2PA entry
            let n := min (PGSIZE - (dstva - va0)) len
            modify fun m => { m with page := update m.page pa0 (splice (m.page pa0) (dstva - va0) n src) }
            copyoutFrom pagetable rounds (uint64 (va0 + PGSIZE)) (fun i => src (i + n)) (len - n)

def copyout (pagetable dstva : Nat) (src : Data) (len : Nat) : Prog Halt Ram Bool :=
  copyoutFrom pagetable len dstva src len

end Xv6Monitor.Memory.Tables
