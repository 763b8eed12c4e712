import Xv6Monitor.Calls.State

/-! What `sys_getptable` and `filestat` copy to the user out of a local `struct`, whose memory on the kernel stack has
some previous contents. The buffer of the user is given by its `room`, the bytes that `copyout` can write there. -/

namespace Xv6Monitor.Calls.Listings
open Function Lib.Bytes Process.Table FileSystem.Blocks FileSystem.Inodes State

def bytes (b : Data) (n : Nat) : List UInt8 := (List.range n).map b

/-- `safestrcpy(s, t, n)` for `s` at offset `o`; the bytes after the null byte stay. -/
def safestrcpy (b : Data) (o : Nat) : (n : Nat) → (t : List UInt8) → Data
  | 0, _ => b
  | 1, _ => update b o 0
  | _ + 2, [] => update (update b o 0) (o + 1) 0
  | n + 2, c :: t => safestrcpy (update b o c) (o + 1) (n + 1) t

def code : Procstate → Nat
  | .unused => 0
  | .used => 1
  | .sleeping => 2
  | .runnable => 3
  | .running => 4
  | .zombie => 5

def describe (k : Kernel) (p : Slot) (info : Data) : Data :=
  let info := store 4 info 0 (k.proc p).pid
  let info := store 4 info 4 ((k.proc p).parent.elim 0 fun parent => (k.proc parent).pid)
  let info := store 4 info 8 (code (k.proc p).state)
  let info := store 8 info 16 (k.proc p).sz
  safestrcpy info 24 16 (k.proc p).name

/-- The loop of `sys_getptable`: the bytes that are copied, and what is returned. -/
def getptableFrom (k : Kernel) (n room : Nat) : List Slot → Data → (count : Nat) → (copied : List UInt8) → List UInt8 × Nat
  | [], _, count, copied => (copied, count)
  | p :: table, info, count, copied =>
    if count < n then
      if (k.proc p).state ≠ .unused then
        let info := describe k p info
        let more := copied ++ bytes info (min 40 (room - copied.length))
        if room < copied.length + 40 then (more, 0) else getptableFrom k n room table info (count + 1) more
      else getptableFrom k n room table info count copied
    else (copied, count)

def getptable (k : Kernel) (n : Int) (buf room : Nat) (stack : Data) : List UInt8 × Nat :=
  if n < 1 ∨ buf = 0 then ([], 0) else getptableFrom k n.toNat room (List.finRange NPROC) stack 0 []

def filestat (f : File) (i : Inode) (room : Nat) (stack : Data) : List UInt8 × Int :=
  if f.type = .inode ∨ f.type = .device then (bytes (stati i stack) (min 24 room), if room < 24 then -1 else 0)
  else ([], -1)

variable {k : Kernel} {p : Slot} {n room count : Nat} {table : List Slot} {info : Data}

theorem safestrcpy_below {b : Data} {i o : Nat} (below : i < o) (n : Nat) (t : List UInt8) : safestrcpy b o n t i = b i := by
  fun_induction safestrcpy b o n t with
  | case1 => rfl
  | case2 => exact update_of_ne (Nat.ne_of_lt below) ..
  | case3 => rw [update_of_ne (by omega), update_of_ne (by omega)]
  | case4 b o n c t ih => rw [ih (by omega), update_of_ne (by omega)]

theorem bytes_get {b : Data} {i : Nat} (inside : i < n) : (bytes b n)[i]? = some (b i) := by
  rw [bytes, List.getElem?_map, List.getElem?_range inside]
  rfl

theorem leak_differs {β : Type} {write : Data → List UInt8 × β} (leak : ∀ stack, (write stack).1[12]? = some (stack 12)) :
    ¬∀ stack stack', write stack = write stack' := by
  intro same
  have first := leak fun _ => 0
  rw [same _ fun _ => 1, leak] at first
  exact absurd first (by decide)

theorem describe_low {i : Nat} (low : i < 12) (info info' : Data) : describe k p info i = describe k p info' i := by
  simp only [describe, safestrcpy_below (show i < 24 by omega), store]
  split_ifs <;> first | rfl | omega

theorem describe_padding : describe k p info 12 = info 12 := by
  simp [describe, safestrcpy_below, store]

theorem stati_low {i : Nat} (low : i < 12) (f : Inode) (st st' : Data) : stati f st i = stati f st' i := by
  simp only [stati, store]
  split_ifs <;> first | rfl | omega

theorem stati_padding (f : Inode) (st : Data) : stati f st 12 = st 12 := by
  simp [stati, store]

theorem getptableFrom_keeps (k : Kernel) (n room : Nat) (table : List Slot) (info : Data) (count : Nat) (copied : List UInt8) :
    copied <+: (getptableFrom k n room table info count copied).1 := by
  fun_induction getptableFrom k n room table info count copied with
  | case1 => exact List.prefix_rfl
  | case2 => exact List.prefix_append ..
  | case3 _ _ _ _ _ _ _ _ _ _ ih => exact (List.prefix_append ..).trans ih
  | case4 _ _ _ _ _ _ _ ih => exact ih
  | case5 => exact List.prefix_rfl

theorem getptableFrom_same (quiet : room ≤ 12 ∨ ∀ p ∈ table, (k.proc p).state = .unused) (info info' : Data) :
    getptableFrom k n room table info count [] = getptableFrom k n room table info' count [] := by
  induction table with
  | nil => rfl
  | cons p table ih =>
    have next := ih (quiet.imp_right fun all q mem => all q (List.mem_cons_of_mem p mem))
    unfold getptableFrom
    by_cases live : (k.proc p).state ≠ .unused
    · have narrow : room ≤ 12 := quiet.resolve_right fun all => live (all p List.mem_cons_self)
      have same : bytes (describe k p info) (min 40 room) = bytes (describe k p info') (min 40 room) := by
        refine List.map_congr_left fun i mem => describe_low ?_ info info'
        have below := List.mem_range.mp mem
        omega
      simp only [if_pos live, List.length_nil, Nat.zero_add, if_pos (show room < 40 by omega), Nat.sub_zero, same]
    · simp only [if_neg live, next]

theorem getptableFrom_leak (more : 0 < n) (wide : 12 < room) (live : ∃ p ∈ table, (k.proc p).state ≠ .unused) :
    (getptableFrom k n room table info 0 []).1[12]? = some (info 12) := by
  induction table with
  | nil =>
    obtain ⟨p, mem, -⟩ := live
    exact absurd mem List.not_mem_nil
  | cons p table ih =>
    unfold getptableFrom
    rw [if_pos more]
    by_cases here : (k.proc p).state ≠ .unused
    · have byte : ([] ++ bytes (describe k p info) (min 40 (room - 0)))[12]? = some (info 12) := by
        rw [List.nil_append, bytes_get (by omega), describe_padding]
      rw [if_pos here]
      dsimp only [List.length_nil]
      split
      · exact byte
      · obtain ⟨rest, same⟩ := getptableFrom_keeps k n room table (describe k p info) 1
          ([] ++ bytes (describe k p info) (min 40 (room - 0)))
        rw [← same]
        exact List.getElem?_append_left (List.getElem?_eq_some_iff.mp byte).1 ▸ byte
    · rw [if_neg here]
      refine ih ?_
      obtain ⟨q, mem, alive⟩ := live
      rcases List.mem_cons.mp mem with rfl | mem
      · exact absurd alive here
      · exact ⟨q, mem, alive⟩

/-- The calls write the same for all contents of the stack if and only if they do not come to the padding. -/
theorem listings_same_iff (k : Kernel) (n : Int) (buf room : Nat) (f : File) (i : Inode) :
    ((∀ stack stack', getptable k n buf room stack = getptable k n buf room stack') ↔
      n < 1 ∨ buf = 0 ∨ room ≤ 12 ∨ ∀ p, (k.proc p).state = .unused) ∧
    ((∀ stack stack', filestat f i room stack = filestat f i room stack') ↔
      ¬(f.type = .inode ∨ f.type = .device) ∨ room ≤ 12) := by
  refine ⟨⟨fun same => ?_, fun quiet stack stack' => ?_⟩, fun same => ?_, fun quiet stack stack' => ?_⟩
  · by_contra leaks
    push Not at leaks
    obtain ⟨more, real, wide, p, live⟩ := leaks
    refine leak_differs (fun stack => ?_) same
    rw [getptable, if_neg (by omega)]
    exact getptableFrom_leak (by omega) wide ⟨p, List.mem_finRange p, live⟩
  · unfold getptable
    split
    next => rfl
    next real => exact getptableFrom_same (by grind) stack stack'
  · by_contra leaks
    push Not at leaks
    refine leak_differs (fun stack => ?_) same
    rw [filestat, if_pos leaks.1, bytes_get (by omega), stati_padding]
  · unfold filestat
    split
    next here =>
      have narrow := quiet.resolve_left (not_not.mpr here)
      refine congrArg (Prod.mk · _) (List.map_congr_left fun j mem => stati_low ?_ i stack stack')
      have below := List.mem_range.mp mem
      omega
    next => rfl

/-- For an inode the four bytes before the size are those of the stack. -/
theorem filestat_leaks : let f : File := ⟨.inode, 1, true, false, 0, none, 0, 0⟩
    let i : Inode := ⟨1, 1, 1, false, true, .zero⟩
    filestat f i 24 (fun _ => 0) ≠ filestat f i 24 fun _ => 1 := by
  decide

end Xv6Monitor.Calls.Listings
