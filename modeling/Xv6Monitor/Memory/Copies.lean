import Xv6Monitor.Lib.Positions
import Xv6Monitor.Memory.Lookups

/-! `copyout`, `copyin` and `copyinstr` of `kernel/vm.c` go from page to page, and come as far as the first byte of
the user's memory that cannot be used. -/

namespace Xv6Monitor.Memory.Copies
open Function Stops Lib.Bytes Lib.Positions Lib.Program Process.Table Frames Tables Words Trees Spaces Mappings

/-- The loop of `copyin`, at offset `o` of the kernel's buffer `dst`. -/
def copyinFrom (pagetable : Nat) : (rounds srcva o len : Nat) → (dst : Data) → Prog Halt Ram (Bool × Data)
  | 0, _, _, _, dst => pure (true, dst)
  | rounds + 1, srcva, o, len, dst => do
    if len = 0 then
      pure (true, dst)
    else
      let va0 := PGROUNDDOWN srcva
      let pa0 ← walkaddr pagetable va0
      if pa0 = 0 then
        pure (false, dst)
      else
        let n := min (PGSIZE - (srcva - va0)) len
        let page := (← get).page pa0
        copyinFrom pagetable rounds (uint64 (va0 + PGSIZE)) (o + n) (len - n) (splice dst o n fun i => page (srcva - va0 + i))

def copyin (pagetable : Nat) (dst : Data) (srcva len : Nat) : Prog Halt Ram (Bool × Data) :=
  copyinFrom pagetable len srcva 0 len dst

/-- The inner loop of `copyinstr`, over `n` bytes of a page from `p` on: whether there was a null byte. -/
def copyChars (page : Data) : (n p o : Nat) → (dst : Data) → Bool × Data
  | 0, _, _, dst => (false, dst)
  | n + 1, p, o, dst =>
    if page p = 0 then (true, update dst o 0)
    else copyChars page n (p + 1) (o + 1) (update dst o (page p))

def copyinstrFrom (pagetable : Nat) : (rounds srcva o max : Nat) → (dst : Data) → Prog Halt Ram (Bool × Data)
  | 0, _, _, _, dst => pure (false, dst)
  | rounds + 1, srcva, o, max, dst => do
    if max = 0 then
      pure (false, dst)
    else
      let va0 := PGROUNDDOWN srcva
      let pa0 ← walkaddr pagetable va0
      if pa0 = 0 then
        pure (false, dst)
      else
        let n := min (PGSIZE - (srcva - va0)) max
        let (gotNull, dst) := copyChars ((← get).page pa0) n (srcva - va0) o dst
        if gotNull then pure (true, dst)
        else copyinstrFrom pagetable rounds (uint64 (va0 + PGSIZE)) (o + n) (max - n) dst

def copyinstr (pagetable : Nat) (dst : Data) (srcva max : Nat) : Prog Halt Ram (Bool × Data) :=
  copyinstrFrom pagetable max srcva 0 max dst

/-! ### The user's memory -/

structure Readable (w : Nat) : Prop where
  valid : Valid w
  user : w &&& PTE_U ≠ 0

structure Writable (w : Nat) : Prop extends Readable w where
  writable : w &&& PTE_W ≠ 0

variable {E : Halt → Prop} {m t : Ram} {root va : Nat} {f : Nat → Nat}

def ReadableAt (f : Nat → Nat) (va : Nat) : Prop := va < MAXVA ∧ Readable (f (va / PGSIZE))

def WritableAt (f : Nat → Nat) (va : Nat) : Prop := va < MAXVA ∧ Writable (f (va / PGSIZE))

def frame (f : Nat → Nat) (va : Nat) : Nat := PTE2PA (f (va / PGSIZE))

def byteAt (m : Ram) (f : Nat → Nat) (va : Nat) : UInt8 := m.page (frame f va) (va % PGSIZE)

/-- The user's pages are pages of memory, all different, and none of them holds the table. -/
structure Backed (m : Ram) (root : Nat) (f : Nat → Nat) : Prop where
  tree : Tree m 2 root f
  apart : ∀ v, Readable (f v) → PTE2PA (f v) ∉ nodes m 2 root
  distinct : ∀ v w, v < 67108864 → w < 67108864 → Readable (f v) → Readable (f w) → PTE2PA (f v) = PTE2PA (f w) → v = w
  real : ∀ v, Readable (f v) → PTE2PA (f v) ≠ 0

def poke (m : Ram) (pa : Nat) (data : Data) : Ram := { m with page := update m.page pa data }

theorem poke_self (m : Ram) (pa : Nat) (data : Data) : (poke m pa data).page pa = data := update_self ..

theorem poke_other {pa x : Nat} {data : Data} (other : x ≠ pa) : (poke m pa data).page x = m.page x :=
  update_of_ne other ..

theorem Backed.fill {v : Nat} (backed : Backed m root f) (readable : Readable (f v)) (data : Data) :
    Backed (poke m (PTE2PA (f v)) data) root f := by
  have kept : ∀ x ∈ nodes m 2 root, (poke m (PTE2PA (f v)) data).page x = m.page x := by
    intro x mem
    exact poke_other fun here => backed.apart v readable (here ▸ mem)
  refine ⟨backed.tree.congr kept, fun w readable => ?_, backed.distinct, backed.real⟩
  rw [nodes_congr kept]
  exact backed.apart w readable

theorem round_page (va : Nat) : PGROUNDDOWN va / PGSIZE = va / PGSIZE := Nat.mul_div_cancel _ PGSIZE_pos

theorem round_lt : PGROUNDDOWN va < MAXVA ↔ va < MAXVA := by
  rw [MAXVA_eq, PGROUNDDOWN]
  simp only [PGSIZE]
  omega

theorem page_number_lt (below : va < MAXVA) : va / PGSIZE < 67108864 := by
  rw [MAXVA_eq] at below
  simp only [PGSIZE]
  omega

def chunk (va len : Nat) : Nat := min (PGSIZE - (va - PGROUNDDOWN va)) len

variable {len : Nat}

theorem chunk_pos (va : Nat) (some : len ≠ 0) : 0 < chunk va len := by
  rw [chunk, PGROUNDDOWN]
  simp only [PGSIZE]
  omega

theorem chunk_le (va len : Nat) : chunk va len ≤ len := Nat.min_le_right ..

variable {i : Nat}

theorem chunk_page (less : i < chunk va len) :
    (va + i) / PGSIZE = va / PGSIZE ∧ (va + i) % PGSIZE = va - PGROUNDDOWN va + i := by
  rw [chunk, PGROUNDDOWN] at less
  rw [PGROUNDDOWN]
  simp only [PGSIZE] at *
  omega

theorem chunk_next (below : va < MAXVA) (more : i < len - chunk va len) :
    uint64 (PGROUNDDOWN va + PGSIZE) + i = va + (chunk va len + i) ∧
      va / PGSIZE < (va + (chunk va len + i)) / PGSIZE := by
  rw [MAXVA_eq] at below
  rw [chunk, PGROUNDDOWN] at more
  rw [chunk, PGROUNDDOWN, uint64]
  simp only [PGSIZE] at *
  omega

theorem chunk_below (below : va < MAXVA) (less : i < chunk va len) : va + i < MAXVA := by
  have same := (chunk_page less).1
  rw [MAXVA_eq] at *
  simp only [PGSIZE] at same
  omega

/-! ### Copying to the user -/

/-- `k` bytes of `src` are stored from `dstva` on, and nothing else is changed. -/
structure Stored (f : Nat → Nat) (m t : Ram) (dstva : Nat) (src : Data) (k : Nat) : Prop where
  hit : ∀ i < k, byteAt t f (dstva + i) = src i
  miss : ∀ pa o, (∀ i < k, frame f (dstva + i) = pa → (dstva + i) % PGSIZE ≠ o) → t.page pa o = m.page pa o
  free : t.freelist = m.freelist

theorem Stored.none (f : Nat → Nat) (m : Ram) (dstva : Nat) (src : Data) : Stored f m m dstva src 0 :=
  ⟨nofun, fun _ _ _ => rfl, rfl⟩

theorem Stored.after {dstva k : Nat} {src : Data} (backed : Backed m root f) (writable : WritableAt f dstva)
    (le : k ≤ len - chunk dstva len)
    (reached : ∀ i < k, ReadableAt f (dstva + (chunk dstva len + i)))
    (rest : Stored f
      (poke m (frame f dstva) (splice (m.page (frame f dstva)) (dstva - PGROUNDDOWN dstva) (chunk dstva len) src))
      t (uint64 (PGROUNDDOWN dstva + PGSIZE)) (fun i => src (i + chunk dstva len)) k) :
    Stored f m t dstva src (chunk dstva len + k) := by
  have later : ∀ i < k, uint64 (PGROUNDDOWN dstva + PGSIZE) + i = dstva + (chunk dstva len + i) :=
    fun i less => (chunk_next writable.1 (by omega)).1
  -- The pages that follow are other pages of memory.
  have other : ∀ i < k, frame f (dstva + (chunk dstva len + i)) ≠ frame f dstva := by
    intro i less same
    have reach := reached i less
    have page := backed.distinct _ _ (page_number_lt reach.1) (page_number_lt writable.1) reach.2 writable.2.toReadable same
    have next := (chunk_next writable.1 (show i < len - chunk dstva len by omega)).2
    omega
  refine ⟨fun i less => ?_, fun pa o away => ?_, rest.free⟩
  · by_cases first : i < chunk dstva len
    · obtain ⟨page, offset⟩ := chunk_page first
      have untouched := rest.miss (frame f dstva) (dstva - PGROUNDDOWN dstva + i) fun j low same => by
        rw [later j low] at same
        exact absurd same (other j low)
      rw [byteAt, frame, page, offset]
      refine untouched.trans ?_
      rw [poke_self, splice, if_pos (by omega), Nat.add_sub_cancel_left]
    · have hit := rest.hit (i - chunk dstva len) (by omega)
      rw [later _ (by omega), Nat.add_sub_cancel' (Nat.le_of_not_lt first), Nat.sub_add_cancel (Nat.le_of_not_lt first)] at hit
      exact hit
  · have untouched := rest.miss pa o fun i low same => by
      rw [later i low] at same ⊢
      exact away _ (by omega) same
    rw [untouched]
    by_cases here : pa = frame f dstva
    · rw [here, poke_self, splice, if_neg]
      rintro ⟨low, high⟩
      have inside : o - (dstva - PGROUNDDOWN dstva) < chunk dstva len := by omega
      obtain ⟨page, offset⟩ := chunk_page inside
      refine away (o - (dstva - PGROUNDDOWN dstva)) (by omega) ?_ (by omega)
      rw [here, frame, frame, page]
    · rw [poke_other here]

variable {rounds : Nat}

theorem copyoutFrom_reach {dstva : Nat} {src : Data} (backed : Backed m root f) (enough : len ≤ rounds) :
    Ends E (copyoutFrom root rounds dstva src len) m fun done t => ∃ k, Reach (fun i => WritableAt f (dstva + i)) len k ∧
      (done = true ↔ k = len) ∧ Stored f m t dstva src k := by
  induction rounds generalizing m dstva src len with
  | zero =>
    obtain rfl : len = 0 := Nat.le_zero.mp enough
    exact ⟨0, Reach.none _, iff_of_true rfl rfl, Stored.none ..⟩
  | succ rounds ih =>
    unfold copyoutFrom
    by_cases none : len = 0
    · rw [if_pos none, none]
      exact ⟨0, Reach.none _, iff_of_true rfl rfl, Stored.none ..⟩
    rw [if_neg none]
    have blocked : ¬WritableAt f dstva → ∃ k, Reach (fun i => WritableAt f (dstva + i)) len k ∧
        (false = true ↔ k = len) ∧ Stored f m m dstva src k :=
      fun refused => ⟨0, Reach.blocked refused, iff_of_false Bool.false_ne_true (Ne.symm none), Stored.none ..⟩
    by_cases high : MAXVA ≤ PGROUNDDOWN dstva
    · simp only [if_pos high]
      exact blocked fun writable => absurd (round_lt.mpr writable.1) (Nat.not_lt.mpr high)
    simp only [if_neg high]
    have below : PGROUNDDOWN dstva < MAXVA := Nat.lt_of_not_le high
    rw [ends_bind, Ends, walk_lookup below]
    dsimp only
    cases found : slot m (PGROUNDDOWN dstva) 2 root with
    | none =>
      have zero := backed.tree.slot_none found
      rw [vpn_eq below, round_page] at zero
      exact blocked fun writable => absurd (zero ▸ writable.2.valid) not_valid_zero
    | some p =>
      have entry : pte m p = f (dstva / PGSIZE) := by rw [backed.tree.slot_some found, vpn_eq below, round_page]
      rw [ends_get_bind, entry]
      by_cases refused : ¬Valid (f (dstva / PGSIZE)) ∨ f (dstva / PGSIZE) &&& PTE_U = 0 ∨ f (dstva / PGSIZE) &&& PTE_W = 0
      · rw [if_pos refused]
        refine blocked fun writable => ?_
        rcases refused with invalid | noUser | noWrite
        · exact invalid writable.2.valid
        · exact writable.2.user noUser
        · exact writable.2.writable noWrite
      · rw [if_neg refused, ends_modify_bind]
        push Not at refused
        have writable : WritableAt f dstva := ⟨round_lt.mp below, ⟨refused.1, refused.2.1⟩, refused.2.2⟩
        have positive := chunk_pos dstva none
        have le := chunk_le dstva len
        have next := backed.fill writable.2.toReadable
          (splice (m.page (frame f dstva)) (dstva - PGROUNDDOWN dstva) (chunk dstva len) src)
        have fewer : len - chunk dstva len ≤ rounds := by omega
        refine (ih next fewer).imp ?_
        rintro done t ⟨k, reach, all, stored⟩
        refine ⟨chunk dstva len + k, ?_, ?_, ?_⟩
        · refine Reach.after le (fun i less => ⟨chunk_below writable.1 less, ?_⟩) (reach.congr fun i less => ?_)
          · rw [(chunk_page less).1]
            exact writable.2
          · rw [(chunk_next writable.1 less).1]
        · rw [all]
          omega
        · have short := reach.le
          refine Stored.after backed writable short (fun i less => ?_) stored
          have reached := reach.passes i less
          rw [(chunk_next writable.1 (Nat.lt_of_lt_of_le less short)).1] at reached
          exact ⟨reached.1, reached.2.toReadable⟩

/-! ### Copying from the user -/

theorem walkaddr_page (backed : Backed m root f) (va : Nat) : walkaddr root (PGROUNDDOWN va) m = .ok (PTE2PA (f (va / PGSIZE)), m) ∧
    PTE2PA (f (va / PGSIZE)) ≠ 0 ∧ ReadableAt f va ∨ walkaddr root (PGROUNDDOWN va) m = .ok (0, m) ∧ ¬ReadableAt f va := by
  by_cases high : MAXVA ≤ PGROUNDDOWN va
  · right
    refine ⟨?_, fun readable => absurd (round_lt.mpr readable.1) (Nat.not_lt.mpr high)⟩
    rw [walkaddr, if_pos high]
    rfl
  have below : PGROUNDDOWN va < MAXVA := Nat.lt_of_not_le high
  simp only [walkaddr, if_neg high, bind, StateT.bind, walk_lookup below]
  cases found : slot m (PGROUNDDOWN va) 2 root with
  | none =>
    have zero := backed.tree.slot_none found
    rw [vpn_eq below, round_page] at zero
    exact Or.inr ⟨rfl, fun readable => absurd (zero ▸ readable.2.valid) not_valid_zero⟩
  | some p =>
    have entry : pte m p = f (va / PGSIZE) := by rw [backed.tree.slot_some found, vpn_eq below, round_page]
    show (if ¬Valid (pte m p) ∨ pte m p &&& PTE_U = 0 then pure 0 else pure (PTE2PA (pte m p)) : Prog Halt Ram Nat) m = _ ∧ _ ∨
      (if ¬Valid (pte m p) ∨ pte m p &&& PTE_U = 0 then pure 0 else pure (PTE2PA (pte m p)) : Prog Halt Ram Nat) m = _ ∧ _
    rw [entry]
    by_cases refused : ¬Valid (f (va / PGSIZE)) ∨ f (va / PGSIZE) &&& PTE_U = 0
    · rw [if_pos refused]
      refine Or.inr ⟨rfl, fun readable => ?_⟩
      rcases refused with invalid | noUser
      · exact invalid readable.2.valid
      · exact readable.2.user noUser
    · rw [if_neg refused]
      push Not at refused
      have readable : Readable (f (va / PGSIZE)) := ⟨refused.1, refused.2⟩
      exact Or.inl ⟨rfl, backed.real _ readable, round_lt.mp below, readable⟩

theorem chunk_readable (readable : ReadableAt f va) (less : i < chunk va len) : ReadableAt f (va + i) := by
  refine ⟨chunk_below readable.1 less, ?_⟩
  rw [(chunk_page less).1]
  exact readable.2

theorem chunk_byte (less : i < chunk va len) :
    m.page (PTE2PA (f (va / PGSIZE))) (va - PGROUNDDOWN va + i) = byteAt m f (va + i) := by
  obtain ⟨page, offset⟩ := chunk_page less
  rw [byteAt, frame, page, offset]

def fetched (m : Ram) (f : Nat → Nat) (srcva o k : Nat) (dst : Data) : Data := splice dst o k fun i => byteAt m f (srcva + i)

variable {srcva : Nat} {dst : Data}

theorem fetched_after {o k : Nat} (below : srcva < MAXVA) (le : k ≤ len - chunk srcva len) :
    fetched m f (uint64 (PGROUNDDOWN srcva + PGSIZE)) (o + chunk srcva len) k
      (splice dst o (chunk srcva len) fun i => m.page (PTE2PA (f (srcva / PGSIZE))) (srcva - PGROUNDDOWN srcva + i)) =
    fetched m f srcva o (chunk srcva len + k) dst := by
  funext i
  simp only [fetched, splice]
  by_cases later : o + chunk srcva len ≤ i ∧ i < o + chunk srcva len + k
  · have more : i - (o + chunk srcva len) < len - chunk srcva len := by omega
    rw [if_pos later, if_pos (by omega), (chunk_next below more).1]
    congr 2
    omega
  · rw [if_neg later]
    by_cases first : o ≤ i ∧ i < o + chunk srcva len
    · rw [if_pos first, if_pos (by omega), chunk_byte (show i - o < chunk srcva len by omega)]
    · rw [if_neg first, if_neg (by omega)]

theorem fetched_zero (m : Ram) (f : Nat → Nat) (srcva o : Nat) (dst : Data) : fetched m f srcva o 0 dst = dst := by
  funext i
  exact if_neg (by omega)

theorem copyinFrom_reach {o : Nat} (backed : Backed m root f) (enough : len ≤ rounds) :
    Ends E (copyinFrom root rounds srcva o len dst) m fun r t => t = m ∧ ∃ k, Reach (fun i => ReadableAt f (srcva + i)) len k ∧
      (r.1 = true ↔ k = len) ∧ r.2 = fetched m f srcva o k dst := by
  induction rounds generalizing srcva o len dst with
  | zero =>
    obtain rfl : len = 0 := Nat.le_zero.mp enough
    exact ⟨rfl, 0, Reach.none _, iff_of_true rfl rfl, (fetched_zero ..).symm⟩
  | succ rounds ih =>
    unfold copyinFrom
    by_cases none : len = 0
    · rw [if_pos none, none]
      exact ⟨rfl, 0, Reach.none _, iff_of_true rfl rfl, (fetched_zero ..).symm⟩
    rw [if_neg none]
    rw [ends_bind, Ends]
    rcases walkaddr_page backed srcva with ⟨walked, real, readable⟩ | ⟨walked, refused⟩
    · rw [walked]
      dsimp only
      rw [if_neg real]
      have positive := chunk_pos srcva none
      have le := chunk_le srcva len
      have fewer : len - chunk srcva len ≤ rounds := by omega
      refine (ih fewer).imp ?_
      rintro r t ⟨same, k, reach, all, bytes⟩
      refine ⟨same, chunk srcva len + k, ?_, ?_, ?_⟩
      · refine Reach.after le (fun i less => chunk_readable readable less) (reach.congr fun i less => ?_)
        rw [(chunk_next readable.1 less).1]
      · rw [all]
        omega
      · rw [bytes]
        exact fetched_after readable.1 reach.le
    · rw [walked]
      exact ⟨rfl, 0, Reach.blocked refused, iff_of_false Bool.false_ne_true (Ne.symm none), (fetched_zero ..).symm⟩

/-! ### Copying a string -/

theorem copyChars_reach (page : Data) (n p o : Nat) (dst : Data) : ∃ k, Reach (fun i => page (p + i) ≠ 0) n k ∧
    ((copyChars page n p o dst).1 = true ↔ k < n) ∧
    (copyChars page n p o dst).2 = splice dst o (if k < n then k + 1 else k) fun i => page (p + i) := by
  induction n generalizing p o dst with
  | zero =>
    refine ⟨0, Reach.none _, iff_of_false nofun (Nat.lt_irrefl 0), ?_⟩
    funext i
    exact (if_neg (by simp)).symm
  | succ n ih =>
    rw [copyChars]
    by_cases null : page p = 0
    · rw [if_pos null]
      refine ⟨0, Reach.blocked (not_not.mpr null), iff_of_true rfl (Nat.succ_pos n), ?_⟩
      funext i
      rw [if_pos (Nat.succ_pos n), splice]
      by_cases here : i = o
      · rw [here, if_pos (by omega), Nat.sub_self, Nat.add_zero, null]
        exact update_self ..
      · rw [if_neg (by omega)]
        exact update_of_ne here ..
    · rw [if_neg null]
      obtain ⟨k, reach, found, bytes⟩ := ih (p + 1) (o + 1) (update dst o (page p))
      refine ⟨1 + k, Reach.after (Nat.le_add_left 1 n) (fun i less => ?_) (reach.congr fun i _ => ?_), ?_, ?_⟩
      · rw [Nat.lt_one_iff.mp less]
        exact null
      · rw [Nat.add_assoc]
      · rw [found]
        omega
      rw [bytes]
      funext i
      have total : (if 1 + k < n + 1 then 1 + k + 1 else 1 + k) = 1 + (if k < n then k + 1 else k) := by
        split <;> split <;> omega
      rw [splice, splice]
      by_cases here : i = o
      · rw [here, if_neg (by omega), if_pos (by omega), update_self, Nat.sub_self, Nat.add_zero]
      by_cases later : o + 1 ≤ i ∧ i < o + 1 + (if k < n then k + 1 else k)
      · rw [if_pos later, if_pos (by omega)]
        congr 1
        omega
      · rw [if_neg later, if_neg (by omega), update_of_ne here]

/-- A byte of a string that is not its end. -/
def Char (m : Ram) (f : Nat → Nat) (va : Nat) : Prop := ReadableAt f va ∧ byteAt m f va ≠ 0

theorem copyinstrFrom_reach {o max : Nat} (backed : Backed m root f) (enough : max ≤ rounds) :
    Ends E (copyinstrFrom root rounds srcva o max dst) m fun r t => t = m ∧ ∃ k, Reach (fun i => Char m f (srcva + i)) max k ∧
      (r.1 = true ↔ k < max ∧ ReadableAt f (srcva + k)) ∧
      r.2 = fetched m f srcva o (if r.1 then k + 1 else k) dst := by
  induction rounds generalizing srcva o max dst with
  | zero =>
    obtain rfl : max = 0 := Nat.le_zero.mp enough
    exact ⟨rfl, 0, Reach.none _, iff_of_false Bool.false_ne_true fun both => absurd both.1 (Nat.lt_irrefl 0), (fetched_zero ..).symm⟩
  | succ rounds ih =>
    unfold copyinstrFrom
    by_cases none : max = 0
    · rw [if_pos none, none]
      exact ⟨rfl, 0, Reach.none _, iff_of_false Bool.false_ne_true fun both => absurd both.1 (Nat.lt_irrefl 0), (fetched_zero ..).symm⟩
    rw [if_neg none]
    rw [ends_bind, Ends]
    rcases walkaddr_page backed srcva with ⟨walked, real, readable⟩ | ⟨walked, refused⟩
    · rw [walked]
      dsimp only
      rw [if_neg real]
      have positive := chunk_pos srcva none
      have le := chunk_le srcva max
      have byte : ∀ i < chunk srcva max, m.page (PTE2PA (f (srcva / PGSIZE))) (srcva - PGROUNDDOWN srcva + i) =
          byteAt m f (srcva + i) := fun i less => chunk_byte less
      obtain ⟨k, reach, found, bytes⟩ := copyChars_reach (m.page (PTE2PA (f (srcva / PGSIZE)))) (chunk srcva max)
        (srcva - PGROUNDDOWN srcva) o dst
      have chars : Reach (fun i => Char m f (srcva + i)) (chunk srcva max) k := reach.congr fun i less => by
        rw [byte i less]
        exact ⟨fun char => ⟨chunk_readable readable less, char⟩, And.right⟩
      cases ran : copyChars (m.page (PTE2PA (f (srcva / PGSIZE)))) (chunk srcva max) (srcva - PGROUNDDOWN srcva) o dst with
      | mk gotNull _ =>
      rw [ran] at found bytes
      simp only [ends_get_bind, show min (PGSIZE - (srcva - PGROUNDDOWN srcva)) max = chunk srcva max from rfl, ran]
      dsimp only at found bytes
      cases gotNull with
      | true =>
        have short := found.mp rfl
        refine ⟨rfl, k, ⟨by omega, chars.passes, fun _ => chars.fails short⟩,
          iff_of_true rfl ⟨by omega, chunk_readable readable short⟩, ?_⟩
        rw [bytes, if_pos short, if_pos rfl]
        funext i
        simp only [fetched, splice]
        split
        next inside => exact byte _ (by omega)
        next => rfl
      | false =>
        have whole : k = chunk srcva max := Nat.le_antisymm chars.le (Nat.le_of_not_lt (mt found.mpr Bool.false_ne_true))
        have fewer : max - chunk srcva max ≤ rounds := by omega
        refine (ih fewer).imp ?_
        rintro r t ⟨same, j, reach', found', bytes'⟩
        refine ⟨same, chunk srcva max + j, ?_, ?_, ?_⟩
        · refine Reach.after le (fun i less => chars.passes i (by omega)) (reach'.congr fun i less => ?_)
          rw [(chunk_next readable.1 less).1]
        · rw [found']
          by_cases more : j < max - chunk srcva max
          · rw [(chunk_next readable.1 more).1]
            exact and_congr_left fun _ => by omega
          · exact iff_of_false (fun both => more both.1) fun both => more (by omega)
        have last : (if r.1 then j + 1 else j) ≤ max - chunk srcva max := by
          have le' := reach'.le
          split
          next null => exact (found'.mp null).1
          next => exact le'
        have total : (if r.1 then chunk srcva max + j + 1 else chunk srcva max + j) =
            chunk srcva max + (if r.1 then j + 1 else j) := by split <;> rfl
        rw [bytes', total, ← fetched_after readable.1 last]
        rw [bytes, whole, if_neg (Nat.lt_irrefl _)]
    · rw [walked]
      refine ⟨rfl, 0, Reach.blocked fun char => refused char.1, iff_of_false Bool.false_ne_true fun both => refused both.2,
        (fetched_zero ..).symm⟩

end Xv6Monitor.Memory.Copies
