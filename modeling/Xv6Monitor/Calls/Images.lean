import Xv6Monitor.Calls.Exits

/-! `exec` makes a new address space beside the old one. Until it commits to the new one, all that was
allocated before is kept, and a failure only has to give back what is new. -/

namespace Xv6Monitor.Calls.Images
open Function Lib.Bytes Lib.Program Stops Process.Table Memory.Frames Memory.Tables Memory.Words Memory.Trees
  Memory.Spaces Memory.Mappings Memory.Users Memory.Access FileSystem.Format FileSystem.Blocks State Holdings Sharing
  Processes Lives Families

/-- Only the file system can stop the call. -/
def Filed : Halt → Prop
  | .fs _ => True
  | _ => False

structure Beside (rest : Multiset Nat) (k t : Kernel) : Prop where
  proc : t.proc = k.proc
  initproc : t.initproc = k.initproc
  file : t.file = k.file
  kept : Keeps rest k.ram t.ram

abbrev inUse (boot : Multiset Nat) (held : Slot → Multiset Nat) (k : Kernel) : Multiset Nat :=
  ∑ q, held q + ((pipePages k.file).val + boot)

theorem Beside.refl (rest : Multiset Nat) (k : Kernel) : Beside rest k k := ⟨rfl, rfl, rfl, Keeps.refl _ _⟩

variable {rest : Multiset Nat} {k t : Kernel}

theorem Beside.trans {u : Kernel} (first : Beside rest k t) (second : Beside rest t u) : Beside rest k u :=
  ⟨second.proc.trans first.proc, second.initproc.trans first.initproc, second.file.trans first.file,
    first.kept.trans second.kept⟩

theorem Beside.mono {more : Multiset Nat} (beside : Beside more k t) (within : rest ≤ more) : Beside rest k t :=
  ⟨beside.proc, beside.initproc, beside.file, fun x mem => beside.kept x (Multiset.mem_of_le within mem)⟩

variable [image : Image] [origin : Origin] {boot rest : Multiset Nat} {held : Slot → Multiset Nat} {p : Slot} {k : Kernel}
  {f : Nat → Nat} {pt n trapframe : Nat} {ip : Ip} {argv : List (List UInt8)}

theorem pushArgs_spec {stackbase sp : Nat} {ustack : List Nat} (mapped : Mapped f k.ram pt n trapframe rest) :
    Ends Filed (pushArgs pt stackbase argv sp ustack) k fun _ t =>
      Beside rest k t ∧ Mapped f t.ram pt n trapframe rest := by
  induction argv generalizing k sp ustack with
  | nil => exact ⟨Beside.refl rest k, mapped⟩
  | cons _ _ ih =>
    unfold pushArgs
    split
    · exact ⟨Beside.refl rest k, mapped⟩
    rw [ends_onRam_bind]
    refine (copyout_spec mapped).imp fun done m ⟨mapped', kept, _⟩ => ?_
    have step : Beside rest k { k with ram := m } := ⟨rfl, rfl, rfl, kept.right⟩
    split
    · exact (ih (k := { k with ram := m }) mapped').imp fun _ t ⟨beside, last⟩ => ⟨step.trans beside, last⟩
    · exact ⟨step, mapped'⟩

variable {sz : Nat}

theorem makeStack_spec (resident : Resident k.ram pt (pages sz) trapframe rest) :
    Ends Filed (makeStack pt sz argv) k fun r t => Beside rest k t ∧ Resident t.ram pt (pages r.1) trapframe rest := by
  obtain ⟨f, mapped⟩ := resident
  have small := mapped_small mapped
  have round : PGROUNDUP sz = pages sz * PGSIZE := PGROUNDUP_pages (by omega)
  have bound := mapped.bound
  have size : uint64 (pages sz * PGSIZE + (USERSTACK + 1) * PGSIZE) = (pages sz + 2) * PGSIZE := by
    rw [USERSTACK, uint64, ← Nat.add_mul, Nat.mod_eq_of_lt (by unfold PGSIZE; omega)]
  have base : (pages sz + 2) * PGSIZE - (USERSTACK + 1) * PGSIZE = pages sz * PGSIZE := by
    rw [USERSTACK, ← Nat.sub_mul, Nat.add_sub_cancel]
  rw [← pages_mul (pages sz)] at mapped
  unfold makeStack
  dsimp only
  rw [round, size, ends_onRam_bind]
  refine (grow_spec mapped (by decide)).imp ?_
  rintro r m ⟨kept, result⟩
  have step : Beside rest k { k with ram := m } := ⟨rfl, rfl, rfl, kept⟩
  rcases result with ⟨positive, top, g, grown, -⟩ | ⟨zero, same⟩
  · have top : r = (pages sz + 2) * PGSIZE := by
      rw [top]
      exact Nat.max_eq_right (Nat.mul_le_mul_right _ (by omega))
    rw [if_neg positive, top, base, ends_onRam_bind]
    rw [top, pages_mul] at grown
    refine (uvmclear_spec grown (v := pages sz) (by omega)).imp ?_
    rintro _ u ⟨⟨h, guarded⟩, kept'⟩
    have step' := step.trans (⟨rfl, rfl, rfl, kept'⟩ : Beside rest { k with ram := m } { k with ram := u })
    refine (pushArgs_spec (k := { k with ram := u }) guarded).bind ?_
    rintro pushed t ⟨beside, left⟩
    have resident : Resident t.ram pt (pages ((pages sz + 2) * PGSIZE)) trapframe rest := by
      rw [pages_mul]
      exact ⟨h, left⟩
    rcases pushed with _ | stack
    · exact ⟨step'.trans beside, resident⟩
    obtain ⟨sp, ustack⟩ := stack
    dsimp only
    split
    · exact ⟨step'.trans beside, resident⟩
    rw [ends_onRam_bind]
    refine (copyout_spec left).imp ?_
    rintro done w ⟨last, kept₃, _⟩
    have resident : Resident w pt (pages ((pages sz + 2) * PGSIZE)) trapframe rest := by
      rw [pages_mul]
      exact ⟨h, last⟩
    have step₃ := (step'.trans beside).trans (⟨rfl, rfl, rfl, kept₃.right⟩ : Beside rest t { t with ram := w })
    split
    · exact ⟨step₃, resident⟩
    · exact ⟨step₃, resident⟩
  · rw [if_pos zero]
    exact ⟨step, f, same⟩

variable [sb : Superblock]

theorem loadsegFrom_spec {va offset rounds i : Nat} (mapped : Mapped f k.ram pt n trapframe rest)
    (user : ∀ v < n, UserLeaf (f v)) (inside : va + sz ≤ n * PGSIZE) (enough : sz ≤ i + rounds * PGSIZE) :
    Ends Filed (loadsegFrom pt va ip offset sz rounds i) k fun _ t =>
      Beside rest k t ∧ Mapped f t.ram pt n trapframe rest := by
  have bound := mapped.bound
  induction rounds generalizing k i with
  | zero =>
    unfold loadsegFrom
    split
    · omega
    · exact ⟨Beside.refl rest k, mapped⟩
  | succ rounds ih =>
    unfold loadsegFrom
    split
    next more =>
      have page : uint (i + PGSIZE) = i + PGSIZE := Nat.mod_eq_of_lt (by unfold PGSIZE at inside ⊢; omega)
      have small : va + i < n * PGSIZE := by omega
      have wide : uint64 (va + i) = va + i := Nat.mod_eq_of_lt (by unfold PGSIZE at small; omega)
      have under : (va + i) / PGSIZE < n := (Nat.div_lt_iff_lt_mul PGSIZE_pos).mpr small
      have leaf := user _ under
      have some : PTE2PA (f ((va + i) / PGSIZE)) ≠ 0 := by
        have mine := mapped.space.owns.mem (x := PTE2PA (f ((va + i) / PGSIZE))) (by
          simp only [Multiset.mem_add]
          exact Or.inr (Or.inl (leaf_mem under)))
        exact Nat.ne_of_gt (frame_pos mine)
      rw [wide, ends_onRam_bind, ends_ran (walkaddr_spec mapped under leaf), if_neg some]
      refine onFs_any_bind (fun _ => trivial) fun got s => ?_
      obtain ⟨filled, kept⟩ := Mapped.fill mapped under (splice (k.ram.page (PTE2PA (f ((va + i) / PGSIZE)))) 0 got.len got.bytes)
      have step : Beside rest k { k with fs := s, ram := { k.ram with page := update k.ram.page (PTE2PA (f ((va + i) / PGSIZE))) (splice (k.ram.page (PTE2PA (f ((va + i) / PGSIZE)))) 0 got.len got.bytes) } } :=
        ⟨rfl, rfl, rfl, kept.right⟩
      split
      · rw [page]
        have enough : sz ≤ i + PGSIZE + rounds * PGSIZE := by
          rw [Nat.succ_mul] at enough
          omega
        exact (ih filled enough).imp fun _ t ⟨beside, last⟩ => ⟨step.trans beside, last⟩
      · exact ⟨step, filled⟩
    · exact ⟨Beside.refl rest k, mapped⟩

omit image origin sb in
theorem segment_inside {vaddr filesz memsz : Nat} (address : vaddr < 256 ^ 8) (size : memsz < 256 ^ 8)
    (fits : ¬(memsz < filesz ∨ uint64 (vaddr + memsz) < vaddr ∨ vaddr % PGSIZE ≠ 0)) :
    vaddr + uint filesz ≤ pages (max sz (uint64 (vaddr + memsz))) * PGSIZE := by
  have wide : uint64 (vaddr + memsz) = vaddr + memsz := by
    unfold uint64 at fits ⊢
    omega
  have narrow : uint filesz ≤ filesz := Nat.mod_le ..
  unfold pages PGSIZE
  omega

omit image origin sb in
theorem flags2perm_lt (flags : Nat) : flags2perm flags < 1024 := by
  unfold flags2perm
  split <;> split <;> decide

theorem loadFrom_spec {off headers : Nat} (mapped : Mapped f k.ram pt (pages sz) trapframe rest)
    (user : ∀ v < pages sz, UserLeaf (f v)) :
    Ends Filed (loadFrom pt ip headers off sz) k fun r t =>
      Beside rest k t ∧ Resident t.ram pt (pages r.2) trapframe rest := by
  induction headers generalizing k f off sz with
  | zero => exact ⟨Beside.refl rest k, f, mapped⟩
  | succ headers ih =>
    unfold loadFrom
    refine onFs_any_bind (fun _ => trivial) fun got s => ?_
    have first : Beside rest k { k with fs := s } := ⟨rfl, rfl, rfl, Keeps.refl _ _⟩
    dsimp only
    split
    · exact ⟨first, f, mapped⟩
    split
    · exact (ih (k := { k with fs := s }) mapped user).imp fun _ t ⟨beside, last⟩ => ⟨first.trans beside, last⟩
    split
    · exact ⟨first, f, mapped⟩
    next fits =>
    rw [ends_onRam_bind]
    refine (grow_spec mapped (flags2perm_lt _)).imp fun r m ⟨kept, result⟩ => ?_
    have second := first.trans (⟨rfl, rfl, rfl, kept⟩ : Beside rest { k with fs := s } { k with fs := s, ram := m })
    rcases result with ⟨positive, top, g, grown, below, above⟩ | ⟨zero, same⟩
    · rw [if_neg positive]
      have user' : ∀ v < pages r, UserLeaf (g v) := by
        intro v under
        by_cases old : v < pages sz
        · rw [below v old]
          exact user v old
        · exact above v (by omega) under
      have inside : (Proghdr.read got.bytes).vaddr + uint (Proghdr.read got.bytes).filesz ≤ pages r * PGSIZE := by
        rw [top]
        exact segment_inside (load_lt 8 ..) (load_lt 8 ..) fits
      have enough : ∀ size, size ≤ 0 + (size + PGSIZE - 1) / PGSIZE * PGSIZE := by
        intro size
        unfold PGSIZE
        omega
      refine (loadsegFrom_spec (k := { k with fs := s, ram := m }) grown user' inside (enough _)).bind
        fun done t ⟨beside, loaded⟩ => ?_
      split
      · exact (ih loaded user').imp fun _ u ⟨beside', last⟩ => ⟨(second.trans beside).trans beside', last⟩
      · exact ⟨second.trans beside, g, loaded⟩
    · rw [if_pos zero]
      exact ⟨second, f, same⟩

omit sb in
theorem fine_beside {extra : Fp → Int} {more : Multiset Nat} (fine : Fine boot k held extra)
    (beside : Beside (inUse boot held k) k t)
    (owns : Owns t.ram (∑ q, held q + ((pipePages k.file).val + more))) : Fine more t held extra := by
  have layout : Layout t.ram k.proc held ((pipePages k.file).val + more) :=
    fine.layout.keep (fun x mem => beside.kept x (Multiset.mem_add.mpr (Or.inl mem))) owns
  have sound := relayout fine layout (fun x mem => beside.kept x ?_) (fun _ => rfl) fine.rest
  · rw [Fine, beside.proc, beside.file]
    exact sound
  · exact Multiset.mem_add.mpr (Or.inr (Multiset.mem_add.mpr (Or.inl mem)))

omit sb in
theorem commitImage_spec {path : FileSystem.Format.Path} {sp entry : Nat} (fine : Fine boot k held 0) (busy : Busy (k.proc p))
    (beside : Beside (inUse boot held k) k t)
    (mapped : Mapped f t.ram pt (pages sz) (k.proc p).trapframe (inUse boot held k)) :
    Ends Filed (commitImage p path pt sz sp entry) t fun _ u => u.file = k.file ∧ u.initproc = k.initproc ∧
      ∃ held', Fine boot u held' 0 := by
  obtain ⟨new, isNew⟩ : ∃ new, nodes t.ram 2 pt + leaves f 0 (pages sz) = new := ⟨_, rfl⟩
  have wide : Fine (new + boot) t held 0 := by
    refine fine_beside fine beside ?_
    have owns := mapped.space.owns
    rw [← add_assoc, isNew, add_left_comm, add_left_comm new] at owns
    exact owns
  have live : (t.proc p).state ≠ .unused := by
    rw [beside.proc]
    exact busy.1
  obtain ⟨g, current⟩ := wide.layout.mapped live
  have apart : ∀ x ∈ others held p + ((pipePages t.file).val + (new + boot)), x ≠ (t.proc p).trapframe := by
    intro x mem same
    have owns := current.space.owns
    rw [← add_assoc, ← add_assoc] at owns
    exact owns.apart (x := x) (by simp [same]) mem
  unfold commitImage
  rw [ends_get_bind]
  dsimp only
  rw [setReg, ends_setPage_bind, ends_setProc_bind, setReg, ends_setPage_bind, setReg, ends_setPage_bind, ends_onRam]
  simp only [update_idem]
  generalize store 8 _ tfSp sp = data
  obtain ⟨h, old⟩ := (fine_frame (d := data) wide live rfl).layout.mapped live
  refine (procFreepagetable_spec ⟨h, old⟩).imp ?_
  rintro _ u ⟨owns, kept⟩
  have whole : Keeps (others held p + ((pipePages t.file).val + (new + boot))) t.ram u := fun x mem =>
    (kept x (Multiset.mem_add.mpr (Or.inr mem))).trans (update_of_ne (apart x mem) ..)
  have owns : Owns u ({(k.proc p).trapframe} + (Holdings.others held p + ((pipePages k.file).val + (new + boot)))) := by
    rw [← beside.file, ← beside.proc]
    exact owns
  rw [beside.file] at whole
  have table : ∀ x ∈ nodes t.ram 2 pt, x ∈ others held p + ((pipePages k.file).val + (new + boot)) := by
    intro x mem
    simp only [← isNew, Multiset.mem_add]
    exact Or.inr (Or.inr (Or.inl (Or.inl mem)))
  obtain ⟨tree, same⟩ := whole.tree table mapped.space.tree
  have moved : Mapped f u pt (pages sz) (k.proc p).trapframe ({(k.proc p).trapframe} + besides boot k held p) := by
    refine ⟨mapped.shape, tree, ?_⟩
    have sum : nodes t.ram 2 pt + (leaves f 0 (pages sz) + ({(k.proc p).trapframe} + besides boot k held p)) =
        {(k.proc p).trapframe} + (Holdings.others held p + ((pipePages k.file).val + (new + boot))) := by
      rw [← isNew, besides]
      abel
    rw [same, sum]
    exact owns
  have kept' : Keeps (besides boot k held p) k.ram u := by
    intro x mem
    rw [whole x, beside.kept x]
    · rw [inUse, sum_others held p]
      simp only [Multiset.mem_add] at mem ⊢
      tauto
    · simp only [Multiset.mem_add] at mem ⊢
      tauto
  have after := fine_update
    (q := { k.proc p with name := safestrcpy (lastElement path) nameSize, pagetable := pt, sz := sz }) fine busy.1 moved
    kept' rfl fun idle => absurd busy idle
  rw [← beside.proc, ← beside.file] at after
  exact ⟨beside.file, beside.initproc, _, after⟩

end Xv6Monitor.Calls.Images
