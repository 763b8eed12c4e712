import Xv6Monitor.Disk.Requests

/-! The descriptors of the disk: who has them, and what allocating and freeing them does. -/

namespace Xv6Monitor.Disk.Descriptors
open Function Lib.Program Requests

section Programs

variable {E : Panic → Prop} {s : Sys}

theorem allocDesc_spec : Ends E allocDesc s fun r t =>
    match r with
    | none => t = s
    | some i => (i < NUM ∧ s.free i = true) ∧ t = s.claimed i := by
  unfold allocDesc
  rw [ends_get_bind]
  split
  next i found =>
    exact ⟨⟨List.mem_range.mp (List.mem_of_find?_eq_some found), List.find?_some found⟩, rfl⟩
  · exact rfl

theorem freeDesc_spec {i : Nat} (bound : i < NUM) (taken : s.free i = false) :
    Ends E (freeDesc i) s fun _ t => t = s.freed i := by
  unfold freeDesc
  rw [ends_get_bind, if_neg (not_le.mpr bound), taken]
  exact rfl

def Took (list : List Nat) (s t : Sys) : Prop :=
  ∃ desc asleep, t = { s with desc := desc, asleep := asleep, free := fun i => s.free i && decide (i ∉ list) } ∧
    ∀ i, s.free i = false → desc i = s.desc i

theorem took_nil (s : Sys) : Took [] s s := by
  refine ⟨s.desc, s.asleep, ?_, fun _ _ => rfl⟩
  simp

section Took

variable {t : Sys} {list : List Nat} {i : Nat}

theorem Took.free (took : Took list s t) (i : Nat) : t.free i = (s.free i && decide (i ∉ list)) := by
  obtain ⟨desc, asleep, rfl, -⟩ := took
  rfl

theorem Took.alloc (took : Took list s t) (free : t.free i = true) :
    Took (list ++ [i]) s (t.claimed i) := by
  obtain ⟨desc, asleep, rfl, same⟩ := took
  have less : update (fun i => s.free i && decide (i ∉ list)) i false = fun j => s.free j && decide (j ∉ list ++ [i]) := by
    funext j
    by_cases here : j = i
    · rw [here, update_self]
      simp
    · rw [update_of_ne here]
      simp [here]
  refine ⟨desc, asleep, ?_, same⟩
  rw [← less]
  rfl

theorem Took.back (took : Took list s t) (was : s.free i = true) {rest : List Nat}
    (less : ∀ j, j ∈ rest ↔ j ∈ list ∧ j ≠ i) : Took rest s (t.freed i) := by
  obtain ⟨desc, asleep, rfl, same⟩ := took
  have free : update (fun i => s.free i && decide (i ∉ list)) i true = fun j => s.free j && decide (j ∉ rest) := by
    funext j
    by_cases here : j = i
    · rw [here, update_self, was]
      simp [less]
    · rw [update_of_ne here]
      simp [less, here]
  refine ⟨update desc i ⟨.null, 0, 0, 0⟩, fun p => asleep p && !(s.thread p).starved, ?_, fun j taken => ?_⟩
  · rw [← free]
    rfl
  · have apart : j ≠ i := by
      rintro rfl
      exact Bool.false_ne_true (taken.symm.trans was)
    exact (update_of_ne apart ..).trans (same j taken)

end Took

theorem alloc3Desc_spec : Ends E alloc3Desc s fun r t =>
    match r with
    | none => Took [] s t
    | some idx => idx.toList.Nodup ∧ (∀ i ∈ idx.toList, i < NUM ∧ s.free i = true) ∧ Took idx.toList s t := by
  unfold alloc3Desc
  refine allocDesc_spec.bind fun r t after => ?_
  rcases r with _ | i0
  · rw [after]
    exact took_nil s
  obtain ⟨⟨bound0, free0⟩, rfl⟩ := after
  have took0 : Took [i0] s (s.claimed i0) := (took_nil s).alloc free0
  refine allocDesc_spec.bind fun r t after => ?_
  cases r with
  | none =>
    rw [after]
    refine (freeDesc_spec bound0 (update_self ..)).bind fun _ t after => ?_
    rw [after]
    exact took0.back free0 (by simp)
  | some i1 =>
    obtain ⟨⟨bound1, free1⟩, rfl⟩ := after
    have took1 : Took [i0, i1] s ((s.claimed i0).claimed i1) := took0.alloc free1
    rw [took0.free, Bool.and_eq_true, decide_eq_true_eq, List.mem_singleton] at free1
    have apart1 : i0 ≠ i1 := Ne.symm free1.2
    refine allocDesc_spec.bind fun r t after => ?_
    cases r with
    | none =>
      rw [after]
      refine (freeDesc_spec bound0 ?_).bind fun _ t after => ?_
      · rw [took1.free]
        simp
      rw [after]
      have less : ∀ j, j ∈ [i1] ↔ j ∈ [i0, i1] ∧ j ≠ i0 := by
        intro j
        simp only [List.mem_cons, List.not_mem_nil, or_false]
        omega
      have back0 := took1.back free0 less
      refine (freeDesc_spec bound1 ?_).bind fun _ t after => ?_
      · rw [back0.free]
        simp
      rw [after]
      exact back0.back free1.1 (by simp)
    | some i2 =>
      obtain ⟨⟨bound2, free2⟩, rfl⟩ := after
      have took2 : Took [i0, i1, i2] s _ := took1.alloc free2
      rw [took1.free, Bool.and_eq_true, decide_eq_true_eq] at free2
      have apart2 : i0 ≠ i2 ∧ i1 ≠ i2 := by
        refine ⟨?_, ?_⟩ <;> rintro rfl <;> exact free2.2 (by simp)
      refine ⟨?_, ?_, took2⟩
      · simp [Idx.toList, apart1, apart2]
      · simp [Idx.toList, bound0, free0, bound1, free1, bound2, free2]

structure Chain (free : Nat → Bool) (desc : Nat → Desc) (idx : Idx) : Prop where
  nodup : idx.toList.Nodup
  bound : ∀ i ∈ idx.toList, i < NUM
  taken : ∀ i ∈ idx.toList, free i = false
  first : (desc idx.i0).flags &&& VRING_DESC_F_NEXT ≠ 0 ∧ (desc idx.i0).next = idx.i1
  second : (desc idx.i1).flags &&& VRING_DESC_F_NEXT ≠ 0 ∧ (desc idx.i1).next = idx.i2
  third : (desc idx.i2).flags &&& VRING_DESC_F_NEXT = 0

theorem Chain.kept {free free' : Nat → Bool} {desc desc' : Nat → Desc} {idx : Idx} (chain : Chain free desc idx)
    (taken : ∀ i ∈ idx.toList, free' i = false) (same : ∀ i ∈ idx.toList, desc' i = desc i) : Chain free' desc' idx := by
  refine ⟨chain.nodup, chain.bound, taken, ?_, ?_, ?_⟩
  · rw [same idx.i0 (by simp [Idx.toList])]
    exact chain.first
  · rw [same idx.i1 (by simp [Idx.toList])]
    exact chain.second
  · rw [same idx.i2 (by simp [Idx.toList])]
    exact chain.third

def Gave (idx : Idx) (s t : Sys) : Prop :=
  ∃ desc asleep, t = { s with desc := desc, asleep := asleep, free := fun i => s.free i || decide (i ∈ idx.toList) } ∧
    ∀ i, i ∉ idx.toList → desc i = s.desc i

theorem freed_desc (s : Sys) {i j : Nat} (apart : j ≠ i) : (s.freed i).desc j = s.desc j := update_of_ne apart ..

theorem freed_free (s : Sys) {i j : Nat} (apart : j ≠ i) : (s.freed i).free j = s.free j := update_of_ne apart ..

theorem freed_gave (s : Sys) (idx : Idx) : Gave idx s (((s.freed idx.i0).freed idx.i1).freed idx.i2) := by
  have more : (((s.freed idx.i0).freed idx.i1).freed idx.i2).free = fun i => s.free i || decide (i ∈ idx.toList) := by
    funext j
    simp only [Sys.freed, Sys.wakeup, update_apply, Idx.toList]
    split
    · simp [*]
    split
    · simp [*]
    split <;> simp [*]
  refine ⟨(((s.freed idx.i0).freed idx.i1).freed idx.i2).desc, (((s.freed idx.i0).freed idx.i1).freed idx.i2).asleep, ?_, ?_⟩
  · rw [← more]
    rfl
  · intro j outside
    simp only [Idx.toList, List.mem_cons, List.not_mem_nil, or_false, not_or] at outside
    rw [freed_desc _ outside.2.2, freed_desc _ outside.2.1, freed_desc _ outside.1]

theorem freeChain_spec {idx : Idx} (chain : Chain s.free s.desc idx) : Ends E (freeChain (NUM + 1) idx.i0) s fun _ t => Gave idx s t := by
  have distinct := chain.nodup
  simp only [Idx.toList, List.nodup_cons, List.mem_cons, List.not_mem_nil, or_false, not_or] at distinct
  obtain ⟨⟨apart01, apart02⟩, apart12, -⟩ := distinct
  have bound := chain.bound
  have taken := chain.taken
  simp only [Idx.toList, List.mem_cons, List.not_mem_nil, or_false, forall_eq_or_imp, forall_eq] at bound taken
  show Ends E (freeChain (6 + 1 + 1 + 1) idx.i0) s _
  unfold freeChain
  rw [ends_get_bind]
  refine (freeDesc_spec bound.1 taken.1).bind fun _ t after => ?_
  rw [if_pos chain.first.1, chain.first.2, after]
  unfold freeChain
  rw [ends_get_bind]
  refine (freeDesc_spec bound.2.1 ?_).bind fun _ t after => ?_
  · rw [freed_free s (Ne.symm apart01)]
    exact taken.2.1
  rw [freed_desc s (Ne.symm apart01), if_pos chain.second.1, chain.second.2, after]
  unfold freeChain
  rw [ends_get_bind]
  refine (freeDesc_spec bound.2.2 ?_).bind fun _ t after => ?_
  · rw [freed_free _ (Ne.symm apart12), freed_free s (Ne.symm apart02)]
    exact taken.2.2
  rw [freed_desc _ (Ne.symm apart12), freed_desc s (Ne.symm apart02), if_neg (not_not.mpr chain.third), after]
  exact freed_gave s idx

end Programs

end Xv6Monitor.Disk.Descriptors
