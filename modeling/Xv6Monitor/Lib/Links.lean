import Mathlib.Data.List.Basic

/-! Nodes that are linked by a `next` pointer: trails, rings, and loops that walk along them until a
condition holds; rings that are linked in both directions. -/

namespace Xv6Monitor.Lib.Links
open Function

variable {α : Type} {next : α → α}

/-- The nodes of the list are linked in its order, and the last one to `b`. -/
def Trail (next : α → α) : List α → α → Prop
  | [], _ => True
  | a :: l, b => next a = l.headD b ∧ Trail next l b

variable {l r : List α} {b : α}

theorem trail_append : Trail next (l ++ r) b ↔ Trail next l (r.headD b) ∧ Trail next r b := by
  induction l with
  | nil => simp only [List.nil_append, Trail, true_and]
  | cons _ l ih =>
    rw [List.cons_append, Trail, Trail, ih, and_assoc]
    cases l <;> rfl

theorem Trail.congr {next' : α → α} (trail : Trail next l b) (same : ∀ a ∈ l, next' a = next a) :
    Trail next' l b := by
  induction l with
  | nil => trivial
  | cons a l ih =>
    refine ⟨(same a (List.mem_cons_self ..)).trans trail.1, ih trail.2 fun c mem => same c (List.mem_cons_of_mem _ mem)⟩

section Update

variable [DecidableEq α] {l r : List α} {p q n b : α}

theorem Trail.insert (trail : Trail next (l ++ p :: r) b) (fresh : n ∉ l ++ p :: r) (nodup : (l ++ p :: r).Nodup) :
    Trail (update (update next n (next p)) p n) (l ++ p :: n :: r) b := by
  simp only [List.mem_append, List.mem_cons, not_or] at fresh
  obtain ⟨before, after⟩ := trail_append.mp trail
  obtain ⟨-, tail, apart⟩ := List.nodup_append.mp nodup
  have same : ∀ a, a ≠ p → a ≠ n → update (update next n (next p)) p n a = next a := by
    intro a other new
    rw [update_of_ne other, update_of_ne new]
  refine trail_append.mpr ⟨before.congr fun a mem => same a ?_ ?_, update_self .., ?_, ?_⟩
  · exact apart a mem p (List.mem_cons_self ..)
  · rintro rfl
    exact fresh.1 mem
  · rw [update_of_ne fresh.2.1, update_self]
    exact after.1
  refine after.2.congr fun a mem => same a ?_ ?_
  · rintro rfl
    exact (List.nodup_cons.mp tail).1 mem
  · rintro rfl
    exact fresh.2.2 mem

theorem Trail.remove (trail : Trail next (l ++ p :: q :: r) b) (nodup : (l ++ p :: q :: r).Nodup) :
    Trail (update next p (next q)) (l ++ p :: r) b := by
  obtain ⟨before, after⟩ := trail_append.mp trail
  obtain ⟨-, tail, apart⟩ := List.nodup_append.mp nodup
  refine trail_append.mpr ⟨before.congr fun a mem => update_of_ne ?_ .., ?_, ?_⟩
  · exact apart a mem p (List.mem_cons_self ..)
  · rw [update_self]
    exact after.2.1
  · refine after.2.2.congr fun a mem => update_of_ne ?_ ..
    rintro rfl
    exact (List.nodup_cons.mp tail).1 (List.mem_cons_of_mem _ mem)

end Update

def Ring (next : α → α) : List α → Prop
  | [] => False
  | a :: l => Trail next (a :: l) a

theorem Ring.rotate (ring : Ring next (l ++ p :: r)) : Ring next (p :: r ++ l) := by
  cases l with
  | nil =>
    rw [List.append_nil]
    exact ring
  | cons a l =>
    have trail : Trail next ((a :: l) ++ p :: r) a := ring
    obtain ⟨before, after⟩ := trail_append.mp trail
    exact trail_append.mpr ⟨after, before⟩

theorem Ring.pred (ring : Ring next l) (mem : p ∈ l) : ∃ x ∈ l, next x = p := by
  obtain ⟨before, after, rfl⟩ := List.append_of_mem mem
  have rotated : Trail next (p :: after ++ before) p := ring.rotate
  obtain ⟨_, x, whole⟩ := (List.eq_nil_or_concat' (p :: after ++ before)).resolve_left (List.cons_ne_nil _ _)
  have last : x ∈ p :: after ++ before := by
    rw [whole]
    exact List.mem_append_right _ (List.mem_singleton_self x)
  rw [whole] at rotated
  refine ⟨x, ?_, (trail_append.mp rotated).2.1⟩
  rw [List.mem_append, or_comm]
  exact List.mem_append.mp last

/-- The loop `for(; !stop(p); p = next(p))`, with a bound for its rounds. -/
def walk (next : α → α) (stop : α → Bool) : (rounds : Nat) → α → Option α
  | 0, _ => none
  | rounds + 1, p => if stop p then some p else walk next stop rounds (next p)

variable {stop : α → Bool}

theorem walk_past (trail : Trail next l b) (more : ∀ a ∈ l, stop a = false) (rounds : Nat) :
    walk next stop (l.length + rounds) (l.headD b) = walk next stop rounds b := by
  induction l with
  | nil =>
    rw [List.length_nil, Nat.zero_add]
    rfl
  | cons a l ih =>
    have here : stop a = false := more a (List.mem_cons_self ..)
    have rest := ih trail.2 fun c mem => more c (List.mem_cons_of_mem _ mem)
    rw [List.length_cons, Nat.add_right_comm, List.headD_cons, walk, here, trail.1]
    exact rest

/-- Along a ring the loop finds a node where it stops, if there is one. -/
theorem walk_ring (ring : Ring next l) {x : α} (start : p ∈ l) (mem : x ∈ l) (stops : stop x = true) :
    ∃ q ∈ l, stop q = true ∧ ∀ rounds, l.length ≤ rounds → walk next stop rounds p = some q := by
  obtain ⟨before, after, rfl⟩ := List.append_of_mem start
  have rotated : Trail next (p :: after ++ before) p := ring.rotate
  have inside : ∀ a, a ∈ p :: after ++ before ↔ a ∈ before ++ p :: after := by
    intro a
    rw [List.mem_append, List.mem_append, or_comm]
  have length : (p :: after ++ before).length = (before ++ p :: after).length := by
    rw [List.length_append, List.length_append, Nat.add_comm]
  -- The first node in the order of the loop at which it stops.
  rcases found : (p :: after ++ before).find? stop with _ | q
  · exact absurd stops (List.find?_eq_none.mp found x ((inside x).mpr mem))
  obtain ⟨here, first, last, split, passed⟩ := List.find?_eq_some_iff_append.mp found
  refine ⟨q, (inside q).mp (List.mem_of_find?_eq_some found), here, fun rounds enough => ?_⟩
  rw [split] at rotated length
  obtain ⟨trail, -⟩ := trail_append.mp rotated
  have entry : first.headD q = p := by
    cases first with
    | nil => exact (List.cons.inj split).1.symm
    | cons a _ => exact (List.cons.inj split).1.symm
  have more : ∃ extra, rounds = first.length + (extra + 1) := by
    rw [List.length_append, List.length_cons] at length
    exact ⟨rounds - first.length - 1, by omega⟩
  obtain ⟨extra, rfl⟩ := more
  have unstopped : ∀ a ∈ first, stop a = false := fun a mem => by simpa using passed a mem
  have walked := walk_past trail unstopped (extra + 1)
  rw [List.headD_cons, entry] at walked
  rw [walked, walk, if_pos here]

theorem walk_find (trail : Trail next l b) (last : stop b = true) {rounds : Nat} (enough : l.length < rounds) :
    walk next stop rounds (l.headD b) = some ((l.find? stop).getD b) := by
  induction l generalizing rounds with
  | nil =>
    obtain ⟨extra, rfl⟩ : ∃ extra, rounds = extra + 1 := ⟨rounds - 1, by omega⟩
    rw [List.headD_nil, walk, if_pos last]
    rfl
  | cons a l ih =>
    rw [List.length_cons] at enough
    obtain ⟨extra, rfl⟩ : ∃ extra, rounds = extra + 1 := ⟨rounds - 1, by omega⟩
    rw [List.headD_cons, walk, List.find?_cons]
    by_cases here : stop a = true
    · rw [if_pos here, here]
      rfl
    · rw [if_neg here, trail.1, ih trail.2 (by omega)]
      rw [Bool.not_eq_true] at here
      rw [here]

section Double

variable [DecidableEq α] {prev : α → α} {h b : α} {l us vs : List α}

/-- The nodes of the list and the node `h` before them are linked in a ring, in both directions. -/
structure Double (h : α) (next prev : α → α) (l : List α) : Prop where
  forth : Ring next (h :: l)
  back : Ring prev (h :: l.reverse)
  nodup : (h :: l).Nodup

theorem Ring.skip (ring : Ring next (h :: (us ++ b :: vs))) (nodup : (h :: (us ++ b :: vs)).Nodup) :
    Ring (update next (us.reverse.headD h) (next b)) (h :: (us ++ vs)) := by
  obtain ⟨init, p, split⟩ := (List.eq_nil_or_concat' (h :: us)).resolve_left (List.cons_ne_nil _ _)
  have last : us.reverse.headD h = p := by
    have ends : (h :: us).reverse.headD h = (init ++ [p]).reverse.headD h := by rw [split]
    rw [List.reverse_append, List.reverse_cons] at ends
    revert ends
    cases us.reverse <;> exact id
  have whole : h :: (us ++ b :: vs) = init ++ p :: b :: vs := by
    rw [← List.cons_append, split, List.append_assoc]
    rfl
  have trail : Trail next (h :: (us ++ b :: vs)) h := ring
  rw [whole] at trail nodup
  have removed := trail.remove nodup
  have rest : init ++ p :: vs = h :: (us ++ vs) := by
    rw [← List.cons_append, split, List.append_assoc]
    rfl
  rw [last]
  rw [rest] at removed
  exact removed

omit [DecidableEq α] in
theorem Double.neighbours (double : Double h next prev (us ++ b :: vs)) :
    next b = vs.headD h ∧ prev b = us.reverse.headD h := by
  have forth : Trail next ((h :: us) ++ b :: vs) h := double.forth
  have back : Trail prev ((h :: vs.reverse) ++ b :: us.reverse) h := by
    have ring := double.back
    rw [List.reverse_append, List.reverse_cons, List.append_assoc] at ring
    exact ring
  exact ⟨(trail_append.mp forth).2.1, (trail_append.mp back).2.1⟩

/-- `b->next->prev = b->prev; b->prev->next = b->next` -/
theorem Double.unlink (double : Double h next prev (us ++ b :: vs)) :
    Double h (update next (prev b) (next b)) (update prev (next b) (prev b)) (us ++ vs) := by
  obtain ⟨after, before⟩ := double.neighbours
  refine ⟨?_, ?_, ?_⟩
  · rw [before]
    exact double.forth.skip double.nodup
  · have ring := double.back
    have nodup : (h :: (vs.reverse ++ b :: us.reverse)).Nodup := by
      have perm : (vs.reverse ++ b :: us.reverse).Perm (us ++ b :: vs) := by
        have flipped := List.reverse_perm (us ++ b :: vs)
        rwa [List.reverse_append, List.reverse_cons, List.append_assoc] at flipped
      exact (List.Perm.cons h perm).nodup_iff.mpr double.nodup
    rw [List.reverse_append, List.reverse_cons, List.append_assoc] at ring
    have removed := Ring.skip ring nodup
    rw [List.reverse_reverse, ← after] at removed
    rw [List.reverse_append]
    exact removed
  · have sub : (h :: (us ++ vs)).Sublist (h :: (us ++ b :: vs)) :=
      (List.Sublist.append_left (List.sublist_cons_self b vs) us).cons_cons h
    exact double.nodup.sublist sub

/-- `b->next = h->next; b->prev = h; h->next->prev = b; h->next = b` -/
theorem Double.push (double : Double h next prev l) (fresh : b ∉ h :: l) :
    Double h (update (update next b (next h)) h b)
      (update (update prev b h) (next h) b) (b :: l) := by
  have forth : Trail next ([] ++ h :: l) h := double.forth
  have first : next h = l.headD h := (trail_append.mp forth).2.1
  refine ⟨?_, ?_, ?_⟩
  · exact forth.insert fresh double.nodup
  · obtain ⟨init, p, split⟩ := (List.eq_nil_or_concat' (h :: l.reverse)).resolve_left (List.cons_ne_nil _ _)
    have last : next h = p := by
      have ends : (h :: l.reverse).reverse.headD h = (init ++ [p]).reverse.headD h := by rw [split]
      rw [List.reverse_append, List.reverse_cons, List.reverse_reverse] at ends
      rw [first]
      revert ends
      cases l <;> exact id
    have back : Trail prev (init ++ p :: []) h := by
      rw [← split]
      exact double.back
    have perm : (init ++ p :: []).Perm (h :: l) := by
      rw [← split]
      exact List.Perm.cons h (List.reverse_perm l)
    have linked := back.insert (fun mem => fresh (perm.mem_iff.mp mem)) (perm.nodup_iff.mpr double.nodup)
    have ends : prev p = h := (trail_append.mp back).2.1
    have whole : init ++ p :: b :: [] = h :: (b :: l).reverse := by
      rw [List.reverse_cons, ← List.cons_append, split, List.append_assoc]
      rfl
    rw [ends, whole, ← last] at linked
    exact linked
  · exact (List.Perm.swap h b l).nodup_iff.mp (List.nodup_cons.mpr ⟨fresh, double.nodup⟩)

omit [DecidableEq α] in
theorem Double.inverse (double : Double h next prev l) {x : α} (mem : x ∈ h :: l) : prev (next x) = x := by
  have forth : Trail next (h :: l) h := double.forth
  have back : Trail prev (h :: l.reverse) h := double.back
  rcases List.mem_cons.mp mem with rfl | mem
  · cases l with
    | nil =>
      have first : next x = x := forth.1
      rw [first]
      exact back.1
    | cons a l =>
      have first : next x = a := forth.1
      rw [first]
      have double' : Double x next prev ([] ++ a :: l) := double
      exact double'.neighbours.2
  · obtain ⟨us, vs, rfl⟩ := List.append_of_mem mem
    have after := double.neighbours.1
    cases vs with
    | nil =>
      rw [List.headD_nil] at after
      rw [after, back.1, List.reverse_append]
      rfl
    | cons a vs =>
      rw [List.headD_cons] at after
      have double' : Double h next prev ((us ++ [x]) ++ a :: vs) := by
        rw [List.append_assoc]
        exact double
      rw [after, double'.neighbours.2, List.reverse_append]
      rfl

end Double

end Xv6Monitor.Lib.Links
