import Xv6Monitor.Process.Handover

/-! Forks in progress. Between the two locked sections in which `fork` allocates a child and
makes it runnable, the child is marked USED and named on exactly one call stack. -/

namespace Xv6Monitor.Process.Children
open Table Machine Step Sections Lifecycle Ownership Handover

variable {C : Nat} {s t u : Sys C} {c : Fin C}

/-- A child that is not yet runnable belongs to exactly one `fork` in progress. -/
structure Forking (s : Sys C) : Prop where
  used : ∀ p, ∀ np ∈ children (s.thread p).calls, (s.proc np).state = .used
  unique : ∀ p q np, np ∈ children (s.thread p).calls → np ∈ children (s.thread q).calls → p = q
  nodup : ∀ p, (children (s.thread p).calls).Nodup
  handlers : ∀ c, children (s.cpu c).calls = []

theorem Forking.shrink (forking : Forking s)
    (fewer : ∀ r, (children (t.thread r).calls).Sublist (children (s.thread r).calls))
    (keeps : ∀ r, ∀ np ∈ children (t.thread r).calls,
      (s.proc np).state = .used → (t.proc np).state = .used)
    (handlers : ∀ c, children (t.cpu c).calls = []) : Forking t where
  used r np child := keeps r np child (forking.used r np ((fewer r).subset child))
  unique p q np first second :=
    forking.unique p q np ((fewer p).subset first) ((fewer q).subset second)
  nodup p := (forking.nodup p).sublist (fewer p)
  handlers := handlers

variable {p : Slot}

theorem Forking.alloc (forking : Forking s) {q : Slot} (fresh : (s.proc q).state = .unused)
    (started : children (t.thread q).calls = [])
    (child : children (t.thread p).calls = q :: children (s.thread p).calls)
    (others : ∀ r, r ≠ p → r ≠ q → children (t.thread r).calls = children (s.thread r).calls)
    (used : (t.proc q).state = .used) (keeps : ∀ r, r ≠ q → (t.proc r).state = (s.proc r).state)
    (handlers : ∀ c, children (t.cpu c).calls = []) : Forking t := by
  have new : ∀ r, q ∉ children (s.thread r).calls := by
    intro r old
    have := forking.used r q old
    rw [fresh] at this
    cases this
  have from_before : ∀ r np, np ∈ children (t.thread r).calls →
      (np = q ∧ r = p) ∨ (np ≠ q ∧ np ∈ children (s.thread r).calls) := by
    intro r np here
    by_cases this : r = p
    · subst this
      rw [child, List.mem_cons] at here
      rcases here with rfl | old
      · exact Or.inl ⟨rfl, rfl⟩
      · exact Or.inr ⟨fun same => new r (same ▸ old), old⟩
    · by_cases that : r = q
      · subst that
        rw [started] at here
        cases here
      · rw [others r this that] at here
        exact Or.inr ⟨fun same => new r (same ▸ here), here⟩
  constructor
  · intro r np here
    rcases from_before r np here with ⟨rfl, -⟩ | ⟨other, old⟩
    · exact used
    · rw [keeps np other]
      exact forking.used r np old
  · intro r r' np first second
    rcases from_before r np first with ⟨rfl, rfl⟩ | ⟨other, old⟩
    · rcases from_before r' np second with ⟨-, rfl⟩ | ⟨other, -⟩
      · rfl
      · exact absurd rfl other
    · rcases from_before r' np second with ⟨rfl, -⟩ | ⟨-, old'⟩
      · exact absurd rfl other
      · exact forking.unique r r' np old old'
  · intro r
    by_cases this : r = p
    · subst this
      rw [child]
      exact (forking.nodup r).cons (new r)
    by_cases that : r = q
    · subst that
      rw [started]
      exact List.nodup_nil
    · rw [others r this that]
      exact forking.nodup r
  · exact handlers

variable {op : Op}

theorem apply_used (legal : Legal s c op) (executing : Executing s c)
    (done : op.apply s c = some u) {r : Slot} (used : (s.proc r).state = .used) :
    (u.proc r).state = .used ∨ op = .forkRunnable r := by
  rcases apply_writes done r with same | wrote
  · exact Or.inl (by rw [same, used])
  generalize u.proc r = entry at wrote
  cases op <;> simp only [writes, Option.some.injEq, Prod.mk.injEq] at wrote <;>
    obtain ⟨rfl, rfl⟩ := wrote <;> simp only [Legal] at legal
  case allocTime => exact Or.inl used
  case forkRunnable => exact Or.inr rfl
  case sleep p chan lk => simp [(executing p legal).1] at used
  case zombie p status => simp [(executing p legal).1] at used
  all_goals simp_all

theorem apply_calls (legal : Legal s c op) (done : op.apply s c = some u) (r : Slot) :
    (u.thread r).calls = (s.thread r).calls ∨ (op = .alloc r ∧ (u.thread r).calls = []) := by
  rcases apply_thread legal done r with same | ⟨alloc, fresh⟩ | ⟨-, -, resume, -, left⟩
  · exact Or.inl (by rw [same])
  · exact Or.inr ⟨alloc, by rw [fresh]; rfl⟩
  · exact Or.inl (by rw [left])

theorem apply_alloc {q : Slot} (done : (Op.alloc q).apply s c = some u) :
    (u.proc q).state = .used ∧ (∀ r, r ≠ q → (u.proc r).state = (s.proc r).state) ∧
    (u.thread q).calls = [] := by
  simp only [Op.apply, Option.ite_none_right_eq_some, Option.some.injEq] at done
  obtain ⟨-, rfl⟩ := done
  refine ⟨?_, ?_, ?_⟩
  · simp [Proc.allocproc]
  · intro r other
    simp [other]
  · simp [Thread.fresh]

structure Coherent (s : Sys C) : Prop where
  owned : Owned (view s)
  forking : Forking s

theorem Coherent.myproc (inv : Coherent s) (busy : (s.cpu c).cur ≠ none ∨ (s.cpu c).calls ≠ []) :
    (s.cpu c).proc = (s.cpu c).cur := by
  have named := inv.owned.named c
  cases cur : (s.cpu c).cur with
  | none =>
    have free := (inv.owned.handler c (by simpa [cur] using busy)).1
    exact named.trans free
  | some p =>
    obtain ⟨⟨_, loc⟩, -⟩ := inv.owned.active c p cur
    rw [view_cpu] at named loc
    rw [named, loc]
    rfl

theorem Coherent.executing (inv : Coherent s) (on : (s.cpu c).cur = some p)
    (running : (s.thread p).phase = .running) : Executing s c := by
  apply executing_of_owned inv.owned
  intro q on'
  obtain rfl := Option.some.inj (on.symm.trans on')
  exact running

theorem executing_idle (idle : (s.cpu c).cur = none) : Executing s c := by
  intro p on
  rw [idle] at on
  cases on

variable {call : Call} {rest : List Call} {choice : Choice} {result : Section}

theorem Coherent.call_legal (inv : Coherent s) (on : (s.cpu c).cur = some p) (top : (s.thread p).calls = call :: rest)
    (next : callStep s c call choice = some result) : Legal s c result.op := by
  apply callStep_legal (inv.myproc (Or.inl (by simp [on]))) _ next
  intro np child
  apply inv.forking.used p np
  rw [top, children_cons]
  exact List.mem_append_left _ (Option.mem_toList.mpr child)

theorem Coherent.handler_legal (inv : Coherent s) (top : (s.cpu c).calls = call :: rest)
    (next : callStep s c call choice = some result) : Legal s c result.op := by
  apply callStep_legal (inv.myproc (Or.inr (by simp [top]))) _ next
  intro np child
  have none_here := inv.forking.handlers c
  rw [top, children_cons, child] at none_here
  cases none_here

theorem Forking.keep (forking : Forking s) (proc : ∀ r, (s.proc r).state = .used → (t.proc r).state = .used)
    (thread : ∀ r, children (t.thread r).calls = children (s.thread r).calls)
    (handlers : ∀ c, children (t.cpu c).calls = []) : Forking t := by
  apply forking.shrink _ _ handlers
  · intro r
    rw [thread r]
  · exact fun r np _ => proc np

theorem Forking.apply (forking : Forking s) (legal : Legal s c op)
    (executing : Executing s c) (plain : forks op = false) (done : op.apply s c = some u) :
    Forking u := by
  apply forking.keep
  · intro r used
    rcases apply_used legal executing done used with same | rfl
    · exact same
    · cases plain
  · intro r
    rcases apply_calls legal done r with same | ⟨rfl, -⟩
    · rw [same]
    · cases plain
  · intro d
    rw [apply_cpu done]
    exact forking.handlers d

theorem children_setThread {r : Slot} {thread : Thread} (same : r ≠ p) :
    ((s.setThread p thread).thread r).calls = (s.thread r).calls := by
  rw [Sys.setThread_thread, Function.update_of_ne same]

theorem Coherent.forking_rest (inv : Coherent s) {calls : List Call} {a0 : Int} (on : (s.cpu c).cur = some p)
    (running : (s.thread p).phase = .running) (top : (s.thread p).calls = call :: rest)
    (legal : Legal s c op) (done : op.apply s c = some u) (old : ∀ q, op ≠ .alloc q)
    (fewer : (children calls).Sublist (childOf call).toList)
    (born : ∀ np, op = .forkRunnable np → childOf call = some np ∧ children calls = []) :
    Forking (u.setThread p { u.thread p with calls := calls ++ rest, a0 := a0 }) := by
  have before : children (s.thread p).calls = (childOf call).toList ++ children rest := by
    rw [top, children_cons]
  have after : ∀ r, (children ((u.setThread p { u.thread p with
      calls := calls ++ rest, a0 := a0 }).thread r).calls).Sublist (children (s.thread r).calls) := by
    intro r
    by_cases here : r = p
    · subst here
      rw [before, Sys.setThread_thread, Function.update_self, children_append]
      exact fewer.append_right _
    · rw [children_setThread here]
      rcases apply_calls legal done r with same | ⟨alloc, -⟩
      · rw [same]
      · exact absurd alloc (old r)
  apply inv.forking.shrink after
  · intro r np child used
    rcases apply_used legal (inv.executing on running) done used with same | forked
    · exact same
    obtain ⟨own, gone⟩ := born np forked
    rw [own] at before
    have mine : np ∈ children (s.thread p).calls := by simp [before]
    obtain rfl := inv.forking.unique r p np ((after r).subset child) mine
    have once := inv.forking.nodup r
    rw [before] at once
    simp [gone] at child
    simp [child] at once
  · intro d
    rw [Sys.setThread_cpu, apply_cpu done]
    exact inv.forking.handlers d

theorem Coherent.forking_call (inv : Coherent s) {a0 : Int} (on : (s.cpu c).cur = some p)
    (running : (s.thread p).phase = .running) (top : (s.thread p).calls = call :: rest)
    (next : callStep s c call choice = some result) (done : result.op.apply s c = some u) :
    Forking (u.setThread p { u.thread p with calls := result.calls ++ rest, a0 := a0 }) := by
  have legal := inv.call_legal on top next
  rcases callStep_children next with ⟨q, alloc, own, new⟩ | ⟨np, born, own, new⟩ | ⟨plain, new⟩
  · rw [alloc] at legal done
    obtain ⟨used, keeps, started⟩ := apply_alloc done
    have away : q ≠ p := by
      rintro rfl
      have state := (inv.executing on running q on).1
      rw [show (s.proc q).state = .unused from legal] at state
      cases state
    apply inv.forking.alloc (p := p) (q := q) legal
    · rw [children_setThread away, started]
      rfl
    · simp [new, top, own]
    · intro r other fresh
      rw [children_setThread other]
      rcases apply_calls legal done r with same | ⟨this, -⟩
      · rw [same]
      · cases this
        exact absurd rfl fresh
    · exact used
    · exact keeps
    · intro d
      rw [Sys.setThread_cpu, apply_cpu done]
      exact inv.forking.handlers d
  · rw [born] at legal done
    exact inv.forking_rest on running top legal done (by simp) (by simp [new]) (by simp [own, new])
  · apply inv.forking_rest on running top legal done
    · intro q alloc
      simp [alloc, forks] at plain
    · simp [new]
    · intro np born
      simp [born, forks] at plain

theorem Coherent.restack (inv : Coherent s) {thread : Thread} (phase : thread.phase = (s.thread p).phase)
    (fewer : (children thread.calls).Sublist (children (s.thread p).calls)) :
    Coherent (s.setThread p thread) := by
  constructor
  · rw [view_setThread, phase, ← view_phase, View.turn_self]
    exact inv.owned
  apply inv.forking.shrink
  · intro r
    by_cases here : r = p
    · subst here
      rw [Sys.setThread_thread, Function.update_self]
      exact fewer
    · rw [children_setThread here]
  · exact fun r np _ used => used
  · exact inv.forking.handlers

theorem Coherent.apply (inv : Coherent s) (legal : Legal s c op) (executing : Executing s c)
    (plain : forks op = false) (done : op.apply s c = some u) : Coherent u :=
  ⟨owned_apply inv.owned executing legal done, inv.forking.apply legal executing plain done⟩

end Xv6Monitor.Process.Children
