import Mathlib.Logic.Function.Basic

/-! Runs of a deterministic machine that is driven by actions. A run is kept as
data, so that a history can be folded over it, and an invariant is proved once
for one step and transferred to every run by the rules below. -/

namespace Xv6Monitor.Lib.Transition

/-- The environment chooses the actions; a refused action has no successor. -/
structure Machine (σ α : Type) where
  init : σ
  step : σ → α → Option σ

variable {σ α η : Type} {M : Machine σ α}

inductive Path (M : Machine σ α) (origin : σ) : σ → Type where
  | nil : Path M origin origin
  | snoc {s t : σ} (path : Path M origin s) (action : α) (moved : M.step s action = some t) :
      Path M origin t

abbrev Run (M : Machine σ α) (s : σ) : Type := Path M M.init s

def Reachable (M : Machine σ α) (s : σ) : Prop := Nonempty (Run M s)

namespace Path

variable {origin s t : σ}

/-- One of the steps of the path leads from `x` to `y` under action `a`. -/
def Takes {s : σ} : Path M origin s → σ → α → σ → Prop
  | .nil, _, _, _ => False
  | @snoc _ _ _ _ before after path action _, x, a, y =>
      path.Takes x a y ∨ (x = before ∧ a = action ∧ y = after)

def Every (P : σ → α → σ → Prop) (path : Path M origin s) : Prop :=
  ∀ x a y, path.Takes x a y → P x a y

def Throughout (P : σ → Prop) (path : Path M origin s) : Prop :=
  P origin ∧ path.Every (fun _ _ y => P y)

theorem every_nil (P : σ → α → σ → Prop) : (nil : Path M origin origin).Every P :=
  fun _ _ _ taken => taken.elim

variable {P : σ → α → σ → Prop}

theorem every_snoc {path : Path M origin s} {action : α} {moved : M.step s action = some t} :
    (path.snoc action moved).Every P ↔ path.Every P ∧ P s action t := by
  constructor
  · intro every
    exact ⟨fun x a y taken => every x a y (Or.inl taken), every s action t (Or.inr ⟨rfl, rfl, rfl⟩)⟩
  · rintro ⟨earlier, last⟩ x a y (taken | ⟨rfl, rfl, rfl⟩)
    · exact earlier x a y taken
    · exact last

theorem throughout_snoc {P : σ → Prop} {path : Path M origin s} {action : α}
    {moved : M.step s action = some t} :
    (path.snoc action moved).Throughout P ↔ path.Throughout P ∧ P t := by
  simp only [Throughout, every_snoc, and_assoc]

theorem Throughout.last {P : σ → Prop} {path : Path M origin s} (throughout : path.Throughout P) :
    P s := by
  cases path with
  | nil => exact throughout.1
  | snoc path _ _ => exact (throughout_snoc.mp throughout).2

/-- A property of one step and what it leads to is inherited by every state of the path. -/
theorem invariant_under {I : σ → Prop} (keeps : ∀ s a t, M.step s a = some t → P s a t → I s → I t)
    (start : I origin) (path : Path M origin s) (every : path.Every P) : I s := by
  induction path with
  | nil => exact start
  | snoc path _ moved ih =>
    obtain ⟨earlier, last⟩ := every_snoc.mp every
    exact keeps _ _ _ moved last (ih earlier)

theorem invariant {I : σ → Prop} (keeps : ∀ s a t, M.step s a = some t → I s → I t)
    (start : I origin) (path : Path M origin s) : I s :=
  invariant_under (P := fun _ _ _ => True) (fun s a t moved _ => keeps s a t moved) start path
    (fun _ _ _ _ => trivial)

theorem Takes.before {path : Path M origin s} {x y : σ} {a : α}
    (taken : path.Takes x a y) (every : path.Every P) :
    ∃ earlier : Path M origin x, earlier.Every P ∧ M.step x a = some y := by
  induction path with
  | nil => exact taken.elim
  | snoc path _ moved ih =>
    obtain ⟨earlier, _⟩ := every_snoc.mp every
    rcases taken with taken | ⟨rfl, rfl, rfl⟩
    · exact ih taken earlier
    · exact ⟨path, earlier, moved⟩

def append {u : σ} (first : Path M origin s) : Path M s u → Path M origin u
  | .nil => first
  | .snoc path action moved => (first.append path).snoc action moved

theorem every_append {u : σ} {first : Path M origin s} {second : Path M s u}
    (earlier : first.Every P) (later : second.Every P) : (first.append second).Every P := by
  induction second with
  | nil => exact earlier
  | snoc _ _ _ ih =>
    obtain ⟨before, last⟩ := every_snoc.mp later
    exact every_snoc.mpr ⟨ih before, last⟩

/-- A history is accumulated along the path from what is observed of each step. -/
def fold {s : σ} (observe : σ → α → σ → η → η) (start : η) : Path M origin s → η
  | .nil => start
  | @snoc _ _ _ _ before after path action _ =>
      observe before action after (path.fold observe start)

/-- The property holds of every initial part of the path. -/
def Always (P : ∀ {s : σ}, Path M origin s → Prop) {s : σ} : Path M origin s → Prop
  | .nil => P (.nil : Path M origin origin)
  | .snoc path action moved => path.Always P ∧ P (path.snoc action moved)

theorem Always.last {P : ∀ {s : σ}, Path M origin s → Prop} {path : Path M origin s} (always : path.Always P) :
    P path := by
  cases path with
  | nil => exact always
  | snoc path _ _ => exact always.2

/-- Two histories kept side by side. -/
def alongside {η' : Type} (f : σ → α → σ → η → η) (g : σ → α → σ → η' → η') (x : σ) (a : α) (y : σ)
    (h : η × η') : η × η' := (f x a y h.1, g x a y h.2)

theorem fold_alongside {η' : Type} {f : σ → α → σ → η → η} {g : σ → α → σ → η' → η'} {h : η} {h' : η'}
    (path : Path M origin s) :
    path.fold (alongside f g) (h, h') = (path.fold f h, path.fold g h') := by
  induction path with
  | nil => rfl
  | snoc path _ _ ih =>
    simp only [fold, ih]
    rfl

variable {observe : σ → α → σ → η → η}

theorem fold_append {u : σ} {h₀ : η} (first : Path M origin s)
    (second : Path M s u) : (first.append second).fold observe h₀ = second.fold observe (first.fold observe h₀) := by
  induction second with
  | nil => rfl
  | snoc path action _ ih =>
    show observe _ action _ ((first.append path).fold observe h₀) = _
    rw [ih]
    rfl

theorem fold_invariant_under {h₀ : η} {I : σ → η → Prop}
    (keeps : ∀ s a t h, M.step s a = some t → P s a t → I s h → I t (observe s a t h))
    (start : I origin h₀) (path : Path M origin s) (every : path.Every P) : I s (path.fold observe h₀) := by
  induction path with
  | nil => exact start
  | snoc path _ moved ih =>
    obtain ⟨earlier, last⟩ := every_snoc.mp every
    exact keeps _ _ _ _ moved last (ih earlier)

theorem fold_invariant {h₀ : η} {I : σ → η → Prop}
    (keeps : ∀ s a t h, M.step s a = some t → I s h → I t (observe s a t h))
    (start : I origin h₀) (path : Path M origin s) : I s (path.fold observe h₀) :=
  fold_invariant_under (P := fun _ _ _ => True) (fun s a t h moved _ => keeps s a t h moved) start path
    (fun _ _ _ _ => trivial)

/-- A machine that can follow each of the steps can follow the path. -/
theorem simulated {τ β : Type} {N : Machine τ β} {x : τ} {h₀ : η} {R : τ → σ → η → Prop}
    (follows : ∀ s a t h y, M.step s a = some t → P s a t → R y s h →
      ∃ z, Nonempty (Path N y z) ∧ R z t (observe s a t h))
    (start : R x origin h₀) (path : Path M origin s) (every : path.Every P) :
    ∃ y, Nonempty (Path N x y) ∧ R y s (path.fold observe h₀) := by
  refine fold_invariant_under (I := fun s h => ∃ y, Nonempty (Path N x y) ∧ R y s h) ?_ ⟨x, ⟨.nil⟩, start⟩ path every
  rintro s a t h moved holds ⟨y, ⟨before⟩, related⟩
  obtain ⟨z, ⟨after⟩, related⟩ := follows s a t h y moved holds related
  exact ⟨z, ⟨before.append after⟩, related⟩

end Path

theorem Reachable.step {a : α} (reachable : Reachable M s) (moved : M.step s a = some t) : Reachable M t :=
  reachable.elim fun run => ⟨run.snoc a moved⟩

theorem Reachable.invariant {I : σ → Prop} (reachable : Reachable M s)
    (start : I M.init) (keeps : ∀ s a t, M.step s a = some t → I s → I t) : I s :=
  reachable.elim fun run => run.invariant keeps start

/-- Running a list of actions whose steps all pass a test, for evaluating concrete runs. -/
def execUnder (M : Machine σ α) (P : σ → α → σ → Prop) [∀ s a t, Decidable (P s a t)] :
    σ → List α → Option σ
  | s, [] => some s
  | s, a :: rest => (M.step s a).bind fun t => if P s a t then execUnder M P t rest else none

theorem execUnder_path [∀ s a t, Decidable (P s a t)] {Q : σ → Prop} [DecidablePred Q] (actions : List α)
    (ends : (execUnder M P s actions).any (fun t => decide (Q t)) = true) :
    ∃ t, ∃ path : Path M s t, path.Every P ∧ Q t := by
  induction actions generalizing s with
  | nil => exact ⟨s, .nil, Path.every_nil P, by simpa [execUnder] using ends⟩
  | cons a _ ih =>
    rcases moved : M.step s a with _ | u
    · simp [execUnder, moved] at ends
    by_cases passed : P s a u
    · obtain ⟨t, path, every, holds⟩ := ih (s := u) (by simpa [execUnder, moved, passed] using ends)
      refine ⟨t, (Path.nil.snoc a moved).append path, ?_, holds⟩
      exact Path.every_append (Path.every_snoc.mpr ⟨Path.every_nil P, passed⟩) every
    · simp [execUnder, moved, passed] at ends

def exec (M : Machine σ α) : σ → List α → Option σ := execUnder M fun _ _ _ => True

theorem reachable_exec {Q : σ → Prop} [DecidablePred Q] (actions : List α)
    (ends : (exec M M.init actions).any (fun t => decide (Q t)) = true) :
    ∃ t, Reachable M t ∧ Q t := by
  obtain ⟨t, run, -, holds⟩ := execUnder_path actions ends
  exact ⟨t, ⟨run⟩, holds⟩

/-- Running a list of actions together with a history. -/
def execFold (M : Machine σ α) (observe : σ → α → σ → η → η) : σ → η → List α → Option (σ × η)
  | s, h, [] => some (s, h)
  | s, h, a :: rest => (M.step s a).bind fun t => execFold M observe t (observe s a t h) rest

theorem execFold_path (observe : σ → α → σ → η → η) {Q : σ → η → Prop} [∀ s h, Decidable (Q s h)]
    {h : η} (actions : List α)
    (ends : (execFold M observe s h actions).any (fun r => decide (Q r.1 r.2)) = true) :
    ∃ t, ∃ path : Path M s t, Q t (path.fold observe h) := by
  induction actions generalizing s h with
  | nil => exact ⟨s, .nil, by simpa [execFold, Path.fold] using ends⟩
  | cons a _ ih =>
    cases moved : M.step s a with
    | none => simp [execFold, moved] at ends
    | some u =>
      obtain ⟨t, path, holds⟩ := ih (s := u) (h := observe s a u h) (by simpa [execFold, moved] using ends)
      refine ⟨t, (Path.nil.snoc a moved).append path, ?_⟩
      rw [Path.fold_append]
      exact holds

end Xv6Monitor.Lib.Transition
