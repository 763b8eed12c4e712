import Mathlib.Logic.Function.Basic

/-! Programs that change a state and may stop instead of returning, and rules for what holds when
they end. A program on a component of a state runs on the whole state through a `Part`. -/

namespace Xv6Monitor.Lib.Program

variable {ε σ τ α β : Type}

section Tables

variable {ι : Type} [DecidableEq ι] {table : ι → α} {i : ι} {e : α}

theorem entry_update {value : ι → β} {v : β} (get : α → β) (before : ∀ j, get (table j) = value j) (here : get e = v) (j : ι) :
    get (Function.update table i e j) = Function.update value i v j := by
  cases funext before
  cases here
  exact Function.apply_update (fun _ => get) table i e j

theorem field_update (get : α → β) (same : get e = get (table i)) (j : ι) :
    get (Function.update table i e j) = get (table j) := by
  rw [entry_update get (fun _ => rfl) same, Function.update_eq_self]

end Tables

abbrev Prog (ε σ : Type) : Type → Type := StateT σ (Except ε)

def stop (e : ε) : Prog ε σ α := fun _ => .error e

/-- From `s` the program stops only with an `E`, and where it returns `Q` holds. -/
def Ends (E : ε → Prop) (x : Prog ε σ α) (s : σ) (Q : α → σ → Prop) : Prop :=
  match x s with
  | .ok (a, t) => Q a t
  | .error e => E e

variable {E : ε → Prop} {x : Prog ε σ α} {s : σ} {Q R : α → σ → Prop}

@[simp] theorem ends_pure {a : α} : Ends E (pure a) s Q ↔ Q a s := Iff.rfl

@[simp] theorem ends_modify {f : σ → σ} {Q : PUnit → σ → Prop} : Ends E (modify f) s Q ↔ Q ⟨⟩ (f s) := Iff.rfl

variable {f : β → Prog ε σ α}

@[simp] theorem ends_get_bind {f : σ → Prog ε σ α} : Ends E (get >>= f) s Q ↔ Ends E (f s) s Q := Iff.rfl

@[simp] theorem ends_modify_bind {g : σ → σ} {f : PUnit → Prog ε σ α} :
    Ends E (modify g >>= f) s Q ↔ Ends E (f ⟨⟩) (g s) Q := Iff.rfl

variable {y : Prog ε σ β}

theorem ends_bind : Ends E (y >>= f) s Q ↔ Ends E y s fun b t => Ends E (f b) t Q := by
  simp only [Ends, bind, StateT.bind, Except.bind]
  cases y s <;> rfl

theorem Ends.ok {a : α} {t : σ} (ends : Ends E x s Q) (ran : x s = .ok (a, t)) : Q a t := by
  rw [Ends, ran] at ends
  exact ends

theorem Ends.error {e : ε} (ends : Ends E x s Q) (ran : x s = .error e) : E e := by
  rw [Ends, ran] at ends
  exact ends

theorem ends_of (returns : ∀ a t, x s = .ok (a, t) → Q a t) (stops : ∀ e, x s = .error e → E e) : Ends E x s Q := by
  unfold Ends
  cases ran : x s with
  | error e => exact stops e ran
  | ok _ => exact returns _ _ ran

theorem Ends.imp (ends : Ends E x s R) (weaker : ∀ a t, R a t → Q a t) : Ends E x s Q :=
  ends_of (fun a t ran => weaker a t (ends.ok ran)) fun _ ran => ends.error ran

theorem Ends.stops {F : ε → Prop} (ends : Ends E x s Q) (weaker : ∀ e, E e → F e) : Ends F x s Q :=
  ends_of (fun _ _ ran => ends.ok ran) fun e ran => weaker e (ends.error ran)

theorem Ends.bind {R : β → σ → Prop} (first : Ends E y s R)
    (rest : ∀ b t, R b t → Ends E (f b) t Q) : Ends E (y >>= f) s Q := ends_bind.mpr (first.imp rest)

/-- A run of a program has one outcome, so what is shown of it separately holds together. -/
theorem Ends.and {F : ε → Prop} (first : Ends E x s Q) (second : Ends F x s R) :
    Ends (fun e => E e ∧ F e) x s fun a t => Q a t ∧ R a t :=
  ends_of (fun _ _ ran => ⟨first.ok ran, second.ok ran⟩) fun _ ran => ⟨first.error ran, second.error ran⟩

theorem ends_ran {a : α} {t : σ} (ran : x s = .ok (a, t)) : Ends E x s Q ↔ Q a t := by
  rw [Ends, ran]

theorem ends_eq (x : Prog ε σ α) (s : σ) (a : α) (t : σ) :
    Ends (fun _ => False) x s (fun b u => b = a ∧ u = t) ↔ x s = .ok (a, t) := by
  unfold Ends
  cases x s with
  | error e => exact ⟨False.elim, nofun⟩
  | ok _ => exact ⟨fun ⟨left, right⟩ => congrArg Except.ok (Prod.ext left right), fun same => by cases same; exact ⟨rfl, rfl⟩⟩

theorem Ends.returns (ends : Ends (fun _ => False) x s Q) : ∃ a t, x s = .ok (a, t) ∧ Q a t := by
  cases ran : x s with
  | error _ => exact (ends.error ran).elim
  | ok result => exact ⟨result.1, result.2, rfl, ends.ok ran⟩

theorem Ends.const {P : Prop} (ends : Ends (fun _ => False) x s fun _ _ => P) : P := by
  obtain ⟨_, _, -, holds⟩ := ends.returns
  exact holds

variable {step : β → Prog ε σ PUnit}

/-- An invariant of a loop over a list, of the part of the list that is done. -/
theorem ends_forM {I : List β → σ → Prop} {list : List β}
    (each : ∀ done b rest u, list = done ++ b :: rest → I done u → Ends E (step b) u fun _ t => I (done ++ [b]) t)
    (first : I [] s) : Ends E (list.forM step) s fun _ t => I list t := by
  suffices all : ∀ rest done u, list = done ++ rest → I done u → Ends E (rest.forM step) u fun _ t => I list t from
    all list [] s rfl first
  intro rest
  induction rest with
  | nil =>
    intro done u split holds
    rw [List.append_nil] at split
    exact split ▸ holds
  | cons b rest ih =>
    intro done u split holds
    refine (each done b rest u split holds).bind fun _ t next => ih (done ++ [b]) t ?_ next
    rw [split, List.append_assoc, List.singleton_append]

/-- Every stop is allowed. -/
abbrev Any : ε → Prop := fun _ => True

/-- Wherever the program returns, it has moved the state along `R`. -/
def Along (R : σ → σ → Prop) (x : Prog ε σ α) : Prop := ∀ s, Ends Any x s fun _ t => R s t

section Along

variable {R : σ → σ → Prop} [IsPreorder σ R]

theorem along_pure (a : α) : Along R (pure a : Prog ε σ α) := fun s => refl_of R s

omit [IsPreorder σ R] in
theorem along_stop (e : ε) : Along R (stop e : Prog ε σ α) := fun _ => trivial

theorem along_get : Along R (get : Prog ε σ σ) := fun s => refl_of R s

omit [IsPreorder σ R] in
theorem along_modify {f : σ → σ} (moves : ∀ s, R s (f s)) : Along R (modify f : Prog ε σ PUnit) := moves

theorem along_bind (first : Along R y) (rest : ∀ b, Along R (f b)) :
    Along R (y >>= f) := fun s => (first s).bind fun b t moved => (rest b t).imp fun _ _ more => trans_of R moved more

theorem along_forM (each : ∀ b, Along R (step b)) (list : List β) : Along R (list.forM step) := by
  induction list with
  | nil => exact along_pure PUnit.unit
  | cons b _ ih => exact along_bind (each b) fun _ => ih

end Along

structure Part (τ σ : Type) where
  get : τ → σ
  set : τ → σ → τ

/-- A program on the component, run on the whole state; it stops the whole with its own reason. -/
def Part.run {δ : Type} (part : Part τ σ) (why : ε → δ) (x : Prog ε σ α) : Prog δ τ α := fun t =>
  match x (part.get t) with
  | .ok (a, s) => .ok (a, part.set t s)
  | .error e => .error (why e)

theorem Part.ends {δ : Type} {part : Part τ σ} {why : ε → δ} {E : δ → Prop} {t : τ} {Q : α → τ → Prop} :
    Ends E (part.run why x) t Q ↔ Ends (fun e => E (why e)) x (part.get t) fun a s => Q a (part.set t s) := by
  simp only [Ends, Part.run]
  cases x (part.get t) <;> rfl

end Xv6Monitor.Lib.Program
