import Xv6Monitor.Shell.Grammar

/-! The parser follows every derivation: on tokens that a nonterminal derives, with a token behind them that may
follow the nonterminal, it returns the command of the derivation. -/

namespace Xv6Monitor.Shell.Acceptance
open Lib.Program Commands Tokens Grammar

def Heads (kinds : List Kind) (ts : List Tok) : Prop := ∀ t ∈ ts.head?, t.kind ∈ kinds

/-- The kinds of the tokens that may follow a nonterminal. -/
def follow : Nonterm → List Kind
  | .line => [.rparen]
  | .pipe => [.rparen, .amp, .semi]
  | .exec => [.rparen, .amp, .semi, .bar]

section Heads

variable {kinds more : List Kind} {t : Tok} {ts rest : List Tok}

theorem heads_nil : Heads kinds [] := fun _ mem => nomatch mem

theorem heads_cons (kind : t.kind ∈ kinds) : Heads kinds (t :: ts) := by
  rintro u mem
  obtain rfl := Option.some.inj mem
  exact kind

theorem Heads.weaken (heads : Heads kinds ts) (subset : kinds ⊆ more) : Heads more ts := fun t mem => subset (heads t mem)

variable {toks : List UInt8}

theorem Heads.starts_false (heads : Heads kinds ts)
    (apart : ∀ k ∈ kinds, k.symbol.any (fun c => toks.contains c) = false) : starts toks ts = false := by
  cases ts with
  | nil => rfl
  | cons t ts => exact apart _ (heads t rfl)

theorem starts_of {k : Kind} (kind : t.kind = k) (known : k.symbol.any (fun c => toks.contains c) = true) :
    starts toks (t :: ts) = true := by
  change t.kind.symbol.any _ = true
  rw [kind, known]

theorem Heads.amps {amps : List Tok} (heads : Heads kinds rest) (all : Amps amps) (subset : .amp :: kinds ⊆ more) :
    Heads more (amps ++ rest) := by
  cases amps with
  | nil => exact heads.weaken fun k mem => subset (List.mem_cons_of_mem _ mem)
  | cons t amps =>
    refine heads_cons ?_
    rw [all t (List.mem_cons_self ..)]
    exact subset (List.mem_cons_self ..)

variable {argv : List Span}

theorem Heads.args {redirs : List Redir} (heads : Heads kinds rest) (args : Args ts argv redirs) :
    Heads (.word :: kinds) (ts ++ rest) := by
  cases args with
  | none => exact heads.weaken (List.subset_cons_self ..)
  | more word _ args =>
    refine heads_cons ?_
    rw [word]
    exact List.mem_cons_self ..

theorem Heads.redirs {redirs : List Redir} (heads : Heads kinds rest) (derived : Redirs ts redirs) :
    Heads (.lt :: .gt :: .gtgt :: kinds) (ts ++ rest) := by
  cases derived with
  | none => exact heads.weaken fun k mem => List.mem_cons_of_mem _ (List.mem_cons_of_mem _ (List.mem_cons_of_mem _ mem))
  | @more op file r ts rs known word derived =>
    refine heads_cons ?_
    cases kind : op.kind with
    | lt => exact List.mem_cons_self ..
    | gt => exact List.mem_cons_of_mem _ (List.mem_cons_self ..)
    | gtgt => exact List.mem_cons_of_mem _ (List.mem_cons_of_mem _ (List.mem_cons_self ..))
    | _ =>
      rw [kind] at known
      exact nomatch known

end Heads

section Complete

variable {line : List UInt8} {s n : Nat} {ts rest : List Tok} {E : Stop → Prop}

theorem peek_branch {α : Type} {Q : α → Nat → Prop} {yes no : Parse α} {b : Bool} (nonul : 0 ∉ line)
    (symbol : toks.all (fun c => symbols.contains c) = true) (found : starts toks ts = b) (here : At line s ts)
    (next : ∀ s', At line s' ts → Ends E (if b = true then yes else no) s' Q) :
    Ends E (peek line toks >>= fun b => if b = true then yes else no) s Q := by
  refine (peek_spec nonul symbol here).bind fun b s₁ ⟨same, _, here⟩ => ?_
  rw [same, found]
  exact next s₁ here

theorem redirect_starts {file : Span} {k : Kind} {r : Redir} (known : redirect file k = some r) :
    k.symbol.any (fun c => [60, 62].contains c) = true ∧ redirection k.code file = [r] := by
  cases k with
  | lt => exact ⟨rfl, congrArg (fun r => [r]) (Option.some.inj known)⟩
  | gt => exact ⟨rfl, congrArg (fun r => [r]) (Option.some.inj known)⟩
  | gtgt => exact ⟨rfl, congrArg (fun r => [r]) (Option.some.inj known)⟩
  | _ => exact nomatch known

theorem parseredirs_complete {redirs : List Redir} (nonul : 0 ∉ line) (derived : Redirs ts redirs)
    (ends : starts [60, 62] rest = false) (here : At line s (ts ++ rest)) (rounds : ts.length < n) :
    Ends E (parseredirs line n) s fun redirs' s' => redirs' = redirs ∧ At line s' rest := by
  induction derived generalizing s n with
  | none =>
    cases n with
    | zero => exact absurd rounds (Nat.not_lt_zero _)
    | succ n =>
      unfold parseredirs
      exact peek_branch nonul rfl ends here fun s' here => ⟨rfl, here⟩
  | @more op file r ts rs known word derived ih =>
    rcases n with _ | n
    · exact absurd rounds (Nat.not_lt_zero _)
    obtain ⟨first, made⟩ := redirect_starts known
    unfold parseredirs
    have found : starts [60, 62] (op :: (file :: ts ++ rest)) = true := first
    refine peek_branch nonul rfl found here fun s₁ here => ?_
    refine (gettoken_spec nonul here).bind ?_
    rintro tok s₂ ⟨got, here⟩
    refine (gettoken_spec nonul here).bind ?_
    rintro name s₃ ⟨got', here⟩
    obtain rfl := got
    obtain rfl := got'
    rw [if_neg (not_not.mpr (code_word.mpr word))]
    rw [List.length_cons, List.length_cons] at rounds
    refine (ih here (by omega)).bind fun more s₄ both => ⟨?_, both.2⟩
    rw [made, both.1]
    rfl

theorem finish_complete {redirs : List Redir} {Q : Cmd → Nat → Prop} (few : argv.length < MAXARGS)
    (done : Q (wrap (.exec argv) redirs) s) : Ends E (finish argv redirs) s Q := by
  unfold finish
  rw [if_neg (Nat.not_le.mpr few)]
  exact done

theorem parseargs_complete {argv' : List Span} {redirs redirs' : List Redir} (nonul : 0 ∉ line)
    (args : Args ts argv' redirs') (heads : Heads (follow .exec) rest) (few : (argv ++ argv').length < MAXARGS)
    (here : At line s (ts ++ rest)) (rounds : ts.length < n) :
    Ends E (parseargs line n argv redirs) s fun cmd s' =>
      cmd = wrap (.exec (argv ++ argv')) (redirs ++ redirs') ∧ At line s' rest := by
  induction args generalizing s n argv redirs with
  | none =>
    rcases n with _ | n
    · exact absurd rounds (Nat.not_lt_zero _)
    rw [List.append_nil] at few ⊢
    rw [List.append_nil]
    unfold parseargs
    cases rest with
    | nil =>
      refine peek_branch nonul rfl rfl here fun s₁ here => ?_
      refine (gettoken_spec nonul here).bind ?_
      rintro tok s₂ ⟨ended, here⟩
      rw [if_pos ended]
      exact finish_complete few ⟨rfl, here⟩
    | cons t rest =>
      have found : starts [124, 41, 38, 59] (t :: rest) = true := by
        have each : ∀ k ∈ follow .exec, k.symbol.any (fun c => [124, 41, 38, 59].contains c) = true := by decide
        exact each _ (heads t rfl)
      exact peek_branch nonul rfl found here fun s₁ here => finish_complete few ⟨rfl, here⟩
  | @more word ts us argv' rs redirs' kind derived args ih =>
    rcases n with _ | n
    · exact absurd rounds (Nat.not_lt_zero _)
    rw [List.cons_append, List.append_assoc] at here
    have found : starts [124, 41, 38, 59] (word :: (ts ++ (us ++ rest))) = false := by
      change word.kind.symbol.any _ = false
      rw [kind]
      rfl
    rw [← List.singleton_append, ← List.append_assoc] at few
    have few' : (argv ++ [word.span]).length < MAXARGS := by
      rw [List.length_append] at few
      omega
    unfold parseargs
    refine peek_branch nonul rfl found here fun s₁ here => ?_
    refine (gettoken_spec nonul here).bind ?_
    rintro tok s₂ ⟨got, here⟩
    obtain rfl := got
    rw [List.length_append] at few'
    change argv.length + 1 < MAXARGS at few'
    rw [if_neg (code_ne_zero _), if_neg (not_not.mpr (code_word.mpr kind)), if_neg (by omega), if_neg (by omega)]
    rw [List.length_cons, List.length_append] at rounds
    have ends : starts [60, 62] (us ++ rest) = false := (heads.args args).starts_false (by decide)
    refine (parseredirs_complete nonul derived ends here (by omega)).bind ?_
    rintro more s₃ ⟨same, here⟩
    refine (ih few here (by omega)).imp fun cmd s' both => ⟨?_, both.2⟩
    rw [both.1, same, List.append_assoc, List.append_assoc, List.singleton_append]

theorem parsebacks_complete {cmd : Cmd} {amps : List Tok} (nonul : 0 ∉ line) (all : Amps amps)
    (ends : starts [38] rest = false) (here : At line s (amps ++ rest)) (rounds : amps.length < n) :
    Ends E (parsebacks line n cmd) s fun cmd' s' => cmd' = backs cmd amps ∧ At line s' rest := by
  induction amps generalizing s n cmd with
  | nil =>
    cases n with
    | zero => exact absurd rounds (Nat.not_lt_zero _)
    | succ n =>
      unfold parsebacks
      exact peek_branch nonul rfl ends here fun s' here => ⟨rfl, here⟩
  | cons t amps ih =>
    rcases n with _ | n
    · exact absurd rounds (Nat.not_lt_zero _)
    have found : starts [38] (t :: amps ++ rest) = true := starts_of (all t (List.mem_cons_self ..)) rfl
    unfold parsebacks
    refine peek_branch nonul rfl found here fun s₁ here => ?_
    refine (gettoken_spec nonul here).bind ?_
    rintro tok s₂ ⟨_, here⟩
    exact ih (fun t mem => all t (List.mem_cons_of_mem _ mem)) here (Nat.lt_of_succ_lt_succ rounds)

/-- The parser returns the command of every derivation. -/
theorem parse_complete {nt : Nonterm} {cmd : Cmd} (nonul : 0 ∉ line) (derived : Derives nt ts cmd)
    (heads : Heads (follow nt) rest) (here : At line s (ts ++ rest)) (rounds : 4 * ts.length + nt.depth ≤ n) :
    Ends E (parse line nt n) s fun cmd' s' => cmd' = cmd ∧ At line s' rest := by
  induction derived generalizing s n rest with
  | @last ts amps cmd derived all ih =>
    rcases n with _ | n
    · exact absurd rounds (Nat.not_succ_le_zero _)
    rw [List.length_append] at rounds
    rw [List.append_assoc] at here
    change _ + 4 ≤ _ at rounds
    change Ends E (parseline line (n + 1)) s _
    unfold parseline
    refine (ih (heads.amps all (by decide)) here (by change _ + 3 ≤ n; omega)).bind ?_
    rintro cmd' s₁ ⟨same, here⟩
    obtain rfl := same
    refine (parsebacks_complete nonul all (heads.starts_false (by decide)) here (by omega)).bind ?_
    rintro cmd' s₂ ⟨same, here⟩
    exact peek_branch nonul rfl (heads.starts_false (by decide)) here fun s' here => ⟨same, here⟩
  | @semi ts amps us t cmd right derived all kind derived' ih ih' =>
    rcases n with _ | n
    · exact absurd rounds (Nat.not_succ_le_zero _)
    rw [List.length_append, List.length_append, List.length_cons] at rounds
    rw [List.append_assoc, List.append_assoc] at here
    have next : Heads [.semi] (t :: (us ++ rest)) := heads_cons (by rw [kind]; decide)
    change _ + 4 ≤ _ at rounds
    change Ends E (parseline line (n + 1)) s _
    unfold parseline
    refine (ih (next.amps all (by decide)) here (by change _ + 3 ≤ n; omega)).bind ?_
    rintro cmd' s₁ ⟨same, here⟩
    obtain rfl := same
    refine (parsebacks_complete nonul all (next.starts_false (by decide)) here (by omega)).bind ?_
    rintro cmd' s₂ ⟨same, here⟩
    have found : starts [59] (t :: (us ++ rest)) = true := starts_of (kind) rfl
    refine peek_branch nonul rfl found here fun s₃ here => ?_
    refine (gettoken_spec nonul here).bind ?_
    rintro tok s₄ ⟨_, here⟩
    refine (ih' heads here (by change _ + 4 ≤ n; omega)).bind fun right' s₅ both => ⟨?_, both.2⟩
    rw [same, both.1]
  | @single ts cmd derived ih =>
    rcases n with _ | n
    · exact absurd rounds (Nat.not_succ_le_zero _)
    change Ends E (parsepipe line (n + 1)) s _
    unfold parsepipe
    refine (ih (heads.weaken (by decide)) here (Nat.le_of_succ_le_succ rounds)).bind ?_
    rintro cmd' s₁ ⟨same, here⟩
    exact peek_branch nonul rfl (heads.starts_false (by decide)) here fun s' here => ⟨same, here⟩
  | @bar ts us t cmd right derived kind derived' ih ih' =>
    rcases n with _ | n
    · exact absurd rounds (Nat.not_succ_le_zero _)
    rw [List.length_append, List.length_cons] at rounds
    rw [List.append_assoc] at here
    change Ends E (parsepipe line (n + 1)) s _
    unfold parsepipe
    have next : Heads (follow .exec) (t :: (us ++ rest)) := heads_cons (by rw [kind]; decide)
    refine (ih next here (by change _ + 2 ≤ n; omega)).bind ?_
    rintro cmd' s₁ ⟨same, here⟩
    have found : starts [124] (t :: (us ++ rest)) = true := starts_of (kind) rfl
    refine peek_branch nonul rfl found here fun s₂ here => ?_
    refine (gettoken_spec nonul here).bind ?_
    rintro tok s₃ ⟨_, here⟩
    refine (ih' heads here (by change _ + 3 ≤ n; omega)).bind fun right' s₄ both => ⟨?_, both.2⟩
    rw [same, both.1]
  | @block l r ts us cmd redirs opens derived closes derived' ih =>
    rw [List.length_cons, List.length_append, List.length_cons] at rounds
    obtain ⟨n, rfl⟩ : ∃ m, n = m + 2 := ⟨n - 2, by omega⟩
    rw [List.cons_append, List.append_assoc] at here
    have found : starts [40] (l :: (ts ++ r :: (us ++ rest))) = true := starts_of (opens) rfl
    change Ends E (parseexec line (n + 2)) s _
    unfold parseexec
    refine peek_branch nonul rfl found here fun s₁ here => ?_
    unfold parseblock
    refine peek_branch nonul rfl found here fun s₂ here => ?_
    refine (gettoken_spec nonul here).bind ?_
    rintro tok s₃ ⟨_, here⟩
    have next : Heads (follow .line) (r :: (us ++ rest)) := heads_cons (by rw [closes]; decide)
    refine (ih next here (by change _ + 4 ≤ n; omega)).bind ?_
    rintro cmd' s₄ ⟨same, here⟩
    have found' : starts [41] (r :: (us ++ rest)) = true := starts_of (closes) rfl
    refine peek_branch nonul rfl found' here fun s₅ here => ?_
    refine (gettoken_spec nonul here).bind ?_
    rintro tok s₆ ⟨_, here⟩
    refine (parseredirs_complete nonul derived' (heads.starts_false (by decide)) here (by omega)).bind
      fun redirs' s₇ both => ⟨?_, both.2⟩
    rw [same, both.1]
  | @simple ts us argv rs redirs derived args few =>
    rcases n with _ | n
    · exact absurd rounds (Nat.not_succ_le_zero _)
    rw [List.length_append] at rounds
    change _ + 2 ≤ _ at rounds
    rw [List.append_assoc] at here
    have next := heads.args args
    change Ends E (parseexec line (n + 1)) s _
    unfold parseexec
    refine peek_branch nonul rfl ((next.redirs derived).starts_false (by decide)) here fun s₁ here => ?_
    refine (parseredirs_complete nonul derived (next.starts_false (by decide)) here (by omega)).bind ?_
    rintro redirs' s₂ ⟨same, here⟩
    obtain rfl := same
    exact parseargs_complete nonul args heads few here (by omega)

end Complete

end Xv6Monitor.Shell.Acceptance
