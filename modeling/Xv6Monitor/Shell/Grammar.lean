import Xv6Monitor.Shell.Tokens

/-! The grammar of command lines, and that the parser accepts nothing else. Every call of the parser ends:
it either takes a derivable part of the tokens or stops at one of its panics. -/

namespace Xv6Monitor.Shell.Grammar
open Lib.Program Commands Tokens

inductive Nonterm where
  | line
  | pipe
  | exec
  deriving DecidableEq

def redirect (file : Span) : Kind → Option Redir
  | .lt => some ⟨file, O_RDONLY, 0⟩
  | .gt => some ⟨file, O_WRONLY ||| O_CREATE ||| O_TRUNC, 1⟩
  | .gtgt => some ⟨file, O_WRONLY ||| O_CREATE, 1⟩
  | _ => none

/-- `redir*` -/
inductive Redirs : List Tok → List Redir → Prop
  | none : Redirs [] []
  | more {op file : Tok} {r : Redir} {ts : List Tok} {rs : List Redir} : redirect file.span op.kind = some r →
      file.kind = .word → Redirs ts rs → Redirs (op :: file :: ts) (r :: rs)

/-- `(word redir*)*` -/
inductive Args : List Tok → List Span → List Redir → Prop
  | none : Args [] [] []
  | more {word : Tok} {ts us : List Tok} {argv : List Span} {rs redirs : List Redir} : word.kind = .word → Redirs ts rs →
      Args us argv redirs → Args (word :: (ts ++ us)) (word.span :: argv) (rs ++ redirs)

def backs (cmd : Cmd) (amps : List Tok) : Cmd := amps.foldl (fun cmd _ => .back cmd) cmd

def Amps (amps : List Tok) : Prop := ∀ t ∈ amps, t.kind = .amp

/-- The tokens that a nonterminal derives, and the command they stand for. -/
inductive Derives : Nonterm → List Tok → Cmd → Prop
  | last {ts amps : List Tok} {cmd : Cmd} : Derives .pipe ts cmd → Amps amps → Derives .line (ts ++ amps) (backs cmd amps)
  | semi {ts amps us : List Tok} {t : Tok} {cmd right : Cmd} : Derives .pipe ts cmd → Amps amps → t.kind = .semi →
      Derives .line us right → Derives .line (ts ++ (amps ++ t :: us)) (.list (backs cmd amps) right)
  | single {ts : List Tok} {cmd : Cmd} : Derives .exec ts cmd → Derives .pipe ts cmd
  | bar {ts us : List Tok} {t : Tok} {cmd right : Cmd} : Derives .exec ts cmd → t.kind = .bar → Derives .pipe us right →
      Derives .pipe (ts ++ t :: us) (.pipe cmd right)
  | block {l r : Tok} {ts us : List Tok} {cmd : Cmd} {redirs : List Redir} : l.kind = .lparen → Derives .line ts cmd →
      r.kind = .rparen → Redirs us redirs → Derives .exec (l :: (ts ++ r :: us)) (wrap cmd redirs)
  | simple {ts us : List Tok} {argv : List Span} {rs redirs : List Redir} : Redirs ts rs → Args us argv redirs →
      argv.length < MAXARGS → Derives .exec (ts ++ us) (wrap (.exec argv) (rs ++ redirs))

def Panics (e : Stop) : Prop := ∃ message, e = .panic message

section Kinds

variable {k : Kind}

theorem redirection_code (file : Span) (known : k.symbol.any (fun c => [60, 62].contains c) = true) :
    ∃ r, redirect file k = some r ∧ redirection k.code file = [r] := by
  cases k with
  | lt => exact ⟨_, rfl, rfl⟩
  | gt => exact ⟨_, rfl, rfl⟩
  | gtgt => exact ⟨_, rfl, rfl⟩
  | _ => exact nomatch known

theorem code_ne_zero (k : Kind) : k.code ≠ 0 := by
  cases k <;> decide

theorem code_word : k.code = 97 ↔ k = .word := by
  cases k <;> decide

theorem symbol_kind {kind : Kind} (other : kind ≠ .word ∧ kind ≠ .gt ∧ kind ≠ .gtgt)
    (known : k.symbol.any (fun c => [kind.code].contains c) = true) : k = kind := by
  cases kind <;> cases k <;> first | rfl | exact absurd other (by decide) | exact absurd known (by decide)

end Kinds

theorem starts_kind {ts : List Tok} (kind : Kind) (other : kind ≠ .word ∧ kind ≠ .gt ∧ kind ≠ .gtgt)
    (first : starts [kind.code] ts = true) : ∃ t rest, ts = t :: rest ∧ t.kind = kind := by
  cases ts with
  | nil => exact nomatch first
  | cons t rest => exact ⟨t, rest, rfl, symbol_kind other first⟩

section Sound

variable {line : List UInt8} {s n : Nat} {ts : List Tok}

theorem parseredirs_sound (nonul : 0 ∉ line) (here : At line s ts) (rounds : ts.length < n) :
    Ends Panics (parseredirs line n) s fun redirs s' => ∃ us rest, ts = us ++ rest ∧ Redirs us redirs ∧ At line s' rest := by
  induction n generalizing s ts with
  | zero => exact absurd rounds (Nat.not_lt_zero _)
  | succ n ih =>
    unfold parseredirs
    refine (peek_spec nonul rfl here).bind fun b s₁ ⟨found, _, here⟩ => ?_
    cases known : b with
    | false => exact ⟨[], ts, rfl, .none, here⟩
    | true =>
      rw [known] at found
      rcases ts with _ | ⟨op, ts⟩
      · exact nomatch found
      refine (gettoken_spec nonul here).bind fun tok s₂ ⟨got, here⟩ => ?_
      obtain rfl := got
      refine (gettoken_spec nonul here).bind fun file s₃ after => ?_
      rcases ts with _ | ⟨t, ts⟩
      · rw [if_pos (by rw [after.1]; decide)]
        exact ⟨_, rfl⟩
      obtain ⟨rfl, here⟩ := after
      by_cases word : t.kind = .word
      · rw [if_neg (not_not.mpr (code_word.mpr word))]
        have less : ts.length < n := by
          rw [List.length_cons, List.length_cons] at rounds
          omega
        refine (ih here less).bind fun more s₄ ⟨us, rest, split, redirs, here⟩ => ?_
        obtain ⟨r, known, made⟩ := redirection_code t.span found.symm
        refine ⟨op :: t :: us, rest, by rw [split]; rfl, ?_, here⟩
        rw [made]
        exact .more known word redirs
      · rw [if_pos fun code => word (code_word.mp code)]
        exact ⟨_, rfl⟩

theorem finish_sound {argv : List Span} {redirs : List Redir} {Q : Cmd → Nat → Prop} (few : argv.length < MAXARGS)
    (done : Q (wrap (.exec argv) redirs) s) : Ends Panics (finish argv redirs) s Q := by
  unfold finish
  rw [if_neg (Nat.not_le.mpr few)]
  exact done

variable (nonul : 0 ∉ line)
include nonul

theorem parseargs_sound {argv : List Span} {redirs : List Redir} (here : At line s ts)
    (rounds : ts.length < n) (few : argv.length < MAXARGS) :
    Ends Panics (parseargs line n argv redirs) s fun cmd s' => ∃ us rest argv' redirs', ts = us ++ rest ∧
      Args us argv' redirs' ∧ (argv ++ argv').length < MAXARGS ∧ cmd = wrap (.exec (argv ++ argv')) (redirs ++ redirs') ∧
      At line s' rest := by
  induction n generalizing s ts argv redirs with
  | zero => exact absurd rounds (Nat.not_lt_zero _)
  | succ n ih =>
    have done : ∀ {t ts}, At line t ts → Ends Panics (finish argv redirs) t fun cmd s' => ∃ us rest argv' redirs',
        ts = us ++ rest ∧ Args us argv' redirs' ∧ (argv ++ argv').length < MAXARGS ∧
        cmd = wrap (.exec (argv ++ argv')) (redirs ++ redirs') ∧ At line s' rest := by
      intro t ts here
      refine finish_sound few ⟨[], ts, [], [], rfl, .none, ?_, ?_, here⟩
      · rw [List.append_nil]
        exact few
      · rw [List.append_nil, List.append_nil]
    unfold parseargs
    refine (peek_spec nonul rfl here).bind fun b s₁ ⟨_, _, here⟩ => ?_
    cases b with
    | true => exact done here
    | false =>
      refine (gettoken_spec nonul here).bind fun tok s₂ after => ?_
      rcases ts with _ | ⟨t, ts⟩
      · rw [if_pos after.1]
        exact done after.2
      obtain ⟨rfl, here⟩ := after
      rw [if_neg (code_ne_zero _)]
      by_cases word : t.kind = .word
      · rw [if_neg (not_not.mpr (code_word.mpr word)), if_neg (Nat.not_le.mpr few)]
        by_cases many : MAXARGS ≤ argv.length + 1
        · rw [if_pos many]
          exact ⟨_, rfl⟩
        rw [if_neg many]
        rw [List.length_cons] at rounds
        refine (parseredirs_sound nonul here (by omega)).bind fun more s₃ ⟨us, rest, split, derived, here⟩ => ?_
        have shorter := congrArg List.length split
        rw [List.length_append] at shorter
        have few' : (argv ++ [t.span]).length < MAXARGS := by
          rw [List.length_append]
          exact Nat.not_le.mp many
        refine (ih here (by omega) few').imp fun cmd s' ⟨vs, rest', argv', redirs', split', args, all, made, here⟩ => ?_
        refine ⟨t :: (us ++ vs), rest', t.span :: argv', more ++ redirs', ?_, .more word derived args, ?_, ?_, here⟩
        · rw [split, split', List.cons_append, List.append_assoc]
        · rwa [List.append_assoc, List.singleton_append] at all
        · rw [made, List.append_assoc, List.append_assoc, List.singleton_append]
      · rw [if_pos fun code => word (code_word.mp code)]
        exact ⟨_, rfl⟩

theorem parsebacks_sound {cmd : Cmd} (here : At line s ts) (rounds : ts.length < n) :
    Ends Panics (parsebacks line n cmd) s fun cmd' s' => ∃ amps rest, ts = amps ++ rest ∧ Amps amps ∧
      cmd' = backs cmd amps ∧ At line s' rest := by
  induction n generalizing s ts cmd with
  | zero => exact absurd rounds (Nat.not_lt_zero _)
  | succ n ih =>
    unfold parsebacks
    refine (peek_spec nonul rfl here).bind fun b s₁ ⟨found, _, here⟩ => ?_
    cases known : b with
    | false => exact ⟨[], ts, rfl, (fun t mem => nomatch mem), rfl, here⟩
    | true =>
      rw [known] at found
      obtain ⟨t, ts, rfl, kind⟩ := starts_kind .amp (by decide) found.symm
      refine (gettoken_spec nonul here).bind fun tok s₂ ⟨_, here⟩ => ?_
      rw [List.length_cons] at rounds
      refine (ih here (by omega)).imp fun cmd' s' ⟨amps, rest, split, all, made, here⟩ => ?_
      refine ⟨t :: amps, rest, by rw [split]; rfl, ?_, made, here⟩
      intro u mem
      rcases List.mem_cons.mp mem with rfl | mem
      · exact kind
      · exact all u mem

def parse (line : List UInt8) : Nonterm → Nat → Parse Cmd
  | .line => parseline line
  | .pipe => parsepipe line
  | .exec => parseexec line

def Nonterm.depth : Nonterm → Nat
  | .line => 4
  | .pipe => 3
  | .exec => 2

/-- A part of the tokens is derived, and the pointer stands before the others. -/
def Parsed (line : List UInt8) (nt : Nonterm) (ts : List Tok) (cmd : Cmd) (s : Nat) : Prop :=
  ∃ us rest, ts = us ++ rest ∧ Derives nt us cmd ∧ At line s rest

/-- With this many rounds every call derives what it takes. -/
def Sound (line : List UInt8) (n : Nat) : Prop := ∀ nt s ts, At line s ts → 4 * ts.length + nt.depth ≤ n →
  Ends Panics (parse line nt n) s (Parsed line nt ts)

theorem parseline_sound (below : Sound line n) (here : At line s ts) (rounds : 4 * ts.length + 4 ≤ n + 1) :
    Ends Panics (parseline line (n + 1)) s (Parsed line .line ts) := by
  unfold parseline
  refine (below .pipe s ts here (Nat.le_of_succ_le_succ rounds)).bind fun cmd s₁ ⟨us, rest, split, derived, here⟩ => ?_
  have shorter := congrArg List.length split
  rw [List.length_append] at shorter
  refine (parsebacks_sound nonul here (by omega)).bind fun cmd' s₂ ⟨amps, rest', split', all, made, here⟩ => ?_
  obtain rfl := made
  refine (peek_spec nonul rfl here).bind fun b s₃ ⟨found, _, here⟩ => ?_
  cases known : b with
  | false =>
    refine ⟨us ++ amps, rest', ?_, .last derived all, here⟩
    rw [split, split', List.append_assoc]
  | true =>
    rw [known] at found
    obtain ⟨t, vs, rfl, kind⟩ := starts_kind .semi (by decide) found.symm
    refine (gettoken_spec nonul here).bind fun tok s₄ ⟨_, here⟩ => ?_
    have shorter' := congrArg List.length split'
    rw [List.length_append, List.length_cons] at shorter'
    refine (below .line s₄ vs here (by change _ + 4 ≤ n; omega)).bind fun right s₅ ⟨ws, left, split'', derived', here⟩ => ?_
    refine ⟨us ++ (amps ++ t :: ws), left, ?_, .semi derived all kind derived', here⟩
    rw [split, split', split'', List.append_assoc, List.append_assoc, List.cons_append]

theorem parsepipe_sound (below : Sound line n) (here : At line s ts) (rounds : 4 * ts.length + 3 ≤ n + 1) :
    Ends Panics (parsepipe line (n + 1)) s (Parsed line .pipe ts) := by
  unfold parsepipe
  refine (below .exec s ts here (Nat.le_of_succ_le_succ rounds)).bind fun cmd s₁ ⟨us, rest, split, derived, here⟩ => ?_
  refine (peek_spec nonul rfl here).bind fun b s₂ ⟨found, _, here⟩ => ?_
  cases known : b with
  | false => exact ⟨us, rest, split, .single derived, here⟩
  | true =>
    rw [known] at found
    obtain ⟨t, vs, rfl, kind⟩ := starts_kind .bar (by decide) found.symm
    refine (gettoken_spec nonul here).bind fun tok s₃ ⟨_, here⟩ => ?_
    have shorter := congrArg List.length split
    rw [List.length_append, List.length_cons] at shorter
    refine (below .pipe s₃ vs here (by change _ + 3 ≤ n; omega)).bind fun right s₄ ⟨ws, left, split', derived', here⟩ => ?_
    refine ⟨us ++ t :: ws, left, ?_, .bar derived kind derived', here⟩
    rw [split, split', List.append_assoc, List.cons_append]

theorem parseblock_sound (below : Sound line n) (here : At line s ts) (rounds : 4 * ts.length + 1 ≤ n + 1) :
    Ends Panics (parseblock line (n + 1)) s (Parsed line .exec ts) := by
  unfold parseblock
  refine (peek_spec nonul rfl here).bind fun b s₁ ⟨found, _, here⟩ => ?_
  cases known : b with
  | false => exact ⟨_, rfl⟩
  | true =>
    rw [known] at found
    obtain ⟨l, ts, rfl, opens⟩ := starts_kind .lparen (by decide) found.symm
    refine (gettoken_spec nonul here).bind fun tok s₂ ⟨_, here⟩ => ?_
    rw [List.length_cons] at rounds
    refine (below .line s₂ ts here (by change _ + 4 ≤ n; omega)).bind fun cmd s₃ ⟨us, rest, split, derived, here⟩ => ?_
    refine (peek_spec nonul rfl here).bind fun b s₄ ⟨found, _, here⟩ => ?_
    cases known : b with
    | false => exact ⟨_, rfl⟩
    | true =>
      rw [known] at found
      obtain ⟨r, vs, rfl, closes⟩ := starts_kind .rparen (by decide) found.symm
      refine (gettoken_spec nonul here).bind fun tok s₅ ⟨_, here⟩ => ?_
      have shorter := congrArg List.length split
      rw [List.length_append, List.length_cons] at shorter
      refine (parseredirs_sound nonul here (by omega)).bind fun redirs s₆ ⟨ws, left, split', derived', here⟩ => ?_
      refine ⟨l :: (us ++ r :: ws), left, ?_, .block opens derived closes derived', here⟩
      rw [split, split', List.cons_append, List.append_assoc, List.cons_append]

theorem parseexec_sound (below : ∀ m < n, Sound line m) (here : At line s ts)
    (rounds : 4 * ts.length + 2 ≤ n + 1) : Ends Panics (parseexec line (n + 1)) s (Parsed line .exec ts) := by
  unfold parseexec
  refine (peek_spec nonul rfl here).bind fun b s₁ ⟨_, _, here⟩ => ?_
  cases b with
  | true =>
    cases n with
    | zero => exact absurd rounds (by omega)
    | succ n => exact parseblock_sound nonul (below n (Nat.lt_succ_self n)) here (Nat.le_of_succ_le_succ rounds)
  | false =>
    refine (parseredirs_sound nonul here (by omega)).bind fun redirs s₂ ⟨us, rest, split, derived, here⟩ => ?_
    have shorter := congrArg List.length split
    rw [List.length_append] at shorter
    refine (parseargs_sound nonul here (by omega) (by decide)).imp
      fun cmd s₃ ⟨vs, rest', argv, redirs', split', args, few, made, here⟩ => ?_
    obtain rfl := made
    refine ⟨us ++ vs, rest', ?_, .simple derived args few, here⟩
    rw [split, split', List.append_assoc]

/-- Every call of the parser ends; what it takes is derivable. -/
theorem parse_sound (n : Nat) : Sound line n := by
  induction n using Nat.strong_induction_on with
  | _ n below =>
    intro nt s ts here rounds
    rcases n with _ | n
    · cases nt <;> exact absurd rounds (Nat.not_succ_le_zero _)
    have last := below n (Nat.lt_succ_self n)
    cases nt with
    | line => exact parseline_sound nonul last here rounds
    | pipe => exact parsepipe_sound nonul last here rounds
    | exec => exact parseexec_sound nonul (fun m less => below m (Nat.lt_succ_of_lt less)) here rounds

end Sound

end Xv6Monitor.Shell.Grammar
