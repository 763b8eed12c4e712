import Xv6Monitor.Shell.Commands
import Mathlib.Data.List.TakeWhile

/-! The tokens of a line, and that `gettoken` and `peek` deliver them one by one. -/

namespace Xv6Monitor.Shell.Tokens
open Lib.Program Commands

inductive Kind where
  | word
  | lt
  | gt
  | gtgt
  | bar
  | amp
  | semi
  | lparen
  | rparen
  deriving DecidableEq

structure Tok where
  kind : Kind
  span : Span
  deriving DecidableEq

/-- The kinds of the symbols that are always tokens of their own. -/
def symbolKind (c : UInt8) : Option Kind :=
  if c = 60 then some .lt
  else if c = 124 then some .bar
  else if c = 38 then some .amp
  else if c = 59 then some .semi
  else if c = 40 then some .lparen
  else if c = 41 then some .rparen
  else none

inductive Open where
  | none
  | word (q : Nat)
  | greater (q : Nat)

def Open.close : Open → (pos : Nat) → List Tok
  | .none, _ => []
  | .word q, pos => [⟨.word, q, pos⟩]
  | .greater q, pos => [⟨.gt, q, pos⟩]

/-- A character: the tokens that it ends, and the one that is open after it. -/
def feed (opened : Open) (pos : Nat) (c : UInt8) : List Tok × Open :=
  if c = 62 then
    match opened with
    | .greater q => ([⟨.gtgt, q, pos + 1⟩], .none)
    | _ => (opened.close pos, .greater pos)
  else if whitespace.contains c then (opened.close pos, .none)
  else
    match symbolKind c with
    | some kind => (opened.close pos ++ [⟨kind, pos, pos + 1⟩], .none)
    | none =>
      match opened with
      | .word q => ([], .word q)
      | _ => (opened.close pos, .word pos)

/-- The tokens of the rest of a line, from left to right. -/
def lex : List UInt8 → (pos : Nat) → Open → List Tok
  | [], pos, opened => opened.close pos
  | c :: cs, pos, opened => (feed opened pos c).1 ++ lex cs (pos + 1) (feed opened pos c).2

def tokens (line : List UInt8) : List Tok := lex line 0 .none

def Kind.code : Kind → UInt8
  | .word => 97
  | .lt => 60
  | .gt => 62
  | .gtgt => 43
  | .bar => 124
  | .amp => 38
  | .semi => 59
  | .lparen => 40
  | .rparen => 41

def Kind.symbol : Kind → Option UInt8
  | .word => none
  | .gtgt => some 62
  | kind => some kind.code

def starts (toks : List UInt8) : List Tok → Bool
  | [] => false
  | t :: _ => t.kind.symbol.any fun c => toks.contains c

/-- The pointer stands before the tokens `ts`. -/
structure At (line : List UInt8) (s : Nat) (ts : List Tok) : Prop where
  inside : s ≤ line.length
  rest : lex (line.drop s) s .none = ts

section Lexing

variable {cs ws : List UInt8} {pos q : Nat} {c : UInt8} {opened : Open}

theorem feed_white (white : whitespace.contains c = true) : feed opened pos c = (opened.close pos, .none) := by
  have other : c ≠ 62 := by
    rintro rfl
    exact absurd white (by decide)
  unfold feed
  rw [if_neg other, if_pos white]

theorem feed_symbol {kind : Kind} (symbol : symbolKind c = some kind) :
    feed opened pos c = (opened.close pos ++ [⟨kind, pos, pos + 1⟩], .none) := by
  have other : c ≠ 62 := by
    rintro rfl
    exact nomatch (show symbolKind 62 = none by decide).symm.trans symbol
  have black : ¬whitespace.contains c = true := by
    intro white
    have each : ∀ c ∈ whitespace, symbolKind c = none := by decide +kernel
    rw [each c (by simpa using white)] at symbol
    exact nomatch symbol
  unfold feed
  rw [if_neg other, if_neg black, symbol]

theorem symbolKind_mem (some : symbolKind c ≠ none) : c ∈ [60, 124, 38, 59, 40, 41] := by
  unfold symbolKind at some
  by_contra outside
  simp only [List.mem_cons, not_or] at outside
  simp [outside] at some

theorem plain_iff : plain c = true ↔ c ≠ 62 ∧ whitespace.contains c = false ∧ symbolKind c = none := by
  have symbol : symbols.contains c = true ↔ c = 62 ∨ symbolKind c ≠ none := by
    constructor
    · intro inside
      have each : ∀ c ∈ symbols, c = 62 ∨ symbolKind c ≠ none := by decide +kernel
      exact each c (by simpa using inside)
    · rintro (rfl | some)
      · decide
      · have each : ∀ c ∈ [60, 124, 38, 59, 40, 41], symbols.contains c = true := by decide +kernel
        exact each c (symbolKind_mem some)
  unfold plain
  rw [Bool.and_eq_true, Bool.not_eq_true', Bool.not_eq_true', ← Bool.not_eq_true (symbols.contains c), symbol, not_or, not_not, and_left_comm]

theorem lex_white (white : ∀ c ∈ ws, whitespace.contains c = true) :
    lex (ws ++ cs) pos .none = lex cs (pos + ws.length) .none := by
  induction ws generalizing pos with
  | nil => rfl
  | cons c ws ih =>
    rw [List.cons_append, lex, feed_white (white c (List.mem_cons_self ..)), ih fun c mem => white c (List.mem_cons_of_mem _ mem),
      List.length_cons, Nat.add_right_comm]
    rfl

theorem feed_end (ends : ¬plain c = true) :
    feed (.word q) pos c = (⟨.word, q, pos⟩ :: (feed .none pos c).1, (feed .none pos c).2) := by
  unfold feed
  split
  · rfl
  next other =>
    split
    · rfl
    next black =>
      split
      · rfl
      next plain => exact absurd (plain_iff.mpr ⟨other, Bool.not_eq_true _ ▸ black, plain⟩) ends

theorem lex_word : lex cs pos (.word q) =
    ⟨.word, q, pos + (cs.takeWhile plain).length⟩ :: lex (cs.dropWhile plain) (pos + (cs.takeWhile plain).length) .none := by
  induction cs generalizing pos with
  | nil => rfl
  | cons c cs ih =>
    by_cases more : plain c = true
    · obtain ⟨other, black, plain⟩ := plain_iff.mp more
      have fed : feed (.word q) pos c = ([], .word q) := by
        unfold feed
        rw [if_neg other, black, if_neg Bool.false_ne_true, plain]
      rw [lex, fed, List.takeWhile_cons_of_pos more, List.dropWhile_cons_of_pos more, List.length_cons, List.nil_append, ih,
        Nat.add_right_comm, Nat.add_assoc]
    · rw [List.takeWhile_cons_of_neg more, List.dropWhile_cons_of_neg more]
      rw [lex, feed_end more]
      rfl

theorem lex_greater (single : cs.head? ≠ some 62) : lex cs pos (.greater q) = ⟨.gt, q, pos⟩ :: lex cs pos .none := by
  rcases cs with _ | ⟨c, cs⟩
  · rfl
  have other : c ≠ 62 := fun same => single (congrArg some same)
  have fed : feed (.greater q) pos c = (⟨.gt, q, pos⟩ :: (feed .none pos c).1, (feed .none pos c).2) := by
    unfold feed
    rw [if_neg other]
    split
    · rfl
    · split <;> rfl
  rw [lex, fed]
  rfl

theorem feed_length (opened : Open) (pos : Nat) (c : UInt8) :
    (feed opened pos c).1.length + ((feed opened pos c).2.close (pos + 1)).length ≤ (opened.close pos).length + 1 := by
  unfold feed
  split
  · cases opened with
    | none => exact Nat.le_refl _
    | word q => exact Nat.le_refl _
    | greater q => exact Nat.le_succ _
  split
  · exact Nat.le_succ _
  split
  · rw [List.length_append]
    exact Nat.le_refl _
  · cases opened with
    | none => exact Nat.le_refl _
    | word q => exact Nat.le_succ _
    | greater q => exact Nat.le_refl _

theorem lex_length (cs : List UInt8) (pos : Nat) (opened : Open) :
    (lex cs pos opened).length ≤ cs.length + (opened.close pos).length := by
  induction cs generalizing pos opened with
  | nil => exact Nat.le_add_left _ _
  | cons c cs ih =>
    have rest := ih (pos + 1) (feed opened pos c).2
    have step := feed_length opened pos c
    rw [lex, List.length_append, List.length_cons]
    omega

theorem symbolKind_code {kind : Kind} (symbol : symbolKind c = some kind) :
    kind.code = c ∧ kind.symbol = some c ∧ [124, 40, 41, 59, 38, 60].contains c = true := by
  have each : ∀ c ∈ [60, 124, 38, 59, 40, 41], (symbolKind c).all (fun kind => decide (kind.code = c ∧ kind.symbol = some c ∧
      [124, 40, 41, 59, 38, 60].contains c = true)) = true := by decide +kernel
  have all := each c (symbolKind_mem (by rw [symbol]; exact Option.some_ne_none _))
  rw [symbol] at all
  exact of_decide_eq_true all

end Lexing

section Pointers

variable {line : List UInt8} {s : Nat} {ts : List Tok}

theorem drop_takeWhile (p : UInt8 → Bool) (l : List UInt8) : l.drop (l.takeWhile p).length = l.dropWhile p := by
  induction l with
  | nil => rfl
  | cons c l ih =>
    by_cases more : p c = true
    · rw [List.takeWhile_cons_of_pos more, List.dropWhile_cons_of_pos more, List.length_cons, List.drop_succ_cons, ih]
    · rw [List.takeWhile_cons_of_neg more, List.dropWhile_cons_of_neg more]
      rfl

theorem drop_skip (line : List UInt8) (s : Nat) :
    line.drop (skip line s) = (line.drop s).dropWhile fun c => whitespace.contains c := by
  rw [skip, ← List.drop_drop, drop_takeWhile]

theorem skip_inside (inside : s ≤ line.length) : skip line s ≤ line.length := by
  have less := (List.takeWhile_sublist (l := line.drop s) fun c => whitespace.contains c).length_le
  rw [List.length_drop] at less
  unfold skip
  omega

theorem deref_eq (line : List UInt8) (s : Nat) : deref line s = (line.drop s).headD 0 := by
  unfold deref
  rw [List.headD_eq_head?_getD, List.head?_drop, List.getD_eq_getElem?_getD]

theorem At.skip (here : At line s ts) : At line (skip line s) ts := by
  refine ⟨skip_inside here.inside, ?_⟩
  calc lex (line.drop (Commands.skip line s)) (Commands.skip line s) .none
      = lex ((line.drop s).takeWhile (fun c => whitespace.contains c) ++ (line.drop s).dropWhile fun c => whitespace.contains c)
          s .none := by
        rw [drop_skip, lex_white fun c mem => List.mem_takeWhile_imp mem]
        rfl
    _ = lex (line.drop s) s .none := by rw [List.takeWhile_append_dropWhile]
    _ = ts := here.rest

/-- The symbol a token begins with, or that it is a word. -/
def Begins (kind : Kind) (c : UInt8) : Prop := kind.symbol = some c ∨ kind.symbol = none ∧ plain c = true

theorem scan_spec {q : Nat} {c : UInt8} {cs : List UInt8} (nonul : 0 ∉ line) (next : line.drop q = c :: cs)
    (black : whitespace.contains c = false) : ∃ kind eq, scan line q = (kind.code, eq) ∧ eq ≤ line.length ∧
      lex (line.drop q) q .none = ⟨kind, q, eq⟩ :: lex (line.drop eq) eq .none ∧ Begins kind c := by
  have length : q + (cs.length + 1) = line.length := by
    have total := congrArg List.length next
    rw [List.length_drop, List.length_cons] at total
    omega
  have mem : c ∈ line := List.mem_of_mem_drop (next ▸ List.mem_cons_self ..)
  have real : c ≠ 0 := by
    rintro rfl
    exact nonul mem
  have here : deref line q = c := by
    rw [deref_eq, next]
    rfl
  have after : line.drop (q + 1) = cs := by
    rw [← List.drop_drop, next]
    rfl
  have following : deref line (q + 1) = cs.headD 0 := by
    rw [deref_eq, after]
  unfold scan
  rw [here, if_neg real]
  cases symbol : symbolKind c with
  | some kind =>
    obtain ⟨code, first, inside⟩ := symbolKind_code symbol
    refine ⟨kind, q + 1, ?_, by omega, ?_, Or.inl first⟩
    · rw [if_pos inside, code]
    · rw [next, lex, feed_symbol symbol, after]
      rfl
  | none =>
    have single : ¬[124, 40, 41, 59, 38, 60].contains c = true := by
      intro inside
      have each : ∀ c ∈ [124, 40, 41, 59, 38, 60], symbolKind c ≠ none := by decide +kernel
      exact each c (by simpa using inside) symbol
    rw [if_neg single]
    by_cases greater : c = 62
    · rw [if_pos greater, following]
      have fed : feed .none q c = ([], .greater q) := by
        unfold feed
        rw [if_pos greater]
        rfl
      by_cases twice : cs.headD 0 = 62
      · rw [if_pos twice]
        rcases cs with _ | ⟨d, ds⟩
        · exact absurd twice (by decide)
        rw [List.headD_cons] at twice
        have rest : line.drop (q + 2) = ds := by
          rw [← List.drop_drop, next]
          rfl
        have fed' : feed (.greater q) (q + 1) d = ([⟨.gtgt, q, q + 2⟩], .none) := by
          unfold feed
          rw [if_pos twice]
        rw [List.length_cons] at length
        refine ⟨.gtgt, q + 2, rfl, by omega, ?_, Or.inl (congrArg some greater.symm)⟩
        rw [next, lex, fed, lex, fed', rest]
        rfl
      · rw [if_neg twice]
        refine ⟨.gt, q + 1, by rw [greater]; rfl, by omega, ?_, Or.inl (congrArg some greater.symm)⟩
        have alone : cs.head? ≠ some 62 := by
          cases cs with
          | nil => exact nofun
          | cons d ds => exact fun same => twice (Option.some.inj same)
        rw [next, lex, fed, lex_greater alone, after]
        rfl
    · have word : plain c = true := plain_iff.mpr ⟨greater, black, symbol⟩
      have fed : feed .none q c = ([], .word q) := by
        unfold feed
        rw [if_neg greater, black, symbol]
        rfl
      have less := (List.takeWhile_sublist (l := line.drop q) plain).length_le
      rw [List.length_drop] at less
      rw [if_neg greater]
      refine ⟨.word, _, rfl, by omega, ?_, Or.inr ⟨rfl, word⟩⟩
      rw [← List.drop_drop, drop_takeWhile, next, lex, fed, lex_word, List.takeWhile_cons_of_pos word,
        List.dropWhile_cons_of_pos word, List.length_cons, Nat.add_right_comm, Nat.add_assoc]
      rfl

theorem At.next (here : At line s ts) : (ts = [] ∧ Commands.skip line s = line.length) ∨
    ∃ c cs, line.drop (Commands.skip line s) = c :: cs ∧ whitespace.contains c = false := by
  have moved := here.skip
  cases next : line.drop (Commands.skip line s) with
  | nil =>
    left
    have rest := moved.rest
    have inside := moved.inside
    rw [next] at rest
    exact ⟨rest.symm, le_antisymm inside (List.drop_eq_nil_iff.mp next)⟩
  | cons c cs =>
    right
    refine ⟨c, cs, rfl, ?_⟩
    rw [drop_skip] at next
    have stopped := List.head?_dropWhile_not (fun c => whitespace.contains c) (line.drop s)
    rw [next] at stopped
    simpa using stopped

variable {E : Stop → Prop}

theorem gettoken_spec (nonul : 0 ∉ line) (here : At line s ts) : Ends E (gettoken line) s fun got s' =>
    match ts with
    | [] => got.ret = 0 ∧ At line s' []
    | t :: rest => got = ⟨t.kind.code, t.span.q, t.span.eq⟩ ∧ At line s' rest := by
  have moved := here.skip
  rcases here.next with ⟨rfl, ends⟩ | ⟨c, cs, next, black⟩
  · have scanned : scan line (skip line s) = (0, skip line s) := by
      unfold scan
      rw [deref_eq, ends, List.drop_length]
      rfl
    unfold gettoken
    rw [ends_get_bind]
    dsimp only
    rw [scanned]
    exact ⟨rfl, moved.skip⟩
  · obtain ⟨_, _, scanned, inside, lexed, -⟩ := scan_spec nonul next black
    obtain rfl := moved.rest.symm.trans lexed
    unfold gettoken
    rw [ends_get_bind]
    dsimp only
    rw [scanned]
    exact ⟨rfl, At.skip ⟨inside, rfl⟩⟩

theorem peek_spec {toks : List UInt8} (nonul : 0 ∉ line) (symbol : toks.all (fun c => symbols.contains c) = true)
    (here : At line s ts) :
    Ends E (peek line toks) s fun b s' => b = starts toks ts ∧ s' = skip line s ∧ At line s' ts := by
  have moved := here.skip
  unfold peek
  refine ⟨?_, rfl, moved⟩
  change (decide (deref line (skip line s) ≠ 0) && toks.contains (deref line (skip line s))) = starts toks ts
  rcases here.next with ⟨rfl, ends⟩ | ⟨c, cs, next, black⟩
  · rw [deref_eq, ends, List.drop_length]
    rfl
  obtain ⟨kind, eq, -, -, lexed, first⟩ := scan_spec nonul next black
  obtain rfl := moved.rest.symm.trans lexed
  have real : c ≠ 0 := by
    rintro rfl
    exact nonul (List.mem_of_mem_drop (next ▸ List.mem_cons_self ..))
  rw [deref_eq, next, List.headD_cons, decide_eq_true real, Bool.true_and]
  rcases first with known | ⟨known, word⟩
  · simp only [starts, known, Option.any_some]
  have outside : toks.contains c = false := by
    rw [Bool.eq_false_iff]
    intro inside
    have listed := List.all_eq_true.mp symbol c (by simpa using inside)
    rw [plain, listed, Bool.not_true, Bool.and_false] at word
    exact nomatch word
  simp only [starts, known, Option.any_none, outside]

theorem At.ends_iff (nonul : 0 ∉ line) (here : At line s ts) : Commands.skip line s = line.length ↔ ts = [] := by
  rcases here.next with ⟨none, ends⟩ | ⟨c, cs, next, black⟩
  · exact iff_of_true ends none
  obtain ⟨kind, eq, -, -, lexed, -⟩ := scan_spec nonul next black
  refine iff_of_false ?_ ?_
  · intro ends
    rw [ends, List.drop_length] at next
    exact nomatch next
  · intro none
    exact nomatch none.symm.trans (here.skip.rest.symm.trans lexed)

end Pointers

end Xv6Monitor.Shell.Tokens
