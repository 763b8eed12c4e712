import Xv6Monitor.Shell.Acceptance

/-! The parser accepts exactly the lines of the grammar, and the strings of the command that it returns are the
texts of their tokens, though `nulterminate` writes into the line. -/

namespace Xv6Monitor.Shell.Lines
open Function Lib.Program Commands Tokens Grammar Acceptance

def strings : Cmd → List Span
  | .exec argv => argv
  | .redir cmd redir => strings cmd ++ [redir.file]
  | .pipe left right => strings left ++ strings right
  | .list left right => strings left ++ strings right
  | .back cmd => strings cmd

def text (line : List UInt8) (span : Span) : List UInt8 := (line.drop span.q).take (span.eq - span.q)

structure CString (buf : Nat → UInt8) (p : Nat) (text : List UInt8) : Prop where
  nonul : 0 ∉ text
  chars : ∀ i < text.length, buf (p + i) = text.getD i 0
  ends : buf (p + text.length) = 0

section Words

variable {line : List UInt8} {pos : Nat}

def Fresh (line : List UInt8) (pos : Nat) : Prop := ∀ i, i + 1 = pos → plain (deref line i) = false

/-- A maximal run of characters of words. -/
structure Word (line : List UInt8) (span : Span) : Prop where
  fresh : Fresh line span.q
  order : span.q < span.eq
  inside : span.eq ≤ line.length
  chars : ∀ i, span.q ≤ i → i < span.eq → plain (deref line i) = true
  ends : span.eq < line.length → plain (deref line span.eq) = false

/-- What is known of the open token at the position. -/
def Begun (line : List UInt8) (pos : Nat) : Open → Prop
  | .word q => Fresh line q ∧ q < pos ∧ ∀ i, q ≤ i → i < pos → plain (deref line i) = true
  | _ => Fresh line pos

variable {opened : Open}

theorem close_words (begun : Begun line pos opened) (inside : pos ≤ line.length)
    (ends : pos < line.length → plain (deref line pos) = false) :
    ∀ t ∈ opened.close pos, t.kind = .word → Word line t.span := by
  intro t mem kind
  cases opened with
  | none => exact nomatch mem
  | word q =>
    obtain rfl := List.mem_singleton.mp mem
    exact ⟨begun.1, begun.2.1, inside, begun.2.2, ends⟩
  | greater q =>
    obtain rfl := List.mem_singleton.mp mem
    exact nomatch kind

theorem begun_next {q : Nat} (begun : Begun line pos (.word q)) (more : plain (deref line pos) = true) :
    Begun line (pos + 1) (.word q) := by
  refine ⟨begun.1, Nat.lt_succ_of_lt begun.2.1, fun i low high => ?_⟩
  by_cases last : i = pos
  · rw [last]
    exact more
  · exact begun.2.2 i low (by omega)

theorem begun_word (fresh : Fresh line pos) (more : plain (deref line pos) = true) : Begun line (pos + 1) (.word pos) := by
  refine ⟨fresh, Nat.lt_succ_self pos, fun i low high => ?_⟩
  rw [le_antisymm (Nat.le_of_lt_succ high) low]
  exact more

theorem feed_words (begun : Begun line pos opened) (inside : pos < line.length) :
    (∀ t ∈ (feed opened pos (deref line pos)).1, t.kind = .word → Word line t.span) ∧
      Begun line (pos + 1) (feed opened pos (deref line pos)).2 := by
  have closed (ends : ¬plain (deref line pos) = true) :=
    close_words begun (Nat.le_of_lt inside) fun _ => Bool.eq_false_iff.mpr ends
  by_cases more : plain (deref line pos) = true
  · obtain ⟨other, black, word⟩ := plain_iff.mp more
    unfold feed
    rw [if_neg other, black, word]
    cases opened with
    | none => exact ⟨fun t mem => (nomatch mem), begun_word begun more⟩
    | word q => exact ⟨fun t mem => (nomatch mem), begun_next begun more⟩
    | greater q =>
      refine ⟨fun t mem kind => ?_, begun_word begun more⟩
      obtain rfl := List.mem_singleton.mp mem
      exact nomatch kind
  · have closed := closed more
    have fresh : Fresh line (pos + 1) := by
      intro i same
      rw [Nat.add_right_cancel same]
      exact Bool.eq_false_iff.mpr more
    unfold feed
    split
    · split
      · refine ⟨fun t mem kind => ?_, fresh⟩
        obtain rfl := List.mem_singleton.mp mem
        exact nomatch kind
      · exact ⟨closed, fresh⟩
    next other =>
      split
      · exact ⟨closed, fresh⟩
      next black =>
        split
        next kind known =>
          refine ⟨fun t mem word => ?_, fresh⟩
          rcases List.mem_append.mp mem with mem | mem
          · exact closed t mem word
          · obtain rfl := List.mem_singleton.mp mem
            obtain rfl : kind = .word := word
            exact absurd (symbolKind_code known).2.1 nofun
        next word => exact absurd (plain_iff.mpr ⟨other, Bool.not_eq_true _ ▸ black, word⟩) more

theorem lex_words {cs : List UInt8} (rest : line.drop pos = cs) (inside : pos ≤ line.length)
    (begun : Begun line pos opened) : ∀ t ∈ lex cs pos opened, t.kind = .word → Word line t.span := by
  induction cs generalizing pos opened with
  | nil =>
    have ended := List.drop_eq_nil_iff.mp rest
    exact close_words begun inside fun less => absurd less (Nat.not_lt.mpr ended)
  | cons c cs ih =>
    have here : deref line pos = c := by
      rw [deref_eq, rest]
      rfl
    have after : line.drop (pos + 1) = cs := by
      rw [← List.drop_drop, rest]
      rfl
    have less : pos < line.length := by
      by_contra past
      rw [List.drop_eq_nil_iff.mpr (Nat.not_lt.mp past)] at rest
      exact nomatch rest
    obtain ⟨words, next⟩ := feed_words begun less
    rw [here] at words next
    intro t mem kind
    rw [lex, List.mem_append] at mem
    rcases mem with mem | mem
    · exact words t mem kind
    · exact ih after less next t mem kind

variable {span : Span}

theorem tokens_words (mem : ⟨.word, span⟩ ∈ tokens line) : Word line span := by
  have begun : Begun line 0 .none := fun i wrong => nomatch wrong
  exact lex_words List.drop_zero (Nat.zero_le _) begun _ mem rfl

end Words

section Strings

variable {line : List UInt8} {cmd : Cmd} {redirs : List Redir}

theorem mem_wrap (mem : span ∈ strings (wrap cmd redirs)) :
    span ∈ strings cmd ∨ ∃ r ∈ redirs, r.file = span := by
  induction redirs generalizing cmd with
  | nil => exact Or.inl mem
  | cons r redirs ih =>
    rcases ih mem with mem | ⟨r', mem, same⟩
    · rcases List.mem_append.mp mem with mem | mem
      · exact Or.inl mem
      · exact Or.inr ⟨r, List.mem_cons_self .., (List.mem_singleton.mp mem).symm⟩
    · exact Or.inr ⟨r', List.mem_cons_of_mem _ mem, same⟩

theorem strings_backs (cmd : Cmd) (amps : List Tok) : strings (backs cmd amps) = strings cmd := by
  induction amps generalizing cmd with
  | nil => rfl
  | cons _ amps ih => exact ih _

variable {ts : List Tok}

theorem redirs_words (derived : Redirs ts redirs) : ∀ r ∈ redirs, ⟨.word, r.file⟩ ∈ ts := by
  induction derived with
  | none => exact fun r mem => nomatch mem
  | @more op file r ts rs known word derived ih =>
    intro r' mem
    rcases List.mem_cons.mp mem with rfl | mem
    · have same : r'.file = file.span := by
        cases kind : op.kind <;> rw [kind] at known <;> cases known <;> rfl
      rw [same, ← word]
      exact List.mem_cons_of_mem _ (List.mem_cons_self ..)
    · exact List.mem_cons_of_mem _ (List.mem_cons_of_mem _ (ih r' mem))

theorem args_words {argv : List Span} (args : Args ts argv redirs) :
    (∀ span ∈ argv, ⟨.word, span⟩ ∈ ts) ∧ ∀ r ∈ redirs, ⟨.word, r.file⟩ ∈ ts := by
  induction args with
  | none => exact ⟨fun span mem => (nomatch mem), fun r mem => nomatch mem⟩
  | @more word ts us argv rs redirs kind derived args ih =>
    constructor
    · intro span mem
      rcases List.mem_cons.mp mem with rfl | mem
      · rw [← kind]
        exact List.mem_cons_self ..
      · exact List.mem_cons_of_mem _ (List.mem_append_right _ (ih.1 span mem))
    · intro r mem
      rcases List.mem_append.mp mem with mem | mem
      · exact List.mem_cons_of_mem _ (List.mem_append_left _ (redirs_words derived r mem))
      · exact List.mem_cons_of_mem _ (List.mem_append_right _ (ih.2 r mem))

theorem derives_words {nt : Nonterm} (derived : Derives nt ts cmd) :
    ∀ span ∈ strings cmd, ⟨.word, span⟩ ∈ ts := by
  induction derived with
  | last derived all ih =>
    intro span mem
    rw [strings_backs] at mem
    exact List.mem_append_left _ (ih span mem)
  | semi derived all kind derived' ih ih' =>
    intro span mem
    rcases List.mem_append.mp mem with mem | mem
    · rw [strings_backs] at mem
      exact List.mem_append_left _ (ih span mem)
    · exact List.mem_append_right _ (List.mem_append_right _ (List.mem_cons_of_mem _ (ih' span mem)))
  | single derived ih => exact ih
  | bar derived kind derived' ih ih' =>
    intro span mem
    rcases List.mem_append.mp mem with mem | mem
    · exact List.mem_append_left _ (ih span mem)
    · exact List.mem_append_right _ (List.mem_cons_of_mem _ (ih' span mem))
  | block _ derived _ derived' ih =>
    intro span mem
    rcases mem_wrap mem with mem | ⟨r, named, rfl⟩
    · exact List.mem_cons_of_mem _ (List.mem_append_left _ (ih span mem))
    · exact List.mem_cons_of_mem _ (List.mem_append_right _ (List.mem_cons_of_mem _ (redirs_words derived' r named)))
  | simple derived args _ =>
    intro span mem
    rcases mem_wrap mem with mem | ⟨r, named, rfl⟩
    · exact List.mem_append_right _ ((args_words args).1 span mem)
    · rcases List.mem_append.mp named with named | named
      · exact List.mem_append_left _ (redirs_words derived r named)
      · exact List.mem_append_right _ ((args_words args).2 r named)

def terminate (buf : Nat → UInt8) (spans : List Span) : Nat → UInt8 :=
  spans.foldl (fun buf span => update buf span.eq 0) buf

theorem nulterminate_eq (cmd : Cmd) (buf : Nat → UInt8) : nulterminate cmd buf = terminate buf (strings cmd) := by
  induction cmd generalizing buf with
  | exec _ => rfl
  | redir cmd redir ih => rw [nulterminate, ih, strings, terminate, terminate, List.foldl_append]; rfl
  | pipe left right ih ih' => rw [nulterminate, ih, ih', strings, terminate, terminate, terminate, List.foldl_append]
  | list left right ih ih' => rw [nulterminate, ih, ih', strings, terminate, terminate, terminate, List.foldl_append]
  | back cmd ih => exact ih buf

variable {buf : Nat → UInt8}

theorem terminate_other {spans : List Span} {i : Nat} (other : ∀ span ∈ spans, span.eq ≠ i) :
    terminate buf spans i = buf i := by
  induction spans generalizing buf with
  | nil => rfl
  | cons span spans ih =>
    refine Eq.trans (ih fun span mem => other span (List.mem_cons_of_mem _ mem)) ?_
    exact (update_of_ne (other span (List.mem_cons_self ..)).symm 0 buf)

theorem terminate_zero {i : Nat} (zero : buf i = 0) (spans : List Span) : terminate buf spans i = 0 := by
  induction spans generalizing buf with
  | nil => exact zero
  | cons span spans ih =>
    refine ih ?_
    dsimp only
    by_cases here : i = span.eq
    · rw [here, update_self]
    · rw [update_of_ne here, zero]

theorem terminate_end {spans : List Span} (mem : span ∈ spans) (buf : Nat → UInt8) :
    terminate buf spans span.eq = 0 := by
  induction spans generalizing buf with
  | nil => exact nomatch mem
  | cons _ spans ih =>
    rcases List.mem_cons.mp mem with rfl | mem
    · exact terminate_zero (update_self ..) spans
    · exact ih mem _

theorem text_length (word : Word line span) : (text line span).length = span.eq - span.q := by
  have inside := word.inside
  rw [text, List.length_take, List.length_drop]
  omega

theorem text_get {i : Nat} (less : i < span.eq - span.q) :
    (text line span).getD i 0 = deref line (span.q + i) := by
  rw [text, deref, List.getD_eq_getElem?_getD, List.getD_eq_getElem?_getD, List.getElem?_take_of_lt less, List.getElem?_drop]

/-- The strings are read as they were written: what is overwritten is not part of a word. -/
theorem nulterminate_string (nonul : 0 ∉ line) (words : ∀ span ∈ strings cmd, Word line span)
    (mem : span ∈ strings cmd) : CString (nulterminate cmd (deref line)) span.q (text line span) := by
  have word := words span mem
  have order := Nat.le_of_lt word.order
  rw [nulterminate_eq]
  refine ⟨?_, ?_, ?_⟩
  · intro zero
    exact nonul (List.mem_of_mem_drop (List.mem_of_mem_take zero))
  · intro i less
    rw [text_length word] at less
    rw [text_get less]
    refine terminate_other fun other mem' same => ?_
    have inside := word.inside
    have plain := word.chars (span.q + i) (Nat.le_add_right ..) (by omega)
    have ends := (words other mem').ends (by omega)
    rw [same, plain] at ends
    exact nomatch ends
  · rw [text_length word, Nat.add_sub_cancel' order]
    exact terminate_end mem _

end Strings

section Lines

variable {line : List UInt8} {cmd : Cmd}

theorem tokens_at (line : List UInt8) : At line 0 (tokens line) := ⟨Nat.zero_le _, rfl⟩

theorem enough_rounds (line : List UInt8) : 4 * (tokens line).length + Nonterm.line.depth ≤ enough line := by
  have few : (tokens line).length ≤ line.length := lex_length line 0 .none
  change _ + 4 ≤ 4 * line.length + 8
  omega

theorem parseall_sound (nonul : 0 ∉ line) :
    Ends Panics (parseall line (enough line)) 0 fun cmd _ => Derives .line (tokens line) cmd := by
  unfold parseall
  refine (parse_sound nonul _ .line 0 _ (tokens_at line) (enough_rounds line)).bind fun cmd s₁ ⟨us, rest, split, derived, here⟩ => ?_
  refine (peek_spec nonul rfl here).bind fun _ s₂ ⟨_, moved, _⟩ => ?_
  rw [ends_get_bind]
  by_cases ended : s₂ = line.length
  · rw [if_neg (not_not.mpr ended)]
    rw [moved, here.ends_iff nonul] at ended
    rw [ended, List.append_nil] at split
    rw [split]
    exact derived
  · rw [if_pos ended]
    exact ⟨_, rfl⟩

theorem parseall_complete (nonul : 0 ∉ line) (derived : Derives .line (tokens line) cmd) :
    Ends (fun _ => False) (parseall line (enough line)) 0 fun cmd' _ => cmd' = cmd := by
  have here := tokens_at line
  rw [← List.append_nil (tokens line)] at here
  unfold parseall
  refine (parse_complete nonul derived heads_nil here (enough_rounds line)).bind fun cmd' s₁ ⟨same, here⟩ => ?_
  refine (peek_spec nonul rfl here).bind fun _ s₂ ⟨_, moved, _⟩ => ?_
  rw [ends_get_bind, if_neg (not_not.mpr (moved.trans ((here.ends_iff nonul).mpr rfl)))]
  exact same

theorem parsecmd_ok (ok : parsecmd line = .ok (cmd, buf)) :
    (∃ s, parseall line (enough line) 0 = .ok (cmd, s)) ∧ buf = nulterminate cmd (deref line) := by
  unfold parsecmd at ok
  cases ran : parseall line (enough line) 0 with
  | error e =>
    rw [ran] at ok
    exact nomatch ok
  | ok _ =>
    rw [ran] at ok
    cases ok
    exact ⟨⟨_, rfl⟩, rfl⟩

theorem parsecmd_derives (nonul : 0 ∉ line) (ok : parsecmd line = .ok (cmd, buf)) :
    Derives .line (tokens line) cmd := by
  obtain ⟨⟨_, ran⟩, -⟩ := parsecmd_ok ok
  exact (parseall_sound nonul).ok ran

theorem parsecmd_accepts (nonul : 0 ∉ line) (derived : Derives .line (tokens line) cmd) :
    parsecmd line = .ok (cmd, nulterminate cmd (deref line)) := by
  have ends := parseall_complete nonul derived
  unfold parsecmd
  cases ran : parseall line (enough line) 0 with
  | error _ => exact absurd (ends.error ran) not_false
  | ok result =>
    obtain ⟨cmd', _⟩ := result
    obtain rfl : cmd' = cmd := ends.ok ran
    rfl

theorem parsecmd_panics (nonul : 0 ∉ line) {e : Stop} (failed : parsecmd line = .error e) : ∃ message, e = .panic message := by
  unfold parsecmd at failed
  cases ran : parseall line (enough line) 0 with
  | error _ =>
    rw [ran] at failed
    cases failed
    exact (parseall_sound nonul).error ran
  | ok result =>
    rw [ran] at failed
    exact nomatch failed

/-- The shell parses exactly the lines of its grammar, each to its only command; on all others it stops at a
panic. The strings of the command are the texts of their tokens. -/
theorem shell_lines (line : List UInt8) (nonul : 0 ∉ line) :
    (∀ cmd, (∃ buf, parsecmd line = .ok (cmd, buf)) ↔ Derives .line (tokens line) cmd) ∧
      (∀ cmd cmd', Derives .line (tokens line) cmd → Derives .line (tokens line) cmd' → cmd = cmd') ∧
      (∀ e, parsecmd line = .error e → ∃ message, e = .panic message) ∧
      ∀ cmd buf, parsecmd line = .ok (cmd, buf) → ∀ span ∈ strings cmd,
        ⟨.word, span⟩ ∈ tokens line ∧ Word line span ∧ CString buf span.q (text line span) := by
  refine ⟨fun cmd => ⟨?_, ?_⟩, ?_, fun e failed => parsecmd_panics nonul failed, ?_⟩
  · rintro ⟨buf, ok⟩
    exact parsecmd_derives nonul ok
  · intro derived
    exact ⟨_, parsecmd_accepts nonul derived⟩
  · intro cmd cmd' derived derived'
    have same := (parsecmd_accepts nonul derived).symm.trans (parsecmd_accepts nonul derived')
    exact (Prod.mk.inj (Except.ok.inj same)).1
  intro cmd buf ok span mem
  have words := derives_words (parsecmd_derives nonul ok)
  have all : ∀ span ∈ strings cmd, Word line span := fun span mem => tokens_words (words span mem)
  rw [(parsecmd_ok ok).2]
  exact ⟨words span mem, all span mem, nulterminate_string nonul all mem⟩

def sampleLine : List UInt8 := [40, 97, 62, 102, 59, 98, 41, 38]

theorem shell_lines_sample : 0 ∉ sampleLine ∧ Derives .line (tokens sampleLine) (.back (.list
    (.redir (.exec [⟨1, 2⟩]) ⟨⟨3, 4⟩, O_WRONLY ||| O_CREATE ||| O_TRUNC, 1⟩) (.exec [⟨5, 6⟩]))) := by
  have nonul : 0 ∉ sampleLine := by decide
  refine ⟨nonul, ((shell_lines sampleLine nonul).1 _).mp ?_⟩
  exact ⟨_, rfl⟩

end Lines

end Xv6Monitor.Shell.Lines
