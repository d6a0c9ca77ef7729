import GrammarKit.Proofs.Lexer.Building
import GrammarKit.Proofs.Lexer.Evaluation

/-!
This module contains the exactness of lexers. Where its regexes come to an end, a lexer comes to an
end; its tokens are those that the text divides into, and a failure tells the first place where
there is no single match.
-/

namespace GrammarKit

open Recognizer Token

namespace Lexer

variable {lexer : Lexer}

/-- The regexes of a lexer come to an end on every rest of a text. -/
def TerminatesOn (lexer : Lexer) (text : List Char) : Prop :=
  ∀ suffix, suffix <:+ text → ∀ name r, lexer.regex? name = some r → r.Terminates ⟨suffix⟩

theorem TerminatesOn.here {text : List Char} (h : lexer.TerminatesOn text)
    : ∀ name r, lexer.regex? name = some r → r.Terminates ⟨text⟩ :=
  h text (List.suffix_refl text)

theorem TerminatesOn.behind {text rest : List Char} {loc : Location} {t : Token}
    (h : lexer.TerminatesOn text) (hstarts : lexer.Starts loc text t rest)
    : lexer.TerminatesOn rest :=
  fun suffix hsuffix => h suffix (hsuffix.trans ⟨t.chars, hstarts.covers⟩)

/-- What holds where the rests behind the first token have it holds everywhere. -/
theorem starts_induction (lexer : Lexer) {motive : Location → List Char → Prop}
    (nil : ∀ loc, motive loc [])
    (step : ∀ loc text, text ≠ [] →
      (∀ t rest, lexer.Starts loc text t rest → motive (loc.advance t.chars) rest) →
        motive loc text)
    (loc : Location) (text : List Char)
    : motive loc text := by
  induction hn : text.length using Nat.strongRecOn generalizing loc text with
  | _ n ih =>
    subst hn
    cases text with
    | nil => exact nil loc
    | cons c cs =>
      exact step loc _ (by simp) fun t rest h => ih rest.length h.length_lt _ _ rfl

theorem Starts.advance {loc : Location} {text rest : List Char} {t : Token}
    (h : lexer.Starts loc text t rest)
    : lexer.recognizer.domain.advance ⟨⟨text⟩, loc⟩ [t] = ⟨⟨rest⟩, loc.advance t.chars⟩ := by
  have hfold := Cursor.foldl_advance [t] rest loc
  rw [textOf_cons, textOf_nil, List.append_nil, h.covers] at hfold
  exact hfold

section Drain

variable {text : List Char} {loc : Location}

theorem isEmpty_eq_false (h : text ≠ []) : lexer.recognizer.domain.isEmpty ⟨⟨text⟩, loc⟩ = false := by
  obtain ⟨c, cs, rfl⟩ := List.exists_cons_of_ne_nil h
  rfl

theorem drain_nil : lexer.recognizer.drain lexer.anyRule ⟨⟨[]⟩, loc⟩ = .ok [] :=
  drain_of_isEmpty rfl

theorem drain_settles_of_terminates (hterm : lexer.TerminatesOn text)
    : (lexer.recognizer.drain lexer.anyRule ⟨⟨text⟩, loc⟩).Settles := by
  induction loc, text using starts_induction lexer with
  | nil loc =>
    rw [drain_nil]
    apply Run.ok_settles
  | step loc text hne ih =>
    rw [drain_settles (isEmpty_eq_false hne)]
    refine ⟨eval_any_settles hterm.here, fun tokens htokens => ?_⟩
    -- the round goes on behind the token, on a text to which the induction applies
    obtain ⟨t, rest, hstarts, rfl⟩ := (eval_any_yields hterm.here).mp htokens
    rw [hstarts.advance]
    exact ih t rest hstarts (hterm.behind hstarts)

theorem reads_of_drain {outputs : List (List Token)}
    (h : (lexer.recognizer.drain lexer.anyRule ⟨⟨text⟩, loc⟩).Yields outputs)
    : lexer.Reads loc text outputs.flatten [] := by
  induction loc, text using starts_induction lexer generalizing outputs with
  | nil loc =>
    rw [drain_nil] at h
    rw [← (Run.ok_yields _ _).mp h]
    exact reads_nil.mpr rfl
  | step loc text hne ih =>
    obtain ⟨output, others, houtput, hothers, rfl⟩ := (drain_yields (isEmpty_eq_false hne)).mp h
    obtain ⟨t, rest, hstarts, rfl⟩ := starts_of_eval_any houtput
    rw [hstarts.advance] at hothers
    exact reads_cons.mpr ⟨rest, hstarts, ih t rest hstarts hothers⟩

theorem drain_yields_iff (hterm : lexer.TerminatesOn text) {tokens : List Token}
    : (∃ outputs, (lexer.recognizer.drain lexer.anyRule ⟨⟨text⟩, loc⟩).Yields outputs ∧
        outputs.flatten = tokens) ↔ lexer.Reads loc text tokens [] := by
  constructor
  · rintro ⟨outputs, houtputs, rfl⟩
    exact reads_of_drain houtputs
  intro h
  induction loc, text using starts_induction lexer generalizing tokens with
  | nil loc =>
    -- a token is never empty, so there is none to be had from an empty text
    have htokens : tokens = [] := by
      cases tokens with
      | nil => rfl
      | cons t tokens =>
        obtain ⟨rest, hstarts, _⟩ := reads_cons.mp h
        exact absurd hstarts.length_lt (Nat.not_lt_zero _)
    rw [drain_nil]
    exact ⟨[], (Run.ok_yields _ _).mpr rfl, htokens.symm⟩
  | step loc text hne ih =>
    cases tokens with
    | nil => exact absurd (reads_nil.mp h).symm hne
    | cons t tokens =>
      obtain ⟨rest, hstarts, hreads⟩ := reads_cons.mp h
      obtain ⟨others, hothers, rfl⟩ := ih t rest hstarts (hterm.behind hstarts) hreads
      refine ⟨[t] :: others, (drain_yields (isEmpty_eq_false hne)).mpr ⟨[t], others, ?_, ?_, rfl⟩, rfl⟩
      · exact (eval_any_yields hterm.here).mpr ⟨t, rest, hstarts, rfl⟩
      · rw [hstarts.advance]
        exact hothers

theorem drain_failsWith_stuck (hterm : lexer.TerminatesOn text) {e : Failure}
    (he : (lexer.recognizer.drain lexer.anyRule ⟨⟨text⟩, loc⟩).FailsWith e)
    : ∃ tokens left, lexer.Stuck loc text tokens left ∧
        (e.location = some (loc.advance (textOf tokens)) ∨
          (lexer.rules.names = [] ∧ tokens = [] ∧ e.location = none)) := by
  induction loc, text using starts_induction lexer with
  | nil loc =>
    rw [drain_nil] at he
    exact absurd he (Run.not_ok_failsWith _ _)
  | step loc text hne ih =>
    rcases (drain_failsWith (isEmpty_eq_false hne)).mp he with he | ⟨output, houtput, he⟩
    · -- no rule could be chosen here, so the division halts right at the start
      refine ⟨[], text, ⟨reads_nil.mpr rfl, hne, fun hone => ?_⟩, ?_⟩
      · obtain ⟨t, rest, hstarts⟩ := exists_starts loc hone
        have hyields := (eval_any_yields hterm.here).mpr ⟨t, rest, hstarts, rfl⟩
        exact hyields.not_fails he.fails
      · rcases eval_any_failsWith he with hloc | ⟨hnames, hloc⟩
        · exact .inl hloc
        · exact .inr ⟨hnames, rfl, hloc⟩
    · obtain ⟨t, rest, hstarts, rfl⟩ := (eval_any_yields hterm.here).mp houtput
      rw [hstarts.advance] at he
      obtain ⟨tokens, left, hstuck, hloc⟩ := ih t rest hstarts (hterm.behind hstarts) he
      refine ⟨t :: tokens, left, ⟨?_, hstuck.ne_nil, hstuck.stuck⟩, .inl ?_⟩
      · exact reads_cons.mpr ⟨rest, hstarts, hstuck.reads⟩
      · rcases hloc with hloc | ⟨hnames, _⟩
        · rw [hloc, textOf_cons, Location.advance_append]
        · -- there is a rule, since one of them has matched
          have hmem := hstarts.only.1.mem_names
          rw [hnames] at hmem
          cases hmem

end Drain

section LexAll

variable {text : String}

theorem label_root (tokens : List Token) : label lexer.rules rootName tokens = tokens := by
  rw [label, lexer.root_free]

theorem lex_run : (lexer.lex text).run =
    (lexer.lexAll text).run.map (Except.map (List.filter Token.visible)) :=
  ExceptT.run_map _ _

theorem lex_eq_ok_iff {kept : List Token}
    : (lexer.lex text).run = some (.ok kept) ↔
        ∃ tokens, (lexer.lexAll text).run = some (.ok tokens) ∧
          tokens.filter Token.visible = kept := by
  rw [lex_run]
  match (lexer.lexAll text).run with
  | none => simp
  | some (.error e) => simp [Except.map]
  | some (.ok tokens) => simp [Except.map]

theorem lex_eq_error_iff {e : Failure}
    : (lexer.lex text).run = some (.error e) ↔ (lexer.lexAll text).run = some (.error e) := by
  rw [lex_run]
  match (lexer.lexAll text).run with
  | none => simp
  | some (.error e') => simp [Except.map]
  | some (.ok tokens) => simp [Except.map]

theorem lex_eq_none_iff : (lexer.lex text).run = none ↔ (lexer.lexAll text).run = none := by
  rw [lex_run, Option.map_eq_none_iff]

theorem lexAll_settles (hterm : lexer.TerminatesOn text.toList)
    : (lexer.lexAll text).run ≠ none := by
  rw [lexAll, ne_eq, Run.toEventually_eq_none, Classical.not_not, run_eq_call]
  apply call_settles
  intro rule hrule
  rw [get?_root] at hrule
  cases hrule
  rw [eval_untilEmpty_settles]
  exact drain_settles_of_terminates hterm

theorem lex_settles_of_terminates (hterm : lexer.TerminatesOn text.toList)
    : (lexer.lex text).run ≠ none := by
  rw [ne_eq, lex_eq_none_iff]
  exact lexAll_settles hterm

theorem lexAll_yields {tokens : List Token}
    : (lexer.lexAll text).run = some (.ok tokens) ↔
        ∃ outputs, (lexer.recognizer.drain lexer.anyRule (Cursor.ofString text)).Yields outputs ∧
          outputs.flatten = tokens := by
  rw [lexAll, Run.toEventually_eq_ok, run_eq_call, call_yields]
  constructor
  · rintro ⟨rule, hrule, inner, hinner, rfl⟩
    rw [get?_root] at hrule
    cases hrule
    obtain ⟨outputs, houtputs, rfl⟩ := eval_untilEmpty_yields.mp hinner
    exact ⟨outputs, houtputs, (label_root _).symm⟩
  · rintro ⟨outputs, houtputs, rfl⟩
    exact ⟨_, get?_root, _, eval_untilEmpty_yields.mpr ⟨outputs, houtputs, rfl⟩, label_root _⟩

theorem reads_of_lexAll {tokens : List Token} (h : (lexer.lexAll text).run = some (.ok tokens))
    : lexer.Reads Location.start text.toList tokens [] := by
  obtain ⟨outputs, houtputs, rfl⟩ := lexAll_yields.mp h
  exact reads_of_drain houtputs

theorem lexAll_eq_ok (hterm : lexer.TerminatesOn text.toList) {tokens : List Token}
    : (lexer.lexAll text).run = some (.ok tokens) ↔
        lexer.Reads Location.start text.toList tokens [] :=
  lexAll_yields.trans (drain_yields_iff hterm)

theorem lexAll_eq_error (hterm : lexer.TerminatesOn text.toList) {e : Failure}
    (he : (lexer.lexAll text).run = some (.error e))
    : ∃ tokens left, lexer.Stuck Location.start text.toList tokens left ∧
        e.location = some (Location.start.advance (textOf tokens)) := by
  rw [lexAll, Run.toEventually_eq_error, run_eq_call, call_failsWith] at he
  rcases he with ⟨hnone, _⟩ | ⟨rule, hrule, inner, hinner, rfl⟩
  · rw [get?_root] at hnone
    cases hnone
  · rw [get?_root] at hrule
    cases hrule
    -- a failure without a place of its own is reported where the root was applied
    rw [eval_untilEmpty_failsWith] at hinner
    obtain ⟨tokens, left, hstuck, hloc⟩ := drain_failsWith_stuck hterm hinner
    refine ⟨tokens, left, hstuck, ?_⟩
    rcases hloc with hloc | ⟨_, rfl, hloc⟩
    · exact inRule_location hloc
    · show (inner.location <|> some Location.start) = _
      rw [hloc]
      rfl

end LexAll

/--
The tokens of a text are those it divides into, each the only match where it stands; if there are
none, the failure is about the place where the division comes to a halt.
-/
theorem lexAll_exact {visible silent : List (String × Regex)} {lexer : Lexer}
    (hlexer : ofRegexes visible silent = .ok lexer) (text : String)
    (hterm : ∀ entry ∈ visible ++ silent, ∀ suffix, suffix <:+ text.toList →
      entry.2.Terminates ⟨suffix⟩)
    : (∀ name r, lexer.regex? name = some r ↔ (name, r) ∈ visible ++ silent) ∧
        (∀ name, name ∈ lexer.visible ↔ name ∈ visible.map Prod.fst) ∧
        (lexer.lexAll text).run ≠ none ∧
        (∀ tokens, (lexer.lexAll text).run = some (.ok tokens) ↔
          lexer.Reads Location.start text.toList tokens []) ∧
        (∀ tokens, lexer.Reads Location.start text.toList tokens [] →
          (tokens.map Token.location).Pairwise (· < ·) ∧
            (lexer.lex text).run = some (.ok (tokens.filter Token.visible))) ∧
        ∀ e, (lexer.lexAll text).run = some (.error e) →
          (lexer.lex text).run = some (.error e) ∧
            ∃ tokens left, lexer.Stuck Location.start text.toList tokens left ∧
              (∀ tokens' left', lexer.Stuck Location.start text.toList tokens' left' →
                tokens' = tokens ∧ left' = left) ∧
              e.location = some (Location.start.advance (textOf tokens)) := by
  have hon : lexer.TerminatesOn text.toList := by
    intro suffix hsuffix name r hr
    exact hterm (name, r) ((regex?_ofRegexes hlexer name r).mp hr) suffix hsuffix
  refine ⟨regex?_ofRegexes hlexer, mem_visible_ofRegexes hlexer, lexAll_settles hon,
    fun tokens => lexAll_eq_ok hon, fun tokens hreads => ⟨hreads.increasing, ?_⟩,
    fun e he => ⟨?_, ?_⟩⟩
  · exact lex_eq_ok_iff.mpr ⟨tokens, (lexAll_eq_ok hon).mpr hreads, rfl⟩
  · exact lex_eq_error_iff.mpr he
  · obtain ⟨tokens, left, hstuck, hloc⟩ := lexAll_eq_error hon he
    exact ⟨tokens, left, hstuck, fun tokens' left' h => h.unique hstuck, hloc⟩

theorem lexAll_exact_letter
    : ∃ lexer, ofRegexes [("a", .literal "a")] [("space", .literal " ")] = .ok lexer ∧
        lexer.Reads Location.start "a a".toList [⟨"a", "a", ⟨0, 0⟩, true⟩,
          ⟨"space", " ", ⟨0, 1⟩, false⟩, ⟨"a", "a", ⟨0, 2⟩, true⟩] [] := by
  refine ⟨_, rfl, ?_⟩
  have hterm : ∀ entry ∈ [("a", Regex.literal "a")] ++ [("space", Regex.literal " ")],
      ∀ suffix, suffix <:+ "a a".toList → entry.2.Terminates ⟨suffix⟩ := by
    intro entry hentry suffix _
    rcases List.mem_cons.mp hentry with rfl | hentry
    · apply Regex.terminates_literal
    · rw [List.mem_singleton.mp hentry]
      apply Regex.terminates_literal
  exact ((lexAll_exact rfl "a a" hterm).2.2.2.1 _).mp rfl

end Lexer

end GrammarKit
