import GrammarKit.Proofs.Grammar.Words
import GrammarKit.Proofs.Lexer.Ambiguity
import GrammarKit.Proofs.Lisp.Language
import GrammarKit.Proofs.Lisp.Spelling

/-!
This module contains the tokens of the language of expressions. The first character alone tells which
rule of the lexer matches.
-/

namespace GrammarKit

open Recognizer Token

namespace Lisp

open Pattern (char)

section Characters

variable {r : Regex}

def parts : List (Rule Matcher × (Char → Bool)) :=
  [Regex.span 'a' 'z', Regex.span 'A' 'Z', Regex.span '0' '9', (Pattern.char '_', (· == '_'))]

def letters : List (Rule Matcher × (Char → Bool)) :=
  [Regex.span 'a' 'z', Regex.span 'A' 'Z', (Pattern.char '_', (· == '_'))]

def blanks : List Char := [' ', '\n', '\t']

theorem letters_sublist : letters.Sublist parts :=
  .cons_cons _ (.cons_cons _ (.cons _ (.refl _)))

theorem takesOne_digit : r.TakesOne digit Decimal.isDigit :=
  (Regex.takesOne_span '0' '9').congr fun c => by simp [Regex.span, Decimal.isDigit]

theorem takesOne_parts : ∀ entry ∈ parts, r.TakesOne entry.1 entry.2 := by
  intro entry hentry
  simp only [parts, List.mem_cons, List.not_mem_nil, or_false] at hentry
  rcases hentry with rfl | rfl | rfl | rfl
  · exact Regex.takesOne_span 'a' 'z'
  · exact Regex.takesOne_span 'A' 'Z'
  · exact Regex.takesOne_span '0' '9'
  · exact Pattern.takesOne_char '_'

theorem takesOne_letters : ∀ entry ∈ letters, r.TakesOne entry.1 entry.2 :=
  fun entry hentry => takesOne_parts entry (letters_sublist.subset hentry)

theorem parts_disjoint : parts.Pairwise fun a b => ∀ c, a.2 c = true → b.2 c = false := by
  simp only [parts, List.pairwise_cons, List.forall_mem_cons, List.not_mem_nil, IsEmpty.forall_iff,
    implies_true, and_true, List.Pairwise.nil]
  refine ⟨⟨?_, ?_, ?_⟩, ⟨?_, ?_⟩, ?_⟩
  · exact Regex.span_disjoint (by decide)
  · exact Regex.span_disjoint (by decide)
  · exact Regex.span_disjoint_single (by decide)
  · exact Regex.span_disjoint (by decide)
  · exact Regex.span_disjoint_single (by decide)
  · exact Regex.span_disjoint_single (by decide)

theorem letters_disjoint : letters.Pairwise fun a b => ∀ c, a.2 c = true → b.2 c = false :=
  parts_disjoint.sublist letters_sublist

theorem decisive_parts : ∀ entry ∈ parts, r.Decisive entry.1 := by
  intro entry hentry
  simp only [parts, List.mem_cons, List.not_mem_nil, or_false] at hentry
  rcases hentry with rfl | rfl | rfl | rfl
  · exact Regex.decisive_range 'a' 'z'
  · exact Regex.decisive_range 'A' 'Z'
  · exact Regex.decisive_range '0' '9'
  · exact Pattern.decisive_char '_'

def isLetter (c : Char) : Bool :=
  letters.any fun entry => entry.2 c

theorem isLetter_eq_false_of_isDigit {c : Char} (h : Decimal.isDigit c = true)
    : isLetter c = false := by
  have hdigit : (Regex.span '0' '9').2 c = true := by
    simpa [Regex.span, Decimal.isDigit] using h
  apply List.any_eq_false.mpr
  intro entry hentry
  simp only [letters, List.mem_cons, List.not_mem_nil, or_false] at hentry
  rw [Bool.not_eq_true]
  rcases hentry with rfl | rfl | rfl
  · exact Regex.span_disjoint (by decide) c hdigit
  · exact Regex.span_disjoint (by decide) c hdigit
  · exact Regex.span_disjoint_single (by decide) c hdigit

theorem isLetter_eq (c : Char) : isLetter c = Reader.isNameStart c := by
  rw [Bool.eq_iff_iff, Reader.isNameStart_iff]
  simp [isLetter, letters, Regex.span, NameStart, or_left_comm]

theorem parts_eq (c : Char) : (parts.any fun entry => entry.2 c) = Reader.isNamePart c := by
  rw [Bool.eq_iff_iff, Reader.isNamePart_iff]
  simp only [parts, Regex.span, List.any_cons, List.any_nil, Bool.or_eq_true, decide_eq_true_eq,
    beq_iff_eq, Bool.false_eq_true, or_false, NamePart, NameStart]
  tauto

theorem takesOne_letter : r.TakesOne (.alt [lower, upper, char '_']) Reader.isNameStart :=
  (Regex.takesOne_alt takesOne_letters letters_disjoint).congr isLetter_eq

theorem takesOne_part : r.TakesOne (.alt [lower, upper, digit, char '_']) Reader.isNamePart :=
  (Regex.takesOne_alt takesOne_parts parts_disjoint).congr parts_eq

end Characters

def kindOf (c : Char) : String :=
  if isLetter c then
    "id"
  else if c = '-' ∨ Decimal.isDigit c then
    "int"
  else if c = '\'' then
    "str"
  else if c ∈ blanks then
    "ws"
  else
    String.singleton c

theorem kindOf_digit {c : Char} (h : Decimal.isDigit c = true) : kindOf c = "int" := by
  rw [kindOf, isLetter_eq_false_of_isDigit h, if_neg Bool.false_ne_true, if_pos (.inr h)]

theorem kindOf_blank {c : Char} (h : c ∈ blanks) : kindOf c = "ws" := by
  simp only [blanks, List.mem_cons, List.not_mem_nil, or_false] at h
  rcases h with rfl | rfl | rfl
  · decide
  · decide
  · decide

/-- What is known about the tokens of the language. -/
structure Lexeme (kind : String) (text : List Char) : Prop where
  start : ∃ c behind, text = c :: behind ∧ kind = kindOf c
  int : kind = "int" → ∃ v, Numeral text v
  str : kind = "str" → ∃ inner, text = ['\''] ++ inner ++ ['\'']
  opening : kind = "(" → text = ['(']
  closing : kind = ")" → text = [')']

theorem Lexeme.ne_nil {kind : String} {text : List Char} (h : Lexeme kind text) : text ≠ [] := by
  obtain ⟨c, behind, rfl, _⟩ := h.start
  exact List.cons_ne_nil c behind

theorem Lexeme.unique {kind kind' : String} {text text' rest : List Char} (h : Lexeme kind text)
    (h' : Lexeme kind' text') (hpre : text <+: rest) (hpre' : text' <+: rest)
    : kind = kind' := by
  obtain ⟨c, behind, rfl, rfl⟩ := h.start
  obtain ⟨c', behind', rfl, rfl⟩ := h'.start
  obtain ⟨_, rfl⟩ := hpre
  obtain ⟨_, heq⟩ := hpre'
  rw [(List.cons.inj heq).1]

theorem Numeral.start {text : List Char} {v : Int} (h : Numeral text v)
    : ∃ c behind, text = c :: behind ∧ "int" = kindOf c := by
  cases h with
  | plain hne h =>
    obtain ⟨c, behind, rfl⟩ := List.exists_cons_of_ne_nil hne
    exact ⟨c, behind, rfl, (kindOf_digit (h c List.mem_cons_self)).symm⟩
  | @negative digits hne h => exact ⟨'-', digits, rfl, by decide⟩

section Regexes

variable {r : Regex} {rest text : List Char}

theorem lexeme_number (h : (r.eval number ⟨rest⟩).Yields text) : Lexeme "int" text := by
  have hnumeral : ∃ v, Numeral text v := by
    obtain ⟨sign, behind, digits, rfl, hsign, hdigits, rfl⟩ := Regex.eval_seq_cons_yields.mp h
    rw [Regex.eval_seq_last_yields] at hdigits
    obtain ⟨hne, hall⟩ := Regex.eval_plus_all takesOne_digit hdigits
    rcases eval_opt_yields.mp hsign with hminus | ⟨_, hnone⟩
    · obtain ⟨c, _, _, hc, rfl⟩ := (Pattern.takesOne_char '-').yields_iff.mp hminus
      rw [beq_iff_eq.mp hc]
      exact ⟨_, .negative hne hall⟩
    · rw [← hnone]
      exact ⟨_, .plain hne hall⟩
  obtain ⟨v, hv⟩ := id hnumeral
  exact ⟨hv.start, fun _ => hnumeral, by simp, by simp, by simp⟩

theorem number_yields {v : Int} (h : Numeral text v)
    (hrest : ∀ c ∈ rest.head?, Decimal.isDigit c = false)
    : (r.eval number ⟨text ++ rest⟩).Yields text := by
  have hminus := Pattern.takesOne_char (r := r) '-'
  have hdigits {digits : List Char} (hne : digits ≠ [])
      (hall : ∀ c ∈ digits, Decimal.isDigit c = true) :
      (r.eval (.seq [.plus digit]) ⟨digits ++ rest⟩).Yields digits :=
    Regex.eval_seq_last_yields.mpr
      ((Regex.eval_plus_takeWhile takesOne_digit).mpr
        ⟨hne, (takeWhile_append_of_stop hall hrest).symm⟩)
  rw [number, Regex.eval_seq_cons_yields]
  cases h with
  | plain hne hall =>
    refine ⟨[], _, text, rfl, ?_, hdigits hne hall, rfl⟩
    obtain ⟨c, behind, rfl⟩ := List.exists_cons_of_ne_nil hne
    refine eval_opt_yields.mpr (.inr ⟨hminus.fails c _ (beq_false_of_ne ?_), rfl⟩)
    rintro rfl
    exact absurd (hall '-' List.mem_cons_self) (by decide)
  | @negative digits hne hall =>
    refine ⟨['-'], _, digits, rfl, ?_, hdigits hne hall, rfl⟩
    exact eval_opt_yields.mpr (.inl (hminus.takes '-' _ rfl))

theorem quotation_yields
    : (r.eval quotation ⟨rest⟩).Yields text ↔
        ∃ inner, '\'' ∉ inner ∧ text = ['\''] ++ inner ++ ['\''] ∧ text <+: rest := by
  have hquote := Pattern.takesOne_char (r := r) '\''
  rw [quotation, Regex.eval_seq_cons_yields]
  constructor
  · rintro ⟨opening, behind, others, rfl, hopening, hothers, rfl⟩
    obtain ⟨inner, closing, last, rfl, hinner, hlast, rfl⟩ := Regex.eval_seq_cons_yields.mp hothers
    rw [Regex.eval_seq_last_yields] at hlast
    obtain ⟨c, _, _, hc, rfl⟩ := hquote.yields_iff.mp hopening
    obtain ⟨d, left, rfl, hd, rfl⟩ := hquote.yields_iff.mp hlast
    rw [beq_iff_eq.mp hc, beq_iff_eq.mp hd]
    refine ⟨inner, fun hmem => ?_, by simp, ⟨left, by simp⟩⟩
    rw [(Regex.eval_star_yields_iff (Regex.takesOne_not hquote)).mp hinner] at hmem
    simpa using List.mem_takeWhile_imp hmem
  · rintro ⟨inner, hinner, rfl, left, rfl⟩
    refine ⟨['\''], inner ++ '\'' :: left, inner ++ ['\''], by simp, ?_, ?_, by simp⟩
    · simpa using hquote.takes '\'' _ rfl
    · rw [Regex.eval_seq_cons_yields]
      refine ⟨inner, '\'' :: left, ['\''], rfl, ?_, ?_, rfl⟩
      · rw [Regex.eval_star_yields_iff (Regex.takesOne_not hquote),
          List.takeWhile_append_of_pos fun c hc => by simpa using ne_of_mem_of_not_mem hc hinner]
        simp
      · exact Regex.eval_seq_last_yields.mpr (hquote.takes '\'' left rfl)

theorem lexeme_quotation (h : (r.eval quotation ⟨rest⟩).Yields text) : Lexeme "str" text := by
  obtain ⟨inner, _, rfl, _⟩ := quotation_yields.mp h
  exact ⟨⟨'\'', _, rfl, by decide⟩, by simp, fun _ => ⟨inner, rfl⟩, by simp, by simp⟩

theorem identifier_yields
    : (r.eval identifier ⟨rest⟩).Yields text ↔
        ∃ c behind, NameStart c ∧ rest = c :: behind ∧
          text = c :: behind.takeWhile Reader.isNamePart := by
  rw [identifier, Regex.eval_seq_cons_yields]
  constructor
  · rintro ⟨first, behind, others, rfl, hfirst, hothers, rfl⟩
    rw [Regex.eval_seq_last_yields, Regex.eval_star_yields_iff takesOne_part] at hothers
    obtain ⟨c, _, _, hc, rfl⟩ := takesOne_letter.yields_iff.mp hfirst
    exact ⟨c, behind, Reader.isNameStart_iff.mp hc, rfl, hothers ▸ rfl⟩
  · rintro ⟨c, behind, hc, rfl, rfl⟩
    refine ⟨[c], behind, _, rfl, ?_, ?_, rfl⟩
    · exact takesOne_letter.takes c behind (Reader.isNameStart_iff.mpr hc)
    · exact Regex.eval_seq_last_yields.mpr (Regex.eval_star_takeWhile takesOne_part behind)

theorem lexeme_identifier (h : (r.eval identifier ⟨rest⟩).Yields text) : Lexeme "id" text := by
  obtain ⟨c, behind, hc, rfl, rfl⟩ := identifier_yields.mp h
  refine ⟨⟨c, _, rfl, ?_⟩, by simp, by simp, by simp, by simp⟩
  rw [kindOf, if_pos (by rw [isLetter_eq, Reader.isNameStart_iff.mpr hc])]

theorem blanks_nodup : blanks.Nodup := by decide

theorem takesOne_blank : r.TakesOne (.alt [char ' ', char '\n', char '\t']) blanks.contains :=
  Regex.takesOne_oneOf blanks_nodup

theorem lexeme_space (h : (r.eval space ⟨rest⟩).Yields text) : Lexeme "ws" text := by
  obtain ⟨hne, hall⟩ := Regex.eval_plus_all takesOne_blank h
  obtain ⟨c, behind, rfl⟩ := List.exists_cons_of_ne_nil hne
  have hc : c ∈ blanks := List.contains_iff_mem.mp (hall c List.mem_cons_self)
  exact ⟨⟨c, behind, rfl, (kindOf_blank hc).symm⟩, by simp, by simp, by simp, by simp⟩

theorem lexeme_opening (h : (r.eval (char '(') ⟨rest⟩).Yields text) : Lexeme "(" text := by
  obtain ⟨c, _, _, hc, rfl⟩ := (Pattern.takesOne_char '(').yields_iff.mp h
  rw [beq_iff_eq.mp hc]
  exact ⟨⟨'(', [], rfl, by decide⟩, by simp, by simp, fun _ => rfl, by simp⟩

theorem lexeme_closing (h : (r.eval (char ')') ⟨rest⟩).Yields text) : Lexeme ")" text := by
  obtain ⟨c, _, _, hc, rfl⟩ := (Pattern.takesOne_char ')').yields_iff.mp h
  rw [beq_iff_eq.mp hc]
  exact ⟨⟨')', [], rfl, by decide⟩, by simp, by simp, by simp, fun _ => rfl⟩

end Regexes

/-- The rule comes to an end everywhere, without ever being ambiguous, and matches tokens only. -/
structure Sound (kind : String) (rule : Rule Matcher) : Prop where
  settles (r : Regex) (pos : Position) : (r.eval rule pos).Settles
  decisive (r : Regex) : r.Decisive rule
  lexeme (r : Regex) (rest text : List Char) (h : (r.eval rule ⟨rest⟩).Yields text) :
    Lexeme kind text

theorem sound_number : Sound "int" number where
  settles r := by
    apply Regex.eval_seq_settles
    simp only [List.forall_mem_cons, List.not_mem_nil, IsEmpty.forall_iff, implies_true, and_true]
    constructor
    · intro pos
      exact eval_opt_settles.mpr ((Pattern.takesOne_char '-').settles pos)
    · exact Regex.eval_plus_settles_of_takesOne takesOne_digit
  decisive r := by
    apply Regex.decisive_seq
    simp only [List.forall_mem_cons, List.not_mem_nil, IsEmpty.forall_iff, implies_true, and_true]
    constructor
    · exact Regex.decisive_opt (Pattern.decisive_char '-')
    · exact Regex.decisive_plus (Regex.decisive_range '0' '9')
  lexeme _ _ _ := lexeme_number

theorem sound_quotation : Sound "str" quotation where
  settles r := by
    have hquote := (Pattern.takesOne_char (r := r) '\'')
    apply Regex.eval_seq_settles
    simp only [List.forall_mem_cons, List.not_mem_nil, IsEmpty.forall_iff, implies_true, and_true]
    refine ⟨hquote.settles, ?_, hquote.settles⟩
    exact Regex.eval_star_settles_of_takesOne (Regex.takesOne_not hquote)
  decisive r := by
    have hquote : r.Decisive (char '\'') := Pattern.decisive_char '\''
    apply Regex.decisive_seq
    simp only [List.forall_mem_cons, List.not_mem_nil, IsEmpty.forall_iff, implies_true, and_true]
    exact ⟨hquote, Regex.decisive_star (Regex.decisive_not hquote), hquote⟩
  lexeme _ _ _ := lexeme_quotation

theorem sound_identifier : Sound "id" identifier where
  settles r := by
    apply Regex.eval_seq_settles
    simp only [List.forall_mem_cons, List.not_mem_nil, IsEmpty.forall_iff, implies_true, and_true]
    constructor
    · exact takesOne_letter.settles
    · exact Regex.eval_star_settles_of_takesOne takesOne_part
  decisive r := by
    apply Regex.decisive_seq
    simp only [List.forall_mem_cons, List.not_mem_nil, IsEmpty.forall_iff, implies_true, and_true]
    constructor
    · apply Regex.decisive_alt takesOne_letters letters_disjoint
      intro entry hentry
      exact decisive_parts entry (letters_sublist.subset hentry)
    · exact Regex.decisive_star (Regex.decisive_alt takesOne_parts parts_disjoint decisive_parts)
  lexeme _ _ _ := lexeme_identifier

theorem sound_space : Sound "ws" space where
  settles r := Regex.eval_plus_settles_of_takesOne takesOne_blank
  decisive r := by
    apply Regex.decisive_plus
    apply Regex.decisive_alt (Regex.takesOne_singles blanks) (Regex.singles_disjoint blanks_nodup)
    intro entry hentry
    obtain ⟨c, _, rfl⟩ := List.mem_map.mp hentry
    exact Pattern.decisive_char c
  lexeme _ _ _ := lexeme_space

theorem sound_opening : Sound "(" (char '(') where
  settles _ := (Pattern.takesOne_char '(').settles
  decisive _ := Pattern.decisive_char '('
  lexeme _ _ _ := lexeme_opening

theorem sound_closing : Sound ")" (char ')') where
  settles _ := (Pattern.takesOne_char ')').settles
  decisive _ := Pattern.decisive_char ')'
  lexeme _ _ _ := lexeme_closing

theorem get?_lexer {name : String} {rule : TokenRule}
    : lexer.rules.get? name = some rule ↔ (name, rule) ∈ lexerEntries := by
  have hnodup : (lexerEntries.map Prod.fst).Nodup := by decide
  exact Table.get?_ofList hnodup

theorem number_mem : ("int", TokenRule.mk ⟨number⟩ false) ∈ lexerEntries := by simp [lexerEntries]

theorem quotation_mem : ("str", TokenRule.mk ⟨quotation⟩ false) ∈ lexerEntries := by
  simp [lexerEntries]

theorem identifier_mem : ("id", TokenRule.mk ⟨identifier⟩ false) ∈ lexerEntries := by
  simp [lexerEntries]

theorem space_mem : ("ws", TokenRule.mk ⟨space⟩ true) ∈ lexerEntries := by simp [lexerEntries]

theorem regex?_of_mem {name : String} {rule : TokenRule} (h : (name, rule) ∈ lexerEntries)
    : lexer.regex? name = some rule.regex :=
  Option.map_eq_some_iff.mpr ⟨rule, get?_lexer.mpr h, rfl⟩

theorem sound_lexer {name : String} {r : Regex} (h : lexer.regex? name = some r)
    : Sound name r.rule := by
  obtain ⟨rule, hrule, rfl⟩ := Option.map_eq_some_iff.mp h
  rw [get?_lexer] at hrule
  simp only [lexerEntries, List.mem_cons, List.not_mem_nil, or_false, Prod.mk.injEq] at hrule
  rcases hrule with ⟨rfl, rfl⟩ | ⟨rfl, rfl⟩ | ⟨rfl, rfl⟩ | ⟨rfl, rfl⟩ | ⟨rfl, rfl⟩ | ⟨rfl, rfl⟩
  · exact sound_number
  · exact sound_quotation
  · exact sound_identifier
  · exact sound_opening
  · exact sound_closing
  · exact sound_space

theorem regex_unambiguous {name : String} {r : Regex} (h : lexer.regex? name = some r)
    : r.recognizer.Unambiguous :=
  ((sound_lexer h).decisive r).unambiguous

theorem terminatesOn (text : List Char) : lexer.TerminatesOn text := by
  intro suffix _ name r hr
  rw [Regex.terminates_iff]
  exact (sound_lexer hr).settles r _

theorem lexeme_of_matches {rest value : List Char} {name : String}
    (h : lexer.Matches rest name value)
    : Lexeme name value ∧ value <+: rest := by
  obtain ⟨r, hr, _, hpre, hmatch⟩ := h
  rw [Regex.matchAt_run_eq_some] at hmatch
  exact ⟨(sound_lexer hr).lexeme r rest value hmatch, hpre⟩

theorem lexer_unambiguous : lexer.recognizer.Unambiguous := by
  apply Lexer.unambiguous_of_matches
  intro rest name name' value value' h h'
  obtain ⟨hlexeme, hpre⟩ := lexeme_of_matches h
  obtain ⟨hlexeme', hpre'⟩ := lexeme_of_matches h'
  exact hlexeme.unique hlexeme' hpre hpre'

theorem lex_settles (text : String) : (lexer.lex text).run ≠ none :=
  Lexer.lex_settles_of_terminates (terminatesOn _)

theorem matches_of_lex {text : String} {tokens : List Token}
    (h : (lexer.lex text).run = some (.ok tokens))
    : ∀ t ∈ tokens, ∃ rest, lexer.Matches rest t.kind t.chars := by
  obtain ⟨all, hall, rfl⟩ := Lexer.lex_eq_ok_iff.mp h
  have hreads := (Lexer.lexAll_eq_ok (terminatesOn _)).mp hall
  intro t ht
  obtain ⟨before, after, heq⟩ := List.append_of_mem (List.mem_of_mem_filter ht)
  exact ⟨_, (hreads.only before t after heq).1⟩

theorem lexeme_of_lex {text : String} {tokens : List Token}
    (h : (lexer.lex text).run = some (.ok tokens))
    : ∀ t ∈ tokens, Lexeme t.kind t.chars := by
  intro t ht
  obtain ⟨rest, hmatch⟩ := matches_of_lex h t ht
  exact (lexeme_of_matches hmatch).1

end Lisp

end GrammarKit
