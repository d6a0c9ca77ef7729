import GrammarKit.Proofs.Lisp.Parsing

/-!
This module contains the exactness of reading expressions: a text is read as the one expression that
its tokens spell, and as nothing else.
-/

namespace GrammarKit

open Node Token Reducer Recognizer

namespace Lisp

open GrammarKit.Parser (Derives Spells every_singleton)

def starters : List String := ["(", "int", "str", "id"]

def lookahead : GrammarKit.Parser.Lookahead where
  first
    | "call" => ["("]
    | _ => starters
  follow _ := starters ++ [")"]
  rank
    | "expr" => 1
    | _ => 0

theorem lookahead_check : lookahead.check parser.rules = true := by decide

theorem parser_unambiguous : parser.recognizer.Unambiguous :=
  GrammarKit.Parser.unambiguous lookahead_check

theorem claims_length_le (n : Node) (values : List Expr)
    : (claims reducer.rules n values).length ≤ 1 := by
  rw [reducer_rules]
  exact Reducer.claims_length_le reductions_nodup

section OutOfRange

variable {t : Token} {n : Node}

theorem outOfRange_iff (h : Readable t)
    : (t.kind == "int" && (Decimal.read? t.value).isNone) = true ↔ OutOfRange t := by
  rw [Bool.and_eq_true, beq_iff_eq, Option.isNone_iff_eq_none]
  constructor
  · rintro ⟨hkind, hread⟩
    obtain ⟨v, hv⟩ := h.int hkind
    exact ⟨hkind, v, hv, (Numeral.read?_eq_none hv).mp hread⟩
  · rintro ⟨hkind, v, hv, hrange⟩
    exact ⟨hkind, hv.read?_eq_none.mpr hrange⟩

theorem outOfRange?_eq_none (hread : ∀ t ∈ n.tokens, Readable t)
    : outOfRange? n = none ↔ ∀ t ∈ n.tokens, ¬ OutOfRange t := by
  rw [outOfRange?, List.find?_eq_none]
  apply forall₂_congr
  intro t ht
  rw [outOfRange_iff (hread t ht)]

theorem outOfRange?_eq_some (hread : ∀ t ∈ n.tokens, Readable t)
    : outOfRange? n = some t ↔
        OutOfRange t ∧ ∃ before after, n.tokens = before ++ t :: after ∧
          ∀ u ∈ before, ¬ OutOfRange u := by
  rw [outOfRange?, List.find?_eq_some_iff_append]
  constructor
  · rintro ⟨ht, before, after, htokens, hbefore⟩
    have hall : ∀ u ∈ before ++ t :: after, Readable u := htokens ▸ hread
    rw [List.forall_mem_append, List.forall_mem_cons] at hall
    refine ⟨(outOfRange_iff hall.2.1).mp ht, before, after, htokens, fun u hu hout => ?_⟩
    -- what is out of range would have been found before
    have hnot := hbefore u hu
    rw [(outOfRange_iff (hall.1 u hu)).mpr hout] at hnot
    cases hnot
  · rintro ⟨ht, before, after, htokens, hbefore⟩
    have hall : ∀ u ∈ before ++ t :: after, Readable u := htokens ▸ hread
    rw [List.forall_mem_append, List.forall_mem_cons] at hall
    refine ⟨(outOfRange_iff hall.2.1).mpr ht, before, after, htokens, fun u hu => ?_⟩
    rw [Bool.not_eq_true', Bool.eq_false_iff, ne_eq, outOfRange_iff (hall.1 u hu)]
    exact hbefore u hu

end OutOfRange

mutual

theorem spelled_inRange {e : Expr} {ws : List (String × String)}
    : Spelled e ws → ∀ w ∈ ws, w.1 = "int" → ∃ n, Decimal.read? w.2 = some n
  | @Spelled.int n text h, w, hw, _ => by
    rw [List.mem_singleton.mp hw]
    exact ⟨n, h.read?_eq_some.mpr rfl⟩
  | .str, w, hw, hkind => by
    simp [List.mem_singleton.mp hw] at hkind
  | .ref, w, hw, hkind => by
    simp [List.mem_singleton.mp hw] at hkind
  | .call hfunc hargs, w, hw, hkind => by
    simp only [List.mem_append, List.mem_singleton] at hw
    rcases hw with rfl | hw | hw | rfl
    · exact absurd hkind (by decide)
    · exact spelled_inRange hfunc w hw hkind
    · exact spelledAll_inRange hargs w hw hkind
    · exact absurd hkind (by decide)

theorem spelledAll_inRange {es : List Expr} {ws : List (String × String)}
    : SpelledAll es ws → ∀ w ∈ ws, w.1 = "int" → ∃ n, Decimal.read? w.2 = some n
  | .nil, w, hw, _ => by cases hw
  | .cons hfirst hothers, w, hw, hkind => by
    rcases List.mem_append.mp hw with hw | hw
    · exact spelled_inRange hfirst w hw hkind
    · exact spelledAll_inRange hothers w hw hkind

end

section Trees

variable {text : String} {n : Node} {tokens : List Token}

theorem parse_run : (parse text).run =
    match (Language.parse ⟨lexer, parser⟩ text).run with
    | none => none
    | some (.error e) => some (.error (.language e))
    | some (.ok n) => some (ofNode n) := by
  have hlanguage : (language.adapt Error.language).run = some (.ok ⟨lexer, parser⟩) :=
    Eventually.adapt_eq_ok.mpr language_run
  unfold parse
  rw [Eventually.bind_of_ok hlanguage, Eventually.run_bind, Eventually.run_adapt]
  match (Language.parse ⟨lexer, parser⟩ text).run with
  | none => rfl
  | some (.error e) => rfl
  | some (.ok n) => exact Eventually.run_ofExcept (ofNode n)

theorem parse_settles (text : String) : (parse text).run ≠ none := by
  have hsettles : (Language.parse ⟨lexer, parser⟩ text).run ≠ none :=
    Language.parse_ne_none (lex_settles text) (GrammarKit.Parser.parse_settles lookahead_check)
  rw [parse_run]
  split
  · next h => exact absurd h hsettles
  · simp
  · simp

theorem parse_eq {result : Except Error Expr} (h : ∀ e, result ≠ .error (.language e))
    : (parse text).run = some result ↔
        ∃ n, (lexer.lex text).run = some (.ok n.tokens) ∧ Derives parser.rules (.ref "expr") [n] ∧
          ofNode n = result := by
  have htree : ∀ n, (Language.parse ⟨lexer, parser⟩ text).run = some (.ok n) ↔
      (lexer.lex text).run = some (.ok n.tokens) ∧ Derives parser.rules (.ref "expr") [n] :=
    fun n => Language.parse_eq_ok_iff_derives lookahead_check
  rw [parse_run]
  constructor
  · intro hrun
    split at hrun
    · cases hrun
    · next e _ => exact absurd (Option.some.inj hrun).symm (h e)
    · next n hn =>
      obtain ⟨hlex, hderives⟩ := (htree n).mp hn
      exact ⟨n, hlex, hderives, Option.some.inj hrun⟩
  · rintro ⟨n, hlex, hderives, rfl⟩
    rw [(htree n).mpr ⟨hlex, hderives⟩]

theorem words_eq (n : Node) : words [n] = n.tokens.map spelling := by
  simp [words]

theorem exists_tree {good : List Node → Prop}
    (h : Spells parser.rules (.ref "expr") (tokens.map spelling) good)
    : ∃ n, Derives parser.rules (.ref "expr") [n] ∧ n.tokens = tokens ∧ good [n] := by
  obtain ⟨ns, hderives, htokens, hgood⟩ := h tokens rfl
  cases id hderives with
  | @ref _ _ children hget hchildren =>
    rw [tokensAll_singleton] at htokens
    exact ⟨labelled "expr" children, hderives, htokens, hgood⟩

theorem ofNode_inRange (h : Derives parser.rules (.ref "expr") [n])
    (hread : ∀ t ∈ n.tokens, Readable t) (hrange : ∀ t ∈ n.tokens, ¬ OutOfRange t)
    : ∃ e, ofNode n = .ok e ∧ Spelled e (n.tokens.map spelling) := by
  obtain ⟨_, hspelled⟩ := derives_means h (every_singleton.mpr hread)
  obtain ⟨e, hgives, he⟩ := hspelled (every_singleton.mpr hrange)
  rw [words_eq] at he
  refine ⟨e, ?_, he⟩
  rw [ofNode, (outOfRange?_eq_none hread).mpr hrange, apply_of_gives reducer_rules hgives]
  rfl

theorem ofNode_cases (h : Derives parser.rules (.ref "expr") [n])
    (hread : ∀ t ∈ n.tokens, Readable t)
    : (∃ t, outOfRange? n = some t ∧ ofNode n = .error (.intOutOfRange t.location t.value)) ∨
        ∃ e, ofNode n = .ok e ∧ Spelled e (n.tokens.map spelling) := by
  cases hout : outOfRange? n with
  | some t => exact .inl ⟨t, rfl, by rw [ofNode, hout]⟩
  | none => exact .inr (ofNode_inRange h hread ((outOfRange?_eq_none hread).mp hout))

theorem ofNode_spelled {e : Expr} (hread : ∀ t ∈ n.tokens, Readable t)
    (he : Spelled e (n.tokens.map spelling)) (hgives : Gives [n] [e])
    : ofNode n = .ok e := by
  have hrange : ∀ t ∈ n.tokens, ¬ OutOfRange t := by
    rintro t ht ⟨hkind, v, hv, hrange⟩
    obtain ⟨m, hm⟩ := spelled_inRange he _ (List.mem_map_of_mem ht) hkind
    rw [spelling, hv.read?_eq_none.mpr hrange] at hm
    cases hm
  rw [ofNode, (outOfRange?_eq_none hread).mpr hrange, apply_of_gives reducer_rules hgives]
  rfl

theorem parse_eq_ok {e : Expr}
    : (parse text).run = some (.ok e) ↔
        ∃ tokens, (lexer.lex text).run = some (.ok tokens) ∧ Spelled e (tokens.map spelling) := by
  rw [parse_eq (by simp)]
  constructor
  · rintro ⟨n, hlex, hderives, hn⟩
    rcases ofNode_cases hderives (lexeme_of_lex hlex) with ⟨t, _, hout⟩ | ⟨e', he', hspelled⟩
    · rw [hn] at hout
      cases hout
    · rw [hn] at he'
      cases he'
      exact ⟨n.tokens, hlex, hspelled⟩
  · rintro ⟨tokens, hlex, hspelled⟩
    obtain ⟨n, hderives, rfl, hgives⟩ := exists_tree (spelled_spells hspelled)
    exact ⟨n, hlex, hderives, ofNode_spelled (lexeme_of_lex hlex) hspelled hgives⟩

theorem parse_eq_outOfRange {loc : Location} {value : String}
    : (parse text).run = some (.error (.intOutOfRange loc value)) ↔
        ∃ before t after, (lexer.lex text).run = some (.ok (before ++ t :: after)) ∧
          Shaped ((before ++ t :: after).map spelling) ∧ OutOfRange t ∧
            (∀ u ∈ before, ¬ OutOfRange u) ∧ t.location = loc ∧ t.value = value := by
  rw [parse_eq (by simp)]
  constructor
  · rintro ⟨n, hlex, hderives, hn⟩
    have hread := lexeme_of_lex hlex
    rcases ofNode_cases hderives hread with ⟨t, hout, ht⟩ | ⟨e, he, _⟩
    · obtain ⟨hrange, before, after, htokens, hbefore⟩ := (outOfRange?_eq_some hread).mp hout
      obtain ⟨hshaped, _⟩ := derives_means hderives (every_singleton.mpr hread)
      rw [words_eq, htokens] at hshaped
      rw [hn] at ht
      cases ht
      exact ⟨before, t, after, htokens ▸ hlex, hshaped, hrange, hbefore, rfl, rfl⟩
    · rw [hn] at he
      cases he
  · rintro ⟨before, t, after, hlex, hshaped, hrange, hbefore, rfl, rfl⟩
    obtain ⟨n, hderives, htokens, _⟩ := exists_tree (shaped_spells hshaped)
    rw [← htokens] at hlex
    have hout := (outOfRange?_eq_some (lexeme_of_lex hlex)).mpr ⟨hrange, before, after, htokens, hbefore⟩
    exact ⟨n, hlex, hderives, by rw [ofNode, hout]⟩

theorem parse_ne_reduction (e : Failure) : (parse text).run ≠ some (.error (.reduction e)) := by
  rw [ne_eq, parse_eq (by simp)]
  rintro ⟨n, hlex, hderives, hn⟩
  rcases ofNode_cases hderives (lexeme_of_lex hlex) with ⟨t, _, ht⟩ | ⟨e', he', _⟩
  · rw [hn] at ht
    cases ht
  · rw [hn] at he'
    cases he'

end Trees

/--
Reading a text comes to an end: with the one expression that its tokens spell; with the first integer
that is out of range, where that alone is wrong; and with another failure everywhere else. Nothing in
it is ever ambiguous, and no tree is left without an expression.
-/
theorem parse_exact
    : language.run = some (.ok ⟨lexer, parser⟩) ∧
        (∀ text, (parse text).run ≠ none ∧
          (∀ e, (parse text).run = some (.ok e) ↔
            ∃ tokens, (lexer.lex text).run = some (.ok tokens) ∧
              Spelled e (tokens.map spelling)) ∧
          (∀ tokens, (lexer.lex text).run = some (.ok tokens) →
            ∀ e e', Spelled e (tokens.map spelling) → Spelled e' (tokens.map spelling) → e = e') ∧
          (∀ loc value, (parse text).run = some (.error (.intOutOfRange loc value)) ↔
            ∃ before t after, (lexer.lex text).run = some (.ok (before ++ t :: after)) ∧
              Shaped ((before ++ t :: after).map spelling) ∧ OutOfRange t ∧
                (∀ u ∈ before, ¬ OutOfRange u) ∧ t.location = loc ∧ t.value = value) ∧
          ((¬ ∃ e tokens, (lexer.lex text).run = some (.ok tokens) ∧
            Spelled e (tokens.map spelling)) → ∃ err, (parse text).run = some (.error err)) ∧
          ∀ e, (parse text).run ≠ some (.error (.reduction e))) ∧
        lexer.recognizer.Unambiguous ∧
        (∀ name r, lexer.regex? name = some r → r.recognizer.Unambiguous) ∧
        parser.recognizer.Unambiguous ∧
        ∀ n values, (claims reducer.rules n values).length ≤ 1 := by
  refine ⟨language_run, fun text => ⟨parse_settles text, fun _ => parse_eq_ok, ?_,
    fun _ _ => parse_eq_outOfRange, ?_, parse_ne_reduction⟩, lexer_unambiguous,
    fun _ _ => regex_unambiguous, parser_unambiguous, claims_length_le⟩
  · intro tokens hlex e e' he he'
    have hparse := parse_eq_ok.mpr ⟨tokens, hlex, he⟩
    rw [parse_eq_ok.mpr ⟨tokens, hlex, he'⟩] at hparse
    cases hparse
    rfl
  · intro hnone
    apply Eventually.exists_error (parse_settles text)
    intro e he
    exact hnone ⟨e, parse_eq_ok.mp he⟩

end Lisp

end GrammarKit
