import GrammarKit.Proofs.Language.Terminals
import GrammarKit.Proofs.Regex.Texts

/-!
This module contains patterns for plain text. With a backslash in front of every operator, a text is
a pattern that matches what a terminal of that text matches.
-/

namespace GrammarKit

namespace Pattern

/-- A backslash in front of every operator. -/
def escapeChars (chars : List Char) : List Char :=
  chars.flatMap fun c => if c ∈ operatorChars then ['\\', c] else [c]

def escapeText (text : String) : String :=
  String.ofList (escapeChars text.toList)

theorem escapeChars_cons (c : Char) (chars : List Char)
    : escapeChars (c :: chars) = escapeChars [c] ++ escapeChars chars := by
  simp [escapeChars]

theorem item_escapeChars (c : Char) : Item (escapeChars [c]) (char c) := by
  rw [escapeChars, List.flatMap_singleton]
  split
  · next h => exact .plain (.operator h)
  · next h => exact .plain (.char (.inl h))

theorem items_escapeChars (c : Char) (chars : List Char)
    : Items (escapeChars (c :: chars)) ((c :: chars).map char) := by
  induction chars generalizing c with
  | nil => exact .last (item_escapeChars c)
  | cons d chars ih =>
    rw [escapeChars_cons, List.map_cons]
    exact .more (item_escapeChars c) (ih d)

theorem load_escapeText {text : String} (h : text ≠ "")
    : (load (escapeText text)).run = some (.ok ⟨collapse .seq (text.toList.map char)⟩) := by
  apply load_of_alternation
  rw [escapeText, String.toList_ofList]
  rcases htext : text.toList with _ | ⟨c, chars⟩
  · exact absurd (String.toList_eq_nil_iff.mp htext) h
  · exact .of (.last (.of (items_escapeChars c chars)))

theorem takesText_char (r : Regex) (c : Char) : r.TakesText (char c) [c] := by
  have hliteral := Regex.takesText_literal (r := r) (String.singleton c)
  rwa [String.toList_singleton] at hliteral

theorem takesText_chars (r : Regex) (chars : List Char)
    : r.TakesText (.seq (chars.map char)) chars := by
  induction chars with
  | nil => exact Regex.takesText_nil
  | cons c chars ih => exact (takesText_char r c).cons ih

theorem takesText_collapse (r : Regex) (chars : List Char)
    : r.TakesText (collapse .seq (chars.map char)) chars := by
  match chars with
  | [] => exact takesText_chars r []
  | [c] => exact takesText_char r c
  | c :: d :: chars => exact takesText_chars r (c :: d :: chars)

end Pattern

namespace Language

theorem regex?_terminal {g : Grammar} {language : Language} {p : Production} {text : String}
    (h : (ofGrammar g).run = some (.ok language)) (hp : p ∈ g.productions)
    (ht : text ∈ p.rhs.terminals) (hfree : ∀ d ∈ g.tokenDefs, d.name ≠ text)
    : language.lexer.regex? text = some (.literal text) := by
  rcases get?_terminal h hp ht with ⟨d, hd, hname⟩ | hget
  · exact absurd hname (hfree d hd)
  · rw [Lexer.regex?, hget, Option.map_some]

/--
A text with its operators escaped is a pattern. It matches just what the regex of a terminal of that
text matches, which is to say the text itself at the beginning of others.
-/
theorem escaped_text_matches_as_terminal {text : String} (h : text ≠ "")
    : ∃ r, (Pattern.load (Pattern.escapeText text)).run = some (.ok r) ∧ r.MatchesText text ∧
        (Regex.literal text).MatchesText text ∧
        ∀ (g : Grammar) (language : Language), (ofGrammar g).run = some (.ok language) →
          ∀ p ∈ g.productions, text ∈ p.rhs.terminals → (∀ d ∈ g.tokenDefs, d.name ≠ text) →
            language.lexer.regex? text = some (.literal text) := by
  refine ⟨_, Pattern.load_escapeText h, ?_, ?_, ?_⟩
  · exact (Pattern.takesText_collapse _ text.toList).matchesText
  · exact (Regex.takesText_literal text).matchesText
  · exact fun _ _ hlanguage _ hp ht hfree => regex?_terminal hlanguage hp ht hfree

/-- Two operators and an accent, as a pattern and as the only terminal of a grammar. -/
theorem escaped_text_matches_as_terminal_accent
    : ∃ (r : Regex) (language : Language),
        (Pattern.load "a\\-\\(é").run = some (.ok r) ∧
          (r.matchText "a-(é)").run = some (.ok "a-(é") ∧
          (∃ e, (r.matchText "a-é").run = some (.error e)) ∧
          (ofGrammar ⟨[.production ⟨"s", .terminal "a-(é"⟩]⟩).run = some (.ok language) ∧
          language.lexer.regex? "a-(é" = some (.literal "a-(é") := by
  let language : Language :=
    ⟨⟨.ofList [("a-(é", ⟨.literal "a-(é", false⟩)], by decide⟩,
      ⟨.ofList [("s", .atom "a-(é")], "s", by decide⟩⟩
  have hlanguage : (ofGrammar ⟨[.production ⟨"s", .terminal "a-(é"⟩]⟩).run = some (.ok language) :=
    ofGrammar_eq_ok.mpr ⟨[], tokenRules_nil, rfl⟩
  obtain ⟨r, hload, hmatches, _, hterminal⟩ :=
    escaped_text_matches_as_terminal (show "a-(é" ≠ "" by decide)
  refine ⟨r, language, hload, (hmatches "a-(é)").1 (by decide), (hmatches "a-é").2 (by decide),
    hlanguage, ?_⟩
  exact hterminal _ language hlanguage ⟨"s", .terminal "a-(é"⟩ (by decide) (by decide) (by decide)

end Language

end GrammarKit
