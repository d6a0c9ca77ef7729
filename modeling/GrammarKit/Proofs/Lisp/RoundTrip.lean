import GrammarKit.Proofs.Lisp.Exactness
import GrammarKit.Proofs.Lisp.Printing

/-!
This module contains the correspondence between expressions and their texts: just the printable ones
are ever read, and each of them is read back from its own text.
-/

namespace GrammarKit

open Token

namespace Lisp

theorem parse_render {e : Expr} (h : e.Printable) : (parse e.render).run = some (.ok e) := by
  obtain ⟨words, hspelled, hlexed⟩ : ∃ ws, Spelled e ws ∧ LexedAs e.render.toList ws [] :=
    lexedAs_render h (by simp)
  obtain ⟨tokens, hreads, rfl⟩ := hlexed Location.start
  rw [List.append_nil] at hreads
  have hlex := Lexer.lex_eq_ok_iff.mpr ⟨tokens, (Lexer.lexAll_eq_ok (terminatesOn _)).mpr hreads, rfl⟩
  exact parse_eq_ok.mpr ⟨_, hlex, hspelled⟩

/-- No quote stands between quotes, and a name is one. -/
structure Legible (w : String × String) : Prop where
  str : ∀ text, w = ("str", "'" ++ text ++ "'") → '\'' ∉ text.toList
  id : ∀ name, w = ("id", name) → IsName name

theorem legible_of_lex {text : String} {tokens : List Token}
    (h : (lexer.lex text).run = some (.ok tokens))
    : ∀ w ∈ tokens.map spelling, Legible w := by
  intro w hw
  obtain ⟨t, ht, rfl⟩ := List.mem_map.mp hw
  obtain ⟨rest, r, hr, _, _, hmatch⟩ := matches_of_lex h t ht
  rw [Regex.matchAt_run_eq_some] at hmatch
  constructor
  · intro inner heq
    obtain ⟨hkind, hvalue⟩ := Prod.mk.inj heq
    rw [hkind, regex?_of_mem quotation_mem] at hr
    cases hr
    obtain ⟨found, hfound, hchars, _⟩ := quotation_yields.mp hmatch
    rw [chars, hvalue] at hchars
    have hinner : inner.toList = found := by simpa using hchars
    rwa [hinner]
  · intro name heq
    obtain ⟨hkind, rfl⟩ := Prod.mk.inj heq
    rw [hkind, regex?_of_mem identifier_mem] at hr
    cases hr
    obtain ⟨c, behind, hc, _, hchars⟩ := identifier_yields.mp hmatch
    refine ⟨c, _, hchars, hc, fun d hd => ?_⟩
    exact Reader.isNamePart_iff.mp (List.mem_takeWhile_imp hd)

mutual

theorem printable_of_spelled {e : Expr} {ws : List (String × String)}
    : Spelled e ws → (∀ w ∈ ws, Legible w) → e.Printable
  | .int _, _ => trivial
  | .str, h => (h _ (List.mem_singleton_self _)).str _ rfl
  | .ref, h => (h _ (List.mem_singleton_self _)).id _ rfl
  | .call hfunc hargs, h => by
    simp only [List.forall_mem_append] at h
    exact ⟨printable_of_spelled hfunc h.2.1, printableAll_of_spelled hargs h.2.2.1⟩

theorem printableAll_of_spelled {es : List Expr} {ws : List (String × String)}
    : SpelledAll es ws → (∀ w ∈ ws, Legible w) → Expr.PrintableAll es
  | .nil, _ => trivial
  | .cons hfirst hothers, h => by
    rw [List.forall_mem_append] at h
    exact ⟨printable_of_spelled hfirst h.1, printableAll_of_spelled hothers h.2⟩

end

theorem printable_of_parse {text : String} {e : Expr} (h : (parse text).run = some (.ok e))
    : e.Printable := by
  obtain ⟨tokens, hlex, hspelled⟩ := parse_eq_ok.mp h
  exact printable_of_spelled hspelled (legible_of_lex hlex)

/--
An expression is read back from its own text exactly if it is printable, and whatever is read from
any text is.
-/
theorem expr_text_lossless
    : (∀ e : Expr, (parse e.render).run = some (.ok e) ↔ e.Printable) ∧
        ∀ (text : String) (e : Expr), (parse text).run = some (.ok e) →
          e.Printable ∧ (parse e.render).run = some (.ok e) := by
  refine ⟨fun e => ⟨printable_of_parse, parse_render⟩, fun text e h => ?_⟩
  have hprintable := printable_of_parse h
  exact ⟨hprintable, parse_render hprintable⟩

theorem expr_text_lossless_call
    : let e : Expr := .call (.ref "f") [.int (-7), .str "a )"]
      e.Printable ∧ e.render = "(f -7 'a )')" ∧ (parse e.render).run = some (.ok e) := by
  intro e
  have hprintable : e.Printable := by decide
  have hparse := (expr_text_lossless.1 e).mpr hprintable
  exact ⟨hprintable, by decide, (expr_text_lossless.2 e.render e hparse).2⟩

end Lisp

end GrammarKit
