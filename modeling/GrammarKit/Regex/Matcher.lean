import GrammarKit.Recognizer.Basic
import GrammarKit.Text.Position
import GrammarKit.Text.Dump

/-!
This module contains `Matcher`, the primitives of matching characters, and the domain of characters.
-/

namespace GrammarKit

inductive Matcher where
  | literal (text : String)
  | range (low high : Char)
  /-- One character, where the rule does not match. -/
  | not (rule : Rule Matcher)

namespace Matcher

mutual

def render : Matcher → String
  | .literal text => "'" ++ text ++ "'"
  | .range low high => "[" ++ low.toString ++ "-" ++ high.toString ++ "]"
  | .not rule => "^" ++ renderRule rule

def renderRule : Rule Matcher → String
  | .atom m => m.render
  | .ref name => name
  | .seq rules => "(" ++ " ".intercalate (renderRules rules) ++ ")"
  | .alt rules => "(" ++ " | ".intercalate (renderRules rules) ++ ")"
  | .star rule => renderRule rule ++ "*"
  | .plus rule => renderRule rule ++ "+"
  | .opt rule => renderRule rule ++ "?"
  | .untilEmpty rule => renderRule rule ++ "!"

def renderRules : List (Rule Matcher) → List String
  | [] => []
  | rule :: rules => renderRule rule :: renderRules rules

end

mutual

theorem renderRule_eq : ∀ rule : Rule Matcher, renderRule rule = rule.render render
  | .atom m => by simp only [renderRule, Rule.render]
  | .ref name => by simp only [renderRule, Rule.render]
  | .seq rules => by simp only [renderRule, Rule.render, renderRules_eq rules]
  | .alt rules => by simp only [renderRule, Rule.render, renderRules_eq rules]
  | .star rule => by simp only [renderRule, Rule.render, renderRule_eq rule]
  | .plus rule => by simp only [renderRule, Rule.render, renderRule_eq rule]
  | .opt rule => by simp only [renderRule, Rule.render, renderRule_eq rule]
  | .untilEmpty rule => by simp only [renderRule, Rule.render, renderRule_eq rule]

theorem renderRules_eq : ∀ rules : List (Rule Matcher),
    renderRules rules = Rule.renderAll render rules
  | [] => by simp only [renderRules, Rule.renderAll]
  | rule :: rules => by
    simp only [renderRules, Rule.renderAll, renderRule_eq rule, renderRules_eq rules]

end

theorem render_not (rule : Rule Matcher) :
    (Matcher.not rule).render = "^" ++ rule.render render := by
  rw [render, renderRule_eq]

mutual

def depth : Matcher → Nat
  | .literal _ => 0
  | .range _ _ => 0
  | .not rule => depthRule rule

def depthRule : Rule Matcher → Nat
  | .atom m => m.depth + 1
  | .ref _ => 1
  | .seq rules => depthRules rules + 1
  | .alt rules => depthRules rules + 1
  | .star rule => depthRule rule + 1
  | .plus rule => depthRule rule + 1
  | .opt rule => depthRule rule + 1
  | .untilEmpty rule => depthRule rule + 1

def depthRules : List (Rule Matcher) → Nat
  | [] => 0
  | rule :: rules => max (depthRule rule) (depthRules rules)

end

mutual

theorem depthRule_eq : ∀ rule : Rule Matcher, depthRule rule = rule.depth depth
  | .atom m => by simp only [depthRule, Rule.depth]
  | .ref name => by simp only [depthRule, Rule.depth]
  | .seq rules => by simp only [depthRule, Rule.depth, depthRules_eq rules]
  | .alt rules => by simp only [depthRule, Rule.depth, depthRules_eq rules]
  | .star rule => by simp only [depthRule, Rule.depth, depthRule_eq rule]
  | .plus rule => by simp only [depthRule, Rule.depth, depthRule_eq rule]
  | .opt rule => by simp only [depthRule, Rule.depth, depthRule_eq rule]
  | .untilEmpty rule => by simp only [depthRule, Rule.depth, depthRule_eq rule]

theorem depthRules_eq : ∀ rules : List (Rule Matcher), depthRules rules = Rule.depthAll depth rules
  | [] => by simp only [depthRules, Rule.depthAll]
  | rule :: rules => by
    simp only [depthRules, Rule.depthAll, depthRule_eq rule, depthRules_eq rules]

end

def noInput : String := "no input"

def mismatch (m : Matcher) : String :=
  "failed to match " ++ m.render

/--
The message of a failure names the text it happened at, up to ten characters of it.
-/
def decorate (pos : Position) (message : String) : String :=
  "regex error " ++ quoted message ++ " at " ++ quoted (String.ofList (pos.rest.take 10))

/-- Fail at a position. Characters have no location of their own. -/
def failAt {α : Type} (pos : Position) (message : String) : Run α :=
  .fail ⟨decorate pos message, none⟩

def apply (ev : Rule Matcher → Position → Run (List Char)) (m : Matcher) (pos : Position) :
    Run (List Char) :=
  match m with
  | .literal text => if pos.startsWith text then .ok text.toList else failAt pos m.mismatch
  | .range low high =>
    match pos.peek with
    | none => failAt pos noInput
    | some c => if low ≤ c ∧ c ≤ high then .ok [c] else failAt pos m.mismatch
  | .not rule =>
    match pos.peek with
    | none => failAt pos noInput
    | some c => do
      match ← (ev rule pos).attempt with
      | .ok _ => failAt pos m.mismatch
      | .error _ => .ok [c]

/--
The domain of characters: the input is a position, the output the text that matched.
-/
def domain : Domain Position (List Char) Matcher where
  atom := apply
  advance pos text := pos.skip (byteLength text)
  join := List.flatten
  isEmpty := Position.isEmpty
  size pos := pos.rest.length
  location _ := none
  label _ text := text
  furthest := Furthest.latest.choose
  decorate := decorate
  dump text := quoted (String.ofList text)
  atomDepth := depth

end Matcher

end GrammarKit
