/-!
This module contains `Rule`, the combinators shared by the matching of characters, tokens and any
other input. What is primitive is left open.
-/

namespace GrammarKit

/--
A rule over primitives of type `μ`.
-/
inductive Rule (μ : Type) where
  | atom (m : μ)
  | ref (name : String)
  | seq (rules : List (Rule μ))
  /-- Exactly one of the rules; all are tried. -/
  | alt (rules : List (Rule μ))
  /-- Any number of times, up to the first failure. -/
  | star (rule : Rule μ)
  /-- As `star`, but at least once. -/
  | plus (rule : Rule μ)
  /-- Once, or not at all after a failure. -/
  | opt (rule : Rule μ)
  /-- Again and again until the input is used up. -/
  | untilEmpty (rule : Rule μ)

namespace Rule

variable {μ : Type}

mutual

def render (atomText : μ → String) : Rule μ → String
  | .atom m => atomText m
  | .ref name => name
  | .seq rules => "(" ++ " ".intercalate (renderAll atomText rules) ++ ")"
  | .alt rules => "(" ++ " | ".intercalate (renderAll atomText rules) ++ ")"
  | .star rule => rule.render atomText ++ "*"
  | .plus rule => rule.render atomText ++ "+"
  | .opt rule => rule.render atomText ++ "?"
  | .untilEmpty rule => rule.render atomText ++ "!"

def renderAll (atomText : μ → String) : List (Rule μ) → List String
  | [] => []
  | rule :: rules => rule.render atomText :: renderAll atomText rules

end

mutual

/--
How deep combinators are nested, given how deep each primitive is.
-/
def depth (atomDepth : μ → Nat) : Rule μ → Nat
  | .atom m => atomDepth m + 1
  | .ref _ => 1
  | .seq rules => depthAll atomDepth rules + 1
  | .alt rules => depthAll atomDepth rules + 1
  | .star rule => rule.depth atomDepth + 1
  | .plus rule => rule.depth atomDepth + 1
  | .opt rule => rule.depth atomDepth + 1
  | .untilEmpty rule => rule.depth atomDepth + 1

def depthAll (atomDepth : μ → Nat) : List (Rule μ) → Nat
  | [] => 0
  | rule :: rules => max (rule.depth atomDepth) (depthAll atomDepth rules)

end

end Rule

end GrammarKit
