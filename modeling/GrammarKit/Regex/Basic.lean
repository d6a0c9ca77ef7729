import GrammarKit.Regex.Matcher

/-!
This module contains `Regex`, a rule over characters. It matches at the start of a text and need not
use up all of it.
-/

namespace GrammarKit

/--
A rule over characters, its own root.
-/
structure Regex where
  rule : Rule Matcher

namespace Regex

def rootName : String := "<root>"

def render (r : Regex) : String :=
  r.rule.render Matcher.render

def recognizer (r : Regex) : Recognizer Position (List Char) Matcher where
  domain := Matcher.domain
  rules := Table.empty.set rootName r.rule
  root := rootName

def matchAt (r : Regex) (pos : Position) : Eventually Failure (List Char) :=
  (r.recognizer.run pos).toEventually

def matchText (r : Regex) (input : String) : Eventually Failure String :=
  String.ofList <$> r.matchAt (Position.ofString input)

/-- The regex that matches `text` and nothing else. -/
def literal (text : String) : Regex :=
  ⟨.atom (.literal text)⟩

end Regex

end GrammarKit
