import GrammarKit.Regex.Basic
import GrammarKit.Text.Cursor
import GrammarKit.Token

/-!
This module contains `Lexer`, which divides a text into tokens. Everywhere in the text exactly one
of its rules must match, with more than the empty text.
-/

namespace GrammarKit

/--
A rule for tokens. Tokens of a silent rule take part in matching and are dropped afterwards.
-/
structure TokenRule where
  regex : Regex
  silent : Bool := false

def Lexer.rootName : String := "<root>"

/--
Rules for tokens by name. The name of the root is reserved.
-/
structure Lexer where
  rules : Table TokenRule
  root_free : rules.get? Lexer.rootName = none

namespace Lexer

def reserved (name : String) : Failure :=
  ⟨"reserved rule name '" ++ name ++ "'", none⟩

def emptyMatch (r : Regex) : String :=
  "empty match for " ++ r.render

def scan (r : Regex) (cursor : Cursor) : Run (List Token) := do
  let failAt message : Run (List Token) := .fail ⟨message, some cursor.location⟩
  match ← (Run.ofEventually (r.matchAt cursor.position)).attempt with
  | .ok [] => failAt (emptyMatch r)
  | .ok value => return [⟨"", String.ofList value, cursor.location, true⟩]
  | .error e => failAt e.message

def label (rules : Table TokenRule) (name : String) (tokens : List Token) : List Token :=
  match rules.get? name with
  | none => tokens
  | some rule => tokens.map fun t => { t with kind := name, visible := !rule.silent }

/--
The domain of tokens: the input is a cursor, the output the tokens found, the primitives are
regexes.
-/
def domain (rules : Table TokenRule) : Domain Cursor (List Token) Regex where
  atom _ := scan
  advance := List.foldl fun cursor t => cursor.advance t.value.toList
  join := List.flatten
  isEmpty cursor := cursor.position.isEmpty
  size cursor := cursor.position.rest.length
  location cursor := some cursor.location
  label := label rules
  furthest := Furthest.latest.choose
  decorate _ message := message
  dump tokens := Dump.list (tokens.map Token.dump)
  atomDepth _ := 0

def rootRule (rules : Table TokenRule) : Rule Regex :=
  .untilEmpty (.alt (rules.names.map .ref))

def recognizer (lexer : Lexer) : Recognizer Cursor (List Token) Regex where
  domain := domain lexer.rules
  rules := (lexer.rules.map fun rule => .atom rule.regex).set rootName (rootRule lexer.rules)
  root := rootName

def empty : Lexer := ⟨∅, rfl⟩

def add (lexer : Lexer) (name : String) (rule : TokenRule) (h : name ≠ rootName) : Lexer :=
  ⟨lexer.rules.set name rule, by
    rw [Table.get?_set_of_ne _ _ (Ne.symm h)]
    exact lexer.root_free⟩

/--
A lexer with the given rules. Names must be distinct and not that of the root; the first name that
is not decides the failure.
-/
def ofRules (rules : List (String × TokenRule)) : Except Failure Lexer :=
  go rules empty
where
  go : List (String × TokenRule) → Lexer → Except Failure Lexer
    | [], lexer => .ok lexer
    | (name, rule) :: rest, lexer =>
      if h : name = rootName then
        .error (reserved name)
      else if lexer.rules.contains name then
        .error (Table.duplicate name)
      else
        go rest (lexer.add name rule h)

def ofRegexes (visible silent : List (String × Regex)) : Except Failure Lexer :=
  ofRules (visible.map (fun (name, regex) => (name, ⟨regex, false⟩)) ++
    silent.map (fun (name, regex) => (name, ⟨regex, true⟩)))

def lexAll (lexer : Lexer) (text : String) : Eventually Failure (List Token) :=
  (lexer.recognizer.run (Cursor.ofString text)).toEventually

def lex (lexer : Lexer) (text : String) : Eventually Failure (List Token) :=
  List.filter Token.visible <$> lexer.lexAll text

def visible (lexer : Lexer) : List String :=
  (lexer.rules.filter fun rule => !rule.silent).names

def silent (lexer : Lexer) : List String :=
  (lexer.rules.filter TokenRule.silent).names

def regex? (lexer : Lexer) (name : String) : Option Regex :=
  (lexer.rules.get? name).map TokenRule.regex

end Lexer

end GrammarKit
