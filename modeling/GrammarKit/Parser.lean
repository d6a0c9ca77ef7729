import GrammarKit.Node
import GrammarKit.Recognizer.Basic

/-!
This module contains `Parser`, which builds a tree from a sequence of tokens. Its primitives are the
kinds of tokens.
-/

namespace GrammarKit

/--
Named rules over tokens; the root is one of them. A primitive takes one token of that kind.
-/
structure Parser where
  rules : Table (Rule String)
  root : String
  root_known : rules.contains root = true

namespace Parser

def renderKind (kind : String) : String :=
  "'" ++ kind ++ "'"

def renderRule (rule : Rule String) : String :=
  rule.render renderKind

def notFound (kind : String) : String :=
  "failed to find literal " ++ renderKind kind

def notFoundAtEnd (kind : String) : String :=
  notFound kind ++ ": eof"

def greatestLocation (tokens : List Token) : Option Location :=
  (tokens.map Token.location).max?

def take (kind : String) (tokens : List Token) : Run Node :=
  let failAt message : Run Node := .fail ⟨message, greatestLocation tokens⟩
  match tokens with
  | [] => failAt (notFoundAtEnd kind)
  | t :: _ => if t.kind = kind then .ok (Node.leaf t) else failAt (notFound kind)

/-- Groups dissolve into the sequence they stand in. -/
def splice (n : Node) : List Node :=
  if n.isGroup then n.children else [n]

def join (outputs : List Node) : Node :=
  Node.group (outputs.flatMap splice)

/-- A group takes the name of a rule, other nodes are put under it. -/
def label (name : String) (n : Node) : Node :=
  Node.labelled name (splice n)

/--
The domain of token sequences: the output is a tree that accounts for as many tokens as it holds.
-/
def domain : Domain (List Token) Node String where
  atom _ := take
  advance tokens n := tokens.drop n.size
  join := join
  isEmpty := List.isEmpty
  size := List.length
  location := greatestLocation
  label := label
  furthest := Furthest.latest.choose
  decorate _ message := message
  dump := Node.dump
  atomDepth _ := 0

def recognizer (p : Parser) : Recognizer (List Token) Node String :=
  ⟨domain, p.rules, p.root⟩

def unknownRoot (name : String) : Failure :=
  ⟨"unknown root rule '" ++ name ++ "'", none⟩

def ofTable (rules : Table (Rule String)) (root : String) : Except Failure Parser :=
  if h : rules.contains root = true then .ok ⟨rules, root, h⟩ else .error (unknownRoot root)

theorem ofTable_eq_ok {rules : Table (Rule String)} {root : String} {p : Parser}
    (h : ofTable rules root = .ok p) : p.rules = rules ∧ p.root = root := by
  unfold ofTable at h
  split at h
  · cases h
    exact ⟨rfl, rfl⟩
  · cases h

def rule? (p : Parser) (name : String) : Option (Rule String) :=
  p.rules.get? name

def leftover (t : Token) : Failure :=
  ⟨"unconsumed input starting at " ++ t.render, some t.location⟩

/--
The answer for a tree: it must account for all tokens. If it does not, then the failures swallowed
on the way tell why, and without any the first token left over does.
-/
def complete (tokens : List Token) (n : Node) (swallowed : List Failure) : Except Failure Node :=
  match tokens.drop n.size with
  | [] => .ok n
  | t :: _ => .error (if swallowed.isEmpty then leftover t else Failure.aggregate swallowed)

def parse (p : Parser) (tokens : List Token) : Eventually Failure Node :=
  match p.recognizer.run tokens with
  | .unsettled => .mk none
  | .settled (.error e) _ => .mk (some (.error e))
  | .settled (.ok n) swallowed => .mk (some (complete tokens n swallowed))

end Parser

end GrammarKit
