import GrammarKit.Token

/-!
This module contains `Node`, the trees that parsing yields.
-/

namespace GrammarKit

/--
A node has a token, if it is a leaf; a label, if it is the work of a named rule; and neither, if it
only groups its children.
-/
structure Node where
  token : Option Token := none
  label : Option String := none
  children : List Node := []

namespace Node

def leaf (t : Token) : Node := ⟨some t, none, []⟩

def group (children : List Node) : Node := ⟨none, none, children⟩

def labelled (name : String) (children : List Node) : Node := ⟨none, some name, children⟩

def isGroup (n : Node) : Bool :=
  n.token.isNone && n.label.isNone

def name (n : Node) : Option String :=
  n.label <|> n.token.map Token.kind

mutual

/--
The tokens of a tree, a node's own before those of its children.
-/
def tokens : Node → List Token
  | ⟨token, _, children⟩ => token.toList ++ tokensAll children

def tokensAll : List Node → List Token
  | [] => []
  | n :: rest => n.tokens ++ tokensAll rest

end

def size (n : Node) : Nat := n.tokens.length

def isEmpty (n : Node) : Bool := n.tokens.isEmpty

def location (n : Node) : Option Location :=
  n.tokens.head?.map Token.location

mutual

/--
The nodes of a tree, each before its children.
-/
def descendants : Node → List Node
  | ⟨token, label, children⟩ => ⟨token, label, children⟩ :: descendantsAll children

def descendantsAll : List Node → List Node
  | [] => []
  | n :: rest => n.descendants ++ descendantsAll rest

end

def descendantsNamed (n : Node) (name : String) : List Node :=
  n.descendants.filter fun d => d.name == some name

def caption (token : Option Token) (label : Option String) : String :=
  match label, token with
  | some l, some t => l ++ " " ++ t.render
  | some l, none => l
  | none, some t => t.render
  | none, none => "_"

mutual

def outline (level : Nat) : Node → String
  | ⟨token, label, children⟩ =>
    String.ofList (List.replicate (2 * level) ' ') ++ caption token label ++ "\n" ++
      outlineAll (level + 1) children

def outlineAll (level : Nat) : List Node → String
  | [] => ""
  | n :: rest => outline level n ++ outlineAll level rest

end

def render (n : Node) : String := outline 0 n

mutual

def dump : Node → String
  | ⟨token, label, children⟩ =>
    Dump.record "Node" [
      ("token", Dump.optional (token.map Token.dump)),
      ("rule_name", Dump.optional (label.map quoted)),
      ("children", Dump.list (dumpAll children))]

def dumpAll : List Node → List String
  | [] => []
  | n :: rest => n.dump :: dumpAll rest

end

@[simp]
theorem tokens_leaf (t : Token) : (leaf t).tokens = [t] := rfl

@[simp]
theorem tokensAll_append (ns ms : List Node) :
    tokensAll (ns ++ ms) = tokensAll ns ++ tokensAll ms := by
  induction ns with
  | nil => rfl
  | cons n ns ih => simp [tokensAll, ih]

end Node

end GrammarKit
