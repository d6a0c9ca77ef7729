import GrammarKit.Grammar.Basic
import GrammarKit.Text.Dump

/-!
This module contains the reader of grammars. Space may stand around every part, apart from the plus
sign of a repetition, which follows its brace at once. Reading goes as far as it can: an operator
whose right operand cannot be read is left unread, and so is a statement.
-/

namespace GrammarKit

namespace Reader

inductive Expected where
  | tag
  | closingQuote
  | endOfText
  deriving DecidableEq, Repr

structure Error where
  rest : List Char
  expected : Expected
  deriving DecidableEq, Repr

def Expected.render : Expected → String
  | .tag => "Tag"
  | .closingQuote => "TakeUntil"
  | .endOfText => "Eof"

def Error.render (e : Error) : String :=
  Dump.call "Error" [Dump.record "Error" [
    ("input", quoted (String.ofList e.rest)), ("code", e.expected.render)]]

def isSpace (c : Char) : Bool :=
  c == ' ' || c == '\t' || c == '\r' || c == '\n'

def isNameStart (c : Char) : Bool :=
  c.isAlpha || c == '_'

def isNamePart (c : Char) : Bool :=
  c.isAlphanum || c == '_'

def skipSpace (text : List Char) : List Char :=
  text.dropWhile isSpace

def symbol (c : Char) (text : List Char) : Except Error (List Char) :=
  match text with
  | [] => .error ⟨text, .tag⟩
  | d :: rest => if d = c then .ok rest else .error ⟨text, .tag⟩

def untilQuote (quote : Char) (text : List Char) : Option (List Char × List Char) :=
  match text with
  | [] => none
  | c :: rest =>
    if c = quote then
      some ([], rest)
    else
      (untilQuote quote rest).map fun (inner, behind) => (c :: inner, behind)

def quotedText (text : List Char) : Except Error (String × List Char) :=
  match text with
  | '"' :: rest =>
    match untilQuote '"' rest with
    | some (inner, behind) => .ok (String.ofList inner, behind)
    | none => .error ⟨text, .tag⟩
  | '\'' :: rest =>
    match untilQuote '\'' rest with
    | some (inner, behind) => .ok (String.ofList inner, behind)
    | none => .error ⟨rest, .closingQuote⟩
  | _ => .error ⟨text, .tag⟩

def name (text : List Char) : Except Error (String × List Char) :=
  match text with
  | [] => .error ⟨text, .tag⟩
  | c :: rest =>
    if isNameStart c then
      .ok (String.ofList (c :: rest.takeWhile isNamePart), rest.dropWhile isNamePart)
    else
      .error ⟨text, .tag⟩

def closed (close : Char) (read : List Char → Except Error (Rhs × List Char))
    (text : List Char) : Except Error (Rhs × List Char) := do
  let (inner, rest) ← read text
  let rest ← symbol close rest
  return (inner, rest)

def repeatedAs (inner : Rhs) (text : List Char) : Rhs × List Char :=
  match text with
  | '+' :: rest => (.repetition1 inner, rest)
  | _ => (.repetition inner, text)

/--
Read an operand that starts at once, given how to read what is in brackets. All ways to fail are
reported as the failure to find a name.
-/
def operand (nested : List Char → Except Error (Rhs × List Char)) (text : List Char) :
    Except Error (Rhs × List Char) :=
  let read : Except Error (Rhs × List Char) :=
    match text with
    | '(' :: rest => closed ')' nested rest
    | '{' :: rest => do
      let (inner, rest) ← closed '}' nested rest
      return repeatedAs inner rest
    | '[' :: rest => do
      let (inner, rest) ← closed ']' nested rest
      return (.optional inner, rest)
    | '"' :: _ | '\'' :: _ => do
      let (inner, rest) ← quotedText text
      return (.terminal inner, rest)
    | _ => do
      let (inner, rest) ← name text
      return (.identifier inner, rest)
  read.mapError fun _ => ⟨text, .tag⟩

/--
Read an operator and its right operand behind the left one. If that fails, then the left operand is
all there is.
-/
def infixed (op : Char) (combine : Rhs → Rhs → Rhs)
    (right : List Char → Except Error (Rhs × List Char)) (left : Rhs) (text : List Char) :
    Rhs × List Char :=
  match symbol op text >>= right with
  | .ok (operand, rest) => (combine left operand, rest)
  | .error _ => (left, text)

mutual

def alternation : Nat → List Char → Except Error (Rhs × List Char)
  | 0, text => .error ⟨text, .tag⟩
  | fuel + 1, text => do
    let (first, rest) ← concatenation fuel text
    return infixed '|' .alternation (alternation fuel) first rest

def concatenation : Nat → List Char → Except Error (Rhs × List Char)
  | 0, text => .error ⟨text, .tag⟩
  | fuel + 1, text => do
    let (first, rest) ← term fuel text
    return infixed ',' .concatenation (concatenation fuel) first rest

def term : Nat → List Char → Except Error (Rhs × List Char)
  | 0, text => .error ⟨text, .tag⟩
  | fuel + 1, text => do
    let (inner, rest) ← operand (alternation fuel) (skipSpace text)
    return (inner, skipSpace rest)

end

/--
Read a right-hand side. Three calls are enough for each character, since no call is nested in
another one of its kind before a character is used up.
-/
def rhs (text : List Char) : Except Error (Rhs × List Char) :=
  alternation (3 * text.length + 3) text

inductive Operator where
  | silentToken
  | token
  | production
  deriving DecidableEq, Repr

def operator (text : List Char) : Except Error (Operator × List Char) :=
  match text with
  | '~' :: '=' :: rest => .ok (.silentToken, rest)
  | '=' :: rest => .ok (.token, rest)
  | '-' :: '>' :: rest => .ok (.production, rest)
  | _ => .error ⟨text, .tag⟩

def statement (text : List Char) : Except Error (Statement × List Char) := do
  let (lhs, rest) ← name (skipSpace text)
  let (op, rest) ← operator (skipSpace rest)
  match op with
  | .production =>
    let (body, rest) ← rhs rest
    let rest ← symbol ';' rest
    return (.production ⟨lhs, body⟩, rest)
  | _ =>
    let (pattern, rest) ← quotedText (skipSpace rest)
    let rest ← symbol ';' (skipSpace rest)
    return (.token ⟨lhs, pattern, op == .silentToken⟩, rest)

/--
Read statements up to the first that cannot be read. Every statement uses up characters, so their
number bounds that of the statements.
-/
def statements : Nat → List Char → List Statement × List Char
  | 0, text => ([], text)
  | fuel + 1, text =>
    match statement text with
    | .error _ => ([], text)
    | .ok (first, rest) =>
      let (others, behind) := statements fuel rest
      (first :: others, behind)

end Reader

/-- Read a right-hand side, and leave out what follows it. -/
def Rhs.read (text : String) : Except Reader.Error Rhs :=
  Prod.fst <$> Reader.rhs text.toList

/-- Read a statement, and leave out what follows it. -/
def Statement.read (text : String) : Except Reader.Error Statement :=
  Prod.fst <$> Reader.statement text.toList

/--
Read a grammar. All of the text must be statements.
-/
def Grammar.read (text : String) : Except Reader.Error Grammar :=
  let (statements, rest) := Reader.statements text.toList.length text.toList
  match Reader.skipSpace rest with
  | [] => .ok ⟨statements⟩
  | left => .error ⟨left, .endOfText⟩

end GrammarKit
