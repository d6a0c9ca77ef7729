import GrammarKit.Number.Checked

/-!
This module contains the reading and writing of 64-bit integers in decimal. A sign may stand in
front of the digits, and there is at least one digit.
-/

namespace GrammarKit

namespace Decimal

def isDigit (c : Char) : Bool :=
  '0' ≤ c && c ≤ '9'

def digit (c : Char) : Nat :=
  c.toNat - '0'.toNat

def value (digits : List Char) : Nat :=
  digits.foldl (fun n c => 10 * n + digit c) 0

def readNat? (text : List Char) : Option Nat :=
  if text ≠ [] ∧ text.all isDigit then some (value text) else none

def readInt? (text : List Char) : Option Int :=
  match text with
  | '-' :: digits => (readNat? digits).map fun n => -(n : Int)
  | '+' :: digits => (readNat? digits).map fun n => (n : Int)
  | digits => (readNat? digits).map fun n => (n : Int)

def read? (text : String) : Option Int64 :=
  (readInt? text.toList).bind Checked.ofInt?

def render (n : Int64) : String :=
  toString n.toInt

end Decimal

end GrammarKit
