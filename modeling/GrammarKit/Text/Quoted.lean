import GrammarKit.Text.Unprintable

/-!
This module contains the quoted form of a text: double quotes around it, escapes for what would
break the line, end the quotes or not be seen.
-/

namespace GrammarKit

namespace Quoted

def escape (c : Char) : List Char :=
  match c with
  | '\x00' => ['\\', '0']
  | '\t' => ['\\', 't']
  | '\r' => ['\\', 'r']
  | '\n' => ['\\', 'n']
  | '"' => ['\\', '"']
  | '\\' => ['\\', '\\']
  | c =>
    if isUnprintable c then
      "\\u\x7b".toList ++ Nat.toDigits 16 c.toNat ++ ['\x7d']
    else
      [c]

def encode (text : List Char) : List Char :=
  '"' :: text.flatMap escape ++ ['"']

end Quoted

def quoted (text : String) : String :=
  String.ofList (Quoted.encode text.toList)

end GrammarKit
