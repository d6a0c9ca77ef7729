import GrammarKit.Text.Quoted

/-!
This module contains the layout in which messages show structured data: lists in brackets, optional
values as `None` or `Some(..)`, records with their fields by name.
-/

namespace GrammarKit

namespace Dump

def list (items : List String) : String :=
  "[" ++ ", ".intercalate items ++ "]"

def optional (value : Option String) : String :=
  match value with
  | none => "None"
  | some v => "Some(" ++ v ++ ")"

def call (name : String) (args : List String) : String :=
  name ++ "(" ++ ", ".intercalate args ++ ")"

def record (name : String) (fields : List (String × String)) : String :=
  name ++ " \x7b " ++ ", ".intercalate (fields.map fun (field, value) => field ++ ": " ++ value) ++
    " \x7d"

end Dump

end GrammarKit
