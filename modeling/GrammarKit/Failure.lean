import GrammarKit.Text.Location

/-!
This module contains `Failure`, a message about some input and, where known, the location it is
about. Failures of the same input are put together into one, which keeps those that got furthest.
-/

namespace GrammarKit

structure Failure where
  message : String
  location : Option Location := none
  deriving DecidableEq, Repr

inductive Furthest where
  | latest
  | earliest
  | first
  | nowhere
  deriving DecidableEq, Repr

def Furthest.choose : Furthest → List Location → Option Location
  | .latest, locs => locs.max?
  | .earliest, locs => locs.min?
  | .first, locs => locs.head?
  | .nowhere, _ => none

namespace Failure

def render (e : Failure) : String :=
  match e.location with
  | some loc => loc.render ++ ": " ++ e.message
  | none => e.message

def unknown : Failure := ⟨"unknown error", none⟩

/--
Each message once, in the order of first occurrence. A single message stands alone, several are
listed in brackets.
-/
def joinMessages (errors : List Failure) : String :=
  match (errors.map message).eraseDups with
  | [m] => m
  | ms => "[" ++ ", ".intercalate ms ++ "]"

/--
Put failures together. `choose` picks a location among those of the located failures: the result is
about that location and speaks for the failures there. Without such a location it speaks for all.
-/
def aggregateBy (choose : List Location → Option Location) (errors : List Failure) : Failure :=
  if errors.isEmpty then
    unknown
  else
    match choose (errors.filterMap location) with
    | some loc => ⟨joinMessages (errors.filter fun e => e.location == some loc), some loc⟩
    | none => ⟨joinMessages errors, none⟩

def aggregate (errors : List Failure) : Failure :=
  aggregateBy Furthest.latest.choose errors

end Failure

end GrammarKit
