import GrammarKit.Recognizer.Basic
import GrammarKit.Text.Dump

/-!
This module contains the domain of number sequences: each primitive is a number and takes the same
number from the front.
-/

namespace GrammarKit

namespace Numbers

structure Input where
  values : List Int
  location : Option Location := none
  deriving DecidableEq, Repr

structure Output where
  values : List Int
  label : Option String := none
  deriving DecidableEq, Repr

def take (fail : String → Run Output) (n : Int) : List Int → Run Output
  | [] => fail "no input"
  | v :: _ => if v = n then .ok ⟨[n], none⟩ else fail s!"{v} != {n}"

def Input.advance (input : Input) (output : Output) : Input :=
  let n := output.values.length
  ⟨input.values.drop n, input.location.map fun loc => ⟨loc.line, loc.col + n⟩⟩

def Output.join (outputs : List Output) : Output :=
  ⟨outputs.flatMap Output.values, none⟩

def Output.dump (output : Output) : String :=
  Dump.record "Output" [
    ("vals", Dump.list (output.values.map fun v => s!"{v}")),
    ("rule_name", Dump.optional (output.label.map quoted))]

def countLeft (input : Input) (message : String) : String :=
  s!"<{input.values.length} left> {message}"

/--
The domain of number sequences. Failures are put together as `furthest` says; messages are
decorated if `decorated` is set.
-/
def domain (furthest : Furthest) (decorated : Bool) : Domain Input Output Int :=
  let decorate input message := if decorated then countLeft input message else message
  { atom := fun _ n input =>
      take (fun message => .fail ⟨decorate input message, input.location⟩) n input.values
    advance := Input.advance
    join := Output.join
    isEmpty := fun input => input.values.isEmpty
    size := fun input => input.values.length
    location := Input.location
    label := fun name output => { output with label := some name }
    furthest := furthest.choose
    decorate
    dump := Output.dump
    atomDepth := fun _ => 0 }

end Numbers

end GrammarKit
