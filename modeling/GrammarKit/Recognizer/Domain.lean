import GrammarKit.Rule
import GrammarKit.Run

/-!
This module contains `Domain`, what rules need to know about the input they are applied to and the
output they give.
-/

namespace GrammarKit

/--
The meaning of rules with primitives `μ` over inputs `ι` and outputs `ω`.
-/
structure Domain (ι ω μ : Type) where
  /-- Apply a primitive. Primitives that hold rules are given a way to evaluate them. -/
  atom : (Rule μ → ι → Run ω) → μ → ι → Run ω
  /-- The input behind the part that an output accounts for. -/
  advance : ι → ω → ι
  join : List ω → ω
  isEmpty : ι → Bool
  size : ι → Nat
  location : ι → Option Location
  label : String → ω → ω
  /-- The location at which failures of alternatives are reported. -/
  furthest : List Location → Option Location
  decorate : ι → String → String
  dump : ω → String
  atomDepth : μ → Nat

namespace Domain

variable {ι ω μ : Type}

def failureAt (d : Domain ι ω μ) (input : ι) (message : String) : Failure :=
  ⟨d.decorate input message, d.location input⟩

def failAt {α : Type} (d : Domain ι ω μ) (input : ι) (message : String) : Run α :=
  .fail (d.failureAt input message)

end Domain

end GrammarKit
