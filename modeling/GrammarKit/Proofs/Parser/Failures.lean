import GrammarKit.Proofs.Failure
import GrammarKit.Proofs.Parser.Derivation
import GrammarKit.Proofs.Recognizer.Failures
import GrammarKit.Proofs.Recognizer.Outcome

/-!
This module contains the locations at which a parser fails. All that a failure tells is the greatest
location of the tokens that were left where it came about. Where locations ascend, this is that of
the last token of all, and at the end of the tokens it is none.
-/

namespace GrammarKit

open Recognizer Node

namespace Parser

variable {tokens : List Token} {e : Failure} {loc : Location}

theorem greatestLocation_eq_some
    : greatestLocation tokens = some loc ↔
        (∃ t ∈ tokens, t.location = loc) ∧ ∀ t ∈ tokens, t.location ≤ loc := by
  simp [greatestLocation, List.max?_eq_some_iff]

theorem exists_greatestLocation (hne : tokens ≠ [])
    : ∃ loc, greatestLocation tokens = some loc := by
  rw [← Option.ne_none_iff_exists', greatestLocation, ne_eq, List.max?_eq_none_iff,
    List.map_eq_nil_iff]
  exact hne

/-- The failure has no location, or the greatest one of the tokens from some place on. -/
def Placed (tokens : List Token) (e : Failure) : Prop :=
  ∀ loc, e.location = some loc → ∃ k < tokens.length, greatestLocation (tokens.drop k) = some loc

theorem exists_drop_of_greatest (h : greatestLocation tokens = some loc)
    : ∃ k < tokens.length, greatestLocation (tokens.drop k) = some loc := by
  obtain ⟨t, ht, _⟩ := (greatestLocation_eq_some.mp h).1
  exact ⟨0, List.length_pos_of_mem ht, h⟩

theorem placed_failureAt (message : String) : Placed tokens (domain.failureAt tokens message) :=
  fun _ hloc => exists_drop_of_greatest hloc

theorem Placed.of_suffix {rest : List Token} (h : Placed rest e) (hrest : rest <:+ tokens)
    : Placed tokens e := by
  obtain ⟨before, rfl⟩ := hrest
  intro loc hloc
  obtain ⟨k, hk, hgreatest⟩ := h loc hloc
  refine ⟨before.length + k, by simpa using hk, ?_⟩
  rwa [List.drop_length_add_append]

theorem faulting : domain.Faulting Placed where
  failureAt _ message := placed_failureAt message
  atom {_ kind tokens} _ := by
    show (take kind tokens).AllFailures (Placed tokens)
    unfold take
    split
    · exact .fail (placed_failureAt _)
    · split
      · exact .pure _
      · exact .fail (placed_failureAt _)
  inRule {tokens e} name h loc hloc := by
    -- a failure keeps its location; without one it gets that of the place where the rule is applied
    cases he : e.location with
    | some inner =>
      rw [inRule_location he] at hloc
      exact h loc (he.trans hloc)
    | none =>
      rw [inRule_location_of_none he] at hloc
      exact exists_drop_of_greatest hloc
  aggregate h loc hloc := by
    obtain ⟨e, he, heloc⟩ := Failure.exists_of_latest_location hloc
    exact h e he loc heloc
  of_rest hrest h := h.of_suffix hrest

theorem run_placed (p : Parser) (tokens : List Token)
    : (p.recognizer.run tokens).AllFailures (Placed tokens) :=
  run_allFailures (m := p.recognizer) faulting tokens

section Ascending

variable (hasc : (tokens.map Token.location).Pairwise (· ≤ ·)) (hne : tokens ≠ [])

include hasc in
theorem le_last {t : Token} (ht : t ∈ tokens) : t.location ≤ (tokens.getLast hne).location := by
  rw [List.pairwise_map] at hasc
  rcases List.mem_append.mp ((List.dropLast_append_getLast hne).symm ▸ ht) with hbefore | hlast
  · rw [← List.dropLast_append_getLast hne, List.pairwise_append] at hasc
    exact hasc.2.2 t hbefore _ (List.mem_singleton_self _)
  · rw [List.mem_singleton.mp hlast]
    apply Location.le_refl

theorem last_mem_drop {k : Nat} (hk : k < tokens.length) : tokens.getLast hne ∈ tokens.drop k := by
  have hdrop : tokens.drop k ≠ [] := by simpa using hk
  rw [← List.getLast_drop hdrop]
  apply List.getLast_mem

include hasc in
theorem Placed.eq_last (h : Placed tokens e) (hloc : e.location = some loc)
    : (tokens.getLast hne).location = loc := by
  obtain ⟨k, hk, hgreatest⟩ := h loc hloc
  obtain ⟨⟨t, ht, rfl⟩, hall⟩ := greatestLocation_eq_some.mp hgreatest
  apply Location.le_antisymm
  · exact hall _ (last_mem_drop hne hk)
  · exact le_last hasc hne (List.mem_of_mem_drop ht)

end Ascending

/-- A failure of the root has a location: if nothing else, that of all tokens. -/
theorem exists_location_of_run_fails {p : Parser} (hne : tokens ≠ [])
    (h : (p.recognizer.run tokens).FailsWith e)
    : ∃ loc, e.location = some loc := by
  obtain ⟨greatest, hgreatest⟩ := exists_greatestLocation hne
  rcases call_failsWith.mp h with ⟨_, rfl⟩ | ⟨rule, _, inner, _, rfl⟩
  · exact ⟨greatest, hgreatest⟩
  · cases hinner : inner.location with
    | some loc => exact ⟨loc, inRule_location hinner⟩
    | none => exact ⟨greatest, (inRule_location_of_none hinner).trans hgreatest⟩

theorem parse_of_run_fails {p : Parser} (h : (p.recognizer.run tokens).FailsWith e)
    : (p.parse tokens).run = some (.error e) := by
  obtain ⟨log, hrun⟩ := h
  unfold parse
  rw [hrun]
  rfl

/--
A parser that fails tells the greatest location of the tokens from some place on. Where locations
ascend, this is that of the last token, no matter which token the parser could not go on with.
-/
theorem failure_location (p : Parser) (tokens : List Token) (hne : tokens ≠ []) (e : Failure)
    (h : (p.recognizer.run tokens).FailsWith e)
    : (p.parse tokens).run = some (.error e) ∧
        (∃ k < tokens.length, ∃ t ∈ tokens.drop k, e.location = some t.location ∧
          ∀ other ∈ tokens.drop k, other.location ≤ t.location) ∧
        ((tokens.map Token.location).Pairwise (· ≤ ·) →
          e.location = some (tokens.getLast hne).location) := by
  have hplaced : Placed tokens e := (p.run_placed tokens).of_failsWith h
  obtain ⟨loc, hloc⟩ := exists_location_of_run_fails hne h
  refine ⟨parse_of_run_fails h, ?_, fun hasc => ?_⟩
  · obtain ⟨k, hk, hgreatest⟩ := hplaced loc hloc
    obtain ⟨⟨t, ht, rfl⟩, hall⟩ := greatestLocation_eq_some.mp hgreatest
    exact ⟨k, hk, t, ht, hloc, hall⟩
  · rw [hloc, hplaced.eq_last hasc hne hloc]

section Examples

/-- An `x`, and then any number of commas with an `x` behind each. -/
def commaList : Parser :=
  ⟨Table.empty.set "list" (.seq [.atom "x", .star (.seq [.atom ",", .atom "x"])]), "list",
    by decide⟩

def xAt (column : Nat) : Token := ⟨"x", "x", ⟨0, column⟩, true⟩

def commaAt (column : Nat) : Token := ⟨",", ",", ⟨0, column⟩, true⟩

/-- No list starts with a comma, but the failure is about the token behind it. -/
theorem failure_location_comma
    : ∃ e, (commaList.parse [commaAt 0, xAt 1]).run = some (.error e) ∧
        e.location = some ⟨0, 1⟩ := by
  have hfails : (commaList.recognizer.run [commaAt 0, xAt 1]).FailsWith
      ⟨"error while applying rule 'list': failed to find literal 'x'", some ⟨0, 1⟩⟩ := ⟨[], rfl⟩
  obtain ⟨hparse, _, hlast⟩ := failure_location commaList [commaAt 0, xAt 1] (by simp) _ hfails
  exact ⟨_, hparse, hlast (by decide)⟩

end Examples

section Leftover

variable {p : Parser} {n : Node} {swallowed : List Failure} {t : Token} {rest : List Token}

end Leftover

section Examples

end Examples

end Parser

end GrammarKit
