import GrammarKit.Proofs.Parser.Derivation
import GrammarKit.Proofs.Recognizer.Rearranged
import GrammarKit.Proofs.Regex.Matching
import GrammarKit.Proofs.Termination

/-!
This module contains the independence of parsers and regexes from the order of alternatives: the
order shows only in messages.
-/

namespace GrammarKit

open Recognizer

section Outcomes

variable {α β : Type}

theorem Eventually.Alike.map (f : α → β) {x y : Eventually Failure α} (h : Alike x y)
    : Alike (f <$> x) (f <$> y) := by
  have hrun (z : Eventually Failure α) : (f <$> z).run = z.run.map (Except.map f) :=
    ExceptT.run_map f z
  cases hx : x.run with
  | none => exact .of_never (by rw [hrun, hx]; rfl) (by rw [hrun, h.never.mp hx]; rfl)
  | some result =>
    cases result with
    | ok a =>
      have hy := (h.value a).mp hx
      exact .of_agree (by rw [hrun, hx]; rfl) (by rw [hrun, hy]; rfl) (.ok rfl)
    | error e =>
      obtain ⟨e', hy, he⟩ := (h.failure e.location).mp ⟨e, hx, rfl⟩
      exact .of_agree (by rw [hrun, hx]; rfl) (by rw [hrun, hy]; rfl) (.error he.symm)

theorem Run.Alike.toEventually {x y : Run α} (h : Run.Alike Eq x y)
    : Eventually.Alike x.toEventually y.toEventually := by
  cases h with
  | unsettled => exact .of_never rfl rfl
  | settled hresult hlog => exact .of_agree rfl rfl hresult

end Outcomes

namespace Parser

theorem impartial : domain.Impartial (fun _ => []) (fun kind _ => kind) where
  furthest_eq_of_perm h := Location.max?_eq_of_perm h
  atom_alike _ := .refl (fun _ => rfl) _

theorem complete_agree {tokens : List Token} {n : Node} {log log' : List Failure}
    (hlog : (log.map Failure.location).Perm (log'.map Failure.location))
    : Agree Eq (complete tokens n log) (complete tokens n log') := by
  unfold complete
  split
  · exact .ok rfl
  · have hempty : log.isEmpty = log'.isEmpty := by
      rw [Bool.eq_iff_iff, List.isEmpty_iff_length_eq_zero, List.isEmpty_iff_length_eq_zero]
      simpa using congrArg (· = 0) hlog.length_eq
    apply Agree.error
    rw [hempty]
    split
    · rfl
    · exact Failure.aggregateBy_location_eq_of_perm Location.max?_eq_of_perm hlog

theorem parse_alike {p p' : Parser} {tokens : List Token}
    (h : Run.Alike Eq (p.recognizer.run tokens) (p'.recognizer.run tokens))
    : Eventually.Alike (p.parse tokens) (p'.parse tokens) := by
  unfold parse
  generalize p.recognizer.run tokens = x, p'.recognizer.run tokens = y at h
  cases h with
  | unsettled => exact .of_never rfl rfl
  | settled hresult hlog =>
    cases hresult with
    | ok hn => exact .of_agree rfl rfl (hn ▸ complete_agree hlog)
    | error he => exact .of_agree rfl rfl (.error he)

end Parser

namespace Matcher

/-- The primitive with other rules inside. -/
def rebuild : Matcher → List (Rule Matcher) → Matcher
  | .not _, [rule] => .not rule
  | m, _ => m

theorem impartial : domain.Impartial inner rebuild where
  furthest_eq_of_perm h := Location.max?_eq_of_perm h
  atom_alike {ev ev' m rules pos} h := by
    cases m with
    | literal text => exact .refl (fun _ => rfl) (apply ev (.literal text) pos)
    | range low high => exact .refl (fun _ => rfl) (apply ev (.range low high) pos)
    | not rule =>
      cases h with
      | @cons _ rule' _ _ first others =>
        cases others
        show Run.Alike Eq (apply ev (.not rule) pos) (apply ev' (.not rule') pos)
        simp only [apply]
        split
        · exact .fail rfl
        · exact first.attempt_andThen_same (fun _ => .fail rfl) fun _ _ _ => .ok rfl

end Matcher

theorem Regex.rearranged_rules {r r' : Regex}
    (h : r.rule.Rearranged Matcher.inner Matcher.rebuild r'.rule)
    : r.recognizer.rules.Rearranged Matcher.inner Matcher.rebuild r'.recognizer.rules := by
  intro name
  simp only [Regex.recognizer, Table.get?_set, Table.get?_empty]
  split
  · exact .some h
  · exact .none

/--
Alternatives may stand in any order, anywhere in a table of rules or in a regex: whatever it is
applied to, the same comes of it, be it the same tree or text, a failure at the same location, or
nothing ever.
-/
theorem alike_of_rearranged
    : (∀ rules rules' : Table (Rule String),
        rules.Rearranged (fun _ => []) (fun kind _ => kind) rules' →
          ∀ (root : String) (h : rules.contains root = true),
            ∃ h' : rules'.contains root = true, ∀ tokens,
              Eventually.Alike (Parser.parse ⟨rules, root, h⟩ tokens)
                (Parser.parse ⟨rules', root, h'⟩ tokens)) ∧
        ∀ r r' : Regex, r.rule.Rearranged Matcher.inner Matcher.rebuild r'.rule →
          ∀ text, Eventually.Alike (r.matchText text) (r'.matchText text) := by
  constructor
  · intro rules rules' hrules root h
    have hroot := hrules root
    rw [Table.contains, Option.isSome_iff_exists] at h
    obtain ⟨rule, hrule⟩ := h
    rw [hrule] at hroot
    cases hroot' : rules'.get? root with
    | none => simp [hroot'] at hroot
    | some rule' =>
      have h' : rules'.contains root = true := by rw [Table.contains, hroot']; rfl
      exact ⟨h', fun tokens => Parser.parse_alike (run_alike Parser.impartial hrules tokens)⟩
  · intro r r' h text
    have hrun : Run.Alike Eq (r.recognizer.run (.ofString text)) (r'.recognizer.run (.ofString text)) :=
      run_alike Matcher.impartial (Regex.rearranged_rules h) _
    exact hrun.toEventually.map String.ofList

section Examples

/-- Any number of tokens, each of one of the kinds. -/
def listOf (kinds : List String) : Table (Rule String) :=
  Table.empty.set "list" (.star (.alt (kinds.map .atom)))

/-- The text up to one of the words. -/
def upTo (words : List String) : Regex :=
  ⟨.star (.atom (.not (.alt (words.map fun word => .atom (.literal word)))))⟩

theorem listOf_rearranged
    : (listOf ["name", "number"]).Rearranged (fun _ => []) (fun kind _ => kind)
        (listOf ["number", "name"]) := by
  intro name
  simp only [listOf, Table.get?_set, Table.get?_empty]
  split
  · exact .some (.star (.alt (.cons (.atom .nil) (.cons (.atom .nil) .nil)) (.swap _ _ _)))
  · exact .none

theorem upTo_rearranged
    : (upTo ["end", "else"]).rule.Rearranged Matcher.inner Matcher.rebuild
        (upTo ["else", "end"]).rule := by
  have hwords : Rule.Rearranged Matcher.inner Matcher.rebuild
      (.alt [.atom (.literal "end"), .atom (.literal "else")])
      (.alt [.atom (.literal "else"), .atom (.literal "end")]) :=
    .alt (.cons (.atom .nil) (.cons (.atom .nil) .nil)) (.swap _ _ _)
  exact .star (.atom (a := Matcher.not _) (.cons hwords .nil))

def nameThenSign : List Token :=
  [⟨"name", "x", ⟨0, 0⟩, true⟩, ⟨"sign", "+", ⟨0, 1⟩, true⟩]

/-- The name is a list, and the failure is about what was tried behind it. -/
theorem alike_of_rearranged_list
    : (∃ h h', Eventually.Alike
          (Parser.parse ⟨listOf ["name", "number"], "list", h⟩ nameThenSign)
          (Parser.parse ⟨listOf ["number", "name"], "list", h'⟩ nameThenSign) ∧
        ∃ e, (Parser.parse ⟨listOf ["name", "number"], "list", h⟩ nameThenSign).run =
          some (.error e) ∧ e.location = some ⟨0, 1⟩) ∧
        Eventually.Alike ((upTo ["end", "else"]).matchText "x else y")
          ((upTo ["else", "end"]).matchText "x else y") ∧
        ((upTo ["end", "else"]).matchText "x else y").run = some (.ok "x ") := by
  obtain ⟨h', hparse⟩ := alike_of_rearranged.1 _ _ listOf_rearranged "list" rfl
  exact ⟨⟨rfl, h', hparse _, _, rfl, rfl⟩, alike_of_rearranged.2 _ _ upTo_rearranged _, rfl⟩

end Examples

end GrammarKit
