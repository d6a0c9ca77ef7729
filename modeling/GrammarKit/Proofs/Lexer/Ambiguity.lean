import GrammarKit.Proofs.Lexer.Evaluation
import GrammarKit.Proofs.Recognizer.Ambiguity

/-!
This module contains when a lexer is never in doubt: no two of its rules match at the same place.
-/

namespace GrammarKit

open Recognizer Domain Rule

namespace Lexer

variable {lexer : Lexer}

theorem get?_recognizer {name : String} {body : Rule Regex}
    (h : lexer.recognizer.rules.get? name = some body)
    : body = .untilEmpty lexer.anyRule ∨ ∃ r, body = .atom r := by
  simp only [recognizer, Table.get?_set, Table.get?_map] at h
  split at h
  · exact .inl (Option.some.inj h).symm
  · obtain ⟨rule, _, heq⟩ := Option.map_eq_some_iff.mp h
    exact .inr ⟨rule.regex, heq.symm⟩

theorem alternatives_eq {name : String} {body : Rule Regex} {rules : List (Rule Regex)}
    (h : lexer.recognizer.rules.get? name = some body)
    (hoccurs : Occurs (Lawful.inner lexer.recognizer.domain) (.alt rules) body)
    : rules = lexer.rules.names.map .ref := by
  have hinner : ∀ r, Lawful.inner lexer.recognizer.domain r = [] := fun _ => rfl
  rcases get?_recognizer h with rfl | ⟨r, rfl⟩
  · rw [occurs_iff] at hoccurs
    simp only [reduceCtorEq, parts, List.mem_singleton, exists_eq_left, false_or] at hoccurs
    rw [anyRule, occurs_iff] at hoccurs
    rcases hoccurs with heq | ⟨part, hpart, hsub⟩
    · injection heq
    · obtain ⟨name, _, rfl⟩ := List.mem_map.mp hpart
      rw [occurs_iff] at hsub
      simp [parts] at hsub
  · rw [occurs_iff] at hoccurs
    simp [parts, hinner] at hoccurs

theorem unambiguous_of_matches
    (h : ∀ rest name name' value value', lexer.Matches rest name value →
      lexer.Matches rest name' value' → name = name')
    : lexer.recognizer.Unambiguous := by
  apply unambiguous_of_exclusive
  intro name body rules hbody hoccurs
  rw [alternatives_eq hbody hoccurs]
  refine List.pairwise_map.mpr (List.Pairwise.imp_of_mem ?_ (Table.names_nodup lexer.rules))
  intro a b ha hb hne cursor x y hx hy
  obtain ⟨rule, hrule⟩ := Table.mem_names_iff.mp ha
  obtain ⟨rule', hrule'⟩ := Table.mem_names_iff.mp hb
  obtain ⟨value, hmatch, _⟩ := (eval_name_yields hrule).mp hx
  obtain ⟨value', hmatch', _⟩ := (eval_name_yields hrule').mp hy
  exact hne (h _ _ _ _ _ hmatch hmatch')

end Lexer

end GrammarKit
