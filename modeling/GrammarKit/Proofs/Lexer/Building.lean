import GrammarKit.Lexer
import GrammarKit.Proofs.Table
import Mathlib.Data.List.Induction
import Mathlib.Data.List.Nodup

/-!
This module contains what a lexer holds, in terms of the rules it was made from.
-/

namespace GrammarKit

namespace Lexer

theorem get?_of_go {rules : List (String × TokenRule)} {base lexer : Lexer}
    (h : ofRules.go rules base = .ok lexer) {name : String} {rule : TokenRule}
    : lexer.rules.get? name = some rule ↔
        (name, rule) ∈ rules ∨ base.rules.get? name = some rule := by
  induction rules generalizing base with
  | nil =>
    rw [ofRules.go] at h
    injection h with h
    simp [h]
  | cons entry rules ih =>
    obtain ⟨first, value⟩ := entry
    rw [ofRules.go] at h
    split at h
    · cases h
    · split at h
      · cases h
      · next hnew =>
        rw [Bool.not_eq_true, Table.contains_eq_false_iff] at hnew
        rw [ih h, add, Table.get?_set, List.mem_cons, Prod.mk.injEq]
        split
        · next heq =>
          subst heq
          simp [hnew, eq_comm, or_comm]
        · next hne => simp [hne]

theorem get?_ofRules {rules : List (String × TokenRule)} {lexer : Lexer}
    (h : ofRules rules = .ok lexer) {name : String} {rule : TokenRule}
    : lexer.rules.get? name = some rule ↔ (name, rule) ∈ rules := by
  rw [get?_of_go h]
  simp [empty, EmptyCollection.emptyCollection]

theorem go_append (xs ys : List (String × TokenRule)) (base : Lexer)
    : ofRules.go (xs ++ ys) base = ofRules.go xs base >>= ofRules.go ys := by
  induction xs generalizing base with
  | nil => rfl
  | cons entry xs ih =>
    obtain ⟨name, rule⟩ := entry
    simp only [List.cons_append, ofRules.go]
    split
    · rfl
    · split
      · rfl
      · apply ih

theorem ofRules_append (xs ys : List (String × TokenRule))
    : ofRules (xs ++ ys) = ofRules xs >>= ofRules.go ys :=
  go_append xs ys empty

/-- No name comes twice, and none is that of the root. -/
def Fresh (names : List String) : Prop :=
  names.Nodup ∧ rootName ∉ names

theorem fresh_append_singleton {names : List String} {name : String}
    : Fresh (names ++ [name]) ↔ Fresh names ∧ name ≠ rootName ∧ name ∉ names := by
  simp only [Fresh, List.nodup_middle, List.append_nil, List.nodup_cons, List.mem_append,
    List.mem_singleton, not_or]
  grind

theorem contains_of_ofRules {rules : List (String × TokenRule)} {lexer : Lexer}
    (h : ofRules rules = .ok lexer) {name : String}
    : lexer.rules.contains name = true ↔ name ∈ rules.map Prod.fst := by
  rw [Table.contains, Option.isSome_iff_exists, List.mem_map]
  simp [get?_ofRules h]

theorem exists_ofRules {rules : List (String × TokenRule)} (h : Fresh (rules.map Prod.fst))
    : ∃ lexer, ofRules rules = .ok lexer := by
  induction rules using List.reverseRecOn with
  | nil => exact ⟨empty, rfl⟩
  | append_singleton rules entry ih =>
    obtain ⟨name, rule⟩ := entry
    rw [List.map_append, List.map_singleton, fresh_append_singleton] at h
    obtain ⟨hrules, hroot, hnew⟩ := h
    obtain ⟨lexer, hlexer⟩ := ih hrules
    rw [ofRules_append, hlexer]
    show ∃ lexer', ofRules.go [(name, rule)] lexer = .ok lexer'
    rw [ofRules.go, dif_neg hroot, if_neg (mt (contains_of_ofRules hlexer).mp hnew)]
    exact ⟨_, rfl⟩

section Offending

variable {rules : List (String × TokenRule)} {before after : List String} {name : String}

theorem split_of_names (h : rules.map Prod.fst = before ++ name :: after)
    : ∃ xs rule ys, rules = xs ++ (name, rule) :: ys ∧ xs.map Prod.fst = before := by
  obtain ⟨xs, others, rfl, hxs, hothers⟩ := List.map_eq_append_iff.mp h
  obtain ⟨⟨_, rule⟩, ys, rfl, rfl, _⟩ := List.map_eq_cons_iff.mp hothers
  exact ⟨xs, rule, ys, rfl, hxs⟩

theorem ofRules_reserved (h : rules.map Prod.fst = before ++ rootName :: after)
    (hbefore : Fresh before)
    : ofRules rules = .error (reserved rootName) := by
  obtain ⟨xs, rule, ys, rfl, rfl⟩ := split_of_names h
  obtain ⟨lexer, hlexer⟩ := exists_ofRules hbefore
  rw [ofRules_append, hlexer]
  show ofRules.go ((rootName, rule) :: ys) lexer = _
  rw [ofRules.go, dif_pos rfl]

theorem ofRules_duplicate (h : rules.map Prod.fst = before ++ name :: after)
    (hbefore : Fresh before) (hname : name ∈ before)
    : ofRules rules = .error (Table.duplicate name) := by
  obtain ⟨xs, rule, ys, rfl, rfl⟩ := split_of_names h
  obtain ⟨lexer, hlexer⟩ := exists_ofRules hbefore
  have hroot : name ≠ rootName := fun heq => hbefore.2 (heq ▸ hname)
  rw [ofRules_append, hlexer]
  show ofRules.go ((name, rule) :: ys) lexer = _
  rw [ofRules.go, dif_neg hroot, if_pos ((contains_of_ofRules hlexer).mpr hname)]

end Offending

section OfRegexes

variable {visible silent : List (String × Regex)} {lexer : Lexer}

theorem get?_ofRegexes (h : ofRegexes visible silent = .ok lexer) {name : String}
    {rule : TokenRule}
    : lexer.rules.get? name = some rule ↔
        (rule.silent = false ∧ (name, rule.regex) ∈ visible) ∨
          (rule.silent = true ∧ (name, rule.regex) ∈ silent) := by
  rw [get?_ofRules h, List.mem_append]
  obtain ⟨regex, isSilent⟩ := rule
  simp only [List.mem_map, Prod.mk.injEq, TokenRule.mk.injEq, Prod.exists]
  grind

theorem regex?_ofRegexes (h : ofRegexes visible silent = .ok lexer) (name : String) (r : Regex)
    : lexer.regex? name = some r ↔ (name, r) ∈ visible ++ silent := by
  rw [regex?, Option.map_eq_some_iff, List.mem_append]
  constructor
  · rintro ⟨rule, hrule, rfl⟩
    rcases (get?_ofRegexes h).mp hrule with ⟨_, hmem⟩ | ⟨_, hmem⟩
    · exact .inl hmem
    · exact .inr hmem
  · rintro (hmem | hmem)
    · exact ⟨⟨r, false⟩, (get?_ofRegexes h).mpr (.inl ⟨rfl, hmem⟩), rfl⟩
    · exact ⟨⟨r, true⟩, (get?_ofRegexes h).mpr (.inr ⟨rfl, hmem⟩), rfl⟩

theorem mem_visible_ofRegexes (h : ofRegexes visible silent = .ok lexer) (name : String)
    : name ∈ lexer.visible ↔ name ∈ visible.map Prod.fst := by
  rw [Lexer.visible, Table.mem_names_filter_iff]
  simp only [get?_ofRegexes h, List.mem_map, Prod.exists, exists_and_right, exists_eq_right]
  constructor
  · rintro ⟨rule, ⟨_, hmem⟩ | ⟨hsilent, _⟩, hvisible⟩
    · exact ⟨_, hmem⟩
    · simp [hsilent] at hvisible
  · rintro ⟨r, hmem⟩
    exact ⟨⟨r, false⟩, .inl ⟨rfl, hmem⟩, rfl⟩

end OfRegexes

end Lexer

end GrammarKit
