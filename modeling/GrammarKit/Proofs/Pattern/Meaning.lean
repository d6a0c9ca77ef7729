import GrammarKit.Proofs.Pattern.Lexing
import GrammarKit.Proofs.Reduction.Named

/-!
This module contains what the trees of patterns are reduced to: the node of every named rule comes
down to a single rule, which is the one that its text stands for.
-/

namespace GrammarKit

open Node Token Reducer

namespace Pattern

def reductions : List (String × Reduction (Rule Matcher)) := [
  ("any", ofToken fun value => some (text value)),
  ("-", ofToken fun value => some (text value)),
  ("escape", ofToken unescape),
  ("class", ofNode range),
  ("negation", ofSingle fun rule => some (.atom (.not rule))),
  ("item", item),
  ("sequence", ofValues (combine .seq)),
  ("alternation", ofValues (combine .alt))]

theorem reducer_rules : reducer.rules = byName reductions := by
  simp only [reducer, byName, reductions, List.map_cons, List.map_nil]
  rfl

theorem reductions_nodup : (reductions.map Prod.fst).Nodup := by decide

theorem not_mem_of_suffix {kind : String} (h : kind ∈ suffixes) : kind ∉ reductions.map Prod.fst := by
  revert kind
  decide

abbrev Gives (ns : List Node) (rules : List (Rule Matcher)) : Prop :=
  Reducer.Gives reductions ns rules

section Leaves

variable {t : Token} {c : Char}

theorem value_eq_of_chars (h : t.chars = [c]) : t.value = String.singleton c := by
  rw [← String.toList_inj, String.toList_singleton]
  exact h

theorem gives_char (hkind : t.kind = "any" ∨ t.kind = "-") (h : t.chars = [c])
    : Gives [leaf t] [char c] := by
  have hmem : (t.kind, ofToken fun value => some (text value)) ∈ reductions := by
    rcases hkind with hkind | hkind
    · simp [reductions, hkind]
    · simp [reductions, hkind]
  have hleaf := gives_leaf reductions_nodup hmem
  simpa [ofToken, leaf, value_eq_of_chars h, char] using hleaf

theorem gives_escape (hkind : t.kind = "escape") {rule : Rule Matcher}
    (h : unescape t.value = some rule)
    : Gives [leaf t] [rule] := by
  have hmem : (t.kind, ofToken unescape) ∈ reductions := by simp [reductions, hkind]
  have hleaf := gives_leaf reductions_nodup hmem
  simpa [ofToken, leaf, h] using hleaf

end Leaves

section Nodes

variable {children : List Node} {rule : Rule Matcher} {rules : List (Rule Matcher)}

theorem combine_eq (several : List (Rule Matcher) → Rule Matcher) (rules : List (Rule Matcher))
    : combine several rules = some (collapse several rules) := by
  match rules with
  | [] => rfl
  | [rule] => rfl
  | first :: second :: rest => rfl

theorem gives_alternation (h : Gives children rules)
    : Gives [labelled "alternation" children] [collapse .alt rules] := by
  have hmem : ("alternation", ofValues (combine .alt)) ∈ reductions := by simp [reductions]
  have hnode := gives_labelled reductions_nodup hmem h
  rwa [ofValues, combine_eq] at hnode

theorem gives_sequence (h : Gives children rules)
    : Gives [labelled "sequence" children] [collapse .seq rules] := by
  have hmem : ("sequence", ofValues (combine .seq)) ∈ reductions := by simp [reductions]
  have hnode := gives_labelled reductions_nodup hmem h
  rwa [ofValues, combine_eq] at hnode

theorem gives_negation (h : Gives children [rule])
    : Gives [labelled "negation" children] [.atom (.not rule)] := by
  have hmem : ("negation", ofSingle fun rule => some (.atom (.not rule))) ∈ reductions := by
    simp [reductions]
  exact gives_labelled reductions_nodup hmem h

theorem item_mem : ("item", item) ∈ reductions := List.mem_of_getElem? (i := 5) rfl

theorem gives_item_plain (h : Gives [labelled "operand" children] [rule])
    : Gives [labelled "item" [labelled "operand" children]] [rule] := by
  exact gives_labelled reductions_nodup item_mem h

theorem gives_item_suffixed {t : Token} (hkind : t.kind ∈ suffixes)
    (hleaf : Gives [leaf t] []) {result : Rule Matcher} (hsuffix : suffixed t.kind rule = some result)
    (h : Gives [labelled "operand" children] [rule])
    : Gives [labelled "item" ([labelled "operand" children] ++ [leaf t])] [result] := by
  have hsuffix? : suffix? (labelled "item" ([labelled "operand" children] ++ [leaf t])) =
      some t.kind := by
    simp [suffix?, labelled, leaf, hkind]
  have hitem : item (labelled "item" ([labelled "operand" children] ++ [leaf t])) [rule] =
      some result := by
    unfold item
    rw [hsuffix?]
    exact hsuffix
  have hnode := gives_labelled reductions_nodup item_mem (h.append hleaf)
  rwa [List.append_nil, hitem] at hnode

theorem gives_class {t₁ t₂ t₃ t₄ t₅ : Token} {low high : Char} (hkind₁ : t₁.kind = "[")
    (hkind₂ : t₂.kind = "any") (hlow : t₂.chars = [low]) (hkind₃ : t₃.kind = "-")
    (hminus : t₃.chars = ['-']) (hkind₄ : t₄.kind = "any") (hhigh : t₄.chars = [high])
    (hkind₅ : t₅.kind = "]")
    : Gives [labelled "class" [leaf t₁, leaf t₂, leaf t₃, leaf t₄, leaf t₅]]
        [.atom (.range low high)] := by
  have hmem : ("class", ofNode range) ∈ reductions := by simp [reductions]
  have hopening : Gives [leaf t₁] [] := gives_leaf_of_not_mem (hkind₁ ▸ by decide)
  have hclosing : Gives [leaf t₅] [] := gives_leaf_of_not_mem (hkind₅ ▸ by decide)
  have hmiddle := (gives_char (.inr hkind₃) hminus).append (gives_char (.inl hkind₄) hhigh)
  have hchildren : Gives [leaf t₁, leaf t₂, leaf t₃, leaf t₄, leaf t₅] _ :=
    hopening.append ((gives_char (.inl hkind₂) hlow).append (hmiddle.append hclosing))
  have hrange : range (labelled "class" [leaf t₁, leaf t₂, leaf t₃, leaf t₄, leaf t₅]) =
      some (.atom (.range low high)) := by
    rw [chars] at hlow hhigh
    simp [range, tokensAll, hlow, hhigh]
  have hnode := gives_labelled reductions_nodup hmem hchildren
  rwa [ofNode, hrange] at hnode

end Nodes

end Pattern

end GrammarKit
