import GrammarKit.Proofs.Parser.Derivation

/-!
This module contains two ways to reason about derivations one named rule at a time. To show
something of all derivations, a named rule is taken apart into the parts of its body, of which it
already holds. To find a derivation, one is put together for any tokens that are spelled in a
certain way.
-/

namespace GrammarKit

open Node

namespace Token

/-- What a token says, wherever it stands. -/
def spelling (t : Token) : String × String := (t.kind, t.value)

end Token

namespace Parser

def Every (p : Token → Prop) (ns : List Node) : Prop := ∀ t ∈ tokensAll ns, p t

section Every

variable {p : Token → Prop}

theorem every_append {ns ms : List Node} : Every p (ns ++ ms) ↔ Every p ns ∧ Every p ms := by
  simp [Every, or_imp, forall_and]

theorem every_singleton {n : Node} : Every p [n] ↔ ∀ t ∈ n.tokens, p t := by
  rw [Every, tokensAll_singleton]

theorem every_leaf {t : Token} : Every p [leaf t] ↔ p t := by
  simp [every_singleton]

theorem every_labelled {name : String} {children : List Node}
    : Every p [labelled name children] ↔ Every p children := by
  rw [every_singleton, tokens_labelled, Every]

end Every

/-- As `Derives`, where the nodes of named rules are those for which `good` holds. -/
inductive Built (good : String → List Node → Prop) : Rule String → List Node → Prop where
  | atom {kind : String} {t : Token} (h : t.kind = kind) : Built good (.atom kind) [leaf t]
  | ref {name : String} {ns : List Node} (h : good name ns) : Built good (.ref name) ns
  | seqNil : Built good (.seq []) []
  | seqCons {rule : Rule String} {rest : List (Rule String)} {ns ms : List Node}
      (first : Built good rule ns) (others : Built good (.seq rest) ms) :
      Built good (.seq (rule :: rest)) (ns ++ ms)
  | alt {rule : Rule String} {choices : List (Rule String)} {ns : List Node}
      (hmem : rule ∈ choices) (h : Built good rule ns) : Built good (.alt choices) ns
  | starNil {rule : Rule String} : Built good (.star rule) []
  | starCons {rule : Rule String} {ns ms : List Node} (first : Built good rule ns)
      (others : Built good (.star rule) ms) : Built good (.star rule) (ns ++ ms)
  | plus {rule : Rule String} {ns ms : List Node} (first : Built good rule ns)
      (others : Built good (.star rule) ms) : Built good (.plus rule) (ns ++ ms)
  | optNone {rule : Rule String} : Built good (.opt rule) []
  | optSome {rule : Rule String} {ns : List Node} (h : Built good rule ns) :
      Built good (.opt rule) ns
  | untilEmpty {rule : Rule String} {ns : List Node} (h : Built good (.star rule) ns) :
      Built good (.untilEmpty rule) ns

/-- What holds of a node whenever it holds of the nodes inside holds of all derivations. -/
theorem Derives.built {rules : Table (Rule String)} {good : String → List Node → Prop}
    (step : ∀ {name body children}, rules.get? name = some body → Built good body children →
      good name [labelled name children])
    {rule : Rule String} {ns : List Node} (h : Derives rules rule ns)
    : Built good rule ns := by
  induction h with
  | atom h => exact .atom h
  | ref hget _ ih => exact .ref (step hget ih)
  | seqNil => exact .seqNil
  | seqCons _ _ ihfirst ihothers => exact .seqCons ihfirst ihothers
  | alt hmem _ ih => exact .alt hmem ih
  | starNil => exact .starNil
  | starCons _ _ ihfirst ihothers => exact .starCons ihfirst ihothers
  | plus _ _ ihfirst ihothers => exact .plus ihfirst ihothers
  | optNone => exact .optNone
  | optSome _ ih => exact .optSome ih
  | untilEmpty _ ih => exact .untilEmpty ih

theorem Built.derives {rules : Table (Rule String)} {good : String → List Node → Prop}
    (hgood : ∀ {name ns}, good name ns → Derives rules (.ref name) ns)
    {rule : Rule String} {ns : List Node} (h : Built good rule ns)
    : Derives rules rule ns := by
  induction h with
  | atom h => exact .atom h
  | ref h => exact hgood h
  | seqNil => exact .seqNil
  | seqCons _ _ ihfirst ihothers => exact .seqCons ihfirst ihothers
  | alt hmem _ ih => exact .alt hmem ih
  | starNil => exact .starNil
  | starCons _ _ ihfirst ihothers => exact .starCons ihfirst ihothers
  | plus _ _ ihfirst ihothers => exact .plus ihfirst ihothers
  | optNone => exact .optNone
  | optSome _ ih => exact .optSome ih
  | untilEmpty _ ih => exact .untilEmpty ih

section Built

variable {good : String → List Node → Prop} {ns : List Node} {rule : Rule String}

theorem built_atom {kind : String}
    : Built good (.atom kind) ns ↔ ∃ t, t.kind = kind ∧ ns = [leaf t] := by
  constructor
  · intro h
    cases h with
    | atom h => exact ⟨_, h, rfl⟩
  · rintro ⟨t, h, rfl⟩
    exact .atom h

theorem built_ref {name : String} : Built good (.ref name) ns ↔ good name ns := by
  constructor
  · intro h
    cases h with
    | ref h => exact h
  · exact .ref

theorem built_seq_nil : Built good (.seq []) ns ↔ ns = [] := by
  constructor
  · intro h
    cases h with
    | seqNil => rfl
  · rintro rfl
    exact .seqNil

theorem built_seq_cons {rules : List (Rule String)}
    : Built good (.seq (rule :: rules)) ns ↔
        ∃ first others, Built good rule first ∧ Built good (.seq rules) others ∧
          ns = first ++ others := by
  constructor
  · intro h
    cases h with
    | seqCons first others => exact ⟨_, _, first, others, rfl⟩
  · rintro ⟨first, others, hfirst, hothers, rfl⟩
    exact .seqCons hfirst hothers

theorem built_pair {other : Rule String}
    : Built good (.seq [rule, other]) ns ↔
        ∃ first second, Built good rule first ∧ Built good other second ∧ ns = first ++ second := by
  constructor
  · intro h
    obtain ⟨first, others, hfirst, hothers, rfl⟩ := built_seq_cons.mp h
    obtain ⟨second, last, hsecond, hlast, rfl⟩ := built_seq_cons.mp hothers
    rw [built_seq_nil.mp hlast, List.append_nil]
    exact ⟨first, second, hfirst, hsecond, rfl⟩
  · rintro ⟨first, second, hfirst, hsecond, rfl⟩
    have hlast := Built.seqCons hsecond .seqNil
    rw [List.append_nil] at hlast
    exact .seqCons hfirst hlast

theorem built_alt {choices : List (Rule String)}
    : Built good (.alt choices) ns ↔ ∃ rule ∈ choices, Built good rule ns := by
  constructor
  · intro h
    cases h with
    | alt hmem h => exact ⟨_, hmem, h⟩
  · rintro ⟨rule, hmem, h⟩
    exact .alt hmem h

theorem built_star
    : Built good (.star rule) ns ↔
        ∃ groups : List (List Node), (∀ group ∈ groups, Built good rule group) ∧
          ns = groups.flatten := by
  -- there is a group for every round
  constructor
  · intro h
    generalize hstar : Rule.star rule = star at h
    induction h with
    | starNil => exact ⟨[], by simp, rfl⟩
    | starCons first _ _ ih =>
      cases hstar
      obtain ⟨groups, hgroups, rfl⟩ := ih rfl
      exact ⟨_ :: groups, List.forall_mem_cons.mpr ⟨first, hgroups⟩, rfl⟩
    | _ => cases hstar
  · rintro ⟨groups, hgroups, rfl⟩
    induction groups with
    | nil => exact .starNil
    | cons group groups ih =>
      rw [List.forall_mem_cons] at hgroups
      exact .starCons hgroups.1 (ih hgroups.2)

theorem built_plus
    : Built good (.plus rule) ns ↔
        ∃ group, ∃ groups : List (List Node), Built good rule group ∧
          (∀ group ∈ groups, Built good rule group) ∧ ns = group ++ groups.flatten := by
  constructor
  · intro h
    cases h with
    | plus first others =>
      obtain ⟨groups, hgroups, rfl⟩ := built_star.mp others
      exact ⟨_, groups, first, hgroups, rfl⟩
  · rintro ⟨group, groups, hgroup, hgroups, rfl⟩
    exact .plus hgroup (built_star.mpr ⟨groups, hgroups, rfl⟩)

theorem built_opt : Built good (.opt rule) ns ↔ ns = [] ∨ Built good rule ns := by
  constructor
  · intro h
    cases h with
    | optNone => exact .inl rfl
    | optSome h => exact .inr h
  · rintro (rfl | h)
    · exact .optNone
    · exact .optSome h

end Built

/-- The rule has a derivation, and a good one, for all tokens that are spelled like this. -/
def Spells (rules : Table (Rule String)) (rule : Rule String) (words : List (String × String))
    (good : List Node → Prop) : Prop :=
  ∀ tokens : List Token, tokens.map Token.spelling = words →
    ∃ ns, Derives rules rule ns ∧ tokensAll ns = tokens ∧ good ns

namespace Spells

variable {rules : Table (Rule String)} {rule : Rule String} {words others : List (String × String)}
variable {good first rest : List Node → Prop}

theorem mono (h : Spells rules rule words first) (hgood : ∀ ns, first ns → good ns)
    : Spells rules rule words good := by
  intro tokens htokens
  obtain ⟨ns, hns, rfl, hfirst⟩ := h tokens htokens
  exact ⟨ns, hns, rfl, hgood ns hfirst⟩

theorem append {other whole : Rule String} (hfirst : Spells rules rule words first)
    (hrest : Spells rules other others rest)
    (hderives : ∀ ns ms, Derives rules rule ns → Derives rules other ms →
      Derives rules whole (ns ++ ms))
    (hgood : ∀ ns ms, first ns → rest ms → good (ns ++ ms))
    : Spells rules whole (words ++ others) good := by
  intro tokens htokens
  obtain ⟨before, after, rfl, hbefore, hafter⟩ := List.map_eq_append_iff.mp htokens
  obtain ⟨ns, hns, rfl, hn⟩ := hfirst before hbefore
  obtain ⟨ms, hms, rfl, hm⟩ := hrest after hafter
  exact ⟨ns ++ ms, hderives ns ms hns hms, tokensAll_append ns ms, hgood ns ms hn hm⟩

theorem atom {kind value : String} (hgood : ∀ t : Token, t.spelling = (kind, value) → good [leaf t])
    : Spells rules (.atom kind) [(kind, value)] good := by
  intro tokens htokens
  obtain ⟨t, rfl, ht⟩ := List.map_eq_singleton_iff.mp htokens
  exact ⟨[leaf t], .atom (congrArg Prod.fst ht), rfl, hgood t ht⟩

theorem ref {name : String} {body : Rule String} (hget : rules.get? name = some body)
    (h : Spells rules body words first) (hgood : ∀ ns, first ns → good [labelled name ns])
    : Spells rules (.ref name) words good := by
  intro tokens htokens
  obtain ⟨ns, hns, rfl, hfirst⟩ := h tokens htokens
  exact ⟨[labelled name ns], .ref hget hns, by simp, hgood ns hfirst⟩

theorem seqNil (hgood : good []) : Spells rules (.seq []) [] good := by
  intro tokens htokens
  exact ⟨[], .seqNil, (List.map_eq_nil_iff.mp htokens).symm, hgood⟩

theorem seqCons {members : List (Rule String)} (hfirst : Spells rules rule words first)
    (hrest : Spells rules (.seq members) others rest)
    (hgood : ∀ ns ms, first ns → rest ms → good (ns ++ ms))
    : Spells rules (.seq (rule :: members)) (words ++ others) good :=
  hfirst.append hrest (fun _ _ => .seqCons) hgood

theorem alt {choices : List (Rule String)} (hmem : rule ∈ choices)
    (h : Spells rules rule words good)
    : Spells rules (.alt choices) words good := by
  intro tokens htokens
  obtain ⟨ns, hns, hrest⟩ := h tokens htokens
  exact ⟨ns, .alt hmem hns, hrest⟩

theorem starNil (hgood : good []) : Spells rules (.star rule) [] good := by
  intro tokens htokens
  exact ⟨[], .starNil, (List.map_eq_nil_iff.mp htokens).symm, hgood⟩

theorem starCons (hfirst : Spells rules rule words first)
    (hrest : Spells rules (.star rule) others rest)
    (hgood : ∀ ns ms, first ns → rest ms → good (ns ++ ms))
    : Spells rules (.star rule) (words ++ others) good :=
  hfirst.append hrest (fun _ _ => .starCons) hgood

theorem plus (hfirst : Spells rules rule words first)
    (hrest : Spells rules (.star rule) others rest)
    (hgood : ∀ ns ms, first ns → rest ms → good (ns ++ ms))
    : Spells rules (.plus rule) (words ++ others) good :=
  hfirst.append hrest (fun _ _ => .plus) hgood

theorem optNone (hgood : good []) : Spells rules (.opt rule) [] good := by
  intro tokens htokens
  exact ⟨[], .optNone, (List.map_eq_nil_iff.mp htokens).symm, hgood⟩

theorem optSome (h : Spells rules rule words good) : Spells rules (.opt rule) words good := by
  intro tokens htokens
  obtain ⟨ns, hns, hrest⟩ := h tokens htokens
  exact ⟨ns, .optSome hns, hrest⟩

end Spells

end Parser

end GrammarKit
