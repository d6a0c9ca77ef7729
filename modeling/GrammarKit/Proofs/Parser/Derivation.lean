import GrammarKit.Parser
import GrammarKit.Proofs.Recognizer.Lawful
import GrammarKit.Proofs.Table
import Mathlib.Algebra.GroupWithZero.Nat

/-!
This module contains `Parser.Derives`, the derivations that the rules of a parser stand for, and the
soundness of parsing: a tree that is yielded is derived, and holds the tokens it accounts for.
-/

namespace GrammarKit

open Recognizer

namespace Node

@[simp]
theorem tokens_labelled (name : String) (children : List Node)
    : (labelled name children).tokens = tokensAll children := rfl

theorem tokens_group (children : List Node) : (group children).tokens = tokensAll children := rfl

@[simp]
theorem tokensAll_singleton (n : Node) : tokensAll [n] = n.tokens := by
  simp [tokensAll]

theorem tokensAll_splice (n : Node) : tokensAll (Parser.splice n) = n.tokens := by
  obtain ⟨token, label, children⟩ := n
  unfold Parser.splice isGroup
  split
  · next h =>
    simp only [Bool.and_eq_true, Option.isNone_iff_eq_none] at h
    simp [tokens, h.1]
  · apply tokensAll_singleton

theorem tokensAll_flatMap_splice (outputs : List Node)
    : (tokensAll (outputs.flatMap Parser.splice)).length = (outputs.map size).sum := by
  induction outputs with
  | nil => rfl
  | cons n outputs ih =>
    rw [List.flatMap_cons, tokensAll_append, tokensAll_splice, List.length_append, ih]
    rfl

theorem mem_descendantsAll {d : Node} {ns : List Node}
    : d ∈ descendantsAll ns ↔ ∃ n ∈ ns, d ∈ n.descendants := by
  induction ns with
  | nil => simp [descendantsAll]
  | cons n ns ih => simp [descendantsAll, ih]

theorem mem_descendants_labelled {d : Node} {name : String} {children : List Node}
    : d ∈ (labelled name children).descendants ↔
        d = labelled name children ∨ ∃ n ∈ children, d ∈ n.descendants := by
  rw [← mem_descendantsAll]
  exact List.mem_cons

mutual

theorem mem_tokens_of_descendant {n d : Node} {t : Token} (h : d ∈ n.descendants)
    (ht : d.token = some t)
    : t ∈ n.tokens := by
  obtain ⟨token, label, children⟩ := n
  rw [tokens, List.mem_append, Option.mem_toList]
  rcases List.mem_cons.mp h with rfl | hd
  · exact .inl ht
  · exact .inr (mem_tokensAll_of_descendant hd ht)

theorem mem_tokensAll_of_descendant {ns : List Node} {d : Node} {t : Token}
    (h : d ∈ descendantsAll ns) (ht : d.token = some t)
    : t ∈ tokensAll ns := by
  match ns with
  | [] => cases h
  | n :: rest =>
    rw [tokensAll, List.mem_append]
    rcases List.mem_append.mp h with hd | hd
    · exact .inl (mem_tokens_of_descendant hd ht)
    · exact .inr (mem_tokensAll_of_descendant hd ht)

end

end Node

namespace Parser

open Node

/-- A rule derives the children of a node. -/
inductive Derives (rules : Table (Rule String)) : Rule String → List Node → Prop where
  | atom {kind : String} {t : Token} (h : t.kind = kind) : Derives rules (.atom kind) [leaf t]
  | ref {name : String} {rule : Rule String} {children : List Node}
      (hget : rules.get? name = some rule) (h : Derives rules rule children) :
      Derives rules (.ref name) [labelled name children]
  | seqNil : Derives rules (.seq []) []
  | seqCons {rule : Rule String} {rest : List (Rule String)} {ns ms : List Node}
      (first : Derives rules rule ns) (others : Derives rules (.seq rest) ms) :
      Derives rules (.seq (rule :: rest)) (ns ++ ms)
  | alt {rule : Rule String} {choices : List (Rule String)} {ns : List Node}
      (hmem : rule ∈ choices) (h : Derives rules rule ns) : Derives rules (.alt choices) ns
  | starNil {rule : Rule String} : Derives rules (.star rule) []
  | starCons {rule : Rule String} {ns ms : List Node} (first : Derives rules rule ns)
      (others : Derives rules (.star rule) ms) : Derives rules (.star rule) (ns ++ ms)
  | plus {rule : Rule String} {ns ms : List Node} (first : Derives rules rule ns)
      (others : Derives rules (.star rule) ms) : Derives rules (.plus rule) (ns ++ ms)
  | optNone {rule : Rule String} : Derives rules (.opt rule) []
  | optSome {rule : Rule String} {ns : List Node} (h : Derives rules rule ns) :
      Derives rules (.opt rule) ns
  | untilEmpty {rule : Rule String} {ns : List Node} (h : Derives rules (.star rule) ns) :
      Derives rules (.untilEmpty rule) ns

/-- A leaf that is nothing but its token, or the node of a named rule. -/
def WellFormed (rules : Table (Rule String)) (n : Node) : Prop :=
  (∃ t, n = leaf t) ∨ ∃ name children, n = labelled name children ∧ name ∈ rules.names

theorem Derives.wellFormed {rules : Table (Rule String)} {rule : Rule String} {ns : List Node}
    (h : Derives rules rule ns)
    : ∀ n ∈ ns, ∀ d ∈ n.descendants, WellFormed rules d := by
  -- groups leave no node behind, so only tokens and named rules add nodes of their own
  induction h with
  | @atom kind t _ =>
    intro n hn d hd
    rw [List.mem_singleton] at hn
    subst hn
    have hleaf : d = leaf t := List.mem_singleton.mp hd
    exact .inl ⟨t, hleaf⟩
  | @ref name rule children hget _ ih =>
    intro n hn d hd
    rw [List.mem_singleton] at hn
    subst hn
    rcases mem_descendants_labelled.mp hd with rfl | ⟨n, hn, hdn⟩
    · exact .inr ⟨name, children, rfl, Table.mem_names_iff.mpr ⟨rule, hget⟩⟩
    · exact ih n hn d hdn
  | seqNil => simp
  | starNil => simp
  | optNone => simp
  | seqCons _ _ ihfirst ihothers | starCons _ _ ihfirst ihothers | plus _ _ ihfirst ihothers =>
    intro n hn
    rcases List.mem_append.mp hn with hn | hn
    · exact ihfirst n hn
    · exact ihothers n hn
  | alt _ _ ih => exact ih
  | optSome _ ih => exact ih
  | untilEmpty _ ih => exact ih

theorem advance_eq_of_prefix {tokens : List Token} {n : Node} (h : n.tokens <+: tokens)
    : n.tokens ++ domain.advance tokens n = tokens := by
  obtain ⟨rest, rfl⟩ := h
  simp [domain, size]

theorem tokens_eq_of_drop {tokens : List Token} {n : Node} (h : n.tokens <+: tokens)
    (hdrop : tokens.drop n.size = [])
    : n.tokens = tokens := by
  have hsplit := advance_eq_of_prefix h
  have hrest : domain.advance tokens n = [] := hdrop
  rwa [hrest, List.append_nil] at hsplit

theorem row_tokens_prefix {tokens : List Token} {outputs : List Node}
    (h : Row domain (fun tokens n => n.tokens <+: tokens) tokens outputs)
    : (join outputs).tokens <+: tokens := by
  rw [join, tokens_group]
  induction h with
  | nil tokens => exact List.nil_prefix
  | @cons tokens n outputs first _ ih =>
    rw [List.flatMap_cons, tokensAll_append, tokensAll_splice]
    have hsplit := advance_eq_of_prefix first
    rw [← hsplit, List.prefix_append_right_inj]
    exact ih

theorem take_yields {kind : String} {tokens : List Token} {n : Node}
    : (take kind tokens).Yields n ↔ ∃ t rest, tokens = t :: rest ∧ t.kind = kind ∧ n = leaf t := by
  unfold take
  cases tokens with
  | nil => simp
  | cons t rest =>
    simp only [List.cons.injEq]
    split <;> simp_all [eq_comm]

theorem take_settles (kind : String) (tokens : List Token) : (take kind tokens).Settles := by
  unfold take
  split
  · apply Run.fail_settles
  · split
    · apply Run.ok_settles
    · apply Run.fail_settles

instance : Domain.Lawful domain where
  inner _ := []
  depth_inner h := by simp at h
  atom_le _ := Run.le_refl _
  Fits tokens n := n.tokens <+: tokens
  fits_atom {_ kind tokens n} h := by
    obtain ⟨t, rest, rfl, _, rfl⟩ := take_yields.mp h
    exact ⟨rest, rfl⟩
  fits_label {name tokens n} h := by
    show (labelled name (splice n)).tokens <+: tokens
    rwa [tokens_labelled, tokensAll_splice]
  fits_join h := row_tokens_prefix h
  Rest a b := b <:+ a
  rest_refl tokens := List.suffix_refl tokens
  rest_trans hab hbc := List.IsSuffix.trans hbc hab
  rest_advance {tokens n} _ := List.drop_suffix n.size tokens
  size_le h := h.length_le
  eq_of_size_eq hb hc heq :=
    (List.suffix_of_suffix_length_le hb hc (Nat.le_of_eq heq)).eq_of_length heq

instance (p : Parser) : Domain.Lawful p.recognizer.domain :=
  inferInstanceAs (Domain.Lawful domain)

variable {p : Parser}

theorem derives_star_of_row {rule : Rule String} {tokens : List Token} {outputs : List Node}
    (h : Row domain (fun _ n => Derives p.rules rule (splice n)) tokens outputs)
    : Derives p.rules (.star rule) (outputs.flatMap splice) := by
  induction h with
  | nil _ => exact .starNil
  | cons first _ ih => exact .starCons first ih

theorem derives_seq_of_each {rules : List (Rule String)} {tokens : List Token} {outputs : List Node}
    (h : Each domain (fun rule _ n => Derives p.rules rule (splice n)) rules tokens outputs)
    : Derives p.rules (.seq rules) (outputs.flatMap splice) := by
  induction h with
  | nil _ => exact .seqNil
  | cons first _ ih => exact .seqCons first ih

/-- Every combinator builds a derivation out of those of its parts. -/
theorem closed_derives
    : p.recognizer.Closed fun rule _ n => Derives p.rules rule (splice n) where
  atom _ h := by
    obtain ⟨t, rest, _, hkind, rfl⟩ := take_yields.mp h
    exact .atom hkind
  ref hget h := .ref hget h
  seq h := derives_seq_of_each h
  alt hmem h := .alt hmem h
  star h := derives_star_of_row h
  plus hfirst hrest := .plus hfirst (derives_star_of_row hrest)
  optSome h := .optSome h
  optNone := .optNone
  untilEmpty h := .untilEmpty (derives_star_of_row h)

theorem complete_eq_ok {tokens : List Token} {n node : Node} {swallowed : List Failure}
    : complete tokens n swallowed = .ok node ↔ tokens.drop n.size = [] ∧ n = node := by
  unfold complete
  split
  · next h => simp [h]
  · next h => simp [h]

theorem parse_eq_ok {tokens : List Token} {node : Node}
    : (p.parse tokens).run = some (.ok node) ↔
        (p.recognizer.run tokens).Yields node ∧ tokens.drop node.size = [] := by
  unfold parse
  match p.recognizer.run tokens with
  | .unsettled => simp [ExceptT.run, ExceptT.mk]
  | .settled (.error e) log => simp [ExceptT.run, ExceptT.mk]
  | .settled (.ok n) log =>
    simp only [ExceptT.run, ExceptT.mk, Option.some.injEq, complete_eq_ok, Run.settled_yields,
      Except.ok.injEq]
    constructor
    · rintro ⟨hdrop, rfl⟩
      exact ⟨rfl, hdrop⟩
    · rintro ⟨rfl, hdrop⟩
      exact ⟨hdrop, rfl⟩

theorem applyWithin_yields {n : Nat} {name : String} {tokens : List Token} {node : Node}
    (h : (p.recognizer.applyWithin n name tokens).Yields node)
    : node.tokens <+: tokens ∧ ∃ rule children, p.rules.get? name = some rule ∧
        Derives p.rules rule children ∧ node = labelled name children := by
  obtain ⟨rule, hrule, inner, hinner, rfl⟩ := call_yields.mp h
  refine ⟨Domain.Lawful.fits_label (p.recognizer.evalWithin_fits n rule tokens inner hinner), ?_⟩
  exact ⟨rule, splice inner, hrule, closed_derives.evalWithin hinner, rfl⟩

theorem tokens_of_parse {tokens : List Token} {node : Node}
    (h : (p.parse tokens).run = some (.ok node))
    : node.tokens = tokens := by
  obtain ⟨hrun, hdrop⟩ := parse_eq_ok.mp h
  exact tokens_eq_of_drop (applyWithin_yields hrun).1 hdrop

/--
A tree that a parser gives is that of a derivation of the root, and its leaves are the tokens. On
the way to it, every rule accounts for the tokens right where it stands.
-/
theorem parse_sound (p : Parser) (tokens : List Token)
    : (∀ node, (p.parse tokens).run = some (.ok node) →
        node.token = none ∧ node.label = some p.root ∧
          (∃ rule, p.rules.get? p.root = some rule ∧ Derives p.rules rule node.children) ∧
          node.tokens = tokens ∧
          ∀ d ∈ node.descendants,
            (∃ t, d = ⟨some t, none, []⟩) ∨
              (d.token = none ∧ ∃ name ∈ p.rules.names, d.label = some name)) ∧
        (∀ n rule rest output, (p.recognizer.evalWithin n rule rest).Yields output →
          output.tokens <+: rest ∧ output.tokens ++ domain.advance rest output = rest) ∧
        ∀ n name rest output, (p.recognizer.applyWithin n name rest).Yields output →
          output.tokens <+: rest ∧ output.tokens ++ domain.advance rest output = rest := by
  refine ⟨fun node hnode => ?_, fun n rule rest output h => ?_, fun n name rest output h => ?_⟩
  · obtain ⟨hrun, hdrop⟩ := parse_eq_ok.mp hnode
    obtain ⟨hpre, rule, children, hrule, hderives, rfl⟩ := applyWithin_yields hrun
    refine ⟨rfl, rfl, ⟨rule, hrule, hderives⟩, tokens_eq_of_drop hpre hdrop, fun d hd => ?_⟩
    have hwell := (Derives.ref hrule hderives).wellFormed _ (List.mem_singleton_self _) d hd
    rcases hwell with hleaf | ⟨name, inner, rfl, hname⟩
    · exact .inl hleaf
    · exact .inr ⟨rfl, name, hname, rfl⟩
  · have hpre := p.recognizer.evalWithin_fits n rule rest output h
    exact ⟨hpre, advance_eq_of_prefix hpre⟩
  · have hpre := (applyWithin_yields h).1
    exact ⟨hpre, advance_eq_of_prefix hpre⟩

theorem parse_sound_parentheses
    : ∃ (p : Parser) (node : Node), p.root = "s" ∧
        p.rules = Table.empty.set "s" (.seq [.atom "(", .star (.ref "s"), .atom ")"]) ∧
        (p.parse [⟨"(", "(", ⟨0, 0⟩, true⟩, ⟨")", ")", ⟨0, 1⟩, true⟩]).run = some (.ok node) ∧
        node.label = some "s" ∧ node.tokens.map Token.kind = ["(", ")"] := by
  let p : Parser :=
    ⟨Table.empty.set "s" (.seq [.atom "(", .star (.ref "s"), .atom ")"]), "s", rfl⟩
  let tokens : List Token := [⟨"(", "(", ⟨0, 0⟩, true⟩, ⟨")", ")", ⟨0, 1⟩, true⟩]
  have hparse : (p.parse tokens).run = some (.ok (labelled "s" (tokens.map leaf))) := rfl
  obtain ⟨_, hlabel, _, htokens, _⟩ := (parse_sound p tokens).1 _ hparse
  refine ⟨p, _, rfl, rfl, hparse, hlabel, ?_⟩
  rw [htokens]
  rfl

end Parser

end GrammarKit
