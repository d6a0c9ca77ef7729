import GrammarKit.Proofs.Language.Names

/-!
This module contains `Rhs.Derives`, the derivations that the right-hand sides of a grammar stand
for. The rules of its parser have the same ones: that chains become lists makes no difference.
-/

namespace GrammarKit

open Node Rule

/--
A right-hand side derives the children of a node. A name is that of a production before it is that
of a token.
-/
inductive Rhs.Derives (g : Grammar) : Rhs → List Node → Prop where
  | production {name : String} {p : Production} {children : List Node} (hp : p ∈ g.productions)
      (hname : p.name = name) (h : Derives g p.rhs children) :
      Derives g (.identifier name) [labelled name children]
  | token {name : String} {t : Token} (hnot : ¬ g.IsProduction name) (hname : g.IsToken name)
      (h : t.kind = name) : Derives g (.identifier name) [leaf t]
  | terminal {text : String} {t : Token} (h : t.kind = text) : Derives g (.terminal text) [leaf t]
  | optionalNone {inner : Rhs} : Derives g (.optional inner) []
  | optionalSome {inner : Rhs} {ns : List Node} (h : Derives g inner ns) :
      Derives g (.optional inner) ns
  | repetition {inner : Rhs} {groups : List (List Node)}
      (h : ∀ group ∈ groups, Derives g inner group) :
      Derives g (.repetition inner) groups.flatten
  | repetition1 {inner : Rhs} {groups : List (List Node)} (hne : groups ≠ [])
      (h : ∀ group ∈ groups, Derives g inner group) :
      Derives g (.repetition1 inner) groups.flatten
  | left {left right : Rhs} {ns : List Node} (h : Derives g left ns) :
      Derives g (.alternation left right) ns
  | right {left right : Rhs} {ns : List Node} (h : Derives g right ns) :
      Derives g (.alternation left right) ns
  | concatenation {left right : Rhs} {ns ms : List Node} (first : Derives g left ns)
      (rest : Derives g right ms) : Derives g (.concatenation left right) (ns ++ ms)

namespace Language

section Flattening

variable {good : String → List Node → Prop} {last : Rhs} {rule : Rule String} {ns : List Node}

theorem built_alternatives
    : (∃ choice ∈ alternatives last rule, Parser.Built good choice ns) ↔
        Parser.Built good rule ns := by
  unfold alternatives
  split
  · exact Parser.built_alt.symm
  · simp

theorem built_members
    : Parser.Built good (.seq (members last rule)) ns ↔ Parser.Built good rule ns := by
  unfold members
  split
  · rfl
  · simp [Parser.built_seq_cons, Parser.built_seq_nil]

end Flattening

section Chains

variable {productions tokens : List String} {rhs last : Rhs} {rule first rest : Rule String}

def IsRow : Rule String → Prop
  | .seq _ => True
  | _ => False

def IsChoice : Rule String → Prop
  | .alt _ => True
  | _ => False

/-- At least two rules, of which the last is none of the kind. -/
def Chain (kind : Rule String → Prop) (rules : List (Rule String)) : Prop :=
  2 ≤ rules.length ∧ ∀ last, rules.getLast? = some last → ¬ kind last

/-- The rules of a row or a choice are all operands of a chain, and not split between two lists. -/
def Chained : Rule String → Prop
  | .seq rules => Chain IsRow rules
  | .alt rules => Chain IsChoice rules
  | _ => True

theorem Chain.cons {kind : Rule String → Prop} {rules : List (Rule String)} (h : Chain kind rules)
    : Chain kind (first :: rules) := by
  obtain ⟨hlength, hlast⟩ := h
  cases rules with
  | nil => cases hlength
  | cons part parts => exact ⟨Nat.le_succ_of_le hlength, hlast⟩

theorem chain_pair {kind : Rule String → Prop} (h : ¬ kind rest) : Chain kind [first, rest] := by
  refine ⟨Nat.le_refl 2, fun last hlast => ?_⟩
  cases hlast
  exact h

/-- Only an operator becomes a list, and each one becomes a list of its own kind. -/
theorem RuleFor.isRow (h : RuleFor productions tokens rhs rule) (hrow : IsRow rule)
    : ∃ left right, rhs = .concatenation left right := by
  cases h with
  | concatenation => exact ⟨_, _, rfl⟩
  | _ => exact hrow.elim

theorem RuleFor.isChoice (h : RuleFor productions tokens rhs rule) (hchoice : IsChoice rule)
    : ∃ left right, rhs = .alternation left right := by
  cases h with
  | alternation => exact ⟨_, _, rfl⟩
  | _ => exact hchoice.elim

theorem chained_members (hrest : RuleFor productions tokens last rest) (h : Chained rest)
    : Chained (.seq (first :: members last rest)) := by
  unfold members
  split
  · exact h.cons
  · next hnot =>
    apply chain_pair
    intro hrow
    obtain ⟨left, right, rfl⟩ := hrest.isRow hrow
    cases rest with
    | seq rules => exact hnot left right rules rfl rfl
    | _ => exact hrow

theorem chained_alternatives (hrest : RuleFor productions tokens last rest) (h : Chained rest)
    : Chained (.alt (first :: alternatives last rest)) := by
  unfold alternatives
  split
  · exact h.cons
  · next hnot =>
    apply chain_pair
    intro hchoice
    obtain ⟨left, right, rfl⟩ := hrest.isChoice hchoice
    cases rest with
    | alt rules => exact hnot left right rules rfl rfl
    | _ => exact hchoice

theorem RuleFor.chained (h : RuleFor productions tokens rhs rule)
    : Everywhere (fun _ => []) Chained rule := by
  induction h with
  | ref | atom | terminal => exact .of_parts trivial (List.forall_mem_nil _)
  | optional _ ih
  | repetition _ ih
  | repetition1 _ ih => exact .of_parts trivial (List.forall_mem_singleton.mpr ih)
  | alternation _ hright ihl ihr =>
    exact .of_parts (chained_alternatives hright (ihr _ .here))
      (List.forall_mem_cons.mpr ⟨ihl, everywhere_alternatives ihr⟩)
  | concatenation _ hright ihl ihr =>
    exact .of_parts (chained_members hright (ihr _ .here))
      (List.forall_mem_cons.mpr ⟨ihl, everywhere_members ihr⟩)

end Chains

variable {g : Grammar} {declared : List (String × TokenRule)} {language : Language}

section Derivations

variable (hdeclared : (tokenRules g.tokenDefs).run = some (.ok declared))

include hdeclared in
/-- Induction is on the right-hand side, as for the rule; productions are not gone into. -/
theorem derives_of_built {rhs : Rhs} {rule : Rule String} {ns : List Node}
    (hrule : RuleFor (g.productions.map Production.name) (kinds g declared) rhs rule)
    (h : Parser.Built (fun name => Rhs.Derives g (.identifier name)) rule ns)
    : rhs.Derives g ns := by
  induction hrule generalizing ns with
  | ref => exact Parser.built_ref.mp h
  | atom hnot hname =>
    obtain ⟨t, hkind, rfl⟩ := Parser.built_atom.mp h
    rw [Grammar.mem_productionNames] at hnot
    exact .token hnot ((mem_kinds hdeclared).mp hname) hkind
  | terminal text =>
    obtain ⟨t, hkind, rfl⟩ := Parser.built_atom.mp h
    exact .terminal hkind
  | optional _ ih =>
    rcases Parser.built_opt.mp h with rfl | h
    · exact .optionalNone
    · exact .optionalSome (ih h)
  | repetition _ ih =>
    obtain ⟨groups, hgroups, rfl⟩ := Parser.built_star.mp h
    exact .repetition fun group hmem => ih (hgroups group hmem)
  | @repetition1 inner _ _ ih =>
    obtain ⟨first, groups, hfirst, hgroups, rfl⟩ := Parser.built_plus.mp h
    have hall : ∀ group ∈ first :: groups, inner.Derives g group :=
      List.forall_mem_cons.mpr ⟨ih hfirst, fun group hmem => ih (hgroups group hmem)⟩
    exact .repetition1 (List.cons_ne_nil first groups) hall
  | alternation _ _ ihl ihr =>
    obtain ⟨choice, hchoice, hbuilt⟩ := Parser.built_alt.mp h
    rcases List.mem_cons.mp hchoice with rfl | hchoice
    · exact .left (ihl hbuilt)
    · exact .right (ihr (built_alternatives.mp ⟨choice, hchoice, hbuilt⟩))
  | concatenation _ _ ihl ihr =>
    obtain ⟨ns, ms, hns, hms, rfl⟩ := Parser.built_seq_cons.mp h
    exact .concatenation (ihl hns) (ihr (built_members.mp hms))

variable (hassemble : assemble g declared = .ok language)

omit hdeclared in
include hassemble in
theorem built_of_derives {rhs : Rhs} {ns : List Node} (h : rhs.Derives g ns) {rule : Rule String}
    (hrule : RuleFor (g.productions.map Production.name) (kinds g declared) rhs rule)
    : Parser.Built (fun name => Parser.Derives language.parser.rules (.ref name)) rule ns := by
  induction h generalizing rule with
  | @production name p children hp hname _ ih =>
    cases hrule with
    | atom hnot => exact absurd (Grammar.mem_productionNames.mpr ⟨p, hp, hname⟩) hnot
    | ref =>
      obtain ⟨body, hbody⟩ := exists_of_productionRules (assemble_rules hassemble) hp
      have hget := (get?_parserRules hassemble).mpr ⟨p, hp, hname, hbody⟩
      exact .ref (.ref hget ((ih (ruleFor_of_ruleOf hbody)).derives id))
  | token hnot _ hkind =>
    cases hrule with
    | ref hname => exact absurd (Grammar.mem_productionNames.mp hname) hnot
    | atom => exact .atom hkind
  | terminal hkind =>
    cases hrule
    exact .atom hkind
  | optionalNone =>
    cases hrule
    exact .optNone
  | optionalSome _ ih =>
    cases hrule with
    | optional hpart => exact .optSome (ih hpart)
  | repetition _ ih =>
    cases hrule with
    | repetition hpart =>
      exact Parser.built_star.mpr ⟨_, fun group hmem => ih group hmem hpart, rfl⟩
  | @repetition1 _ groups hne _ ih =>
    cases hrule with
    | repetition1 hpart =>
      obtain ⟨first, others, rfl⟩ := List.exists_cons_of_ne_nil hne
      obtain ⟨hfirst, hothers⟩ := List.forall_mem_cons.mp ih
      refine Parser.built_plus.mpr ⟨first, others, hfirst hpart, fun group hmem => ?_, rfl⟩
      exact hothers group hmem hpart
  | left _ ih =>
    cases hrule with
    | alternation hleft => exact .alt List.mem_cons_self (ih hleft)
  | right _ ih =>
    cases hrule with
    | alternation _ hright =>
      obtain ⟨choice, hchoice, h⟩ := built_alternatives.mpr (ih hright)
      exact .alt (List.mem_cons_of_mem _ hchoice) h
  | concatenation _ _ ihl ihr =>
    cases hrule with
    | concatenation hleft hright => exact .seqCons (ihl hleft) (built_members.mpr (ihr hright))

include hdeclared hassemble in
theorem derives_iff {rhs : Rhs} {rule : Rule String} {ns : List Node}
    (hrule : RuleFor (g.productions.map Production.name) (kinds g declared) rhs rule)
    : Parser.Derives language.parser.rules rule ns ↔ rhs.Derives g ns := by
  constructor
  · intro h
    apply derives_of_built hdeclared hrule
    apply h.built
    intro name body children hbody hchildren
    obtain ⟨p, hp, hname, hrule⟩ := (get?_parserRules hassemble).mp hbody
    exact .production hp hname (derives_of_built hdeclared (ruleFor_of_ruleOf hrule) hchildren)
  · intro h
    exact (built_of_derives hassemble h hrule).derives id

end Derivations

/--
The rule of a production derives what its right-hand side derives, no more and no less; its lists
are whole chains.
-/
theorem rule_derives_iff_rhs_derives (h : (ofGrammar g).run = some (.ok language)) {p : Production}
    (hp : p ∈ g.productions)
    : ∃ rule, language.parser.rules.get? p.name = some rule ∧
        (∀ ns, Parser.Derives language.parser.rules rule ns ↔ p.rhs.Derives g ns) ∧
        Everywhere (fun _ => []) Chained rule := by
  obtain ⟨declared, hdeclared, hassemble⟩ := ofGrammar_eq_ok.mp h
  obtain ⟨rule, hrule⟩ := exists_of_productionRules (assemble_rules hassemble) hp
  have hget := (get?_parserRules hassemble).mpr ⟨p, hp, rfl, hrule⟩
  have hfor := ruleFor_of_ruleOf hrule
  exact ⟨rule, hget, fun ns => derives_iff hdeclared hassemble hfor, hfor.chained⟩

section Examples

/-- The pair on the left stays in one piece, and the row on the right becomes part of the list. -/
def pairs : Production where
  name := "pairs"
  rhs := .concatenation (.concatenation (.terminal "x") (.terminal "y"))
    (.concatenation (.terminal ";") (.optional (.identifier "pairs")))

def pairsRule : Rule String :=
  .seq [.seq [.atom "x", .atom "y"], .atom ";", .opt (.ref "pairs")]

def pairsLanguage : Language where
  lexer := ⟨.ofList [("x", ⟨.literal "x", false⟩), ("y", ⟨.literal "y", false⟩),
    (";", ⟨.literal ";", false⟩)], by decide⟩
  parser := ⟨.ofList [("pairs", pairsRule)], "pairs", by decide⟩

def word (text : String) : Node := leaf ⟨text, text, ⟨0, 0⟩, true⟩

theorem rule_derives_iff_rhs_derives_pairs
    : (ofGrammar ⟨[.production pairs]⟩).run = some (.ok pairsLanguage) ∧
        pairs ∈ Grammar.productions ⟨[.production pairs]⟩ ∧
        pairsLanguage.parser.rules.get? "pairs" = some pairsRule ∧
        Everywhere (fun _ => []) Chained pairsRule ∧
        Parser.Derives pairsLanguage.parser.rules pairsRule
          [word "x", word "y", word ";", labelled "pairs" [word "x", word "y", word ";"]] := by
  have hload : (ofGrammar ⟨[.production pairs]⟩).run = some (.ok pairsLanguage) := rfl
  have hmem : pairs ∈ Grammar.productions ⟨[.production pairs]⟩ := List.mem_singleton_self pairs
  obtain ⟨rule, hrule, hderives, hchained⟩ := rule_derives_iff_rhs_derives hload hmem
  obtain rfl : pairsRule = rule := Option.some.inj hrule
  refine ⟨hload, hmem, hrule, hchained, (hderives _).mpr ?_⟩
  have hword (text : String) : (Rhs.terminal text).Derives ⟨[.production pairs]⟩ [word text] :=
    .terminal rfl
  have hpair := (hword "x").concatenation (hword "y")
  have hone : pairs.rhs.Derives ⟨[.production pairs]⟩ [word "x", word "y", word ";"] :=
    hpair.concatenation ((hword ";").concatenation .optionalNone)
  exact hpair.concatenation ((hword ";").concatenation (.optionalSome (.production hmem rfl hone)))

end Examples

end Language

end GrammarKit
