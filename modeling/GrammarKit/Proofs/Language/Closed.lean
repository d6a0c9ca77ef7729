import GrammarKit.Proofs.Language.Terminals
import GrammarKit.Proofs.Lexer.Ambiguity
import GrammarKit.Proofs.Lisp.Language
import GrammarKit.Proofs.Recognizer.Reaches
import GrammarKit.Proofs.Termination

/-!
This module contains that languages are closed: the rules that the rules of a language name are
there, and so no text leads to a name without a rule.
-/

namespace GrammarKit

open Recognizer Domain Rule Node

namespace Pattern

/-- The rule is not a name. -/
def NoName (rule : Rule Matcher) : Prop :=
  ∀ name, rule ≠ .ref name

/-- No name stands in the rule, not even where it is negated. -/
def NameFree (rule : Rule Matcher) : Prop :=
  Everywhere Matcher.inner NoName rule

theorem nameFree_text (s : String) : NameFree (text s) :=
  .of_parts nofun nofun

theorem nameFree_collapse {several : List (Rule Matcher) → Rule Matcher}
    {rules : List (Rule Matcher)} (hseveral : NameFree (several rules))
    (hrules : ∀ rule ∈ rules, NameFree rule)
    : NameFree (collapse several rules) := by
  unfold collapse
  split
  · exact hrules _ List.mem_cons_self
  · exact hseveral

-- one lemma for each type of the specification, and in it one case for each of its rules
mutual

theorem nameFree_alternation {s : List Char} {rule : Rule Matcher}
    : Alternation s rule → NameFree rule
  | .of h =>
    nameFree_collapse (.of_parts nofun (nameFree_sequences h)) (nameFree_sequences h)

theorem nameFree_sequences {s : List Char} {rules : List (Rule Matcher)}
    : Sequences s rules → ∀ rule ∈ rules, NameFree rule
  | .last h => List.forall_mem_singleton.mpr (nameFree_sequence h)
  | .more first others =>
    List.forall_mem_cons.mpr ⟨nameFree_sequence first, nameFree_sequences others⟩

theorem nameFree_sequence {s : List Char} {rule : Rule Matcher} : Sequence s rule → NameFree rule
  | .of h => nameFree_collapse (.of_parts nofun (nameFree_items h)) (nameFree_items h)

theorem nameFree_items {s : List Char} {rules : List (Rule Matcher)}
    : Items s rules → ∀ rule ∈ rules, NameFree rule
  | .last h => List.forall_mem_singleton.mpr (nameFree_item h)
  | .more first others => List.forall_mem_cons.mpr ⟨nameFree_item first, nameFree_items others⟩

theorem nameFree_item {s : List Char} {rule : Rule Matcher} : Item s rule → NameFree rule
  | .plain h => nameFree_operand h
  | .star h => .of_parts nofun (List.forall_mem_singleton.mpr (nameFree_operand h))
  | .plus h => .of_parts nofun (List.forall_mem_singleton.mpr (nameFree_operand h))
  | .opt h => .of_parts nofun (List.forall_mem_singleton.mpr (nameFree_operand h))
  | .untilEmpty h => .of_parts nofun (List.forall_mem_singleton.mpr (nameFree_operand h))

theorem nameFree_operand {s : List Char} {rule : Rule Matcher} : Operand s rule → NameFree rule
  | .range _ _ => .of_parts nofun nofun
  | .group h => nameFree_alternation h
  | .negation h => .of_parts nofun (List.forall_mem_singleton.mpr (nameFree_operand h))
  | .operator _ => nameFree_text _
  | .newline => nameFree_text _
  | .tab => nameFree_text _
  | .char _ => nameFree_text _

end

theorem nameFree_of_load {p : String} {r : Regex} (h : (load p).run = some (.ok r))
    : NameFree r.rule :=
  nameFree_alternation (alternation_of_load h)

end Pattern

theorem Regex.selfContained_of_nameFree {r : Regex} (h : Pattern.NameFree r.rule)
    : r.recognizer.SelfContained := by
  have hinner : Lawful.inner r.recognizer.domain = Matcher.inner := Matcher.inner_eq
  have hroot : r.recognizer.rules.get? r.recognizer.root = some r.rule :=
    Table.get?_set_self Table.empty rootName r.rule
  apply selfContained_of_resolved (Table.contains_of_eq_some hroot)
  intro name body hbody sub hsub other hother
  have hrule : body = r.rule := by
    simp only [recognizer, Table.get?_set, Table.get?_empty] at hbody
    grind
  rw [hinner, hrule] at hsub
  exact absurd hother (h sub hsub other)

namespace Lexer

variable {lexer : Lexer} {name : String}

/-- The root calls the rules of the lexer, and these call nothing. -/
theorem selfContained (lexer : Lexer) : lexer.recognizer.SelfContained := by
  apply selfContained_of_resolved (Table.contains_of_eq_some get?_root)
  intro name body hbody
  rcases get?_recognizer hbody with rfl | ⟨r, rfl⟩
  · refine .of_parts nofun (List.forall_mem_singleton.mpr ?_)
    refine .of_parts nofun fun part hpart => ?_
    obtain ⟨other, hother, rfl⟩ := List.mem_map.mp hpart
    refine .of_parts ?_ nofun
    rintro _ ⟨⟩
    obtain ⟨rule, hrule⟩ := Table.mem_names_iff.mp hother
    exact Table.contains_of_eq_some (get?_name hrule)
  · exact .of_parts nofun nofun

theorem notMem_silent (h : name ∈ lexer.visible) : name ∉ lexer.silent := by
  intro hsilent
  obtain ⟨rule, hrule, hvisible⟩ := Table.mem_names_filter_iff.mp h
  obtain ⟨rule', hrule', hsilent⟩ := Table.mem_names_filter_iff.mp hsilent
  rw [hrule, Option.some.injEq] at hrule'
  subst hrule'
  rw [hsilent] at hvisible
  cases hvisible

theorem mem_visible_or_silent {rule : TokenRule} (h : lexer.rules.get? name = some rule)
    : name ∈ lexer.visible ∨ name ∈ lexer.silent := by
  cases hsilent : rule.silent with
  | false => exact .inl (Table.mem_names_filter_iff.mpr ⟨rule, h, by simp [hsilent]⟩)
  | true => exact .inr (Table.mem_names_filter_iff.mpr ⟨rule, h, hsilent⟩)

end Lexer

namespace Language

variable {g : Grammar} {language : Language} {declared : List (String × TokenRule)}

section Rules

variable {productions tokens : List String}

/-- A name is that of a production, and a primitive is that of a token. -/
def Uses (productions tokens : List String) : Rule String → Prop
  | .ref name => name ∈ productions
  | .atom kind => kind ∈ tokens
  | _ => True

/-- All names in the rule are those of productions, and all primitives those of tokens. -/
def Within (productions tokens : List String) (rule : Rule String) : Prop :=
  Everywhere (fun _ => []) (Uses productions tokens) rule

theorem everywhere_alternatives {P : Rule String → Prop} {last : Rhs} {rule : Rule String}
    (h : Everywhere (fun _ => []) P rule)
    : ∀ part ∈ alternatives last rule, Everywhere (fun _ => []) P part := by
  unfold alternatives
  split
  · exact fun _ hpart => h.part hpart
  · exact List.forall_mem_singleton.mpr h

theorem everywhere_members {P : Rule String → Prop} {last : Rhs} {rule : Rule String}
    (h : Everywhere (fun _ => []) P rule)
    : ∀ part ∈ members last rule, Everywhere (fun _ => []) P part := by
  unfold members
  split
  · exact fun _ hpart => h.part hpart
  · exact List.forall_mem_singleton.mpr h

/-- The rule for a right-hand side, told from those for its parts. -/
inductive RuleFor (productions tokens : List String) : Rhs → Rule String → Prop where
  | ref {name : String} (h : name ∈ productions) :
    RuleFor productions tokens (.identifier name) (.ref name)
  | atom {name : String} (hnot : name ∉ productions) (h : name ∈ tokens) :
    RuleFor productions tokens (.identifier name) (.atom name)
  | terminal (text : String) : RuleFor productions tokens (.terminal text) (.atom text)
  | optional {inner : Rhs} {part : Rule String} (h : RuleFor productions tokens inner part) :
    RuleFor productions tokens (.optional inner) (.opt part)
  | repetition {inner : Rhs} {part : Rule String} (h : RuleFor productions tokens inner part) :
    RuleFor productions tokens (.repetition inner) (.star part)
  | repetition1 {inner : Rhs} {part : Rule String} (h : RuleFor productions tokens inner part) :
    RuleFor productions tokens (.repetition1 inner) (.plus part)
  | alternation {left right : Rhs} {first rest : Rule String}
      (hleft : RuleFor productions tokens left first)
      (hright : RuleFor productions tokens right rest) :
    RuleFor productions tokens (.alternation left right) (.alt (first :: alternatives right rest))
  | concatenation {left right : Rhs} {first rest : Rule String}
      (hleft : RuleFor productions tokens left first)
      (hright : RuleFor productions tokens right rest) :
    RuleFor productions tokens (.concatenation left right) (.seq (first :: members right rest))

theorem ruleFor_of_ruleOf {rhs : Rhs} {rule : Rule String}
    (h : ruleOf productions tokens rhs = .ok rule)
    : RuleFor productions tokens rhs rule := by
  induction rhs generalizing rule with
  | identifier name =>
    unfold ruleOf at h
    split at h
    · next hname =>
      cases h
      exact .ref hname
    · next hnot =>
      split at h
      · next hname =>
        cases h
        exact .atom hnot hname
      · cases h
  | terminal text =>
    cases h
    exact .terminal text
  | optional inner ih =>
    obtain ⟨part, hpart, h⟩ := bind_eq_ok.mp h
    cases h
    exact .optional (ih hpart)
  | repetition inner ih =>
    obtain ⟨part, hpart, h⟩ := bind_eq_ok.mp h
    cases h
    exact .repetition (ih hpart)
  | repetition1 inner ih =>
    obtain ⟨part, hpart, h⟩ := bind_eq_ok.mp h
    cases h
    exact .repetition1 (ih hpart)
  | alternation left right ihl ihr =>
    obtain ⟨first, hfirst, h⟩ := bind_eq_ok.mp h
    obtain ⟨rest, hrest, h⟩ := bind_eq_ok.mp h
    cases h
    exact .alternation (ihl hfirst) (ihr hrest)
  | concatenation left right ihl ihr =>
    obtain ⟨first, hfirst, h⟩ := bind_eq_ok.mp h
    obtain ⟨rest, hrest, h⟩ := bind_eq_ok.mp h
    cases h
    exact .concatenation (ihl hfirst) (ihr hrest)

theorem RuleFor.within {rhs : Rhs} {rule : Rule String} (h : RuleFor productions tokens rhs rule)
    (hterminals : ∀ t ∈ rhs.terminals, t ∈ tokens)
    : Within productions tokens rule := by
  induction h with
  | ref hname => exact .of_parts hname nofun
  | atom _ hname => exact .of_parts hname nofun
  | terminal text => exact .of_parts (hterminals text List.mem_cons_self) nofun
  | optional _ ih
  | repetition _ ih
  | repetition1 _ ih => exact .of_parts trivial (List.forall_mem_singleton.mpr (ih hterminals))
  | alternation _ _ ihl ihr =>
    obtain ⟨hleft, hright⟩ := List.forall_mem_append.mp hterminals
    exact .of_parts trivial
      (List.forall_mem_cons.mpr ⟨ihl hleft, everywhere_alternatives (ihr hright)⟩)
  | concatenation _ _ ihl ihr =>
    obtain ⟨hleft, hright⟩ := List.forall_mem_append.mp hterminals
    exact .of_parts trivial
      (List.forall_mem_cons.mpr ⟨ihl hleft, everywhere_members (ihr hright)⟩)

theorem get?_productionRules {ps : List Production} {table rules : Table (Rule String)}
    (h : productionRules productions tokens ps table = .ok rules) {name : String}
    {rule : Rule String}
    : rules.get? name = some rule ↔ table.get? name = some rule ∨
        ∃ p ∈ ps, p.name = name ∧ ruleOf productions tokens p.rhs = .ok rule := by
  induction ps generalizing table with
  | nil =>
    cases h
    simp
  | cons p ps ih =>
    obtain ⟨body, hbody, h⟩ := bind_eq_ok.mp h
    obtain ⟨table', htable', h⟩ := bind_eq_ok.mp h
    obtain ⟨hnew, rfl⟩ := Table.insert_eq_ok.mp (mapError_eq_ok.mp htable')
    rw [ih h, Table.get?_set, List.exists_mem_cons_iff, hbody]
    split
    · next heq =>
      subst heq
      simp [hnew]
    · next hne => simp [Ne.symm hne]

theorem exists_of_productionRules {ps : List Production} {table rules : Table (Rule String)}
    (h : productionRules productions tokens ps table = .ok rules) {p : Production} (hp : p ∈ ps)
    : ∃ rule, ruleOf productions tokens p.rhs = .ok rule := by
  induction ps generalizing table with
  | nil => cases hp
  | cons first ps ih =>
    obtain ⟨body, hbody, h⟩ := bind_eq_ok.mp h
    obtain ⟨_, _, h⟩ := bind_eq_ok.mp h
    rcases List.mem_cons.mp hp with rfl | hrest
    · exact ⟨body, hbody⟩
    · exact ih h hrest

end Rules

/-- The kinds of tokens that the rules of the parser may name. -/
def kinds (g : Grammar) (declared : List (String × TokenRule)) : List String :=
  declared.map Prod.fst ++ implicitTokens g

section Assembled

variable (hdeclared : (tokenRules g.tokenDefs).run = some (.ok declared))
variable (h : assemble g declared = .ok language)

include h in
theorem assemble_rules
    : productionRules (g.productions.map Production.name) (kinds g declared) g.productions ∅ =
        .ok language.parser.rules :=
  (parts_of_assemble h).1

include h in
theorem get?_parserRules {name : String} {rule : Rule String}
    : language.parser.rules.get? name = some rule ↔
        ∃ p ∈ g.productions, p.name = name ∧
          ruleOf (g.productions.map Production.name) (kinds g declared) p.rhs = .ok rule := by
  simp [get?_productionRules (assemble_rules h), EmptyCollection.emptyCollection]

include h in
theorem contains_of_mem_productions {p : Production} (hp : p ∈ g.productions)
    : language.parser.rules.contains p.name = true := by
  obtain ⟨rule, hrule⟩ := exists_of_productionRules (assemble_rules h) hp
  exact Table.contains_of_eq_some ((get?_parserRules h).mpr ⟨p, hp, rfl, hrule⟩)

include hdeclared in
theorem mem_kinds_of_terminal {p : Production} (hp : p ∈ g.productions) {t : String}
    (ht : t ∈ p.rhs.terminals)
    : t ∈ kinds g declared := by
  rw [kinds, List.mem_append]
  by_cases hname : t ∈ g.tokenDefs.map TokenDef.name
  · obtain ⟨d, hd, rfl⟩ := List.mem_map.mp hname
    obtain ⟨regex, _, hentry⟩ := exists_of_tokenRules hdeclared hd
    exact .inl (List.mem_map.mpr ⟨_, hentry, rfl⟩)
  · exact .inr (mem_implicitTokens.mpr ⟨⟨p, hp, ht⟩, hname⟩)

include hdeclared h in
theorem within_parserRules {name : String} {rule : Rule String}
    (hget : language.parser.rules.get? name = some rule)
    : Within (g.productions.map Production.name) (kinds g declared) rule := by
  obtain ⟨p, hp, _, hrule⟩ := (get?_parserRules h).mp hget
  exact (ruleFor_of_ruleOf hrule).within fun t ht => mem_kinds_of_terminal hdeclared hp ht

include h in
theorem get?_lexer_of_mem_kinds {kind : String} (hkind : kind ∈ kinds g declared)
    : ∃ rule, language.lexer.rules.get? kind = some rule := by
  simp only [Lexer.get?_ofRules (assemble_lexer h), mem_lexerRules]
  rcases List.mem_append.mp hkind with hname | himplicit
  · obtain ⟨⟨_, rule⟩, hentry, rfl⟩ := List.mem_map.mp hname
    exact ⟨rule, .inl hentry⟩
  · exact ⟨_, .inr ⟨himplicit, rfl⟩⟩

include hdeclared h in
theorem nameFree_regex {name : String} {r : Regex} (hr : language.lexer.regex? name = some r)
    : Pattern.NameFree r.rule := by
  obtain ⟨rule, hrule, rfl⟩ := Option.map_eq_some_iff.mp hr
  rw [Lexer.get?_ofRules (assemble_lexer h), mem_lexerRules] at hrule
  rcases hrule with hentry | ⟨_, heq⟩
  · obtain ⟨_, _, _, _, hload⟩ := (mem_of_tokenRules hdeclared).mp hentry
    exact Pattern.nameFree_of_load hload
  · obtain rfl : rule = ⟨.literal name, false⟩ := congrArg Prod.snd heq
    exact Pattern.nameFree_text name

include hdeclared h in
theorem selfContained_parserRules : language.parser.recognizer.SelfContained := by
  apply selfContained_of_resolved language.parser.root_known
  intro name body hbody sub hsub other hother
  subst hother
  obtain ⟨p, hp, rfl⟩ := List.mem_map.mp (within_parserRules hdeclared h hbody _ hsub)
  exact contains_of_mem_productions h hp

end Assembled

theorem visible_of_parse {text : String} {node d : Node} {t : Token}
    (h : (language.parse text).run = some (.ok node)) (hd : d ∈ node.descendants)
    (ht : d.token = some t)
    : t.visible = true ∧ t.kind ∈ language.lexer.visible := by
  obtain ⟨all, hall, hmem, hvisible⟩ := lexAll_of_parse h hd ht
  exact ⟨hvisible, ((Lexer.reads_of_lexAll hall).visible t hmem).mp hvisible⟩

/--
Rules of the parser name productions of the grammar and tokens of the lexer only, and regexes name
nothing. So no text leads to a name without a rule, be it in the lexer, in its regexes or in the
parser. The leaves of trees are tokens of visible rules.
-/
structure ClosedOver (language : Language) (g : Grammar) : Prop where
  refs : ∀ name body, language.parser.rules.get? name = some body →
    ∀ other, Occurs (fun _ => []) (.ref other) body →
      (∃ p ∈ g.productions, p.name = other) ∧ language.parser.rules.contains other = true
  literals : ∀ name body, language.parser.rules.get? name = some body →
    ∀ kind, Occurs (fun _ => []) (.atom kind) body →
      kind ∈ language.lexer.visible ∨ kind ∈ language.lexer.silent
  regexes : ∀ name r, language.lexer.regex? name = some r →
    ∀ other, ¬ Occurs Matcher.inner (.ref other) r.rule
  lexer_selfContained : language.lexer.recognizer.SelfContained
  regex_selfContained : ∀ name r, language.lexer.regex? name = some r → r.recognizer.SelfContained
  parser_selfContained : language.parser.recognizer.SelfContained
  leaves : ∀ text node, (language.parse text).run = some (.ok node) → ∀ d ∈ node.descendants,
    ∀ t, d.token = some t → t.visible = true ∧ t.kind ∈ language.lexer.visible ∧
      t.kind ∉ language.lexer.silent

theorem closedOver_of_ofGrammar (g : Grammar) (language : Language)
    (h : (ofGrammar g).run = some (.ok language))
    : language.ClosedOver g := by
  obtain ⟨declared, hdeclared, hassemble⟩ := ofGrammar_eq_ok.mp h
  refine ⟨?_, ?_, ?_, language.lexer.selfContained, ?_,
    selfContained_parserRules hdeclared hassemble, ?_⟩
  · intro name body hbody other hoccurs
    obtain ⟨p, hp, rfl⟩ := List.mem_map.mp (within_parserRules hdeclared hassemble hbody _ hoccurs)
    exact ⟨⟨p, hp, rfl⟩, contains_of_mem_productions hassemble hp⟩
  · intro name body hbody kind hoccurs
    have hkind : kind ∈ kinds g declared := within_parserRules hdeclared hassemble hbody _ hoccurs
    obtain ⟨rule, hrule⟩ := get?_lexer_of_mem_kinds hassemble hkind
    exact Lexer.mem_visible_or_silent hrule
  · intro name r hr other hoccurs
    exact nameFree_regex hdeclared hassemble hr _ hoccurs other rfl
  · intro name r hr
    exact Regex.selfContained_of_nameFree (nameFree_regex hdeclared hassemble hr)
  · intro text node hnode d hd t ht
    obtain ⟨hvisible, hmem⟩ := visible_of_parse hnode hd ht
    exact ⟨hvisible, hmem, Lexer.notMem_silent hmem⟩

section Examples

theorem ofGrammar_expressions
    : (ofGrammar Lisp.grammar).run = some (.ok ⟨Lisp.lexer, Lisp.parser⟩) := by
  obtain ⟨g, declared, hread, hdeclared, hassemble⟩ := load_eq_ok.mp Lisp.language_run
  rw [Lisp.read_grammarText] at hread
  cases hread
  exact ofGrammar_eq_ok.mpr ⟨declared, hdeclared, hassemble⟩

/-- Calls and expressions name each other, and blanks are read and stay out of the tree. -/
theorem closedOver_of_ofGrammar_expressions
    : (ofGrammar Lisp.grammar).run = some (.ok ⟨Lisp.lexer, Lisp.parser⟩) ∧
        ClosedOver ⟨Lisp.lexer, Lisp.parser⟩ Lisp.grammar ∧ "ws" ∈ Lisp.lexer.silent ∧
          ∃ node, (parse ⟨Lisp.lexer, Lisp.parser⟩ "(f 1)").run = some (.ok node) :=
  ⟨ofGrammar_expressions, closedOver_of_ofGrammar _ _ ofGrammar_expressions, by decide, _, rfl⟩

end Examples

end Language

end GrammarKit
