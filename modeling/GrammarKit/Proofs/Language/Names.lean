import GrammarKit.Proofs.Distinct
import GrammarKit.Proofs.Language.Closed

/-!
This module contains what the names in a right-hand side stand for. If one of them stands for
nothing, then the leftmost such name is reported.
-/

namespace GrammarKit

/-- The names in a right-hand side, from left to right. -/
def Rhs.identifiers : Rhs → List String
  | .identifier name => [name]
  | .terminal _ => []
  | .optional inner => inner.identifiers
  | .repetition inner => inner.identifiers
  | .repetition1 inner => inner.identifiers
  | .alternation left right => left.identifiers ++ right.identifiers
  | .concatenation left right => left.identifiers ++ right.identifiers

namespace Grammar

def IsProduction (g : Grammar) (name : String) : Prop :=
  ∃ p ∈ g.productions, p.name = name

def IsTerminal (g : Grammar) (text : String) : Prop :=
  ∃ p ∈ g.productions, text ∈ p.rhs.terminals

/-- A token rule has that name, or a terminal that text. -/
def IsToken (g : Grammar) (name : String) : Prop :=
  (∃ d ∈ g.tokenDefs, d.name = name) ∨ g.IsTerminal name

def Defines (g : Grammar) (name : String) : Prop :=
  g.IsProduction name ∨ g.IsToken name

/-- The names of all tokens: visible rules, terminals without a rule, silent rules. -/
def tokenNames (g : Grammar) : List String :=
  (g.tokenDefs.filter fun d => !d.silent).map TokenDef.name ++ Language.implicitTokens g ++
    (g.tokenDefs.filter TokenDef.silent).map TokenDef.name

theorem mem_productionNames {g : Grammar} {name : String}
    : name ∈ g.productions.map Production.name ↔ g.IsProduction name :=
  List.mem_map

/-- The rules come with all their names, and the terminals with those that are left. -/
theorem tokenNames_perm (g : Grammar)
    : g.tokenNames.Perm (g.tokenDefs.map TokenDef.name ++ Language.implicitTokens g) := by
  have hdefs := (List.filter_append_perm TokenDef.silent g.tokenDefs).map TokenDef.name
  rw [List.map_append] at hdefs
  apply List.perm_append_comm.trans
  rw [← List.append_assoc]
  exact hdefs.append_right _

end Grammar

namespace Language

section Rules

variable {productions tokens : List String} {rhs : Rhs} {name : String}

theorem ruleOf_of_resolved (h : ∀ name ∈ rhs.identifiers, name ∈ productions ∨ name ∈ tokens)
    : ∃ rule, ruleOf productions tokens rhs = .ok rule := by
  induction rhs with
  | identifier name =>
    unfold ruleOf
    by_cases hproduction : name ∈ productions
    · exact ⟨_, if_pos hproduction⟩
    · have htoken : name ∈ tokens := (h name List.mem_cons_self).resolve_left hproduction
      rw [if_neg hproduction, if_pos htoken]
      exact ⟨_, rfl⟩
  | terminal text => exact ⟨_, rfl⟩
  | optional inner ih
  | repetition inner ih
  | repetition1 inner ih =>
    obtain ⟨part, hpart⟩ := ih h
    exact ⟨_, bind_eq_ok.mpr ⟨part, hpart, rfl⟩⟩
  | alternation left right ihl ihr
  | concatenation left right ihl ihr =>
    obtain ⟨hleft, hright⟩ := List.forall_mem_append.mp h
    obtain ⟨first, hfirst⟩ := ihl hleft
    obtain ⟨rest, hrest⟩ := ihr hright
    exact ⟨_, bind_eq_ok.mpr ⟨first, hfirst, bind_eq_ok.mpr ⟨rest, hrest, rfl⟩⟩⟩

theorem ruleOf_of_unresolved
    (h : (rhs.identifiers.find? fun name => name ∉ productions ∧ name ∉ tokens) = some name)
    : ruleOf productions tokens rhs = .error (.unknownIdentifier name) := by
  induction rhs with
  | identifier other =>
    have hnot := List.find?_some h
    have hmem := List.mem_of_find?_eq_some h
    rw [Rhs.identifiers, List.mem_singleton] at hmem
    simp only [decide_eq_true_eq] at hnot
    rw [ruleOf, ← hmem, if_neg hnot.1, if_neg hnot.2]
  | terminal text => cases h
  | optional inner ih
  | repetition inner ih
  | repetition1 inner ih =>
    rw [ruleOf, ih h]
    rfl
  | alternation left right ihl ihr
  | concatenation left right ihl ihr =>
    rw [Rhs.identifiers, List.find?_append, Option.or_eq_some_iff] at h
    rcases h with hleft | ⟨hleft, hright⟩
    · rw [ruleOf, ihl hleft]
      rfl
    · have hresolved : ∀ name ∈ left.identifiers, name ∈ productions ∨ name ∈ tokens := by
        simpa [or_iff_not_imp_left] using hleft
      obtain ⟨first, hfirst⟩ := ruleOf_of_resolved hresolved
      rw [ruleOf, hfirst, ihr hright]
      rfl

end Rules

section Lists

variable {defs : List TokenDef} {declared : List (String × TokenRule)}

theorem names_filter_of_tokenRules (h : (tokenRules defs).run = some (.ok declared))
    (p : Bool → Bool)
    : (declared.filter fun entry => p entry.2.silent).map Prod.fst =
        (defs.filter fun d => p d.silent).map TokenDef.name := by
  induction defs generalizing declared with
  | nil =>
    cases h
    rfl
  | cons d defs ih =>
    obtain ⟨regex, _, h⟩ := Eventually.bind_eq_ok.mp h
    obtain ⟨others, hothers, h⟩ := Eventually.bind_eq_ok.mp h
    cases h
    simp only [List.filter_cons]
    split <;> simp [ih hothers]

theorem names_of_tokenRules (h : (tokenRules defs).run = some (.ok declared))
    : declared.map Prod.fst = defs.map TokenDef.name := by
  simpa using names_filter_of_tokenRules h fun _ => true

theorem nodup_implicitTokens (g : Grammar) : (implicitTokens g).Nodup :=
  (nodup_eraseDups _).filter _

end Lists

section Declared

variable {g : Grammar} {declared : List (String × TokenRule)} {rhs : Rhs} {name : String}
variable (hdeclared : (tokenRules g.tokenDefs).run = some (.ok declared))

include hdeclared

theorem mem_kinds : name ∈ kinds g declared ↔ g.IsToken name := by
  rw [kinds, List.mem_append, names_of_tokenRules hdeclared, mem_implicitTokens, List.mem_map]
  constructor
  · rintro (hname | ⟨hterminal, _⟩)
    · exact .inl hname
    · exact .inr hterminal
  · rintro (hname | hterminal)
    · exact .inl hname
    · by_cases hname : ∃ d ∈ g.tokenDefs, d.name = name
      · exact .inl hname
      · exact .inr ⟨hterminal, hname⟩

theorem resolved_iff
    : name ∈ g.productions.map Production.name ∨ name ∈ kinds g declared ↔ g.Defines name :=
  or_congr Grammar.mem_productionNames (mem_kinds hdeclared)

theorem names_lexerRules : (lexerRules g declared).map Prod.fst = g.tokenNames := by
  rw [lexerRules, Grammar.tokenNames, List.map_append, List.map_append, List.map_map,
    names_filter_of_tokenRules hdeclared fun silent => !silent,
    names_filter_of_tokenRules hdeclared fun silent => silent]
  congr
  exact List.map_id _

theorem exists_ruleOf (h : ∀ name ∈ rhs.identifiers, g.Defines name)
    : ∃ rule, ruleOf (g.productions.map Production.name) (kinds g declared) rhs = .ok rule :=
  ruleOf_of_resolved fun name hname => (resolved_iff hdeclared).mpr (h name hname)

theorem ruleOf_eq_error {defined others : List String}
    (hnames : rhs.identifiers = defined ++ name :: others)
    (hdefined : ∀ name ∈ defined, g.Defines name) (h : ¬ g.Defines name)
    : ruleOf (g.productions.map Production.name) (kinds g declared) rhs =
        .error (.unknownIdentifier name) := by
  have hunresolved {name : String} : (name ∉ g.productions.map Production.name ∧
      name ∉ kinds g declared) ↔ ¬ g.Defines name := by
    rw [← not_or, resolved_iff hdeclared]
  apply ruleOf_of_unresolved
  rw [hnames, List.find?_eq_some_iff_append]
  refine ⟨decide_eq_true (hunresolved.mpr h), defined, others, rfl, fun other hother => ?_⟩
  rw [Bool.not_eq_true', decide_eq_false_iff_not, hunresolved, not_not]
  exact hdefined other hother

end Declared

theorem mem_tokenNames {g : Grammar} {name : String} : name ∈ g.tokenNames ↔ g.IsToken name := by
  rw [g.tokenNames_perm.mem_iff, List.mem_append, mem_implicitTokens, List.mem_map]
  by_cases hname : ∃ d ∈ g.tokenDefs, d.name = name
  · simp [Grammar.IsToken, hname]
  · simp [Grammar.IsToken, Grammar.IsTerminal, hname]

theorem nodup_tokenNames {g : Grammar}
    : g.tokenNames.Nodup ↔ (g.tokenDefs.map TokenDef.name).Nodup := by
  rw [g.tokenNames_perm.nodup_iff, List.nodup_append]
  constructor
  · exact fun h => h.1
  · refine fun h => ⟨h, nodup_implicitTokens g, ?_⟩
    rintro name hname _ himplicit rfl
    exact (mem_implicitTokens.mp himplicit).2 hname

end Language

end GrammarKit
