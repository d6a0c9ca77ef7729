import GrammarKit.Proofs.Language.Names

/-!
This module contains when a grammar defines a language, what that language consists of, and what is
reported of any other grammar. Patterns are looked at first, then the productions one after another,
and the names of tokens last.
-/

namespace GrammarKit

/-- What holds of the empty list holds of the whole list or comes to fail at some element. -/
theorem exists_first_failing {α : Type} {P : List α → Prop} (hnil : P []) (xs : List α)
    : P xs ∨ ∃ before x after, xs = before ++ x :: after ∧ P before ∧ ¬ P (before ++ [x]) := by
  induction xs using List.reverseRecOn with
  | nil => exact .inl hnil
  | append_singleton xs x ih =>
    rcases ih with hxs | ⟨before, y, after, rfl, hbefore, hy⟩
    · by_cases hx : P (xs ++ [x])
      · exact .inl hx
      · exact .inr ⟨xs, x, [], rfl, hxs, hx⟩
    · exact .inr ⟨before, y, after ++ [x], by simp, hbefore, hy⟩

/-- The pattern stands for a regex. -/
def TokenDef.Loads (d : TokenDef) : Prop :=
  ∃ regex, (Pattern.load d.pattern).run = some (.ok regex)

namespace Grammar

/-- The productions name only what there is, and each has a name of its own. -/
structure Sound (g : Grammar) (ps : List Production) : Prop where
  resolved : ∀ p ∈ ps, ∀ name ∈ p.rhs.identifiers, g.Defines name
  distinct : (ps.map Production.name).Nodup

/-- Nothing is wrong with the grammar. -/
structure Loadable (g : Grammar) : Prop where
  patterns : ∀ d ∈ g.tokenDefs, d.Loads
  resolved : ∀ p ∈ g.productions, ∀ name ∈ p.rhs.identifiers, g.Defines name
  productions_distinct : (g.productions.map Production.name).Nodup
  productions_ne_nil : g.productions ≠ []
  tokens_distinct : (g.tokenDefs.map TokenDef.name).Nodup
  root_free : ¬ g.IsToken Lexer.rootName

/-- What is wrong with a grammar first, in the order in which its parts are looked at. -/
inductive Refused (g : Grammar) : LanguageError → Prop where
  | pattern {before after : List TokenDef} {d : TokenDef} {e : Failure}
      (hdefs : g.tokenDefs = before ++ d :: after) (hbefore : ∀ d ∈ before, d.Loads)
      (h : (Pattern.load d.pattern).run = some (.error e)) : Refused g (.pattern d.pattern e)
  | unknownIdentifier {before after : List Production} {p : Production}
      {defined others : List String} {name : String} (hpatterns : ∀ d ∈ g.tokenDefs, d.Loads)
      (hproductions : g.productions = before ++ p :: after) (hbefore : g.Sound before)
      (hnames : p.rhs.identifiers = defined ++ name :: others)
      (hdefined : ∀ name ∈ defined, g.Defines name) (h : ¬ g.Defines name) :
      Refused g (.unknownIdentifier name)
  | duplicateProduction {before after : List Production} {p : Production}
      (hpatterns : ∀ d ∈ g.tokenDefs, d.Loads)
      (hproductions : g.productions = before ++ p :: after) (hbefore : g.Sound before)
      (hresolved : ∀ name ∈ p.rhs.identifiers, g.Defines name)
      (h : p.name ∈ before.map Production.name) :
      Refused g (.processing (Table.duplicate p.name))
  | noProductions (hpatterns : ∀ d ∈ g.tokenDefs, d.Loads) (h : g.productions = []) :
      Refused g .noProductions
  | reservedToken {before after : List String} (hpatterns : ∀ d ∈ g.tokenDefs, d.Loads)
      (hsound : g.Sound g.productions) (hne : g.productions ≠ [])
      (hnames : g.tokenNames = before ++ Lexer.rootName :: after)
      (hbefore : Lexer.Fresh before) : Refused g (.processing (Lexer.reserved Lexer.rootName))
  | duplicateToken {before after : List String} {name : String}
      (hpatterns : ∀ d ∈ g.tokenDefs, d.Loads) (hsound : g.Sound g.productions)
      (hne : g.productions ≠ []) (hnames : g.tokenNames = before ++ name :: after)
      (hbefore : Lexer.Fresh before) (h : name ∈ before) :
      Refused g (.processing (Table.duplicate name))

theorem sound_append_singleton {g : Grammar} {ps : List Production} {p : Production}
    : g.Sound (ps ++ [p]) ↔ g.Sound ps ∧ (∀ name ∈ p.rhs.identifiers, g.Defines name) ∧
        p.name ∉ ps.map Production.name := by
  constructor
  · rintro ⟨hresolved, hdistinct⟩
    obtain ⟨hps, hp⟩ := List.forall_mem_append.mp hresolved
    rw [List.map_append, List.map_singleton, List.nodup_middle, List.append_nil,
      List.nodup_cons] at hdistinct
    exact ⟨⟨hps, hdistinct.2⟩, List.forall_mem_singleton.mp hp, hdistinct.1⟩
  · rintro ⟨⟨hps, hdistinct⟩, hp, hnew⟩
    refine ⟨List.forall_mem_append.mpr ⟨hps, List.forall_mem_singleton.mpr hp⟩, ?_⟩
    rw [List.map_append, List.map_singleton, List.nodup_middle, List.append_nil, List.nodup_cons]
    exact ⟨hnew, hdistinct⟩

end Grammar

namespace Language

variable {g : Grammar} {declared : List (String × TokenRule)} {language : Language}

section Patterns

theorem exists_tokenRules {defs : List TokenDef} (h : ∀ d ∈ defs, d.Loads)
    : ∃ declared, (tokenRules defs).run = some (.ok declared) := by
  induction defs with
  | nil => exact ⟨[], tokenRules_nil⟩
  | cons d defs ih =>
    rw [List.forall_mem_cons] at h
    obtain ⟨regex, hregex⟩ := h.1
    obtain ⟨others, hothers⟩ := ih h.2
    exact ⟨_, tokenRules_cons hregex hothers⟩

theorem tokenRules_eq_error {before after : List TokenDef} {d : TokenDef} {e : Failure}
    (hbefore : ∀ d ∈ before, d.Loads) (h : (Pattern.load d.pattern).run = some (.error e))
    : (tokenRules (before ++ d :: after)).run = some (.error (.pattern d.pattern e)) := by
  induction before with
  | nil =>
    rw [List.nil_append, tokenRules, Eventually.run_bind, Eventually.run_adapt, h]
    rfl
  | cons first before ih =>
    rw [List.forall_mem_cons] at hbefore
    obtain ⟨regex, hregex⟩ := hbefore.1
    rw [List.cons_append, tokenRules, Eventually.bind_of_ok (Eventually.adapt_eq_ok.mpr hregex),
      Eventually.run_bind, ih hbefore.2]

end Patterns

section Productions

variable {productions tokens : List String}

theorem productionRules_append (xs ys : List Production) (table : Table (Rule String))
    : productionRules productions tokens (xs ++ ys) table =
        productionRules productions tokens xs table >>=
          productionRules productions tokens ys := by
  induction xs generalizing table with
  | nil => rfl
  | cons p xs ih =>
    simp only [List.cons_append, productionRules, bind_assoc, ih]

theorem contains_productionRules {ps : List Production} {rules : Table (Rule String)}
    (h : productionRules productions tokens ps ∅ = .ok rules) {name : String}
    : rules.contains name = true ↔ name ∈ ps.map Production.name := by
  rw [Table.contains, Option.isSome_iff_exists, List.mem_map]
  constructor
  · rintro ⟨rule, hrule⟩
    rcases (get?_productionRules h).mp hrule with hempty | ⟨p, hp, hname, _⟩
    · cases hempty
    · exact ⟨p, hp, hname⟩
  · rintro ⟨p, hp, hname⟩
    obtain ⟨rule, hrule⟩ := exists_of_productionRules h hp
    exact ⟨rule, (get?_productionRules h).mpr (.inr ⟨p, hp, hname, hrule⟩)⟩

end Productions

section Sound

variable (hdeclared : (tokenRules g.tokenDefs).run = some (.ok declared))

include hdeclared

theorem exists_productionRules {ps : List Production} (h : g.Sound ps)
    : ∃ rules, productionRules (g.productions.map Production.name) (kinds g declared) ps ∅ =
        .ok rules := by
  induction ps using List.reverseRecOn with
  | nil => exact ⟨∅, rfl⟩
  | append_singleton ps p ih =>
    obtain ⟨hps, hp, hnew⟩ := Grammar.sound_append_singleton.mp h
    obtain ⟨rules, hrules⟩ := ih hps
    obtain ⟨rule, hrule⟩ := exists_ruleOf hdeclared hp
    have hinsert : rules.insert p.name rule = .ok (rules.set p.name rule) :=
      if_neg (mt (contains_productionRules hrules).mp hnew)
    rw [productionRules_append, hrules]
    show ∃ rules', productionRules _ _ [p] rules = .ok rules'
    exact ⟨_, bind_eq_ok.mpr ⟨rule, hrule, bind_eq_ok.mpr ⟨_, mapError_eq_ok.mpr hinsert, rfl⟩⟩⟩

variable {ps before after : List Production} {p : Production} (hps : ps = before ++ p :: after)
variable (hbefore : g.Sound before)

include hps hbefore

theorem productionRules_unknownIdentifier {defined others : List String} {name : String}
    (hnames : p.rhs.identifiers = defined ++ name :: others)
    (hdefined : ∀ name ∈ defined, g.Defines name) (h : ¬ g.Defines name)
    : productionRules (g.productions.map Production.name) (kinds g declared) ps ∅ =
        .error (.unknownIdentifier name) := by
  obtain ⟨rules, hrules⟩ := exists_productionRules hdeclared hbefore
  rw [hps, productionRules_append, hrules]
  show productionRules _ _ (p :: after) rules = _
  rw [productionRules, ruleOf_eq_error hdeclared hnames hdefined h]
  rfl

theorem productionRules_duplicate (hresolved : ∀ name ∈ p.rhs.identifiers, g.Defines name)
    (h : p.name ∈ before.map Production.name)
    : productionRules (g.productions.map Production.name) (kinds g declared) ps ∅ =
        .error (.processing (Table.duplicate p.name)) := by
  obtain ⟨rules, hrules⟩ := exists_productionRules hdeclared hbefore
  obtain ⟨rule, hrule⟩ := exists_ruleOf hdeclared hresolved
  rw [hps, productionRules_append, hrules]
  show productionRules _ _ (p :: after) rules = _
  rw [productionRules, hrule]
  show (rules.insert p.name rule).mapError _ >>= _ = _
  rw [Table.insert, if_pos ((contains_productionRules hrules).mpr h)]
  rfl

end Sound

section Assembling

theorem assemble_of_rulesError {e : LanguageError}
    (h : productionRules (g.productions.map Production.name) (kinds g declared) g.productions ∅ =
      .error e)
    : assemble g declared = .error e := by
  show productionRules _ (kinds g declared) _ ∅ >>= _ = _
  rw [h]
  rfl

theorem assemble_nil (h : g.productions = []) : assemble g declared = .error .noProductions := by
  unfold assemble
  rw [h]
  rfl

variable {rules : Table (Rule String)}
variable (hrules : productionRules (g.productions.map Production.name) (kinds g declared)
  g.productions ∅ = .ok rules)
variable (hne : g.productions ≠ [])

include hrules hne

theorem assemble_of_lexerError {e : Failure} (h : Lexer.ofRules (lexerRules g declared) = .error e)
    : assemble g declared = .error (.processing e) := by
  obtain ⟨p, ps, hps⟩ := List.exists_cons_of_ne_nil hne
  show productionRules _ (kinds g declared) _ ∅ >>= _ = _
  rw [hrules, hps]
  show (Lexer.ofRules (lexerRules g declared)).mapError _ >>= _ = _
  rw [h]
  rfl

theorem exists_assemble {lexer : Lexer} (h : Lexer.ofRules (lexerRules g declared) = .ok lexer)
    : ∃ language, assemble g declared = .ok language := by
  obtain ⟨p, ps, hps⟩ := List.exists_cons_of_ne_nil hne
  have hroot : rules.contains p.name = true := by
    rw [contains_productionRules hrules, hps]
    exact List.mem_cons_self
  refine ⟨⟨lexer, ⟨rules, p.name, hroot⟩⟩, bind_eq_ok.mpr ⟨rules, hrules, ?_⟩⟩
  rw [hps]
  have hparser : Parser.ofTable rules p.name = .ok ⟨rules, p.name, hroot⟩ := dif_pos hroot
  exact bind_eq_ok.mpr
    ⟨lexer, mapError_eq_ok.mpr h, bind_eq_ok.mpr ⟨_, mapError_eq_ok.mpr hparser, rfl⟩⟩

end Assembling

theorem ofGrammar_run (hdeclared : (tokenRules g.tokenDefs).run = some (.ok declared))
    : (ofGrammar g).run = some (assemble g declared) := by
  rw [ofGrammar, Eventually.bind_of_ok hdeclared, Eventually.run_ofExcept]

theorem exists_ofGrammar (h : g.Loadable)
    : ∃ language, (ofGrammar g).run = some (.ok language) := by
  obtain ⟨declared, hdeclared⟩ := exists_tokenRules h.patterns
  obtain ⟨rules, hrules⟩ := exists_productionRules hdeclared ⟨h.resolved, h.productions_distinct⟩
  have hfresh : Lexer.Fresh g.tokenNames :=
    ⟨nodup_tokenNames.mpr h.tokens_distinct, mt mem_tokenNames.mp h.root_free⟩
  rw [← names_lexerRules hdeclared] at hfresh
  obtain ⟨lexer, hlexer⟩ := Lexer.exists_ofRules hfresh
  obtain ⟨language, hlanguage⟩ := exists_assemble hrules h.productions_ne_nil hlexer
  exact ⟨language, by rw [ofGrammar_run hdeclared, hlanguage]⟩

theorem ofGrammar_eq_error {e : LanguageError} (h : g.Refused e)
    : (ofGrammar g).run = some (.error e) := by
  cases h with
  | pattern hdefs hbefore h =>
    rw [ofGrammar, Eventually.run_bind, hdefs, tokenRules_eq_error hbefore h]
  | unknownIdentifier hpatterns hproductions hbefore hnames hdefined h =>
    obtain ⟨declared, hdeclared⟩ := exists_tokenRules hpatterns
    have hrules :=
      productionRules_unknownIdentifier hdeclared hproductions hbefore hnames hdefined h
    rw [ofGrammar_run hdeclared, assemble_of_rulesError hrules]
  | duplicateProduction hpatterns hproductions hbefore hresolved h =>
    obtain ⟨declared, hdeclared⟩ := exists_tokenRules hpatterns
    have hrules := productionRules_duplicate hdeclared hproductions hbefore hresolved h
    rw [ofGrammar_run hdeclared, assemble_of_rulesError hrules]
  | noProductions hpatterns h =>
    obtain ⟨declared, hdeclared⟩ := exists_tokenRules hpatterns
    rw [ofGrammar_run hdeclared, assemble_nil h]
  | reservedToken hpatterns hsound hne hnames hbefore =>
    obtain ⟨declared, hdeclared⟩ := exists_tokenRules hpatterns
    obtain ⟨rules, hrules⟩ := exists_productionRules hdeclared hsound
    have hlexer := Lexer.ofRules_reserved ((names_lexerRules hdeclared).trans hnames) hbefore
    rw [ofGrammar_run hdeclared, assemble_of_lexerError hrules hne hlexer]
  | duplicateToken hpatterns hsound hne hnames hbefore h =>
    obtain ⟨declared, hdeclared⟩ := exists_tokenRules hpatterns
    obtain ⟨rules, hrules⟩ := exists_productionRules hdeclared hsound
    have hlexer := Lexer.ofRules_duplicate ((names_lexerRules hdeclared).trans hnames) hbefore h
    rw [ofGrammar_run hdeclared, assemble_of_lexerError hrules hne hlexer]

section Refused

theorem exists_refused_of_pattern (h : ¬ ∀ d ∈ g.tokenDefs, d.Loads) : ∃ e, g.Refused e := by
  rcases exists_first_failing (P := fun defs => ∀ d ∈ defs, TokenDef.Loads d) nofun g.tokenDefs with
    hloads | ⟨before, d, after, hdefs, hbefore, hfails⟩
  · exact absurd hloads h
  · have hd : ¬ d.Loads := fun hd =>
      hfails (List.forall_mem_append.mpr ⟨hbefore, List.forall_mem_singleton.mpr hd⟩)
    obtain ⟨e, he⟩ := Eventually.exists_error (Pattern.load_settles d.pattern)
      fun regex hregex => hd ⟨regex, hregex⟩
    exact ⟨_, .pattern hdefs hbefore he⟩

theorem exists_refused_of_production (hpatterns : ∀ d ∈ g.tokenDefs, d.Loads)
    (h : ¬ g.Sound g.productions)
    : ∃ e, g.Refused e := by
  rcases exists_first_failing (P := g.Sound) ⟨nofun, .nil⟩ g.productions with
    hsound | ⟨before, p, after, hproductions, hbefore, hfails⟩
  · exact absurd hsound h
  · rcases exists_first_failing (P := fun names => ∀ name ∈ names, g.Defines name) nofun
      p.rhs.identifiers with hresolved | ⟨defined, name, others, hnames, hdefined, hname⟩
    · refine ⟨_, .duplicateProduction hpatterns hproductions hbefore hresolved ?_⟩
      by_contra hnew
      exact hfails (Grammar.sound_append_singleton.mpr ⟨hbefore, hresolved, hnew⟩)
    · refine ⟨_, .unknownIdentifier hpatterns hproductions hbefore hnames hdefined ?_⟩
      intro hdefines
      exact hname (List.forall_mem_append.mpr ⟨hdefined, List.forall_mem_singleton.mpr hdefines⟩)

theorem loadable_or_refused (g : Grammar) : g.Loadable ∨ ∃ e, g.Refused e := by
  by_cases hpatterns : ∀ d ∈ g.tokenDefs, d.Loads
  case neg => exact .inr (exists_refused_of_pattern hpatterns)
  by_cases hsound : g.Sound g.productions
  case neg => exact .inr (exists_refused_of_production hpatterns hsound)
  by_cases hne : g.productions = []
  case pos => exact .inr ⟨_, .noProductions hpatterns hne⟩
  rcases exists_first_failing (P := Lexer.Fresh) ⟨.nil, List.not_mem_nil⟩ g.tokenNames with
    ⟨hnodup, hroot⟩ | ⟨before, name, after, hnames, hbefore, hfails⟩
  · left
    exact ⟨hpatterns, hsound.resolved, hsound.distinct, hne, nodup_tokenNames.mp hnodup,
      mt mem_tokenNames.mpr hroot⟩
  · right
    by_cases hname : name ∈ before
    · exact ⟨_, .duplicateToken hpatterns hsound hne hnames hbefore hname⟩
    · by_cases hroot : name = Lexer.rootName
      · rw [hroot] at hnames
        exact ⟨_, .reservedToken hpatterns hsound hne hnames hbefore⟩
      · exact absurd (Lexer.fresh_append_singleton.mpr ⟨hbefore, hroot, hname⟩) hfails

end Refused

theorem ofGrammar_ne_none (g : Grammar) : (ofGrammar g).run ≠ none := by
  rcases loadable_or_refused g with hloadable | ⟨e, he⟩
  · obtain ⟨language, hlanguage⟩ := exists_ofGrammar hloadable
    simp [hlanguage]
  · simp [ofGrammar_eq_error he]

theorem exists_ofGrammar_iff
    : (∃ language, (ofGrammar g).run = some (.ok language)) ↔ g.Loadable := by
  refine ⟨?_, exists_ofGrammar⟩
  rintro ⟨language, hlanguage⟩
  apply (loadable_or_refused g).resolve_right
  rintro ⟨e, he⟩
  rw [ofGrammar_eq_error he] at hlanguage
  cases hlanguage

theorem ofGrammar_eq_error_iff {e : LanguageError}
    : (ofGrammar g).run = some (.error e) ↔ g.Refused e := by
  refine ⟨fun he => ?_, ofGrammar_eq_error⟩
  rcases loadable_or_refused g with hloadable | ⟨e', he'⟩
  · obtain ⟨language, hlanguage⟩ := exists_ofGrammar hloadable
    rw [hlanguage] at he
    cases he
  · rw [ofGrammar_eq_error he'] at he
    cases he
    exact he'

section Loaded

variable (hdeclared : (tokenRules g.tokenDefs).run = some (.ok declared))
variable (hassemble : assemble g declared = .ok language)

include hassemble in
theorem assemble_root
    : g.productions.head?.map Production.name = some language.parser.root := by
  rw [← List.head?_map]
  exact (parts_of_assemble hassemble).2.1

include hdeclared hassemble

theorem get?_lexer {name : String} {rule : TokenRule}
    : language.lexer.rules.get? name = some rule ↔
        (∃ d ∈ g.tokenDefs, d.name = name ∧ d.silent = rule.silent ∧
          (Pattern.load d.pattern).run = some (.ok rule.regex)) ∨
        name ∈ implicitTokens g ∧ rule = ⟨.literal name, false⟩ := by
  rw [Lexer.get?_ofRules (assemble_lexer hassemble), mem_lexerRules, mem_of_tokenRules hdeclared]
  simp

end Loaded

/-- The rules of the lexer and of the parser, told from those of the grammar. -/
structure MadeOf (language : Language) (g : Grammar) : Prop where
  visible : ∀ name, name ∈ language.lexer.visible ↔
    (∃ d ∈ g.tokenDefs, d.name = name ∧ d.silent = false) ∨
      g.IsTerminal name ∧ ∀ d ∈ g.tokenDefs, d.name ≠ name
  silent : ∀ name, name ∈ language.lexer.silent ↔ ∃ d ∈ g.tokenDefs, d.name = name ∧ d.silent = true
  declared : ∀ d ∈ g.tokenDefs, ∃ regex, (Pattern.load d.pattern).run = some (.ok regex) ∧
    language.lexer.regex? d.name = some regex
  literal : ∀ text, g.IsTerminal text → (∀ d ∈ g.tokenDefs, d.name ≠ text) →
    language.lexer.regex? text = some (.literal text)
  productions : ∀ name, language.parser.rules.contains name = true ↔ g.IsProduction name
  root : g.productions.head?.map Production.name = some language.parser.root

section MadeOf

variable (h : (ofGrammar g).run = some (.ok language))

include h

theorem get?_literal {text : String} (hterminal : g.IsTerminal text)
    (hnot : ∀ d ∈ g.tokenDefs, d.name ≠ text)
    : language.lexer.rules.get? text = some ⟨.literal text, false⟩ := by
  obtain ⟨p, hp, htext⟩ := hterminal
  apply (get?_terminal h hp htext).resolve_left
  rintro ⟨d, hd, hname⟩
  exact hnot d hd hname

theorem mem_visible_iff {name : String}
    : name ∈ language.lexer.visible ↔ (∃ d ∈ g.tokenDefs, d.name = name ∧ d.silent = false) ∨
        g.IsTerminal name ∧ ∀ d ∈ g.tokenDefs, d.name ≠ name := by
  rw [Lexer.visible, Table.mem_names_filter_iff]
  constructor
  · rintro ⟨rule, hrule, hvisible⟩
    rw [Bool.not_eq_true'] at hvisible
    obtain ⟨declared, hdeclared, hassemble⟩ := ofGrammar_eq_ok.mp h
    rcases (get?_lexer hdeclared hassemble).mp hrule with
      ⟨d, hd, hname, hsilent, _⟩ | ⟨himplicit, _⟩
    · exact .inl ⟨d, hd, hname, hsilent.trans hvisible⟩
    · obtain ⟨hterminal, hnot⟩ := mem_implicitTokens.mp himplicit
      exact .inr ⟨hterminal, fun d hd heq => hnot (List.mem_map.mpr ⟨d, hd, heq⟩)⟩
  · rintro (⟨d, hd, rfl, hvisible⟩ | ⟨hterminal, hnot⟩)
    · obtain ⟨regex, _, hget⟩ := get?_declared h hd
      exact ⟨_, hget, by simp [hvisible]⟩
    · exact ⟨_, get?_literal h hterminal hnot, rfl⟩

theorem mem_silent_iff {name : String}
    : name ∈ language.lexer.silent ↔ ∃ d ∈ g.tokenDefs, d.name = name ∧ d.silent = true := by
  rw [Lexer.silent, Table.mem_names_filter_iff]
  constructor
  · rintro ⟨rule, hrule, hsilent⟩
    obtain ⟨declared, hdeclared, hassemble⟩ := ofGrammar_eq_ok.mp h
    rcases (get?_lexer hdeclared hassemble).mp hrule with ⟨d, hd, hname, heq, _⟩ | ⟨_, rfl⟩
    · exact ⟨d, hd, hname, heq.trans hsilent⟩
    · cases hsilent
  · rintro ⟨d, hd, rfl, hsilent⟩
    obtain ⟨regex, _, hget⟩ := get?_declared h hd
    exact ⟨_, hget, hsilent⟩

theorem madeOf_of_ofGrammar : language.MadeOf g where
  visible _ := mem_visible_iff h
  silent _ := mem_silent_iff h
  declared d hd := by
    obtain ⟨regex, hload, hget⟩ := get?_declared h hd
    exact ⟨regex, hload, by rw [Lexer.regex?, hget, Option.map_some]⟩
  literal text hterminal hnot := by
    rw [Lexer.regex?, get?_literal h hterminal hnot, Option.map_some]
  productions name := by
    obtain ⟨declared, _, hassemble⟩ := ofGrammar_eq_ok.mp h
    rw [contains_productionRules (assemble_rules hassemble), Grammar.mem_productionNames]
  root := by
    obtain ⟨declared, _, hassemble⟩ := ofGrammar_eq_ok.mp h
    exact assemble_root hassemble

end MadeOf

/--
A grammar defines a language just if nothing is wrong with it. If something is, then what comes
first is reported.
-/
theorem ofGrammar_exact (g : Grammar)
    : (ofGrammar g).run ≠ none ∧
        ((∃ language, (ofGrammar g).run = some (.ok language)) ↔ g.Loadable) ∧
        (∀ language, (ofGrammar g).run = some (.ok language) → language.MadeOf g) ∧
        ∀ e, (ofGrammar g).run = some (.error e) ↔ g.Refused e :=
  ⟨ofGrammar_ne_none g, exists_ofGrammar_iff, fun _ => madeOf_of_ofGrammar,
    fun _ => ofGrammar_eq_error_iff⟩

end Language

end GrammarKit
