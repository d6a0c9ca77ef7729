import GrammarKit.Proofs.Grammar.Equations

/-!
This module contains the concrete syntax of grammars, that is all the texts that a grammar can be
written as. Whatever is read has been read from one of its texts.
-/

namespace GrammarKit

/-- How tightly the parts of a text are bound together, loosest first. -/
inductive Layer where
  | alternation
  | concatenation
  | term
  | atom

/-- The texts of right-hand sides. Parentheses leave no trace, and operators nest to the right. -/
inductive Rhs.Written : Layer → List Char → Rhs → Prop where
  | row {text : List Char} {r : Rhs} (h : Written .concatenation text r) :
      Written .alternation text r
  | alternation {text other : List Char} {l r : Rhs} (hleft : Written .concatenation text l)
      (hright : Written .alternation other r) :
      Written .alternation (text ++ '|' :: other) (.alternation l r)
  | factor {text : List Char} {r : Rhs} (h : Written .term text r) :
      Written .concatenation text r
  | concatenation {text other : List Char} {l r : Rhs} (hleft : Written .term text l)
      (hright : Written .concatenation other r) :
      Written .concatenation (text ++ ',' :: other) (.concatenation l r)
  | spaced {before text after : List Char} {r : Rhs} (hbefore : Blank before)
      (h : Written .atom text r) (hafter : Blank after) :
      Written .term (before ++ text ++ after) r
  | group {text : List Char} {r : Rhs} (h : Written .alternation text r) :
      Written .atom ('(' :: text ++ [')']) r
  | repetition {text : List Char} {r : Rhs} (h : Written .alternation text r) :
      Written .atom ('{' :: text ++ ['}']) (.repetition r)
  | repetition1 {text : List Char} {r : Rhs} (h : Written .alternation text r) :
      Written .atom ('{' :: text ++ ['}', '+']) (.repetition1 r)
  | optional {text : List Char} {r : Rhs} (h : Written .alternation text r) :
      Written .atom ('[' :: text ++ [']']) (.optional r)
  | terminal {word : List Char} {text : String} (h : Quoted word text) :
      Written .atom word (.terminal text)
  | identifier {name : String} (h : IsName name) :
      Written .atom name.toList (.identifier name)

inductive Statement.Written : List Char → Statement → Prop where
  | token {a b c d word : List Char} {rule : TokenDef} (ha : Blank a) (hb : Blank b) (hc : Blank c)
      (hd : Blank d) (hname : IsName rule.name) (hpattern : Quoted word rule.pattern) :
      Written
        (a ++ rule.name.toList ++ b ++ (if rule.silent then ['~', '='] else ['=']) ++
          c ++ word ++ d ++ [';'])
        (.token rule)
  | production {a b body : List Char} {rule : Production} (ha : Blank a) (hb : Blank b)
      (hname : IsName rule.name) (hbody : rule.rhs.Written .alternation body) :
      Written (a ++ rule.name.toList ++ b ++ ['-', '>'] ++ body ++ [';']) (.production rule)

inductive Grammar.Written : List Char → Grammar → Prop where
  | blank {text : List Char} (h : Blank text) : Written text ⟨[]⟩
  | statement {text rest : List Char} {s : Statement} {ss : List Statement} (hfirst : s.Written text)
      (hrest : Written rest ⟨ss⟩) : Written (text ++ rest) ⟨s :: ss⟩

namespace Reader

section Soundness

/-- The text that is used up is one of those that what is read can be written as. -/
def ReadsWritten (layer : Layer) (read : List Char → Except Error (Rhs × List Char)) : Prop :=
  ∀ text r rest, read text = .ok (r, rest) → ∃ used, text = used ++ rest ∧ r.Written layer used

variable {nested read right : List Char → Except Error (Rhs × List Char)}

theorem readsWritten_operand (hnested : ReadsWritten .alternation nested)
    : ReadsWritten .atom (operand nested) := by
  intro text r rest h
  cases operand_eq_ok.mp h with
  | group hinner =>
    obtain ⟨used, rfl, hused⟩ := hnested _ _ _ hinner
    exact ⟨_, by simp, .group hused⟩
  | repetition hinner =>
    obtain ⟨used, rfl, hused⟩ := hnested _ _ _ hinner
    exact ⟨_, by simp, .repetition hused⟩
  | repetition1 hinner =>
    obtain ⟨used, rfl, hused⟩ := hnested _ _ _ hinner
    exact ⟨_, by simp, .repetition1 hused⟩
  | optional hinner =>
    obtain ⟨used, rfl, hused⟩ := hnested _ _ _ hinner
    exact ⟨_, by simp, .optional hused⟩
  | quoted hfound =>
    obtain ⟨word, hword, rfl⟩ := quotedText_eq_ok.mp hfound
    exact ⟨word, rfl, .terminal hword⟩
  | name hfound =>
    obtain ⟨hname, rfl, _⟩ := name_eq_ok.mp hfound
    exact ⟨_, rfl, .identifier hname⟩

theorem readsWritten_spaced (hnested : ReadsWritten .alternation nested)
    : ReadsWritten .term (spaced nested) := by
  intro text r rest h
  obtain ⟨behind, hoperand, rfl⟩ := spaced_eq_ok.mp h
  obtain ⟨used, hused, hwritten⟩ := readsWritten_operand hnested _ _ _ hoperand
  obtain ⟨before, hbefore, htext⟩ := exists_blank_skipSpace text
  obtain ⟨after, hafter, hbehind⟩ := exists_blank_skipSpace behind
  refine ⟨before ++ used ++ after, ?_, .spaced hbefore hwritten hafter⟩
  rw [List.append_assoc, List.append_assoc, ← hbehind, ← hused, ← htext]

theorem readsWritten_chained {layer outer : Layer} {op : Char} {combine : Rhs → Rhs → Rhs}
    (hone : ∀ {used r}, Rhs.Written layer used r → r.Written outer used)
    (hmore : ∀ {used other l r}, Rhs.Written layer used l → Rhs.Written outer other r →
      (combine l r).Written outer (used ++ op :: other))
    (hread : ReadsWritten layer read) (hright : ReadsWritten outer right)
    : ReadsWritten outer (chained op combine read right) := by
  intro text r rest h
  rcases chained_cases h with hleft | ⟨left, other, after, hleft, hother, rfl⟩
  · obtain ⟨used, rfl, hused⟩ := hread _ _ _ hleft
    exact ⟨used, rfl, hone hused⟩
  · obtain ⟨used, rfl, hused⟩ := hread _ _ _ hleft
    obtain ⟨more, rfl, hothers⟩ := hright _ _ _ hother
    exact ⟨_, by simp, hmore hused hothers⟩

theorem readsWritten_rhs : ReadsWritten .alternation rhs := by
  have hfails : ∀ layer, ReadsWritten layer fun text => .error ⟨text, .tag⟩ := by
    intro layer text r rest h
    cases h
  intro text
  exact (reader_induction ⟨hfails .alternation, hfails .concatenation, hfails .term⟩
    (readsWritten_chained .row .alternation) (readsWritten_chained .factor .concatenation)
    readsWritten_spaced _).1 text

theorem written_of_statement {text rest : List Char} {s : Statement}
    (h : statement text = .ok (s, rest))
    : ∃ used, text = used ++ rest ∧ s.Written used := by
  obtain ⟨lhs, behind, after, hlhs, hbody⟩ := statement_eq_ok.mp h
  obtain ⟨hname, htext, _⟩ := name_eq_ok.mp hlhs
  obtain ⟨a, ha, hskip⟩ := exists_blank_skipSpace text
  obtain ⟨b, hb, hbehind⟩ := exists_blank_skipSpace behind
  rw [hskip, htext, hbehind]
  rcases hbody with ⟨body, hop, hbody, rfl⟩ | ⟨pattern, silent, beyond, hop, hpattern, hend, rfl⟩
  · obtain ⟨used, hused, hwritten⟩ := readsWritten_rhs _ _ _ hbody
    refine ⟨_, ?_, .production ha hb hname hwritten⟩
    rw [operator_eq_ok.mp hop, hused]
    simp [Operator.word]
  · obtain ⟨word, hword, hafter⟩ := quotedText_eq_ok.mp hpattern
    obtain ⟨c, hc, hcafter⟩ := exists_blank_skipSpace after
    obtain ⟨d, hd, hdbeyond⟩ := exists_blank_skipSpace beyond
    refine ⟨_, ?_, .token ha hb hc hd hname hword⟩
    rw [operator_eq_ok.mp hop, hcafter, hafter, hdbeyond, hend]
    cases silent <;> simp [Operator.word]

theorem written_of_statements {fuel : Nat} {text rest : List Char} {read : List Statement}
    (h : statements fuel text = (read, rest)) (hrest : skipSpace rest = [])
    : Grammar.Written text ⟨read⟩ := by
  have hblank : ∀ {text}, skipSpace text = [] → Grammar.Written text ⟨[]⟩ := by
    intro text hskip
    obtain ⟨blank, hblank, htext⟩ := exists_blank_skipSpace text
    rw [hskip, List.append_nil] at htext
    exact .blank (htext ▸ hblank)
  induction fuel generalizing text read with
  | zero =>
    cases h
    exact hblank hrest
  | succ fuel ih =>
    rw [statements] at h
    split at h
    · cases h
      exact hblank hrest
    · next first behind hfirst =>
      cases h
      obtain ⟨used, rfl, hused⟩ := written_of_statement hfirst
      exact .statement hused (ih rfl)

end Soundness

end Reader

end GrammarKit
