import GrammarKit.Proofs.Grammar.Equations

/-!
This module contains what a grammar must be like to have a text, and that all grammars which are
read are like that.
-/

namespace GrammarKit

/-- One of the quotes does not occur, so that it can stand around the text. -/
def Quotable (text : String) : Prop :=
  ¬ ('"' ∈ text.toList ∧ '\'' ∈ text.toList)

instance (text : String) : Decidable (Quotable text) :=
  inferInstanceAs (Decidable (¬ _))

theorem Quoted.quotable {word : List Char} {text : String} (h : Quoted word text)
    : Quotable text := by
  unfold Quotable
  cases h with
  | double h =>
    rw [String.toList_ofList]
    exact fun hboth => h hboth.1
  | single h =>
    rw [String.toList_ofList]
    exact fun hboth => h hboth.2

def Rhs.WellFormed : Rhs → Prop
  | .identifier name => IsName name
  | .terminal text => Quotable text
  | .optional inner => inner.WellFormed
  | .repetition inner => inner.WellFormed
  | .repetition1 inner => inner.WellFormed
  | .alternation left right => left.WellFormed ∧ right.WellFormed
  | .concatenation left right => left.WellFormed ∧ right.WellFormed

instance Rhs.decidableWellFormed : (r : Rhs) → Decidable r.WellFormed
  | .identifier name => inferInstanceAs (Decidable (IsName name))
  | .terminal text => inferInstanceAs (Decidable (Quotable text))
  | .optional inner => inner.decidableWellFormed
  | .repetition inner => inner.decidableWellFormed
  | .repetition1 inner => inner.decidableWellFormed
  | .alternation left right | .concatenation left right =>
    have := left.decidableWellFormed
    have := right.decidableWellFormed
    inferInstanceAs (Decidable (left.WellFormed ∧ right.WellFormed))

def Statement.WellFormed : Statement → Prop
  | .token rule => IsName rule.name ∧ Quotable rule.pattern
  | .production rule => IsName rule.name ∧ rule.rhs.WellFormed

def Grammar.WellFormed (g : Grammar) : Prop :=
  ∀ s ∈ g.statements, s.WellFormed

namespace Reader

theorem quotable_of_quotedText {text rest : List Char} {found : String}
    (h : quotedText text = .ok (found, rest))
    : Quotable found := by
  obtain ⟨_, hword, _⟩ := quotedText_eq_ok.mp h
  exact hword.quotable

/-- What is read is well formed. -/
def Sound (read : List Char → Except Error (Rhs × List Char)) : Prop :=
  ∀ text r rest, read text = .ok (r, rest) → r.WellFormed

theorem sound_operand {nested : List Char → Except Error (Rhs × List Char)} (hnested : Sound nested)
    : Sound (operand nested) := by
  intro text r rest h
  cases operand_eq_ok.mp h with
  | group hinner | repetition hinner | repetition1 hinner | optional hinner =>
    have hwell := hnested _ _ _ hinner
    exact hwell
  | quoted hfound => exact quotable_of_quotedText hfound
  | name hfound => exact (name_eq_ok.mp hfound).1

theorem sound_spaced {nested : List Char → Except Error (Rhs × List Char)} (hnested : Sound nested)
    : Sound (spaced nested) := by
  intro text r rest h
  obtain ⟨behind, hoperand, _⟩ := spaced_eq_ok.mp h
  exact sound_operand hnested _ _ _ hoperand

theorem sound_chained {op : Char} {combine : Rhs → Rhs → Rhs}
    (hcombine : ∀ left right, left.WellFormed → right.WellFormed → (combine left right).WellFormed)
    {read right : List Char → Except Error (Rhs × List Char)} (hread : Sound read)
    (hright : Sound right)
    : Sound (chained op combine read right) := by
  intro text r rest h
  rcases chained_cases h with hleft | ⟨left, other, after, hleft, hother, rfl⟩
  · exact hread _ _ _ hleft
  · exact hcombine left other (hread _ _ _ hleft) (hright _ _ _ hother)

theorem sound_alternation (fuel : Nat) : Sound (alternation fuel) := by
  have hfails : Sound fun text => .error ⟨text, .tag⟩ := by
    intro text r rest h
    cases h
  exact (reader_induction ⟨hfails, hfails, hfails⟩ (sound_chained fun _ _ => And.intro)
    (sound_chained fun _ _ => And.intro) sound_spaced fuel).1

theorem sound_rhs : Sound rhs := fun text => sound_alternation _ text

theorem wellFormed_of_statement {text rest : List Char} {s : Statement}
    (h : statement text = .ok (s, rest))
    : s.WellFormed := by
  obtain ⟨lhs, _, _, hlhs, hbody⟩ := statement_eq_ok.mp h
  have hname := (name_eq_ok.mp hlhs).1
  rcases hbody with ⟨body, _, hbody, rfl⟩ | ⟨pattern, _, _, _, hpattern, _, rfl⟩
  · exact ⟨hname, sound_rhs _ _ _ hbody⟩
  · exact ⟨hname, quotable_of_quotedText hpattern⟩

theorem wellFormed_of_statements {fuel : Nat} {text rest : List Char} {read : List Statement}
    (h : statements fuel text = (read, rest))
    : ∀ s ∈ read, s.WellFormed := by
  induction fuel generalizing text read with
  | zero =>
    cases h
    simp
  | succ fuel ih =>
    rw [statements] at h
    split at h
    · cases h
      simp
    · next first behind hfirst =>
      cases h
      intro s hs
      rcases List.mem_cons.mp hs with rfl | hs
      · exact wellFormed_of_statement hfirst
      · exact ih rfl s hs

end Reader

theorem Rhs.wellFormed_of_read {text : String} {r : Rhs} (h : Rhs.read text = .ok r)
    : r.WellFormed := by
  obtain ⟨rest, hrest⟩ := map_fst_eq_ok.mp h
  exact Reader.sound_rhs _ _ _ hrest

theorem Statement.wellFormed_of_read {text : String} {s : Statement}
    (h : Statement.read text = .ok s)
    : s.WellFormed := by
  obtain ⟨rest, hrest⟩ := map_fst_eq_ok.mp h
  exact Reader.wellFormed_of_statement hrest

theorem Grammar.wellFormed_of_read {text : String} {g : Grammar} (h : Grammar.read text = .ok g)
    : g.WellFormed := by
  unfold Grammar.read at h
  split at h
  next statements rest hread =>
    split at h
    · cases h
      exact Reader.wellFormed_of_statements hread
    · cases h

end GrammarKit
