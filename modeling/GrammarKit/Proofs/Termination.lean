import GrammarKit.Proofs.Parser.Derivation
import GrammarKit.Proofs.Recognizer.LeftRecursion
import GrammarKit.Proofs.Regex.Matching

/-!
This module contains the termination of parsers and regexes whose tables are free of left recursion
and repeat nothing that is nullable.
-/

namespace GrammarKit

open Recognizer Domain Rule

namespace Parser

open Node

/-- A primitive takes a token, so none of them is blank. -/
theorem measured : Domain.Measured domain (fun _ => False) Node.size where
  amount_join outputs := tokensAll_flatMap_splice outputs
  amount_label name n := by
    show (tokensAll (splice n)).length = n.tokens.length
    rw [tokensAll_splice]
  blank_of_yields h hzero := by
    obtain ⟨t, rest, _, _, rfl⟩ := take_yields.mp h
    simp [Node.size] at hzero
  size_lt {tokens n} hfits hne := by
    have hle : n.size ≤ tokens.length := List.IsPrefix.length_le hfits
    show (tokens.drop n.size).length < tokens.length
    rw [List.length_drop]
    omega
  atom_settles _ := take_settles _ _

end Parser

namespace Matcher

/-- The rules that a primitive tries where it stands. -/
def inner : Matcher → List (Rule Matcher)
  | .not rule => [rule]
  | _ => []

/-- Only the empty text takes nothing. -/
def Blank : Matcher → Prop
  | .literal text => text = ""
  | _ => False

theorem inner_eq : Lawful.inner domain = inner := by
  funext m
  cases m <;> rfl

theorem blank_of_yields {ev : Rule Matcher → Position → Run (List Char)} {m : Matcher}
    {pos : Position} {text : List Char} (h : (apply ev m pos).Yields text) (hzero : text.length = 0)
    : Blank m := by
  rw [List.length_eq_zero_iff] at hzero
  subst hzero
  cases m with
  | literal s =>
    rw [apply_literal] at h
    split at h
    · rw [Run.ok_yields] at h
      exact String.toList_eq_nil_iff.mp h
    · simp [failAt] at h
  | range low high =>
    simp only [apply] at h
    split at h
    · simp [failAt] at h
    · split at h
      · simp at h
      · simp [failAt] at h
  | not rule =>
    simp only [apply] at h
    split at h
    · simp [failAt] at h
    · simp [Run.exists_attempt_yields, failAt] at h

theorem apply_settles {ev : Rule Matcher → Position → Run (List Char)} {m : Matcher}
    {pos : Position} (h : ∀ part ∈ inner m, (ev part pos).Settles)
    : (apply ev m pos).Settles := by
  cases m with
  | literal s =>
    rw [apply_literal]
    split
    · apply Run.ok_settles
    · apply Run.fail_settles
  | range low high =>
    simp only [apply]
    split
    · apply Run.fail_settles
    · split
      · apply Run.ok_settles
      · apply Run.fail_settles
  | not rule =>
    simp only [apply]
    split
    · apply Run.fail_settles
    · simp only [Run.bind_eq, Run.andThen_settles, Run.attempt_settles, Run.forall_attempt_yields]
      exact ⟨h rule (by simp [inner]), by simp [failAt], by simp⟩

theorem measured : Domain.Measured domain Blank List.length where
  amount_join _ := List.length_flatten
  amount_label _ _ := rfl
  blank_of_yields h hzero := blank_of_yields h hzero
  size_lt {pos text} hfits hne := by
    obtain ⟨rest, hrest⟩ := hfits
    show (pos.skip (byteLength text)).rest.length < pos.rest.length
    rw [Position.skip_eq_of_prefix hrest.symm, ← hrest, List.length_append]
    show rest.length < text.length + rest.length
    omega
  atom_settles h := apply_settles (inner_eq ▸ h)

end Matcher

namespace Recognizer

/--
Where nothing nullable is repeated and no name comes back to itself by left calls, evaluation comes
to an end at every input, of every name and of every rule that repeats nothing nullable itself.
-/
theorem settles_of_no_left_recursion
    : (∀ (rules : Table (Rule String)) (root : String),
        rules.Grounded (fun _ => []) (fun _ => False) → ∀ tokens : List Token,
          (∀ name, (apply ⟨Parser.domain, rules, root⟩ name tokens).Settles) ∧
            ∀ rule, Productive (fun _ => []) (Nullable (fun _ => False) rules) rule →
              (eval ⟨Parser.domain, rules, root⟩ rule tokens).Settles) ∧
        ∀ (rules : Table (Rule Matcher)) (root : String),
          rules.Grounded Matcher.inner Matcher.Blank → ∀ pos : Position,
            (∀ name, (apply ⟨Matcher.domain, rules, root⟩ name pos).Settles) ∧
              ∀ rule, Productive Matcher.inner (Nullable Matcher.Blank rules) rule →
                (eval ⟨Matcher.domain, rules, root⟩ rule pos).Settles := by
  constructor
  · intro rules root hrules tokens
    exact ⟨fun name => apply_settles_of_grounded Parser.measured hrules name tokens,
      fun rule hrule => eval_settles_of_grounded Parser.measured hrules hrule tokens⟩
  · intro rules root hrules pos
    rw [← Matcher.inner_eq] at hrules ⊢
    exact ⟨fun name => apply_settles_of_grounded Matcher.measured hrules name pos,
      fun rule hrule => eval_settles_of_grounded Matcher.measured hrules hrule pos⟩

/-- Sums call operands at once, and these call sums only behind a parenthesis. -/
def sums : Table (Rule String) :=
  (Table.empty.set "sum" (.seq [.ref "operand", .star (.seq [.atom "+", .ref "operand"])])).set
    "operand" (.alt [.atom "int", .seq [.atom "(", .ref "sum", .atom ")"]])

def words : Table (Rule Matcher) :=
  Table.empty.set "word" (.plus (.atom (.not (.atom (.literal " ")))))

theorem get?_sums {name : String} {body : Rule String} (h : sums.get? name = some body)
    : (name = "operand" ∧ body = .alt [.atom "int", .seq [.atom "(", .ref "sum", .atom ")"]]) ∨
        name = "sum" ∧
          body = .seq [.ref "operand", .star (.seq [.atom "+", .ref "operand"])] := by
  simp only [sums, Table.get?_set, Table.get?_empty] at h
  grind

theorem get?_words {name : String} {body : Rule Matcher} (h : words.get? name = some body)
    : name = "word" ∧ body = .plus (.atom (.not (.atom (.literal " ")))) := by
  simp only [words, Table.get?_set, Table.get?_empty] at h
  grind

theorem grounded_sums : sums.Grounded (fun _ => []) (fun _ => False) where
  productive name body hbody := by
    rcases get?_sums hbody with ⟨_, rfl⟩ | ⟨_, rfl⟩
    · simp [productive_alt, productive_seq, productive_atom, productive_ref]
    · simp [productive_star, productive_seq, productive_atom, productive_ref, nullable_seq,
        nullable_atom]
  acyclic := by
    apply Table.acyclic_of_rank fun name => if name = "sum" then 1 else 0
    rintro name other ⟨body, hbody, hleads⟩
    rcases get?_sums hbody with ⟨_, rfl⟩ | ⟨rfl, rfl⟩
    · simp [leads_alt, leads_seq_cons, leads_atom, nullable_atom] at hleads
    · have hoperand : ¬ Nullable (fun _ => False) sums (.ref "operand") := by
        rw [nullable_ref]
        rintro ⟨body, hbody, hnull⟩
        rcases get?_sums hbody with ⟨_, rfl⟩ | ⟨h, _⟩
        · simp [nullable_alt, nullable_seq, nullable_atom] at hnull
        · exact absurd h (by decide)
      simp only [leads_seq_cons, leads_ref, hoperand, false_and, or_false] at hleads
      simp [hleads]

theorem grounded_words : words.Grounded Matcher.inner Matcher.Blank where
  productive name body hbody := by
    obtain ⟨_, rfl⟩ := get?_words hbody
    simp [productive_plus, productive_atom, nullable_atom, Matcher.Blank, Matcher.inner]
  acyclic := by
    apply Table.acyclic_of_rank fun _ => 0
    rintro name other ⟨body, hbody, hleads⟩
    obtain ⟨_, rfl⟩ := get?_words hbody
    simp [leads_plus, leads_atom, Matcher.inner] at hleads

theorem settles_sums_and_words
    : sums.Grounded (fun _ => []) (fun _ => False) ∧ words.Grounded Matcher.inner Matcher.Blank ∧
        (∀ tokens : List Token, (apply ⟨Parser.domain, sums, "sum"⟩ "sum" tokens).Settles) ∧
        ∀ pos : Position, (apply ⟨Matcher.domain, words, "word"⟩ "word" pos).Settles :=
  ⟨grounded_sums, grounded_words,
    fun tokens => (settles_of_no_left_recursion.1 sums "sum" grounded_sums tokens).1 "sum",
    fun pos => (settles_of_no_left_recursion.2 words "word" grounded_words pos).1 "word"⟩

end Recognizer

end GrammarKit
