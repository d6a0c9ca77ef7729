import GrammarKit.Proofs.Recognizer.Ambiguity
import GrammarKit.Proofs.Regex.Matching

/-!
This module contains rules that take a single character out of a class, and what rules put together
from them match.
-/

namespace GrammarKit

open Recognizer

namespace Regex

variable {r : Regex}

section Sequences

variable {rule : Rule Matcher} {rules : List (Rule Matcher)} {text rest : List Char}

theorem advance_append (text rest : List Char)
    : r.recognizer.domain.advance ⟨text ++ rest⟩ text = ⟨rest⟩ :=
  Position.skip_eq_of_prefix rfl

theorem advance_single (c : Char) (rest : List Char)
    : r.recognizer.domain.advance ⟨c :: rest⟩ [c] = ⟨rest⟩ :=
  advance_append [c] rest

theorem eval_seq_nil_yields {pos : Position} : (r.eval (.seq []) pos).Yields text ↔ text = [] := by
  rw [Regex.eval, eval_seq_yields]
  constructor
  · rintro ⟨outputs, houtputs, rfl⟩
    rw [← (Run.ok_yields _ _).mp houtputs]
    rfl
  · rintro rfl
    exact ⟨[], (Run.ok_yields _ _).mpr rfl, rfl⟩

theorem eval_seq_cons_yields
    : (r.eval (.seq (rule :: rules)) ⟨rest⟩).Yields text ↔
        ∃ first behind others, rest = first ++ behind ∧ (r.eval rule ⟨rest⟩).Yields first ∧
          (r.eval (.seq rules) ⟨behind⟩).Yields others ∧ text = first ++ others := by
  simp only [Regex.eval, eval_seq_yields, sequence_cons_yields]
  constructor
  · rintro ⟨_, ⟨first, others, hfirst, hothers, rfl⟩, rfl⟩
    obtain ⟨behind, rfl⟩ := eval_prefix hfirst
    rw [advance_append] at hothers
    exact ⟨first, behind, _, rfl, hfirst, ⟨others, hothers, rfl⟩, rfl⟩
  · rintro ⟨first, behind, _, rfl, hfirst, ⟨others, hothers, rfl⟩, rfl⟩
    refine ⟨first :: others, ⟨first, others, hfirst, ?_, rfl⟩, rfl⟩
    rw [advance_append]
    exact hothers

theorem eval_seq_last_yields
    : (r.eval (.seq [rule]) ⟨rest⟩).Yields text ↔ (r.eval rule ⟨rest⟩).Yields text := by
  rw [eval_seq_cons_yields]
  constructor
  · rintro ⟨first, behind, others, rfl, hfirst, hothers, rfl⟩
    rwa [eval_seq_nil_yields.mp hothers, List.append_nil]
  · intro h
    obtain ⟨behind, rfl⟩ := eval_prefix h
    exact ⟨text, behind, [], rfl, h, eval_seq_nil_yields.mpr rfl, (List.append_nil text).symm⟩

theorem eval_seq_nil_settles {pos : Position} : (r.eval (.seq []) pos).Settles := by
  rw [Regex.eval, eval_seq_settles]
  apply Run.ok_settles

theorem eval_seq_cons_settles (hfirst : ∀ pos, (r.eval rule pos).Settles)
    (hothers : ∀ pos, (r.eval (.seq rules) pos).Settles) (pos : Position)
    : (r.eval (.seq (rule :: rules)) pos).Settles := by
  rw [Regex.eval, eval_seq_settles, sequence_cons_settles]
  exact ⟨hfirst pos, fun output _ => eval_seq_settles.mp (hothers _)⟩

theorem eval_seq_settles (h : ∀ part ∈ rules, ∀ pos, (r.eval part pos).Settles) (pos : Position)
    : (r.eval (.seq rules) pos).Settles := by
  induction rules generalizing pos with
  | nil => exact eval_seq_nil_settles
  | cons rule rules ih =>
    rw [List.forall_mem_cons] at h
    exact eval_seq_cons_settles h.1 (ih h.2) pos

end Sequences

/-- The rule takes the first character where that passes the test, and fails elsewhere. -/
structure TakesOne (r : Regex) (rule : Rule Matcher) (test : Char → Bool) : Prop where
  fails_nil : (r.eval rule ⟨[]⟩).Fails
  fails : ∀ c rest, test c = false → (r.eval rule ⟨c :: rest⟩).Fails
  takes : ∀ c rest, test c = true → (r.eval rule ⟨c :: rest⟩).Yields [c]

namespace TakesOne

variable {rule : Rule Matcher} {test : Char → Bool}

theorem settles (h : r.TakesOne rule test) (pos : Position) : (r.eval rule pos).Settles := by
  obtain ⟨rest⟩ := pos
  cases rest with
  | nil => exact h.fails_nil.settles
  | cons c rest =>
    cases htest : test c with
    | false => exact (h.fails c rest htest).settles
    | true => exact (h.takes c rest htest).settles

theorem yields_iff (h : r.TakesOne rule test) {rest text : List Char}
    : (r.eval rule ⟨rest⟩).Yields text ↔
        ∃ c behind, rest = c :: behind ∧ test c = true ∧ text = [c] := by
  cases rest with
  | nil =>
    constructor
    · intro hyields
      exact absurd h.fails_nil hyields.not_fails
    · rintro ⟨c, behind, hrest, _⟩
      cases hrest
  | cons c rest =>
    cases htest : test c with
    | false =>
      constructor
      · intro hyields
        exact absurd (h.fails c rest htest) hyields.not_fails
      · rintro ⟨c', behind, hrest, htest', _⟩
        rw [(List.cons.inj hrest).1, htest'] at htest
        cases htest
    | true =>
      constructor
      · intro hyields
        exact ⟨c, rest, rfl, htest, hyields.unique (h.takes c rest htest)⟩
      · rintro ⟨c', behind, hrest, _, rfl⟩
        rw [← (List.cons.inj hrest).1]
        exact h.takes c rest htest

theorem congr {test' : Char → Bool} (h : r.TakesOne rule test) (htest : ∀ c, test c = test' c)
    : r.TakesOne rule test' := by
  rwa [← funext htest]

end TakesOne

theorem eval_atom_eq (m : Matcher) (pos : Position)
    : r.eval (.atom m) pos = Matcher.apply r.recognizer.eval m pos :=
  eval_atom r.recognizer m pos

theorem takesOne_literal {text : String} {c : Char} (h : text.toList = [c])
    : r.TakesOne (.atom (.literal text)) (· == c) := by
  constructor
  · rw [eval_atom_eq, Matcher.apply_literal, h, if_neg (by simp)]
    apply Run.fail_fails
  · intro d rest htest
    have hne : c ≠ d := (ne_of_beq_false htest).symm
    rw [eval_atom_eq, Matcher.apply_literal, h, if_neg (by simp [hne])]
    apply Run.fail_fails
  · intro d rest htest
    have heq : d = c := by simpa using htest
    rw [eval_atom_eq, Matcher.apply_literal, h, if_pos (by simp [heq]), heq]
    exact (Run.ok_yields _ _).mpr rfl

theorem takesOne_range (low high : Char)
    : r.TakesOne (.atom (.range low high)) fun c => decide (low ≤ c ∧ c ≤ high) := by
  constructor
  · rw [eval_atom_eq]
    apply Run.fail_fails
  · intro c rest htest
    have hout : ¬ (low ≤ c ∧ c ≤ high) := of_decide_eq_false htest
    rw [eval_atom_eq]
    simp only [Matcher.apply, Position.peek, List.head?_cons, if_neg hout]
    apply Run.fail_fails
  · intro c rest htest
    have hin : low ≤ c ∧ c ≤ high := of_decide_eq_true htest
    rw [eval_atom_eq]
    simp only [Matcher.apply, Position.peek, List.head?_cons, if_pos hin]
    exact (Run.ok_yields _ _).mpr rfl

theorem takesOne_not {rule : Rule Matcher} {test : Char → Bool} (h : r.TakesOne rule test)
    : r.TakesOne (.atom (.not rule)) fun c => !test c := by
  constructor
  · rw [eval_atom_eq]
    apply Run.fail_fails
  · intro c rest htest
    have hyields := h.takes c rest (by simpa using htest)
    rw [eval_atom_eq]
    refine (Run.andThen_fails _ _).mpr (.inr ⟨.ok [c], ?_, Run.fail_fails _⟩)
    exact (Run.attempt_yields_ok _ _).mpr hyields
  · intro c rest htest
    obtain ⟨e, he⟩ := h.fails c rest (by simpa using htest)
    rw [eval_atom_eq]
    refine (Run.andThen_yields _ _ _).mpr ⟨.error e, ?_, (Run.ok_yields _ _).mpr rfl⟩
    exact (Run.attempt_yields_error _ _).mpr he

section Alternatives

variable {entries : List (Rule Matcher × (Char → Bool))}
variable (hentries : ∀ entry ∈ entries, r.TakesOne entry.1 entry.2)
variable (hdisjoint : entries.Pairwise fun a b => ∀ c, a.2 c = true → b.2 c = false)

include hentries hdisjoint in
theorem exclusive_of_takesOne : r.recognizer.Exclusive (entries.map Prod.fst) := by
  refine List.pairwise_map.mpr (List.Pairwise.imp_of_mem ?_ hdisjoint)
  intro a b ha hb hab pos x y hx hy
  obtain ⟨c, behind, hrest, htest, _⟩ := (hentries a ha).yields_iff.mp hx
  obtain ⟨c', behind', hrest', htest', _⟩ := (hentries b hb).yields_iff.mp hy
  rw [hrest] at hrest'
  rw [← (List.cons.inj hrest').1, hab c htest] at htest'
  cases htest'

include hentries hdisjoint in
theorem takesOne_alt
    : r.TakesOne (.alt (entries.map Prod.fst)) fun c => entries.any fun entry => entry.2 c := by
  constructor
  · apply eval_alt_fails_of_all
    intro rule hrule
    obtain ⟨entry, hentry, rfl⟩ := List.mem_map.mp hrule
    exact (hentries entry hentry).fails_nil
  · intro c rest htest
    apply eval_alt_fails_of_all
    intro rule hrule
    obtain ⟨entry, hentry, rfl⟩ := List.mem_map.mp hrule
    exact (hentries entry hentry).fails c rest (by simpa using List.any_eq_false.mp htest entry hentry)
  · intro c rest htest
    obtain ⟨entry, hentry, hc⟩ := List.any_eq_true.mp htest
    have hsettles : ∀ rule ∈ entries.map Prod.fst, (r.eval rule ⟨c :: rest⟩).Settles := by
      intro rule hrule
      obtain ⟨other, hother, rfl⟩ := List.mem_map.mp hrule
      exact (hentries other hother).settles _
    exact (exclusive_of_takesOne hentries hdisjoint).eval_alt_yields hsettles
      (List.mem_map_of_mem hentry) ((hentries entry hentry).takes c rest hc)

end Alternatives

/-- Characters as rules that take them, and as tests. -/
def singles (chars : List Char) : List (Rule Matcher × (Char → Bool)) :=
  chars.map fun c => (.atom (.literal (String.singleton c)), (· == c))

theorem takesOne_singles (chars : List Char)
    : ∀ entry ∈ singles chars, r.TakesOne entry.1 entry.2 := by
  intro entry hentry
  obtain ⟨c, _, rfl⟩ := List.mem_map.mp hentry
  exact takesOne_literal (String.toList_singleton c)

theorem singles_disjoint {chars : List Char} (hnodup : chars.Nodup)
    : (singles chars).Pairwise fun a b => ∀ c, a.2 c = true → b.2 c = false := by
  refine List.pairwise_map.mpr (hnodup.imp fun {a b} hne c hc => ?_)
  rw [beq_iff_eq.mp hc]
  exact beq_false_of_ne hne

theorem takesOne_oneOf {chars : List Char} (hnodup : chars.Nodup)
    : r.TakesOne (.alt ((singles chars).map Prod.fst)) chars.contains := by
  apply (takesOne_alt (takesOne_singles chars) (singles_disjoint hnodup)).congr
  intro c
  rw [singles, List.any_map]
  exact List.any_beq

/-- A range of characters as a rule that takes them, and as a test. -/
def span (low high : Char) : Rule Matcher × (Char → Bool) :=
  (.atom (.range low high), fun c => decide (low ≤ c ∧ c ≤ high))

theorem takesOne_span (low high : Char) : r.TakesOne (span low high).1 (span low high).2 :=
  takesOne_range low high

theorem span_disjoint {low high low' high' : Char} (h : high < low' ∨ high' < low) (c : Char)
    (hc : (span low high).2 c = true)
    : (span low' high').2 c = false := by
  have hin : low ≤ c ∧ c ≤ high := of_decide_eq_true hc
  apply decide_eq_false
  intro hin'
  rcases h with h | h
  · exact Char.not_le.mpr h (Char.le_trans hin'.1 hin.2)
  · exact Char.not_le.mpr h (Char.le_trans hin.1 hin'.2)

theorem span_disjoint_single {low high d : Char} (h : ¬ (low ≤ d ∧ d ≤ high)) (c : Char)
    (hc : (span low high).2 c = true)
    : (c == d) = false := by
  apply beq_false_of_ne
  intro heq
  subst heq
  exact h (of_decide_eq_true hc)

section Repetitions

variable {rule : Rule Matcher} {test : Char → Bool} (h : r.TakesOne rule test)

include h in
theorem loop_yields_takeWhile (rest : List Char)
    : (r.recognizer.loop rule ⟨rest⟩).Yields ((rest.takeWhile test).map fun c => [c]) := by
  induction rest with
  | nil => exact loop_yields.mpr (.inr ⟨h.fails_nil, rfl⟩)
  | cons c rest ih =>
    cases htest : test c with
    | false =>
      rw [List.takeWhile_cons_of_neg (by simp [htest])]
      exact loop_yields.mpr (.inr ⟨h.fails c rest htest, rfl⟩)
    | true =>
      rw [List.takeWhile_cons_of_pos htest]
      refine loop_yields.mpr (.inl ⟨[c], _, h.takes c rest htest, ?_, rfl⟩)
      rw [advance_single]
      exact ih

theorem join_singletons (text : List Char)
    : r.recognizer.domain.join (text.map fun c => [c]) = text := by
  show (text.map fun c => [c]).flatten = text
  induction text with
  | nil => rfl
  | cons c text ih => simp [ih]

include h in
theorem eval_star_takeWhile (rest : List Char)
    : (r.eval (.star rule) ⟨rest⟩).Yields (rest.takeWhile test) :=
  eval_star_yields.mpr ⟨_, loop_yields_takeWhile h rest, join_singletons _⟩

include h in
theorem eval_star_yields_iff {rest text : List Char}
    : (r.eval (.star rule) ⟨rest⟩).Yields text ↔ text = rest.takeWhile test := by
  constructor
  · exact fun hyields => hyields.unique (eval_star_takeWhile h rest)
  · rintro rfl
    exact eval_star_takeWhile h rest

include h in
theorem eval_plus_yields_takeWhile {c : Char} (htest : test c = true) (rest : List Char)
    : (r.eval (.plus rule) ⟨c :: rest⟩).Yields ((c :: rest).takeWhile test) := by
  rw [List.takeWhile_cons_of_pos htest]
  refine eval_plus_yields.mpr ⟨[c], _, h.takes c rest htest, ?_,
    join_singletons (c :: rest.takeWhile test)⟩
  rw [advance_single]
  exact loop_yields_takeWhile h rest

include h in
theorem eval_plus_takeWhile {rest text : List Char}
    : (r.eval (.plus rule) ⟨rest⟩).Yields text ↔ text ≠ [] ∧ text = rest.takeWhile test := by
  constructor
  · intro hyields
    -- the first round has taken a character, so that the text is the one found by all rounds
    obtain ⟨first, outputs, hfirst, _, _⟩ := eval_plus_yields.mp hyields
    obtain ⟨c, behind, rfl, htest, _⟩ := h.yields_iff.mp hfirst
    have htext := hyields.unique (eval_plus_yields_takeWhile h htest behind)
    refine ⟨?_, htext⟩
    rw [htext, List.takeWhile_cons_of_pos htest]
    apply List.cons_ne_nil
  · rintro ⟨hne, rfl⟩
    cases rest with
    | nil => exact absurd rfl hne
    | cons c behind =>
      cases htest : test c with
      | false => exact absurd (List.takeWhile_cons_of_neg (by simp [htest])) hne
      | true => exact eval_plus_yields_takeWhile h htest behind

include h in
theorem eval_plus_all {rest text : List Char} (hyields : (r.eval (.plus rule) ⟨rest⟩).Yields text)
    : text ≠ [] ∧ ∀ c ∈ text, test c = true := by
  obtain ⟨hne, htext⟩ := (eval_plus_takeWhile h).mp hyields
  refine ⟨hne, List.all_eq_true.mp ?_⟩
  rw [htext]
  exact List.all_takeWhile

include h in
theorem eval_star_settles_of_takesOne (pos : Position) : (r.eval (.star rule) pos).Settles :=
  (eval_star_takeWhile h pos.rest).settles

include h in
theorem eval_plus_settles_of_takesOne (pos : Position) : (r.eval (.plus rule) pos).Settles :=
  eval_plus_settles.mpr (eval_star_settles.mp (eval_star_settles_of_takesOne h pos))

end Repetitions

/-- Wherever the rule has alternatives, no two of them match. -/
def Decisive (r : Regex) (rule : Rule Matcher) : Prop :=
  ∀ rules, Rule.Occurs (Domain.Lawful.inner r.recognizer.domain) (.alt rules) rule →
    r.recognizer.Exclusive rules

section Decisive

variable {rule : Rule Matcher} {rules : List (Rule Matcher)}

theorem decisive_of_parts
    (hparts : ∀ part ∈ rule.parts (Domain.Lawful.inner r.recognizer.domain), r.Decisive part)
    (hself : ∀ rules, rule = .alt rules → r.recognizer.Exclusive rules)
    : r.Decisive rule := by
  intro rules hoccurs
  cases hoccurs with
  | here => exact hself rules rfl
  | inside hpart h => exact hparts _ hpart rules h

theorem decisive_literal (text : String) : r.Decisive (.atom (.literal text)) :=
  decisive_of_parts (fun _ hpart => by cases hpart) (by simp)

theorem decisive_range (low high : Char) : r.Decisive (.atom (.range low high)) :=
  decisive_of_parts (fun _ hpart => by cases hpart) (by simp)

theorem decisive_not (h : r.Decisive rule) : r.Decisive (.atom (.not rule)) :=
  decisive_of_parts (fun _ hpart => List.mem_singleton.mp hpart ▸ h) (by simp)

theorem decisive_seq (h : ∀ part ∈ rules, r.Decisive part) : r.Decisive (.seq rules) :=
  decisive_of_parts h (by simp)

theorem decisive_star (h : r.Decisive rule) : r.Decisive (.star rule) :=
  decisive_of_parts (fun _ hpart => List.mem_singleton.mp hpart ▸ h) (by simp)

theorem decisive_plus (h : r.Decisive rule) : r.Decisive (.plus rule) :=
  decisive_of_parts (fun _ hpart => List.mem_singleton.mp hpart ▸ h) (by simp)

theorem decisive_opt (h : r.Decisive rule) : r.Decisive (.opt rule) :=
  decisive_of_parts (fun _ hpart => List.mem_singleton.mp hpart ▸ h) (by simp)

theorem decisive_alt {entries : List (Rule Matcher × (Char → Bool))}
    (hentries : ∀ entry ∈ entries, r.TakesOne entry.1 entry.2)
    (hdisjoint : entries.Pairwise fun a b => ∀ c, a.2 c = true → b.2 c = false)
    (h : ∀ entry ∈ entries, r.Decisive entry.1)
    : r.Decisive (.alt (entries.map Prod.fst)) := by
  refine decisive_of_parts (fun part hpart => ?_) fun rules heq => ?_
  · obtain ⟨entry, hentry, rfl⟩ := List.mem_map.mp hpart
    exact h entry hentry
  · injection heq with heq
    rw [← heq]
    exact exclusive_of_takesOne hentries hdisjoint

theorem Decisive.unambiguous (h : r.Decisive r.rule) : r.recognizer.Unambiguous := by
  apply unambiguous_of_exclusive
  intro name body rules hbody hoccurs
  simp only [recognizer, Table.get?_set] at hbody
  split at hbody
  · rw [← Option.some.inj hbody] at hoccurs
    exact h rules hoccurs
  · cases hbody

end Decisive

end Regex

end GrammarKit
