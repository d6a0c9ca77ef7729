import GrammarKit.Proofs.Regex.Classes
import GrammarKit.Proofs.Regex.Prefixes

/-!
This module contains rules that take a fixed text. A row of them takes their texts one after the
other, and a regex made of such a rule matches the text at the beginning of others.
-/

namespace GrammarKit

namespace Regex

/-- The rule takes the text wherever that comes next, and fails elsewhere. -/
structure TakesText (r : Regex) (rule : Rule Matcher) (text : List Char) : Prop where
  settles : ∀ pos, (r.eval rule pos).Settles
  yields_iff : ∀ {rest output}, (r.eval rule ⟨rest⟩).Yields output ↔ output = text ∧ text <+: rest

/-- A text that begins with `text` is matched up to there, and no other one is matched. -/
def MatchesText (r : Regex) (text : String) : Prop :=
  ∀ input : String,
    (text.toList <+: input.toList → (r.matchText input).run = some (.ok text)) ∧
      (¬ text.toList <+: input.toList → ∃ e, (r.matchText input).run = some (.error e))

section Texts

variable {r : Regex} {rule : Rule Matcher} {rules : List (Rule Matcher)} {text others : List Char}

theorem takesText_literal (text : String)
    : r.TakesText (.atom (.literal text)) text.toList where
  settles pos := by
    rw [eval_atom_eq, Matcher.apply_literal]
    split
    · apply Run.ok_settles
    · apply Run.fail_settles
  yields_iff := by
    intro rest output
    rw [eval_atom_eq, Matcher.apply_literal]
    split
    · next hprefix =>
      rw [Run.ok_yields, eq_comm]
      exact (and_iff_left hprefix).symm
    · next hprefix => simp [Matcher.failAt, hprefix]

theorem takesText_nil : r.TakesText (.seq []) [] where
  settles _ := eval_seq_nil_settles
  yields_iff := by
    intro rest output
    rw [eval_seq_nil_yields]
    exact (and_iff_left List.nil_prefix).symm

theorem TakesText.cons (hfirst : r.TakesText rule text) (hothers : r.TakesText (.seq rules) others)
    : r.TakesText (.seq (rule :: rules)) (text ++ others) where
  settles := eval_seq_cons_settles hfirst.settles hothers.settles
  yields_iff := by
    intro rest output
    rw [eval_seq_cons_yields]
    constructor
    · rintro ⟨first, behind, more, rfl, hyields, hmore, rfl⟩
      obtain ⟨rfl, _⟩ := hfirst.yields_iff.mp hyields
      obtain ⟨rfl, hprefix⟩ := hothers.yields_iff.mp hmore
      exact ⟨rfl, (List.prefix_append_right_inj first).mpr hprefix⟩
    · rintro ⟨rfl, behind, rfl⟩
      have htext : text <+: text ++ others ++ behind :=
        (List.prefix_append text others).trans (List.prefix_append _ behind)
      exact ⟨text, others ++ behind, others, List.append_assoc .., hfirst.yields_iff.mpr ⟨rfl, htext⟩,
        hothers.yields_iff.mpr ⟨rfl, List.prefix_append others behind⟩, rfl⟩

theorem matchText_eq_ok {input m : String}
    : (r.matchText input).run = some (.ok m) ↔
        (r.eval r.rule (Position.ofString input)).Yields m.toList := by
  constructor
  · exact eval_of_matchText
  · intro h
    exact Eventually.map_eq_ok.mpr ⟨m.toList, (matchAt_run_eq_some _ _).mpr h, String.ofList_toList⟩

theorem matchText_settles {input : String}
    (h : (r.eval r.rule (Position.ofString input)).Settles)
    : (r.matchText input).run ≠ none := by
  rw [matchText, map_eq_pure_bind]
  apply Eventually.bind_ne_none
  · rw [ne_eq, matchAt_run_eq_none]
    exact not_not_intro h
  · simp

theorem TakesText.matchesText {text : String} (h : r.TakesText r.rule text.toList)
    : r.MatchesText text := by
  intro input
  constructor
  · intro hprefix
    exact matchText_eq_ok.mpr (h.yields_iff.mpr ⟨rfl, hprefix⟩)
  · intro hprefix
    apply Eventually.exists_error (matchText_settles (h.settles _))
    intro m hm
    exact hprefix (h.yields_iff.mp (matchText_eq_ok.mp hm)).2

end Texts

end Regex

end GrammarKit
