import GrammarKit.Proofs.Recognizer.Equations
import GrammarKit.Regex.Basic

/-!
This module contains the laws of the domain of characters. What a regex matches is the first part of
the text at hand, and it is what its rule evaluates to without a bound.
-/

namespace GrammarKit

open Recognizer

namespace Position

theorem skip.go_suffix (rest : List Char) (n : Nat) : skip.go rest n <:+ rest := by
  fun_induction skip.go rest n with
  | case1 rest => exact List.suffix_refl rest
  | case2 n => exact List.suffix_refl []
  | case3 c rest n ih => exact List.IsSuffix.trans ih (List.suffix_cons c rest)

theorem skip_eq_of_prefix {pos : Position} {text rest : List Char} (h : pos.rest = text ++ rest)
    : pos.skip (byteLength text) = ⟨rest⟩ := by
  obtain ⟨chars⟩ := pos
  subst h
  exact skip_byteLength text rest

theorem skip_append {pos : Position} {text others : List Char} (h : text ++ others <+: pos.rest)
    : pos.skip (byteLength (text ++ others)) =
        (pos.skip (byteLength text)).skip (byteLength others) := by
  obtain ⟨rest, hrest⟩ := h
  have hwhole : pos.skip (byteLength (text ++ others)) = ⟨rest⟩ := skip_eq_of_prefix hrest.symm
  rw [List.append_assoc] at hrest
  have hfirst : pos.skip (byteLength text) = ⟨others ++ rest⟩ := skip_eq_of_prefix hrest.symm
  rw [hwhole, hfirst]
  exact (skip_byteLength others rest).symm

end Position

namespace Matcher

theorem apply_literal (ev : Rule Matcher → Position → Run (List Char)) (text : String)
    (pos : Position)
    : apply ev (.literal text) pos =
        if text.toList <+: pos.rest then
          .ok text.toList
        else
          failAt pos (mismatch (.literal text)) := by
  simp only [apply, Position.startsWith, List.isPrefixOf_iff_prefix]

theorem apply_fits {ev : Rule Matcher → Position → Run (List Char)} {m : Matcher} {pos : Position}
    {text : List Char} (h : (apply ev m pos).Yields text)
    : text <+: pos.rest := by
  cases m with
  | literal s =>
    rw [apply_literal] at h
    split at h
    · next hpre =>
      rw [Run.ok_yields] at h
      rwa [← h]
    · simp [failAt] at h
  | range low high =>
    simp only [apply, Position.peek] at h
    split at h
    · simp [failAt] at h
    · next c hc =>
      split at h
      · rw [Run.ok_yields] at h
        obtain ⟨rest, hrest⟩ := List.head?_eq_some_iff.mp hc
        exact ⟨rest, by rw [← h, hrest]; rfl⟩
      · simp [failAt] at h
  | not rule =>
    simp only [apply, Position.peek] at h
    split at h
    · simp [failAt] at h
    · next c hc =>
      simp only [Run.bind_eq, Run.andThen_yields, Run.exists_attempt_yields, failAt,
        Run.not_fail_yields, and_false, exists_false, false_or, Run.ok_yields] at h
      obtain ⟨e, he, rfl⟩ := h
      obtain ⟨rest, hrest⟩ := List.head?_eq_some_iff.mp hc
      exact ⟨rest, by rw [hrest]; rfl⟩

theorem row_prefix {pos : Position} {texts : List (List Char)}
    (h : Row domain (fun pos text => text <+: pos.rest) pos texts)
    : texts.flatten <+: pos.rest := by
  induction h with
  | nil pos => exact List.nil_prefix
  | @cons pos text texts first _ ih =>
    obtain ⟨rest, hrest⟩ := first
    rw [← hrest, List.flatten_cons, List.prefix_append_right_inj]
    have hskip : (domain.advance pos text).rest = rest := by
      simp [domain, Position.skip_eq_of_prefix hrest.symm]
    rwa [hskip] at ih

instance : Domain.Lawful domain where
  inner m :=
    match m with
    | .not rule => [rule]
    | _ => []
  depth_inner {m rule} h := by
    cases m with
    | not inner =>
      rw [List.mem_singleton] at h
      rw [h]
      simp [domain, depth, depthRule_eq]
    | _ => simp at h
  atom_le {ev ev' m pos} h := by
    cases m with
    | not rule =>
      simp only [domain, apply]
      split
      · apply Run.le_refl
      · exact Run.andThen_le (Run.attempt_le (h rule (by simp))) fun _ _ => Run.le_refl _
    | _ => exact Run.le_refl _
  Fits pos text := text <+: pos.rest
  fits_atom h := apply_fits h
  fits_label h := h
  fits_join h := row_prefix h
  Rest a b := b.rest <:+ a.rest
  rest_refl pos := List.suffix_refl pos.rest
  rest_trans hab hbc := List.IsSuffix.trans hbc hab
  rest_advance {pos text} _ := Position.skip.go_suffix pos.rest (byteLength text)
  size_le h := h.length_le
  eq_of_size_eq {a b c} hb hc heq := by
    obtain ⟨b⟩ := b
    obtain ⟨c⟩ := c
    exact congrArg Position.mk (List.suffix_of_suffix_length_le hb hc (Nat.le_of_eq heq)
      |>.eq_of_length heq)

end Matcher

namespace Regex

variable (r : Regex)

instance : Domain.Lawful r.recognizer.domain :=
  inferInstanceAs (Domain.Lawful Matcher.domain)

def Terminates (pos : Position) : Prop :=
  ∃ n, (r.recognizer.applyWithin n rootName pos).Settles

def eval (rule : Rule Matcher) (pos : Position) : Run (List Char) :=
  r.recognizer.eval rule pos

variable {r}

theorem run_eq (pos : Position)
    : r.recognizer.run pos =
        (r.eval r.rule pos).attempt.andThen fun result =>
          match result with
          | .ok text => .ok text
          | .error e => .fail (inRule rootName none e) := by
  have hget : r.recognizer.rules.get? r.recognizer.root = some r.rule :=
    Table.get?_set_self Table.empty rootName r.rule
  rw [run_eq_call]
  unfold call
  rw [hget]
  apply Run.andThen_congr
  intro result _
  cases result <;> rfl

theorem run_settles (pos : Position)
    : (r.recognizer.run pos).Settles ↔ (r.eval r.rule pos).Settles := by
  rw [run_eq, Run.andThen_settles, Run.attempt_settles]
  apply and_iff_left_of_imp
  intro _
  rw [Run.forall_attempt_yields]
  simp

theorem matchAt_run_eq_some (pos : Position) (text : List Char)
    : (r.matchAt pos).run = some (.ok text) ↔ (r.eval r.rule pos).Yields text := by
  rw [matchAt, Run.toEventually_eq_ok, run_eq, Run.andThen_yields, Run.exists_attempt_yields]
  simp

theorem matchAt_run_eq_none (pos : Position)
    : (r.matchAt pos).run = none ↔ ¬ (r.eval r.rule pos).Settles := by
  rw [matchAt, Run.toEventually_eq_none, run_settles]

theorem terminates_iff (pos : Position) : r.Terminates pos ↔ (r.eval r.rule pos).Settles := by
  have happly := (r.recognizer.isLimit_apply rootName pos).settles_iff
  rw [Terminates, ← happly]
  exact run_settles pos

theorem terminates_literal (text : String) (pos : Position) : (literal text).Terminates pos := by
  rw [terminates_iff, Regex.eval, literal, eval_atom]
  simp only [recognizer, Matcher.domain, Matcher.apply]
  split <;> simp [Matcher.failAt]

theorem matchAt_literal {text : String} {pos : Position} {value : List Char}
    (h : ((literal text).matchAt pos).run = some (.ok value))
    : value = text.toList := by
  rw [matchAt_run_eq_some, Regex.eval, literal, eval_atom] at h
  simp only [recognizer, Matcher.domain, Matcher.apply_literal] at h
  split at h
  · exact ((Run.ok_yields _ _).mp h).symm
  · simp [Matcher.failAt] at h

theorem eval_prefix {rule : Rule Matcher} {pos : Position} {text : List Char}
    (h : (r.eval rule pos).Yields text)
    : text <+: pos.rest :=
  r.recognizer.eval_fits _ _ _ h

theorem matchAt_prefix {pos : Position} {text : List Char}
    (h : (r.matchAt pos).run = some (.ok text))
    : text <+: pos.rest :=
  eval_prefix ((matchAt_run_eq_some pos text).mp h)

end Regex

end GrammarKit
