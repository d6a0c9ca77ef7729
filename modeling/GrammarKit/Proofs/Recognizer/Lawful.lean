import GrammarKit.Proofs.Recognizer.Soundness
import GrammarKit.Proofs.Run.Limit

/-!
This module contains the laws of domains on which the evaluation of rules relies, and what follows
from them at once: outputs account for the first part of their input, and greater bounds only add to
what has settled.
-/

namespace GrammarKit

open Recognizer

variable {ι ω μ : Type}

namespace Rule

/-- The rules that a rule is put together from, given those that primitives hold. -/
def parts (inner : μ → List (Rule μ)) : Rule μ → List (Rule μ)
  | .atom a => inner a
  | .ref _ => []
  | .seq rules => rules
  | .alt rules => rules
  | .star rule => [rule]
  | .plus rule => [rule]
  | .opt rule => [rule]
  | .untilEmpty rule => [rule]

end Rule

namespace Domain

/--
Laws of a domain.
-/
class Lawful (d : Domain ι ω μ) where
  /-- The rules that a primitive holds. It applies them where it stands, and no others. -/
  inner : μ → List (Rule μ)
  depth_inner : ∀ {a rule}, rule ∈ inner a → rule.depth d.atomDepth ≤ d.atomDepth a
  atom_le : ∀ {ev ev' a input}, (∀ rule ∈ inner a, ev rule input ≤ ev' rule input) →
    d.atom ev a input ≤ d.atom ev' a input
  /-- The output accounts for the first part of the input. -/
  Fits : ι → ω → Prop
  fits_atom : ∀ {ev a input output}, (d.atom ev a input).Yields output → Fits input output
  fits_label : ∀ {name input output}, Fits input output → Fits input (d.label name output)
  fits_join : ∀ {input outputs}, Row d Fits input outputs → Fits input (d.join outputs)
  /-- The second input is what is left of the first one at some place. -/
  Rest : ι → ι → Prop
  rest_refl : ∀ input, Rest input input
  rest_trans : ∀ {a b c}, Rest a b → Rest b c → Rest a c
  rest_advance : ∀ {input output}, Fits input output → Rest input (d.advance input output)
  size_le : ∀ {a b}, Rest a b → d.size b ≤ d.size a
  eq_of_size_eq : ∀ {a b c}, Rest a b → Rest a c → d.size b = d.size c → b = c

end Domain

open Domain

namespace Recognizer

theorem closed_fits (m : Recognizer ι ω μ) [Lawful m.domain]
    : m.Closed fun _ input output => Lawful.Fits m.domain input output where
  atom _ h := Lawful.fits_atom h
  ref _ h := Lawful.fits_join (.cons (Lawful.fits_label h) (.nil _))
  seq h := Lawful.fits_join h.row
  alt _ h := h
  star h := Lawful.fits_join h
  plus hfirst hrest := Lawful.fits_join (.cons hfirst hrest)
  optSome h := h
  optNone := Lawful.fits_join (.nil _)
  untilEmpty h := Lawful.fits_join h

section Bounds

variable {d : Domain ι ω μ} {ev ev' : Rule μ → ι → Run ω}

/-- A round that leaves the input as it is repeats itself forever. -/
theorem repeated_stuck {rule : Rule μ} {input : ι} {output : ω}
    (h : (ev rule input).Yields output) (hsame : d.advance input output = input) (n : Nat)
    : repeated d ev rule n input = .unsettled := by
  induction n with
  | zero => rfl
  | succ n ih =>
    obtain ⟨log, hlog⟩ := h
    simp [repeated, hlog, Run.attempt, Run.andThen, hsame, ih, Run.after]

theorem exhausted_stuck {rule : Rule μ} {input : ι} {output : ω} (hempty : d.isEmpty input = false)
    (h : (ev rule input).Yields output) (hsame : d.advance input output = input) (n : Nat)
    : exhausted d ev rule n input = .unsettled := by
  induction n with
  | zero => rfl
  | succ n ih =>
    obtain ⟨log, hlog⟩ := h
    simp [exhausted, hempty, hlog, Run.andThen, hsame, ih, Run.after]

theorem results_le {rules : List (Rule μ)} {input : ι}
    (h : ∀ rule ∈ rules, ev rule input ≤ ev' rule input)
    : results ev rules input ≤ results ev' rules input := by
  induction rules with
  | nil => exact Run.le_refl _
  | cons rule rules ih =>
    apply Run.andThen_le (Run.attempt_le (h rule (by simp)))
    intro result _
    apply Run.andThen_le (ih fun rule' hrule' => h rule' (by simp [hrule']))
    intro others _
    apply Run.le_refl

theorem call_le {m : Recognizer ι ω μ} {name : String} {input : ι}
    (h : ∀ rule, m.rules.get? name = some rule → ev rule input ≤ ev' rule input)
    : m.call ev name input ≤ m.call ev' name input := by
  unfold call
  split
  · apply Run.le_refl
  · next rule hrule =>
    apply Run.andThen_le (Run.attempt_le (h rule hrule))
    intro result _
    apply Run.le_refl

variable [Lawful d] {start : ι}
variable (hfits : ∀ rule input output, (ev rule input).Yields output → Lawful.Fits d input output)

include hfits in
theorem rest_of_yields {rule : Rule μ} {input : ι} {output : ω} (hi : Lawful.Rest d start input)
    (h : (ev rule input).Yields output)
    : Lawful.Rest d start (d.advance input output) :=
  Lawful.rest_trans hi (Lawful.rest_advance (hfits _ _ _ h))

include hfits in
theorem size_advance_le {rule : Rule μ} {input : ι} {output : ω}
    (h : (ev rule input).Yields output)
    : d.size (d.advance input output) ≤ d.size input :=
  Lawful.size_le (Lawful.rest_advance (hfits _ _ _ h))

include hfits in
theorem size_advance_lt {rule : Rule μ} {input : ι} {output : ω}
    (h : (ev rule input).Yields output) (hne : d.advance input output ≠ input)
    : d.size (d.advance input output) < d.size input := by
  have hle := size_advance_le hfits h
  have hrest : Lawful.Rest d input (d.advance input output) :=
    rest_of_yields hfits (Lawful.rest_refl input) h
  have : d.size (d.advance input output) ≠ d.size input := fun heq =>
    hne (Lawful.eq_of_size_eq hrest (Lawful.rest_refl input) heq)
  omega

include hfits in
theorem sequence_le {rules : List (Rule μ)} {input : ι} (hi : Lawful.Rest d start input)
    (h : ∀ rule ∈ rules, ∀ input, Lawful.Rest d start input → ev rule input ≤ ev' rule input)
    : sequence d ev rules input ≤ sequence d ev' rules input := by
  induction rules generalizing input with
  | nil => exact Run.le_refl _
  | cons rule rules ih =>
    apply Run.andThen_le (h rule (by simp) input hi)
    intro output houtput
    have hrest := rest_of_yields hfits hi houtput
    apply Run.andThen_le (ih hrest fun rule' hrule' => h rule' (by simp [hrule']))
    intro _ _
    apply Run.le_refl

/-
A repetition is cut short by `k` rounds only if it is without end: every round but the last makes
the input smaller.
-/
include hfits in
theorem repeated_le {rule : Rule μ} {n k : Nat} {input : ι} (hi : Lawful.Rest d start input)
    (h : ∀ input, Lawful.Rest d start input → ev rule input ≤ ev' rule input)
    (hk : n ≤ k ∨ d.size input < k)
    : repeated d ev rule n input ≤ repeated d ev' rule k input := by
  induction n generalizing input k with
  | zero => exact Run.unsettled_le _
  | succ n ih =>
    obtain ⟨k, rfl⟩ : ∃ k', k = k' + 1 := ⟨k - 1, by omega⟩
    apply Run.andThen_le (Run.attempt_le (h input hi))
    intro result hresult
    cases result with
    | error e => exact Run.le_refl _
    | ok output =>
      rw [Run.attempt_yields_ok] at hresult
      refine Run.andThen_le ?_ fun _ _ => Run.le_refl _
      by_cases hsame : d.advance input output = input
      · rw [hsame, repeated_stuck hresult hsame]
        apply Run.unsettled_le
      · have hlt := size_advance_lt hfits hresult hsame
        exact ih (rest_of_yields hfits hi hresult) (by omega)

include hfits in
theorem exhausted_le {rule : Rule μ} {n k : Nat} {input : ι} (hi : Lawful.Rest d start input)
    (h : ∀ input, Lawful.Rest d start input → ev rule input ≤ ev' rule input)
    (hk : n ≤ k ∨ d.size input < k)
    : exhausted d ev rule n input ≤ exhausted d ev' rule k input := by
  induction n generalizing input k with
  | zero => exact Run.unsettled_le _
  | succ n ih =>
    obtain ⟨k, rfl⟩ : ∃ k', k = k' + 1 := ⟨k - 1, by omega⟩
    cases hempty : d.isEmpty input with
    | true => simp [exhausted, hempty, Run.le_refl]
    | false =>
      simp only [exhausted, hempty, Bool.false_eq_true, ↓reduceIte]
      apply Run.andThen_le (h input hi)
      intro output houtput
      refine Run.andThen_le ?_ fun _ _ => Run.le_refl _
      by_cases hsame : d.advance input output = input
      · rw [hsame, exhausted_stuck hempty houtput hsame]
        apply Run.unsettled_le
      · have hlt := size_advance_lt hfits houtput hsame
        exact ih (rest_of_yields hfits hi houtput) (by omega)

end Bounds

theorem depth_le_depthAll (atomDepth : μ → Nat) {rule : Rule μ} {rules : List (Rule μ)}
    (h : rule ∈ rules)
    : rule.depth atomDepth ≤ Rule.depthAll atomDepth rules := by
  induction rules with
  | nil => simp at h
  | cons first rest ih =>
    simp only [Rule.depthAll]
    rcases List.mem_cons.mp h with rfl | hmem
    · omega
    · have := ih hmem
      omega

theorem depth_part_lt {d : Domain ι ω μ} [Lawful d] {part rule : Rule μ}
    (h : part ∈ rule.parts (Lawful.inner d))
    : part.depth d.atomDepth < rule.depth d.atomDepth := by
  cases rule with
  | atom a => exact Nat.lt_succ_of_le (Lawful.depth_inner h)
  | ref name => simp [Rule.parts] at h
  | seq rules => exact Nat.lt_succ_of_le (depth_le_depthAll d.atomDepth h)
  | alt rules => exact Nat.lt_succ_of_le (depth_le_depthAll d.atomDepth h)
  | star rule => simp_all [Rule.parts, Rule.depth]
  | plus rule => simp_all [Rule.parts, Rule.depth]
  | opt rule => simp_all [Rule.parts, Rule.depth]
  | untilEmpty rule => simp_all [Rule.parts, Rule.depth]

theorem step_le {m : Recognizer ι ω μ} [Lawful m.domain] {ev ev' : Rule μ → ι → Run ω}
    {n k : Nat} {rule : Rule μ} {start input : ι}
    (hfits : ∀ rule input output, (ev rule input).Yields output →
      Lawful.Fits m.domain input output)
    (hi : Lawful.Rest m.domain start input)
    (hparts : ∀ part ∈ rule.parts (Lawful.inner m.domain), ∀ input,
      Lawful.Rest m.domain start input → ev part input ≤ ev' part input)
    (hbody : ∀ name body, rule = .ref name → m.rules.get? name = some body →
      ev body input ≤ ev' body input)
    (hk : n ≤ k ∨ m.domain.size input < k)
    : m.step ev n rule input ≤ m.step ev' k rule input := by
  cases rule with
  | atom a => exact Lawful.atom_le fun part hpart => hparts part hpart input hi
  | ref name =>
    apply Run.andThen_le (call_le fun body hget => hbody name body rfl hget)
    intro _ _
    apply Run.le_refl
  | seq rules =>
    apply Run.andThen_le (sequence_le hfits hi hparts)
    intro _ _
    apply Run.le_refl
  | alt rules =>
    apply Run.andThen_le (results_le fun part hpart => hparts part hpart input hi)
    intro _ _
    apply Run.le_refl
  | star part =>
    have hpart := hparts part (by simp [Rule.parts])
    exact Run.andThen_le (repeated_le hfits hi hpart hk) fun _ _ => Run.le_refl _
  | plus part =>
    have hpart := hparts part (by simp [Rule.parts])
    apply Run.andThen_le (hpart input hi)
    intro output houtput
    have hle := size_advance_le hfits houtput
    have hrest := rest_of_yields hfits hi houtput
    exact Run.andThen_le (repeated_le hfits hrest hpart (by omega)) fun _ _ => Run.le_refl _
  | opt part =>
    have hpart := hparts part (by simp [Rule.parts])
    exact Run.andThen_le (Run.attempt_le (hpart input hi)) fun _ _ => Run.le_refl _
  | untilEmpty part =>
    have hpart := hparts part (by simp [Rule.parts])
    exact Run.andThen_le (exhausted_le hfits hi hpart hk) fun _ _ => Run.le_refl _

variable (m : Recognizer ι ω μ) [Lawful m.domain]

theorem evalWithin_fits (n : Nat) (rule : Rule μ) (input : ι) (output : ω)
    (h : (m.evalWithin n rule input).Yields output)
    : Lawful.Fits m.domain input output :=
  m.closed_fits.evalWithin h

theorem evalWithin_mono {n k : Nat} (hnk : n ≤ k) (rule : Rule μ) (input : ι)
    : m.evalWithin n rule input ≤ m.evalWithin k rule input := by
  induction n generalizing k rule input with
  | zero => exact Run.unsettled_le _
  | succ n ih =>
    obtain ⟨k, rfl⟩ : ∃ k', k = k' + 1 := ⟨k - 1, by omega⟩
    exact step_le (m.evalWithin_fits n) (Lawful.rest_refl input)
      (fun part _ input _ => ih (by omega) part input)
      (fun _ body _ _ => ih (by omega) body input) (.inl hnk)

end Recognizer

end GrammarKit
