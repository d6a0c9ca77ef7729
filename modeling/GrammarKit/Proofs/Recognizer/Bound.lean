import GrammarKit.Proofs.Recognizer.Lawful
import GrammarKit.Proofs.Table
import Mathlib.Data.Finset.Prod
import Mathlib.Data.Finset.Max

/-!
This module contains the adequacy of `Recognizer.bound`: what settles under any bound settles under
that one. So `eval` and `apply` are what evaluation comes to without a bound.

On the way down no named rule is called twice at the same rest of the input. The reason is that the
bound under which a call settles first is smaller than that of the call around it; so the calls that
settle under smaller bounds become fewer with every call on the way.
-/

namespace GrammarKit

open Recognizer Domain

variable {ι ω μ : Type}

namespace Recognizer

variable (m : Recognizer ι ω μ)

def deepest : Nat :=
  (m.rules.entries.map fun entry => entry.2.depth m.domain.atomDepth).foldl max 0

theorem le_foldl_max (ns : List Nat) (n : Nat)
    : n ≤ ns.foldl max n ∧ ∀ k ∈ ns, k ≤ ns.foldl max n := by
  induction ns generalizing n with
  | nil => simp
  | cons k ns ih =>
    have := ih (max n k)
    simp only [List.foldl_cons, List.mem_cons, forall_eq_or_imp]
    refine ⟨by omega, by omega, this.2⟩

theorem depth_le_deepest {name : String} {rule : Rule μ} (h : m.rules.get? name = some rule)
    : rule.depth m.domain.atomDepth ≤ m.deepest := by
  apply (le_foldl_max _ 0).2
  rw [List.mem_map]
  exact ⟨(name, rule), Table.mem_entries_iff.mpr h, rfl⟩

section Calls

variable [Lawful m.domain] (start : ι)

/-- The name is called at a rest of that size, and the call settles under a bound below `n`. -/
def SettledCall (n : Nat) (call : String × Nat) : Prop :=
  ∃ rule input k, m.rules.get? call.1 = some rule ∧ Lawful.Rest m.domain start input ∧
    m.domain.size input = call.2 ∧ k < n ∧ (m.evalWithin k rule input).Settles

open Classical in
noncomputable def settledCalls (n : Nat) : Finset (String × Nat) :=
  (m.rules.names.toFinset ×ˢ Finset.range (m.domain.size start + 1)).filter (m.SettledCall start n)

theorem card_settledCalls_le (n : Nat)
    : (m.settledCalls start n).card ≤ m.rules.size * (m.domain.size start + 1) := by
  classical
  apply Nat.le_trans (Finset.card_filter_le _ _)
  rw [Finset.card_product, Finset.card_range]
  refine Nat.mul_le_mul_right _ (Nat.le_trans (List.toFinset_card_le _) ?_)
  simp [Table.names, Table.size]

theorem settledCalls_subset {n k : Nat} (h : n ≤ k)
    : m.settledCalls start n ⊆ m.settledCalls start k := by
  classical
  intro call hcall
  simp only [settledCalls, Finset.mem_filter] at hcall ⊢
  obtain ⟨hmem, rule, input, j, hget, hrest, hsize, hj, hset⟩ := hcall
  exact ⟨hmem, rule, input, j, hget, hrest, hsize, by omega, hset⟩

variable {m start}

/-- A call that settles under `k` first is none of those below `k`, but one of those above. -/
theorem card_settledCalls_lt {name : String} {rule : Rule μ} {input : ι} {k n : Nat} (hkn : k < n)
    (hget : m.rules.get? name = some rule) (hi : Lawful.Rest m.domain start input)
    (hset : (m.evalWithin k rule input).Settles)
    (hfirst : ∀ j < k, ¬ (m.evalWithin j rule input).Settles)
    : (m.settledCalls start k).card < (m.settledCalls start n).card := by
  classical
  apply Finset.card_lt_card
  rw [Finset.ssubset_iff_of_subset (m.settledCalls_subset start (by omega))]
  -- the call itself is what is new: it settles under `k`, and `k` is below `n`
  refine ⟨(name, m.domain.size input), ?_, ?_⟩
  · simp only [settledCalls, Finset.mem_filter, Finset.mem_product, List.mem_toFinset,
      Finset.mem_range]
    have hmem := Table.mem_entries_iff.mpr hget
    have hle := Lawful.size_le hi
    refine ⟨⟨List.mem_map.mpr ⟨_, hmem, rfl⟩, by omega⟩, ?_⟩
    exact ⟨rule, input, k, hget, hi, rfl, hkn, hset⟩
  · simp only [settledCalls, Finset.mem_filter, not_and]
    rintro _ ⟨rule', input', j, hget', hi', hsize, hj, hset'⟩
    have hinput : input' = input := Lawful.eq_of_size_eq hi' hi hsize
    have hrule : rule' = rule := Option.some.inj (hget'.symm.trans hget)
    subst hinput hrule
    exact hfirst j hj hset'

theorem evalWithin_le_of_calls {n bound : Nat} {rule : Rule μ} {input : ι}
    (hi : Lawful.Rest m.domain start input)
    (hbound : (m.settledCalls start n).card * (m.deepest + 1) + rule.depth m.domain.atomDepth +
      m.domain.size start + 1 ≤ bound)
    : m.evalWithin n rule input ≤ m.evalWithin bound rule input := by
  -- on the bound `n`: where a part is entered both bounds become smaller together, and where a body
  -- is called, the room for that call is there because one call less can settle below its own bound
  induction n using Nat.strongRecOn generalizing bound rule input with
  | _ n ih =>
    match n with
    | 0 => exact Run.unsettled_le _
    | n + 1 =>
      obtain ⟨bound, rfl⟩ : ∃ b, bound = b + 1 := ⟨bound - 1, by omega⟩
      have hsize := Lawful.size_le hi
      have hcard := Finset.card_le_card (m.settledCalls_subset start (Nat.le_add_right n 1))
      have hmul := Nat.mul_le_mul_right (m.deepest + 1) hcard
      refine step_le (m.evalWithin_fits n) hi ?_ ?_ (.inr (by omega))
      · intro part hpart input hi
        have hdepth := depth_part_lt hpart
        exact ih n (by omega) hi (by omega)
      · intro name body hname hget
        rw [Run.le_iff]
        intro hset
        -- the first bound under which the body settles
        have hex : ∃ k, (m.evalWithin k body input).Settles := ⟨n, hset⟩
        classical
        have hspec := Nat.find_spec hex
        have hle : Nat.find hex ≤ n := Nat.find_min' hex hset
        have hlt : (m.settledCalls start (Nat.find hex)).card < (m.settledCalls start (n + 1)).card :=
          card_settledCalls_lt (by omega) hget hi hspec fun j hj => Nat.find_min hex hj
        have hdeep := m.depth_le_deepest hget
        have hmul := Nat.mul_le_mul_right (m.deepest + 1) hlt
        rw [Nat.succ_mul] at hmul
        have hbody : m.evalWithin (Nat.find hex) body input ≤ m.evalWithin bound body input :=
          ih (Nat.find hex) (by omega) hi (by omega)
        rw [← Run.eq_of_le (m.evalWithin_mono hle body input) hspec]
        exact Run.eq_of_le hbody hspec

end Calls

theorem bound_eq (rule : Rule μ) (input : ι)
    : m.bound rule input =
        (m.rules.size * (m.domain.size input + 1) + 1) * (m.deepest + 1) +
          rule.depth m.domain.atomDepth + m.domain.size input + 2 := rfl

variable [Lawful m.domain]

theorem evalWithin_le_of_bound {n bound : Nat} {rule : Rule μ} {input : ι}
    (hbound : m.rules.size * (m.domain.size input + 1) * (m.deepest + 1) +
      rule.depth m.domain.atomDepth + m.domain.size input + 1 ≤ bound)
    : m.evalWithin n rule input ≤ m.evalWithin bound rule input := by
  apply evalWithin_le_of_calls (Lawful.rest_refl input)
  have := Nat.mul_le_mul_right (m.deepest + 1) (m.card_settledCalls_le input n)
  omega

theorem evalWithin_le_eval (n : Nat) (rule : Rule μ) (input : ι)
    : m.evalWithin n rule input ≤ m.eval rule input := by
  apply m.evalWithin_le_of_bound
  rw [bound_eq, Nat.succ_mul]
  omega

theorem isLimit_eval (rule : Rule μ) (input : ι)
    : Run.IsLimit (fun n => m.evalWithin n rule input) (m.eval rule input) where
  mono hnk := m.evalWithin_mono hnk rule input
  le n := m.evalWithin_le_eval n rule input
  reached _ := ⟨m.bound rule input, rfl⟩

/-- Evaluation comes to an end exactly if it does so under some bound. -/
theorem eval_settles_iff (rule : Rule μ) (input : ι)
    : (m.eval rule input).Settles ↔ ∃ n, (m.evalWithin n rule input).Settles :=
  (m.isLimit_eval rule input).settles_iff

theorem eval_eq_of_settles {n : Nat} {rule : Rule μ} {input : ι}
    (h : (m.evalWithin n rule input).Settles)
    : m.eval rule input = m.evalWithin n rule input :=
  (Run.eq_of_le (m.evalWithin_le_eval n rule input) h).symm

theorem eval_fits (rule : Rule μ) (input : ι) (output : ω) (h : (m.eval rule input).Yields output)
    : Lawful.Fits m.domain input output :=
  m.evalWithin_fits _ rule input output h

theorem apply_eq_call (name : String) (input : ι)
    : m.apply name input = m.call m.eval name input := by
  apply Run.le_antisymm
  · exact call_le fun rule _ => m.evalWithin_le_eval _ rule input
  · refine call_le fun rule hget => m.evalWithin_le_of_bound ?_
    have := m.depth_le_deepest hget
    rw [bound_eq, Nat.succ_mul]
    omega

theorem run_eq_call (input : ι) : m.run input = m.call m.eval m.root input :=
  m.apply_eq_call m.root input

theorem isLimit_apply (name : String) (input : ι)
    : Run.IsLimit (fun n => m.applyWithin n name input) (m.apply name input) := by
  rw [apply_eq_call]
  unfold applyWithin call
  cases h : m.rules.get? name with
  | none => exact Run.IsLimit.const _
  | some rule =>
    exact (m.isLimit_eval rule input).attempt.andThen fun result _ => Run.IsLimit.const _

end Recognizer

end GrammarKit
