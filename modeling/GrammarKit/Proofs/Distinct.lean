import Mathlib.Data.List.Induction
import Mathlib.Data.List.Perm.Basic

/-!
This module contains the distinct members of a list, in the order in which they first occur.
-/

namespace GrammarKit

variable {α : Type} [BEq α] [LawfulBEq α]

/-- Every member of the list once, where it occurs first. -/
structure Distinct (xs ms : List α) : Prop where
  mem_iff : ∀ m, m ∈ ms ↔ m ∈ xs
  nodup : ms.Nodup
  ordered : ms.Pairwise fun m m' => xs.idxOf m < xs.idxOf m'

theorem eraseDups_concat_of_mem {xs : List α} {x : α} (h : x ∈ xs)
    : (xs ++ [x]).eraseDups = xs.eraseDups := by
  simp [List.eraseDups_append, List.removeAll, h]

theorem eraseDups_concat_of_not_mem {xs : List α} {x : α} (h : x ∉ xs)
    : (xs ++ [x]).eraseDups = xs.eraseDups ++ [x] := by
  simp [List.eraseDups_append, List.removeAll, h, List.eraseDups_cons]

theorem eraseDups_append_self (xs : List α) : (xs ++ xs).eraseDups = xs.eraseDups := by
  have hnone : xs.removeAll xs = [] := by simp [List.removeAll]
  rw [List.eraseDups_append, hnone]
  exact List.append_nil _

theorem eraseDups_ordered (xs : List α)
    : xs.eraseDups.Pairwise fun m m' => xs.idxOf m < xs.idxOf m' := by
  induction xs using List.reverseRecOn with
  | nil => simp
  | append_singleton xs x ih =>
    -- where a member occurs first does not change with what comes behind
    have hold : xs.eraseDups.Pairwise fun m m' => (xs ++ [x]).idxOf m < (xs ++ [x]).idxOf m' := by
      refine ih.imp_of_mem fun {m m'} hm hm' hlt => ?_
      rw [List.mem_eraseDups] at hm hm'
      rwa [List.idxOf_append_of_mem hm, List.idxOf_append_of_mem hm']
    by_cases hx : x ∈ xs
    · rwa [eraseDups_concat_of_mem hx]
    · rw [eraseDups_concat_of_not_mem hx, List.pairwise_append]
      refine ⟨hold, List.pairwise_singleton .., fun m hm last hlast => ?_⟩
      rw [List.mem_singleton] at hlast
      rw [List.mem_eraseDups] at hm
      rw [hlast, List.idxOf_append_of_mem hm, List.idxOf_append_of_notMem hx]
      exact Nat.lt_add_right _ (List.idxOf_lt_length_iff.mpr hm)

theorem nodup_eraseDups (xs : List α) : xs.eraseDups.Nodup := by
  refine (eraseDups_ordered xs).imp fun {m m'} hlt heq => ?_
  rw [heq] at hlt
  exact Nat.lt_irrefl _ hlt

theorem distinct_eraseDups (xs : List α) : Distinct xs xs.eraseDups where
  mem_iff _ := List.mem_eraseDups
  nodup := nodup_eraseDups xs
  ordered := eraseDups_ordered xs

theorem eraseDups_perm {xs ys : List α} (h : xs.Perm ys) : xs.eraseDups.Perm ys.eraseDups := by
  rw [List.perm_ext_iff_of_nodup (nodup_eraseDups xs) (nodup_eraseDups ys)]
  intro m
  rw [List.mem_eraseDups, List.mem_eraseDups, h.mem_iff]

end GrammarKit
