import GrammarKit.Reduction.Basic
import Mathlib.Data.List.Nodup

/-!
This module contains the reduction of trees by reductions that each look at nodes of one name. Where
the names are distinct, no node is claimed twice.
-/

namespace GrammarKit

open Node

namespace Reducer

variable {α : Type}

section Trees

variable {rules : List (Reduction α)}

theorem reduceTrees_singleton (n : Node) : reduceTrees rules [n] = reduceTree rules n := by
  simp only [reduceTrees]
  cases reduceTree rules n with
  | error e => rfl
  | ok values => exact congrArg Except.ok (List.append_nil values)

theorem reduceTrees_append (ns ms : List Node)
    : reduceTrees rules (ns ++ ms) = do
        let values ← reduceTrees rules ns
        let others ← reduceTrees rules ms
        return values ++ others := by
  induction ns with
  | nil => exact (bind_pure (reduceTrees rules ms)).symm
  | cons n ns ih =>
    simp only [List.cons_append, reduceTrees, ih, bind_assoc, pure_bind, List.append_assoc]

theorem reduceTree_leaf (t : Token) : reduceTree rules (leaf t) = reduceNode rules (leaf t) [] := rfl

theorem reduceTree_labelled {name : String} {children : List Node} {values : List α}
    (h : reduceTrees rules children = .ok values)
    : reduceTree rules (labelled name children) =
        reduceNode rules (labelled name children) values := by
  rw [labelled, reduceTree, h]
  rfl

end Trees

def ofToken (f : String → Option α) : Reduction α :=
  fun n _ => n.token.bind fun t => f t.value

def ofNode (f : Node → Option α) : Reduction α :=
  fun n _ => f n

def ofValues (f : List α → Option α) : Reduction α :=
  fun _ values => f values

def ofSingle (f : α → Option α) : Reduction α :=
  ofValues fun values =>
    match values with
    | [a] => f a
    | _ => none

def byName (entries : List (String × Reduction α)) : List (Reduction α) :=
  entries.map fun entry => Reduction.named entry.1 entry.2

variable {entries : List (String × Reduction α)} {n : Node} {values : List α}

theorem claims_cons (name : String) (r : Reduction α)
    : claims (byName ((name, r) :: entries)) n values =
        (if n.name = some name then (r n values).toList else []) ++
          claims (byName entries) n values := by
  simp only [claims, byName, List.map_cons, List.filterMap_cons, Reduction.named]
  by_cases h : n.name = some name
  · simp only [if_pos h]
    cases r n values <;> rfl
  · simp only [if_neg h]
    rfl

theorem claims_of_not_mem (h : ∀ name, n.name = some name → name ∉ entries.map Prod.fst)
    : claims (byName entries) n values = [] := by
  induction entries with
  | nil => rfl
  | cons entry entries ih =>
    obtain ⟨name, r⟩ := entry
    have hne : n.name ≠ some name := fun heq => h name heq (by simp)
    rw [claims_cons, if_neg hne, List.nil_append]
    exact ih fun other hother hmem => h other hother (by simp [hmem])

theorem claims_of_mem (hnodup : (entries.map Prod.fst).Nodup) {name : String} {r : Reduction α}
    (hname : n.name = some name) (hmem : (name, r) ∈ entries)
    : claims (byName entries) n values = (r n values).toList := by
  induction entries with
  | nil => cases hmem
  | cons entry entries ih =>
    obtain ⟨first, s⟩ := entry
    rw [List.map_cons, List.nodup_cons] at hnodup
    rw [claims_cons]
    rcases List.mem_cons.mp hmem with heq | hrest
    · cases heq
      rw [if_pos hname, claims_of_not_mem, List.append_nil]
      rintro other hother
      rw [hname] at hother
      cases hother
      exact hnodup.1
    · have hne : n.name ≠ some first := by
        rw [hname]
        rintro heq
        cases heq
        exact hnodup.1 (List.mem_map.mpr ⟨_, hrest, rfl⟩)
      rw [if_neg hne, List.nil_append]
      exact ih hnodup.2 hrest

theorem claims_length_le (hnodup : (entries.map Prod.fst).Nodup)
    : (claims (byName entries) n values).length ≤ 1 := by
  by_cases h : ∃ name r, n.name = some name ∧ (name, r) ∈ entries
  · obtain ⟨name, r, hname, hmem⟩ := h
    rw [claims_of_mem hnodup hname hmem]
    cases r n values <;> simp
  · rw [claims_of_not_mem]
    · simp
    · intro name hname hmem
      obtain ⟨entry, hentry, rfl⟩ := List.mem_map.mp hmem
      exact h ⟨entry.1, entry.2, hname, hentry⟩

theorem reduceNode_of_not_mem (h : ∀ name, n.name = some name → name ∉ entries.map Prod.fst)
    : reduceNode (byName entries) n values = .ok values := by
  rw [reduceNode, claims_of_not_mem h]

theorem reduceNode_of_mem (hnodup : (entries.map Prod.fst).Nodup) {name : String} {r : Reduction α}
    (hname : n.name = some name) (hmem : (name, r) ∈ entries)
    : reduceNode (byName entries) n values =
        .ok ((r n values).elim values fun value => [value]) := by
  rw [reduceNode, claims_of_mem hnodup hname hmem]
  cases r n values <;> rfl

section Gives

variable {ns ms : List Node} {others : List α} {t : Token} {name : String} {r : Reduction α}
variable {children : List Node}

def Gives (entries : List (String × Reduction α)) (ns : List Node) (values : List α) : Prop :=
  reduceTrees (byName entries) ns = .ok values

theorem gives_nil : Gives entries [] [] := rfl

theorem Gives.append (hns : Gives entries ns values) (hms : Gives entries ms others)
    : Gives entries (ns ++ ms) (values ++ others) := by
  rw [Gives] at hns hms ⊢
  rw [reduceTrees_append, hns, hms]
  rfl

theorem gives_leaf_of_not_mem (h : t.kind ∉ entries.map Prod.fst) : Gives entries [leaf t] [] := by
  rw [Gives, reduceTrees_singleton, reduceTree_leaf, reduceNode_of_not_mem]
  intro name hname
  cases hname
  exact h

theorem gives_leaf (hnodup : (entries.map Prod.fst).Nodup) (hmem : (t.kind, r) ∈ entries)
    : Gives entries [leaf t] ((r (leaf t) []).elim [] fun value => [value]) := by
  rw [Gives, reduceTrees_singleton, reduceTree_leaf, reduceNode_of_mem hnodup rfl hmem]

theorem gives_labelled_of_not_mem (hname : name ∉ entries.map Prod.fst)
    (h : Gives entries children values)
    : Gives entries [labelled name children] values := by
  rw [Gives, reduceTrees_singleton, reduceTree_labelled h, reduceNode_of_not_mem]
  intro other hother
  cases hother
  exact hname

theorem gives_labelled (hnodup : (entries.map Prod.fst).Nodup) (hmem : (name, r) ∈ entries)
    (h : Gives entries children values)
    : Gives entries [labelled name children]
        ((r (labelled name children) values).elim values fun value => [value]) := by
  rw [Gives, reduceTrees_singleton, reduceTree_labelled h, reduceNode_of_mem hnodup rfl hmem]

theorem apply_of_gives {reducer : Reducer α} (hrules : reducer.rules = byName entries) {value : α}
    (h : Gives entries [n] [value])
    : reducer.apply n = .ok value := by
  rw [Gives, reduceTrees_singleton] at h
  rw [Reducer.apply, reduceSingle, hrules, h]
  rfl

end Gives

end Reducer

end GrammarKit
