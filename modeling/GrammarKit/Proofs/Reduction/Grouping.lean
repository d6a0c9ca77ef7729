import GrammarKit.Reduction.Tagged
import GrammarKit.Proofs.Parser.Derivation
import GrammarKit.Proofs.Reduction.Named
import GrammarKit.Proofs.Run.Eventually
import Mathlib.Logic.Relation

/-!
This module contains `Node.Spliced`, by which the children of a group come to stand in its place,
and the reductions that make the same values of a tree before and after.
-/

namespace GrammarKit

namespace Node

variable {n m : Node}

/--
Somewhere below the root, a group gives way to its children.
-/
inductive Spliced : Node → Node → Prop where
  | here (token : Option Token) (label : Option String) (before inner after : List Node) :
    Spliced ⟨token, label, before ++ group inner :: after⟩ ⟨token, label, before ++ inner ++ after⟩
  | inside (token : Option Token) (label : Option String) (before after : List Node)
      {child child' : Node} (h : Spliced child child') :
    Spliced ⟨token, label, before ++ child :: after⟩ ⟨token, label, before ++ child' :: after⟩

theorem Spliced.tokens_eq (h : Spliced n m) : n.tokens = m.tokens := by
  induction h with
  | here token label before inner after => simp [tokens, tokensAll, tokens_group]
  | inside token label before after h ih => simp [tokens, tokensAll, ih]

theorem eq_group_of_isGroup (h : n.isGroup) : n = group n.children := by
  obtain ⟨token, label, children⟩ := n
  rw [isGroup, Bool.and_eq_true, Option.isNone_iff_eq_none, Option.isNone_iff_eq_none] at h
  obtain ⟨rfl, rfl⟩ := h
  rfl

theorem spliced_flatMap_splice (token : Option Token) (label : Option String)
    (before outputs : List Node)
    : Relation.ReflTransGen Spliced ⟨token, label, before ++ outputs⟩
        ⟨token, label, before ++ outputs.flatMap Parser.splice⟩ := by
  induction outputs generalizing before with
  | nil => exact .refl
  | cons n outputs ih =>
    rw [List.flatMap_cons, ← List.append_assoc, Parser.splice]
    split
    · next hgroup =>
      rw [eq_group_of_isGroup hgroup]
      exact .head (.here token label before n.children outputs) (ih _)
    · have hskip := ih (before ++ [n])
      rwa [List.append_assoc, List.singleton_append] at hskip

/--
The nodes differ in nothing but their children, and begin at the same location.
-/
structure SameFront (n m : Node) : Prop where
  token : n.token = m.token
  label : n.label = m.label
  location : n.location = m.location

theorem SameFront.name (h : n.SameFront m) : n.name = m.name := by
  rw [Node.name, Node.name, h.token, h.label]

theorem Spliced.sameFront (h : Spliced n m) : n.SameFront m where
  token := by cases h <;> rfl
  label := by cases h <;> rfl
  location := by rw [location, location, h.tokens_eq]

end Node

open Node

namespace Reduction

variable {α : Type} {r : Reduction α}

/--
The reductions that make a value of the token of a leaf or of the values of the children.
-/
inductive Basic : Reduction α → Prop where
  | terminal (name : String) (f : String → Option α) : Basic (.terminal name f)
  | unary (name : String) (f : α → Option α) : Basic (.unary name f)
  | binary (name : String) (f : α → α → Option α) : Basic (.binary name f)
  | nary (name : String) (count : Nat) (f : List α → Option α) : Basic (.nary name count f)
  | variadic (name : String) (f : List α → Option α) : Basic (.variadic name f)

/--
A reduction that claims no groups and does not look at the children of a node.
-/
structure Shallow (r : Reduction α) : Prop where
  group (inner : List Node) (values : List α) : r (Node.group inner) values = none
  congr {n m : Node} (h : n.SameFront m) (values : List α) : r n values = r m values

theorem Shallow.named {name : String}
    (hcongr : ∀ {n m : Node}, n.SameFront m → ∀ values, r n values = r m values)
    : (Reduction.named name r).Shallow where
  group _ _ := rfl
  congr h values := by rw [Reduction.named, Reduction.named, h.name, hcongr h]

theorem Shallow.terminal (name : String) (f : String → Option α) : (terminal name f).Shallow :=
  .named fun h _ => by rw [h.token]

theorem Shallow.variadic (name : String) (f : List α → Option α) : (variadic name f).Shallow :=
  .named fun _ _ => rfl

theorem Basic.shallow (h : r.Basic) : r.Shallow := by
  cases h with
  | terminal name f => exact .terminal name f
  | unary name | binary name | nary name | variadic name => exact .variadic name _

end Reduction

namespace Reducer

variable {α : Type} {r : Reducer α} {n m : Node}

theorem Fault.toFailure_ambiguous (h : n.SameFront m) (dump : α → String) (values : List α)
    : (ambiguous n values).toFailure dump = (ambiguous m values).toFailure dump := by
  unfold toFailure message node
  dsimp only
  rw [h.name, h.location]

theorem Fault.toFailure_notSingle (h : n.SameFront m) (dump : α → String) (values : List α)
    : (notSingle n values).toFailure dump = (notSingle m values).toFailure dump := by
  unfold toFailure message node
  dsimp only
  rw [h.location]

def applyAll (r : Reducer α) (ns : List Node) : Except Failure (List α) :=
  (reduceTrees r.rules ns).mapError (Fault.toFailure r.dump)

def applyNode (r : Reducer α) (n : Node) (values : List α) : Except Failure (List α) :=
  (reduceNode r.rules n values).mapError (Fault.toFailure r.dump)

def single (r : Reducer α) (n : Node) (values : List α) : Except Failure α :=
  match values with
  | [value] => .ok value
  | values => .error ((Fault.notSingle n values).toFailure r.dump)

theorem applyMany_eq (r : Reducer α) (n : Node)
    : r.applyMany n = r.applyAll n.children >>= r.applyNode n := by
  obtain ⟨token, label, children⟩ := n
  rw [applyMany, reduceTree, mapError_bind]
  rfl

theorem apply_eq (r : Reducer α) (n : Node) : r.apply n = r.applyMany n >>= r.single n := by
  rw [apply, reduceSingle, mapError_bind]
  congr 1
  funext values
  rcases values with _ | ⟨value, _ | ⟨other, rest⟩⟩
  · rfl
  · rfl
  · rfl

theorem applyAll_append (r : Reducer α) (ns ms : List Node)
    : r.applyAll (ns ++ ms) = do
        let values ← r.applyAll ns
        let others ← r.applyAll ms
        return values ++ others := by
  rw [applyAll, reduceTrees_append, mapError_bind]
  congr 1
  funext values
  rw [mapError_bind]
  rfl

theorem applyAll_singleton (r : Reducer α) (n : Node) : r.applyAll [n] = r.applyMany n := by
  rw [applyAll, reduceTrees_singleton]
  rfl

theorem applyAll_replace (before after : List Node) {ns : List Node}
    (h : r.applyMany n = r.applyAll ns)
    : r.applyAll (before ++ n :: after) = r.applyAll (before ++ ns ++ after) := by
  rw [List.append_cons, applyAll_append, applyAll_append, applyAll_singleton, h,
    ← applyAll_append, ← applyAll_append]

theorem single_congr (h : n.SameFront m) : r.single n = r.single m := by
  funext values
  simp only [single, Fault.toFailure_notSingle h]

section Shallow

variable (hrules : ∀ rule ∈ r.rules, rule.Shallow)

include hrules

theorem claims_group (inner : List Node) (values : List α)
    : claims r.rules (group inner) values = [] :=
  List.filterMap_eq_nil_iff.mpr fun rule hrule => (hrules rule hrule).group inner values

theorem claims_congr (h : n.SameFront m) (values : List α)
    : claims r.rules n values = claims r.rules m values :=
  List.filterMap_congr fun rule hrule => (hrules rule hrule).congr h values

theorem applyNode_congr (h : n.SameFront m) : r.applyNode n = r.applyNode m := by
  funext values
  rw [applyNode, applyNode, reduceNode, reduceNode, claims_congr hrules h values]
  split
  · rfl
  · rfl
  · exact congrArg Except.error (Fault.toFailure_ambiguous h r.dump _)

theorem applyMany_group (inner : List Node) : r.applyMany (group inner) = r.applyAll inner := by
  have hnode : r.applyNode (group inner) = pure := by
    funext values
    rw [applyNode, reduceNode, claims_group hrules]
    rfl
  rw [applyMany_eq, hnode, bind_pure]
  rfl

theorem applyMany_congr (h : n.SameFront m)
    (hchildren : r.applyAll n.children = r.applyAll m.children)
    : r.applyMany n = r.applyMany m := by
  rw [applyMany_eq, applyMany_eq, hchildren, applyNode_congr hrules h]

theorem applyMany_of_spliced (h : Spliced n m) : r.applyMany n = r.applyMany m := by
  induction h with
  | here token label before inner after =>
    apply applyMany_congr hrules (Spliced.here token label before inner after).sameFront
    exact applyAll_replace before after (applyMany_group hrules inner)
  | @inside token label before after child child' h ih =>
    apply applyMany_congr hrules (Spliced.inside token label before after h).sameFront
    have hchild : r.applyMany child = r.applyAll [child'] := by
      rw [applyAll_singleton, ih]
    rw [applyAll_replace before after hchild, ← List.append_cons]

theorem apply_of_spliced (h : Spliced n m) : r.apply n = r.apply m := by
  rw [apply_eq, apply_eq, applyMany_of_spliced hrules h, single_congr h.sameFront]

/-- One step at a time, the results stay the same. -/
theorem results_of_spliced (h : Relation.ReflTransGen Spliced n m)
    : r.applyMany n = r.applyMany m ∧ r.apply n = r.apply m := by
  induction h with
  | refl => exact ⟨rfl, rfl⟩
  | tail _ hstep ih =>
    exact ⟨ih.1.trans (applyMany_of_spliced hrules hstep),
      ih.2.trans (apply_of_spliced hrules hstep)⟩

/-- A sequence is reduced as its parts are, whether or not they are groups. -/
theorem applyMany_join (outputs : List Node)
    : r.applyMany (Parser.join outputs) = r.applyAll outputs := by
  have hsplice := spliced_flatMap_splice none none [] outputs
  rw [← applyMany_group hrules, group, Parser.join, group]
  exact (results_of_spliced hrules hsplice).1.symm

/-- The rule of a node is handed what the node under it would be reduced to. -/
theorem applyMany_label (name : String) (n : Node)
    : r.applyMany (Parser.label name n) = r.applyMany n >>= r.applyNode (Parser.label name n) := by
  have hsplice := applyMany_join hrules [n]
  rw [applyAll_singleton, Parser.join, List.flatMap_singleton, applyMany_group hrules] at hsplice
  rw [applyMany_eq, Parser.label, labelled, hsplice]

end Shallow

/--
Groups leave no trace: where the children of some of them take their place, basic reductions make
the same values of the tree, or fail with the same message at the same location.
-/
theorem results_of_grouping (hrules : ∀ rule ∈ r.rules, rule.Basic)
    (h : Relation.ReflTransGen Spliced n m)
    : r.applyMany n = r.applyMany m ∧ r.apply n = r.apply m :=
  results_of_spliced (fun rule hrule => (hrules rule hrule).shallow) h

section Examples

def word (text : String) (col : Nat) : Node :=
  leaf ⟨"word", text, ⟨0, col⟩, true⟩

/-- Two groups have to go, one out of the other, until there are two words to make a pair of. -/
theorem results_of_grouping_pair
    : ∃ r : Reducer Tagged, (∀ rule ∈ r.rules, rule.Basic) ∧
        r.apply (labelled "pair" [group [word "a" 0, group []], word "b" 2]) =
          .ok (.list "swapped" [.str "b", .str "a"]) := by
  let r : Reducer Tagged := Tagged.reducer [.str "word", .binary "pair" "swapped"]
  have hrules : ∀ rule ∈ r.rules, rule.Basic :=
    List.forall_mem_cons.mpr ⟨.terminal .., List.forall_mem_singleton.mpr (.binary ..)⟩
  have houter : Spliced (labelled "pair" [group [word "a" 0, group []], word "b" 2])
      (labelled "pair" [word "a" 0, group [], word "b" 2]) :=
    .here none "pair" [] [word "a" 0, group []] [word "b" 2]
  have hinner : Spliced (labelled "pair" [word "a" 0, group [], word "b" 2])
      (labelled "pair" [word "a" 0, word "b" 2]) :=
    .here none "pair" [word "a" 0] [] [word "b" 2]
  have hflat : r.apply (labelled "pair" [word "a" 0, word "b" 2]) =
      .ok (.list "swapped" [.str "b", .str "a"]) := rfl
  exact ⟨r, hrules, (results_of_grouping hrules (.tail (.single houter) hinner)).2.trans hflat⟩

end Examples

end Reducer

end GrammarKit
