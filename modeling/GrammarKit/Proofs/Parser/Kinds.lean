import GrammarKit.Proofs.Parser.Derivation
import GrammarKit.Proofs.Recognizer.Parallel

/-!
This module contains the independence of parsing from everything about tokens but their kinds. The
tokens end up in the leaves, and nothing on the way there looks at them.
-/

namespace GrammarKit

open Recognizer

/-- All that parsing sees of a token. -/
def Token.bare (t : Token) : Token :=
  ⟨t.kind, "", ⟨0, 0⟩, true⟩

theorem Token.bare_eq_bare {t t' : Token} : t.bare = t'.bare ↔ t.kind = t'.kind := by
  simp [Token.bare]

namespace Node

mutual

def mapTokens (f : Token → Token) : Node → Node
  | ⟨token, label, children⟩ => ⟨token.map f, label, mapTokensAll f children⟩

def mapTokensAll (f : Token → Token) : List Node → List Node
  | [] => []
  | n :: rest => n.mapTokens f :: mapTokensAll f rest

end

mutual

/--
The tree with other tokens: every leaf takes the one at the place that its own has in the tree.
-/
def withTokens : Node → List Token → Node
  | ⟨token, label, children⟩, ts =>
    ⟨token.bind fun _ => ts.head?, label, withTokensAll children (ts.drop token.toList.length)⟩

def withTokensAll : List Node → List Token → List Node
  | [], _ => []
  | n :: rest, ts => n.withTokens ts :: withTokensAll rest (ts.drop n.size)

end

section MapTokens

variable (f : Token → Token)

theorem mapTokensAll_eq_map (ns : List Node) : mapTokensAll f ns = ns.map (mapTokens f) := by
  induction ns with
  | nil => rfl
  | cons n ns ih => rw [mapTokensAll, ih, List.map_cons]

@[simp]
theorem mapTokens_leaf (t : Token) : (leaf t).mapTokens f = leaf (f t) := rfl

@[simp]
theorem mapTokens_group (ns : List Node)
    : (group ns).mapTokens f = group (ns.map (mapTokens f)) := by
  rw [← mapTokensAll_eq_map]
  rfl

@[simp]
theorem mapTokens_labelled (name : String) (ns : List Node)
    : (labelled name ns).mapTokens f = labelled name (ns.map (mapTokens f)) := by
  rw [← mapTokensAll_eq_map]
  rfl

theorem children_mapTokens (n : Node)
    : (n.mapTokens f).children = n.children.map (mapTokens f) := by
  obtain ⟨token, label, children⟩ := n
  rw [mapTokens, mapTokensAll_eq_map]

theorem isGroup_mapTokens (n : Node) : (n.mapTokens f).isGroup = n.isGroup := by
  obtain ⟨token, label, children⟩ := n
  simp only [mapTokens, isGroup, Option.isNone_map]

theorem splice_mapTokens (n : Node)
    : Parser.splice (n.mapTokens f) = (Parser.splice n).map (mapTokens f) := by
  rw [Parser.splice, Parser.splice, isGroup_mapTokens]
  split
  · exact children_mapTokens f n
  · rfl

mutual

theorem tokens_mapTokens : ∀ n : Node, (n.mapTokens f).tokens = n.tokens.map f
  | ⟨token, label, children⟩ => by
    rw [mapTokens, tokens, tokens, List.map_append, tokensAll_mapTokensAll children]
    cases token <;> rfl

theorem tokensAll_mapTokensAll : ∀ ns : List Node,
    tokensAll (mapTokensAll f ns) = (tokensAll ns).map f
  | [] => rfl
  | n :: ns => by
    rw [mapTokensAll, tokensAll, tokensAll, List.map_append, tokens_mapTokens n,
      tokensAll_mapTokensAll ns]

end

@[simp]
theorem size_mapTokens (n : Node) : (n.mapTokens f).size = n.size := by
  rw [size, tokens_mapTokens, List.length_map, size]

mutual

theorem withTokens_mapTokens : ∀ (n : Node) (ts : List Token),
    (n.mapTokens f).withTokens ts = n.withTokens ts
  | ⟨token, label, children⟩, ts => by
    rw [mapTokens, withTokens, withTokens, withTokensAll_mapTokensAll children]
    cases token <;> rfl

theorem withTokensAll_mapTokensAll : ∀ (ns : List Node) (ts : List Token),
    withTokensAll (mapTokensAll f ns) ts = withTokensAll ns ts
  | [], _ => rfl
  | n :: ns, ts => by
    rw [mapTokensAll, withTokensAll, withTokensAll, size_mapTokens, withTokens_mapTokens n,
      withTokensAll_mapTokensAll ns]

end

end MapTokens

mutual

theorem withTokens_tokens_append : ∀ (n : Node) (ts : List Token), n.withTokens (n.tokens ++ ts) = n
  | ⟨none, label, children⟩, ts => by
    rw [tokens, withTokens]
    exact congrArg (Node.mk none label) (withTokensAll_tokensAll_append children ts)
  | ⟨some t, label, children⟩, ts => by
    rw [tokens, withTokens]
    exact congrArg (Node.mk (some t) label) (withTokensAll_tokensAll_append children ts)

theorem withTokensAll_tokensAll_append : ∀ (ns : List Node) (ts : List Token),
    withTokensAll ns (tokensAll ns ++ ts) = ns
  | [], _ => rfl
  | n :: ns, ts => by
    rw [tokensAll, withTokensAll, List.append_assoc, withTokens_tokens_append n, size,
      List.drop_left, withTokensAll_tokensAll_append ns]

end

@[simp]
theorem withTokens_tokens (n : Node) : n.withTokens n.tokens = n := by
  have h := withTokens_tokens_append n []
  rwa [List.append_nil] at h

/-- The trees differ in nothing but tokens, which are of the same kinds. -/
def SameShape (n n' : Node) : Prop :=
  n.mapTokens Token.bare = n'.mapTokens Token.bare

namespace SameShape

variable {n n' : Node}

theorem symm (h : n.SameShape n') : n'.SameShape n := Eq.symm h

theorem size_eq (h : n.SameShape n') : n.size = n'.size := by
  rw [← size_mapTokens Token.bare n, h, size_mapTokens]

theorem withTokens_eq (h : n.SameShape n') : n.withTokens n'.tokens = n' := by
  -- what the leaves held before makes no difference
  rw [← withTokens_mapTokens Token.bare n, h, withTokens_mapTokens, withTokens_tokens]

theorem splice (h : n.SameShape n')
    : (Parser.splice n).map (mapTokens Token.bare) =
        (Parser.splice n').map (mapTokens Token.bare) := by
  rw [← splice_mapTokens, ← splice_mapTokens, h]

theorem label (h : n.SameShape n') (name : String)
    : (Parser.label name n).SameShape (Parser.label name n') := by
  rw [SameShape, Parser.label, Parser.label, mapTokens_labelled, mapTokens_labelled, h.splice]

theorem join {outputs outputs' : List Node} (h : List.Forall₂ SameShape outputs outputs')
    : (Parser.join outputs).SameShape (Parser.join outputs') := by
  rw [SameShape, Parser.join, Parser.join, mapTokens_group, mapTokens_group]
  congr 1
  induction h with
  | nil => rfl
  | cons first _ ih =>
    rw [List.flatMap_cons, List.flatMap_cons, List.map_append, List.map_append, first.splice, ih]

end SameShape

end Node

namespace Parser

def SameKinds (tokens tokens' : List Token) : Prop :=
  tokens.map Token.kind = tokens'.map Token.kind

theorem SameKinds.drop {tokens tokens' : List Token} (h : SameKinds tokens tokens') (n : Nat)
    : SameKinds (tokens.drop n) (tokens'.drop n) := by
  rw [SameKinds, List.map_drop, List.map_drop, h]

theorem take_parallel {tokens tokens' : List Token} (h : SameKinds tokens tokens') (kind : String)
    : Run.Parallel Node.SameShape (take kind tokens) (take kind tokens') := by
  unfold take
  match tokens, tokens' with
  | [], [] => exact .fail
  | [], _ :: _ => simp [SameKinds] at h
  | _ :: _, [] => simp [SameKinds] at h
  | t :: _, t' :: _ =>
    simp only [SameKinds, List.map_cons, List.cons.injEq] at h
    dsimp only
    rw [h.1]
    split
    · apply Run.Parallel.ok
      rw [Node.SameShape, Node.mapTokens_leaf, Node.mapTokens_leaf, Token.bare_eq_bare.mpr h.1]
    · exact .fail

theorem parametric : domain.Parametric SameKinds Node.SameShape where
  atom _ kind _ _ h := take_parallel h kind
  advance {tokens tokens' n n'} h hn := by
    show SameKinds (tokens.drop n.size) (tokens'.drop n'.size)
    rw [hn.size_eq]
    exact h.drop n'.size
  join := Node.SameShape.join
  isEmpty {tokens tokens'} h := by
    show tokens.isEmpty = tokens'.isEmpty
    rw [← List.isEmpty_map (f := Token.kind), h, List.isEmpty_map]
  label name _ _ h := h.label name

theorem complete_matched {tokens tokens' : List Token} {n n' : Node} (h : SameKinds tokens tokens')
    (hn : n.SameShape n') (log log' : List Failure)
    : Matched Node.SameShape (complete tokens n log) (complete tokens' n' log') := by
  have hrest := h.drop n.size
  unfold complete
  rw [← hn.size_eq]
  generalize tokens.drop n.size = rest, tokens'.drop n.size = rest' at hrest
  match rest, rest' with
  | [], [] => exact .ok hn
  | [], _ :: _ => simp [SameKinds] at hrest
  | _ :: _, [] => simp [SameKinds] at hrest
  | _ :: _, _ :: _ => exact .error

theorem parse_matched (p : Parser) {tokens tokens' : List Token} (h : SameKinds tokens tokens')
    : Option.Rel (Matched Node.SameShape) (p.parse tokens).run (p.parse tokens').run := by
  have hrun : Run.Parallel Node.SameShape (p.recognizer.run tokens) (p.recognizer.run tokens') :=
    run_parallel parametric h
  unfold parse
  generalize p.recognizer.run tokens = x, p.recognizer.run tokens' = y at hrun
  cases hrun with
  | unsettled => exact .none
  | settled hresult =>
    cases hresult with
    | ok hn => exact .some (complete_matched h hn _ _)
    | error => exact .some .error

/--
Only the kinds of the tokens count. On tokens of the same kinds, parsing goes on forever for both,
or fails for both, or gives trees that become one another with the tokens exchanged.
-/
theorem parse_of_kinds (p : Parser) (tokens tokens' : List Token)
    (h : tokens.map Token.kind = tokens'.map Token.kind)
    : ((p.parse tokens).run = none ∧ (p.parse tokens').run = none) ∨
        (∃ e e', (p.parse tokens).run = some (.error e) ∧
          (p.parse tokens').run = some (.error e')) ∨
        ∃ n n', (p.parse tokens).run = some (.ok n) ∧ (p.parse tokens').run = some (.ok n') ∧
          n.withTokens tokens' = n' ∧ n'.withTokens tokens = n := by
  have hrel := p.parse_matched h
  generalize hx : (p.parse tokens).run = x, hy : (p.parse tokens').run = y at hrel
  cases hrel with
  | none => exact .inl ⟨rfl, rfl⟩
  | some hresult =>
    cases hresult with
    | error => exact .inr (.inl ⟨_, _, rfl, rfl⟩)
    | ok hn =>
      refine .inr (.inr ⟨_, _, rfl, rfl, ?_, ?_⟩)
      · rw [← tokens_of_parse hy, hn.withTokens_eq]
      · rw [← tokens_of_parse hx, hn.symm.withTokens_eq]

theorem parse_of_kinds_sum
    : ∃ (p : Parser) (tokens tokens' : List Token) (n n' : Node),
        tokens.map Token.kind = ["number", "+", "number"] ∧
        tokens'.map Token.kind = ["number", "+", "number"] ∧
        tokens.map Token.value = ["1", "+", "2"] ∧ tokens'.map Token.value = ["30", "+", "4"] ∧
        (p.parse tokens).run = some (.ok n) ∧ (p.parse tokens').run = some (.ok n') ∧
        n.withTokens tokens' = n' := by
  let p : Parser :=
    ⟨Table.empty.set "sum" (.seq [.atom "number", .star (.seq [.atom "+", .atom "number"])]), "sum",
      rfl⟩
  let tokens : List Token :=
    [⟨"number", "1", ⟨0, 0⟩, true⟩, ⟨"+", "+", ⟨0, 1⟩, true⟩, ⟨"number", "2", ⟨0, 2⟩, true⟩]
  let tokens' : List Token :=
    [⟨"number", "30", ⟨0, 0⟩, true⟩, ⟨"+", "+", ⟨0, 3⟩, true⟩, ⟨"number", "4", ⟨1, 0⟩, false⟩]
  have hparse : (p.parse tokens).run = some (.ok (Node.labelled "sum" (tokens.map Node.leaf))) :=
    rfl
  rcases parse_of_kinds p tokens tokens' rfl with
    ⟨hnone, _⟩ | ⟨e, _, herror, _⟩ | ⟨n, n', hn, hn', hsame, _⟩
  · rw [hparse] at hnone
    cases hnone
  · rw [hparse] at herror
    cases herror
  · exact ⟨p, tokens, tokens', n, n', rfl, rfl, rfl, rfl, hn, hn', hsame⟩

end Parser

end GrammarKit
