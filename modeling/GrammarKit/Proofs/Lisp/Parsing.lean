import GrammarKit.Proofs.Lisp.Lexing
import GrammarKit.Proofs.Lisp.Meaning

/-!
This module contains the syntax of expressions: its trees are those of the tokens that spell an
expression, and they are reduced to that expression.
-/

namespace GrammarKit

open Node Token Reducer

namespace Lisp

open GrammarKit.Parser (Built built_atom built_ref built_seq_cons built_pair built_alt built_star Every
  every_append every_leaf every_labelled Spells)

theorem get?_productions {name : String} {body : Rule String}
    : parser.rules.get? name = some body ↔ (name, body) ∈ productions := by
  have hnodup : (productions.map Prod.fst).Nodup := by decide
  exact Table.get?_ofList hnodup

def words (ns : List Node) : List (String × String) := (tokensAll ns).map spelling

@[simp]
theorem words_append (ns ms : List Node) : words (ns ++ ms) = words ns ++ words ms := by
  simp [words]

@[simp]
theorem words_leaf (t : Token) : words [leaf t] = [t.spelling] := by
  simp [words]

@[simp]
theorem words_labelled (name : String) (children : List Node)
    : words [labelled name children] = words children := by
  simp [words]

def Readable (t : Token) : Prop := Lexeme t.kind t.chars

section Soundness

/-- The trees spell an expression, at least up to the size of its integers, and come down to it. -/
def Means (ns : List Node) : Prop :=
  Every Readable ns →
    Shaped (words ns) ∧
      (Every (¬ OutOfRange ·) ns → ∃ e, Gives ns [e] ∧ Spelled e (words ns))

def MeansAll (ns : List Node) : Prop :=
  Every Readable ns →
    ShapedAll (words ns) ∧
      (Every (¬ OutOfRange ·) ns → ∃ es, Gives ns es ∧ SpelledAll es (words ns))

theorem means_labelled {name : String} (hname : name ∉ reductions.map Prod.fst)
    {children : List Node} (h : Means children)
    : Means [labelled name children] := by
  intro hread
  rw [every_labelled] at hread
  rw [every_labelled, words_labelled]
  obtain ⟨hshaped, hspelled⟩ := h hread
  refine ⟨hshaped, fun hrange => ?_⟩
  obtain ⟨e, hgives, he⟩ := hspelled hrange
  exact ⟨e, gives_labelled_of_not_mem hname hgives, he⟩

section Leaves

variable {t : Token}

theorem means_int (hkind : t.kind = "int") : Means [leaf t] := by
  intro hread
  rw [every_leaf] at hread
  obtain ⟨v, hv⟩ := hread.int hkind
  rw [every_leaf, words_leaf, spelling, hkind]
  refine ⟨.int hv, fun hrange => ?_⟩
  cases hvalue : Decimal.read? t.value with
  | none => exact absurd ⟨hkind, v, hv, (Numeral.read?_eq_none hv).mp hvalue⟩ hrange
  | some n =>
    have hn := (Numeral.read?_eq_some hv).mp hvalue
    rw [chars, ← hn] at hv
    exact ⟨.int n, gives_int hkind hvalue, .int hv⟩

theorem means_str (hkind : t.kind = "str") : Means [leaf t] := by
  intro hread
  rw [every_leaf] at hread
  obtain ⟨inner, hinner⟩ := hread.str hkind
  have hvalue : t.value = "'" ++ String.ofList inner ++ "'" := by
    rw [← String.toList_inj, ← chars, hinner]
    simp
  rw [words_leaf, spelling, hkind, hvalue]
  exact ⟨.str, fun _ => ⟨_, gives_str hkind hvalue, .str⟩⟩

theorem means_id (hkind : t.kind = "id") : Means [leaf t] := by
  intro _
  rw [words_leaf, spelling, hkind]
  exact ⟨.ref, fun _ => ⟨_, gives_id hkind, .ref⟩⟩

end Leaves

theorem meansAll_of_groups {groups : List (List Node)} (h : ∀ group ∈ groups, Means group)
    : MeansAll groups.flatten := by
  -- the expressions of all rounds in order, each from a tree of its own
  induction groups with
  | nil => exact fun _ => ⟨.nil, fun _ => ⟨[], gives_nil, .nil⟩⟩
  | cons group groups ih =>
    rw [List.forall_mem_cons] at h
    intro hread
    rw [List.flatten_cons, every_append] at hread
    rw [List.flatten_cons, every_append, words_append]
    obtain ⟨hshaped, hspelled⟩ := h.1 hread.1
    obtain ⟨hshapedAll, hspelledAll⟩ := ih h.2 hread.2
    refine ⟨.cons hshaped hshapedAll, fun hrange => ?_⟩
    obtain ⟨e, hgives, he⟩ := hspelled hrange.1
    obtain ⟨es, hgivesAll, hes⟩ := hspelledAll hrange.2
    exact ⟨e :: es, hgives.append hgivesAll, .cons he hes⟩

theorem means_call {opening closing : Token} (hopening : opening.kind = "(")
    (hclosing : closing.kind = ")") {ns ms : List Node} (hns : Means ns) (hms : MeansAll ms)
    : Means [labelled "call" ([leaf opening] ++ (ns ++ (ms ++ [leaf closing])))] := by
  intro hread
  simp only [every_labelled, every_append, every_leaf] at hread
  simp only [every_labelled, every_append, words_labelled, words_append, words_leaf]
  obtain ⟨hreadOpening, hreadFunc, hreadArgs, hreadClosing⟩ := hread
  have hfirst : opening.value = "(" := String.toList_inj.mp (hreadOpening.opening hopening)
  have hlast : closing.value = ")" := String.toList_inj.mp (hreadClosing.closing hclosing)
  rw [spelling, spelling, hopening, hclosing, hfirst, hlast]
  obtain ⟨hshaped, hspelled⟩ := hns hreadFunc
  obtain ⟨hshapedAll, hspelledAll⟩ := hms hreadArgs
  refine ⟨.call hshaped hshapedAll, fun hrange => ?_⟩
  obtain ⟨_, hrangeFunc, hrangeArgs, _⟩ := hrange
  obtain ⟨func, hgives, hfunc⟩ := hspelled hrangeFunc
  obtain ⟨args, hgivesAll, hargs⟩ := hspelledAll hrangeArgs
  exact ⟨.call func args, gives_call hopening hclosing hgives hgivesAll, .call hfunc hargs⟩

theorem means_step {name : String} {body : Rule String} {children : List Node}
    (hget : parser.rules.get? name = some body) (h : Built (fun _ => Means) body children)
    : Means [labelled name children] := by
  rw [get?_productions] at hget
  simp only [productions, List.mem_cons, List.not_mem_nil, or_false, Prod.mk.injEq] at hget
  rcases hget with ⟨rfl, rfl⟩ | ⟨rfl, rfl⟩
  · apply means_labelled (by decide)
    obtain ⟨choice, hmem, hchoice⟩ := built_alt.mp h
    simp only [exprRules, List.mem_cons, List.not_mem_nil, or_false] at hmem
    rcases hmem with rfl | rfl | rfl | rfl
    · exact built_ref.mp hchoice
    · obtain ⟨t, hkind, rfl⟩ := built_atom.mp hchoice
      exact means_int hkind
    · obtain ⟨t, hkind, rfl⟩ := built_atom.mp hchoice
      exact means_str hkind
    · obtain ⟨t, hkind, rfl⟩ := built_atom.mp hchoice
      exact means_id hkind
  · obtain ⟨first, others, hfirst, hothers, rfl⟩ := built_seq_cons.mp h
    obtain ⟨func, behind, hfunc, hbehind, rfl⟩ := built_seq_cons.mp hothers
    obtain ⟨args, last, hargs, hlast, rfl⟩ := built_pair.mp hbehind
    obtain ⟨opening, hopening, rfl⟩ := built_atom.mp hfirst
    obtain ⟨closing, hclosing, rfl⟩ := built_atom.mp hlast
    obtain ⟨groups, hgroups, rfl⟩ := built_star.mp hargs
    apply means_call hopening hclosing (built_ref.mp hfunc)
    apply meansAll_of_groups
    intro group hgroup
    exact built_ref.mp (hgroups group hgroup)

theorem derives_means {n : Node} (h : GrammarKit.Parser.Derives parser.rules (.ref "expr") [n])
    : Means [n] :=
  built_ref.mp (h.built means_step)

end Soundness

section Completeness

variable {good first rest : List Node → Prop}

theorem spells_leaf {kind value : String}
    (hkind : .atom kind ∈ exprRules)
    (hgood : ∀ t : Token, t.kind = kind → t.value = value → good [labelled "expr" [leaf t]])
    : Spells parser.rules (.ref "expr") [(kind, value)] good := by
  have hexpr : ("expr", Rule.alt exprRules) ∈ productions := by simp [productions]
  have hleaf : Spells parser.rules (.atom kind) [(kind, value)]
      fun ns => good [labelled "expr" ns] :=
    .atom fun t ht => hgood t (congrArg Prod.fst ht) (congrArg Prod.snd ht)
  exact .ref (get?_productions.mpr hexpr) (hleaf.alt hkind) fun _ hns => hns

theorem spells_call {ws others : List (String × String)}
    (hfunc : Spells parser.rules (.ref "expr") ws first)
    (hargs : Spells parser.rules (.star (.ref "expr")) others rest)
    (hgood : ∀ opening closing ns ms, opening.kind = "(" → closing.kind = ")" → first ns → rest ms →
      good [labelled "expr" [labelled "call" ([leaf opening] ++ (ns ++ (ms ++ [leaf closing])))]])
    : Spells parser.rules (.ref "expr") ([("(", "(")] ++ (ws ++ (others ++ [(")", ")")]))) good := by
  intro tokens htokens
  obtain ⟨_, behind, rfl, hbefore, hbehind⟩ := List.map_eq_append_iff.mp htokens
  obtain ⟨funcTokens, behind, rfl, hfuncTokens, hbehind⟩ := List.map_eq_append_iff.mp hbehind
  obtain ⟨argTokens, _, rfl, hargTokens, hlast⟩ := List.map_eq_append_iff.mp hbehind
  obtain ⟨opening, rfl, hopening⟩ := List.map_eq_singleton_iff.mp hbefore
  obtain ⟨closing, rfl, hclosing⟩ := List.map_eq_singleton_iff.mp hlast
  obtain ⟨ns, hns, rfl, hfirst⟩ := hfunc funcTokens hfuncTokens
  obtain ⟨ms, hms, rfl, hrest⟩ := hargs argTokens hargTokens
  have hopening : opening.kind = "(" := congrArg Prod.fst hopening
  have hclosing : closing.kind = ")" := congrArg Prod.fst hclosing
  refine ⟨_, ?_, ?_, hgood opening closing ns ms hopening hclosing hfirst hrest⟩
  · have hcall : ("call", Rule.seq callRules) ∈ productions := by simp [productions]
    have hexpr : ("expr", Rule.alt exprRules) ∈ productions := by simp [productions]
    apply GrammarKit.Parser.Derives.ref (get?_productions.mpr hexpr)
    apply GrammarKit.Parser.Derives.alt List.mem_cons_self
    apply GrammarKit.Parser.Derives.ref (get?_productions.mpr hcall)
    exact .seqCons (.atom hopening) (.seqCons hns (.seqCons hms (.seqCons (.atom hclosing) .seqNil)))
  · simp only [tokensAll_singleton, tokens_labelled, tokensAll_append, tokens_leaf]

mutual

theorem spelled_spells {e : Expr} {ws : List (String × String)}
    : Spelled e ws → Spells parser.rules (.ref "expr") ws (Gives · [e])
  | .int h => spells_leaf (by simp [exprRules]) fun t hkind hvalue => by
    have hnumeral : Numeral t.value.toList _ := hvalue ▸ h
    exact gives_expr (gives_int hkind (hnumeral.read?_eq_some.mpr rfl))
  | .str => spells_leaf (by simp [exprRules]) fun _ hkind hvalue =>
    gives_expr (gives_str hkind hvalue)
  | .ref => spells_leaf (by simp [exprRules]) fun _ hkind hvalue =>
    gives_expr (hvalue ▸ gives_id hkind)
  | .call hfunc hargs =>
    spells_call (spelled_spells hfunc) (spelledAll_spell hargs)
      fun _ _ _ _ hopening hclosing hns hms =>
        gives_expr (gives_call hopening hclosing hns hms)

theorem spelledAll_spell {es : List Expr} {ws : List (String × String)}
    : SpelledAll es ws → Spells parser.rules (.star (.ref "expr")) ws (Gives · es)
  | .nil => .starNil gives_nil
  | .cons hfirst hothers =>
    .starCons (spelled_spells hfirst) (spelledAll_spell hothers) fun _ _ hns hms => hns.append hms

end

mutual

theorem shaped_spells {ws : List (String × String)}
    : Shaped ws → Spells parser.rules (.ref "expr") ws fun _ => True
  | .int _ => spells_leaf (by simp [exprRules]) fun _ _ _ => trivial
  | .str => spells_leaf (by simp [exprRules]) fun _ _ _ => trivial
  | .ref => spells_leaf (by simp [exprRules]) fun _ _ _ => trivial
  | .call hfunc hargs =>
    spells_call (shaped_spells hfunc) (shapedAll_spell hargs) fun _ _ _ _ _ _ _ _ => trivial

theorem shapedAll_spell {ws : List (String × String)}
    : ShapedAll ws → Spells parser.rules (.star (.ref "expr")) ws fun _ => True
  | .nil => .starNil trivial
  | .cons hfirst hothers =>
    .starCons (shaped_spells hfirst) (shapedAll_spell hothers) fun _ _ _ _ => trivial

end

end Completeness

end Lisp

end GrammarKit
