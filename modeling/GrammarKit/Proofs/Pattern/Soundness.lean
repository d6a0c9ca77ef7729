import GrammarKit.Proofs.Parser.Predictive
import GrammarKit.Proofs.Pattern.Meaning

/-!
This module contains the soundness of the syntax of patterns: whatever a tree is reduced to is what
the text of its tokens stands for.
-/

namespace GrammarKit

open Node Token Reducer

namespace Pattern

section Lexemes

variable {s : List Char}

theorem Lexeme.of_any (h : Lexeme "any" s) : ∃ c, c ∉ operatorChars ∧ s = [c] := by
  generalize hkind : "any" = kind at h
  cases h with
  | operator _ _ => simpa using congrArg String.toList hkind
  | escape _ => simp at hkind
  | any h => exact ⟨_, h, rfl⟩

theorem Lexeme.of_escape (h : Lexeme "escape" s)
    : ∃ c, (c ∈ operatorChars ∨ c = 'n' ∨ c = 't') ∧ s = ['\\', c] := by
  generalize hkind : "escape" = kind at h
  cases h with
  | operator _ _ => simpa using congrArg String.toList hkind
  | escape h => exact ⟨_, h, rfl⟩
  | any _ => simp at hkind

theorem Lexeme.of_operator {c : Char} (h : Lexeme (String.singleton c) s) : s = [c] := by
  generalize hkind : String.singleton c = kind at h
  cases h with
  | operator _ _ =>
    have := congrArg String.toList hkind
    simpa [eq_comm] using this
  | escape _ => simpa using congrArg String.toList hkind
  | any _ => simpa using congrArg String.toList hkind

end Lexemes

def textAll (ns : List Node) : List Char := textOf (tokensAll ns)

@[simp]
theorem textAll_append (ns ms : List Node) : textAll (ns ++ ms) = textAll ns ++ textAll ms := by
  simp [textAll]

@[simp]
theorem textAll_nil : textAll [] = [] := rfl

@[simp]
theorem textAll_leaf (t : Token) : textAll [leaf t] = t.chars := by
  simp [textAll]

@[simp]
theorem textAll_labelled (name : String) (children : List Node)
    : textAll [labelled name children] = textAll children := by
  simp [textAll]

open GrammarKit.Parser (Built built_atom built_ref built_seq_cons built_pair built_alt built_star built_plus
  built_opt Every every_append every_singleton every_leaf every_labelled)

def Readable (t : Token) : Prop := Lexeme t.kind t.chars

/-- What the text of a named rule stands for. -/
def Meaning (name : String) : List Char → Rule Matcher → Prop :=
  match name with
  | "alternation" => Alternation
  | "sequence" => Sequence
  | "item" => Item
  | _ => Operand

/-- The trees are a node of that name, and it comes down to what its text stands for. -/
def Means (name : String) (ns : List Node) : Prop :=
  (∃ children, ns = [labelled name children]) ∧
    (Every Readable ns → ∃ rule, Gives ns [rule] ∧ Meaning name (textAll ns) rule)

section Steps

variable {children : List Node}

def IsOperator (c : Char) (ns : List Node) : Prop :=
  ∃ t, t.kind = String.singleton c ∧ ns = [leaf t]

theorem IsOperator.text {c : Char} {ns : List Node} (h : IsOperator c ns) (hread : Every Readable ns)
    : textAll ns = [c] := by
  obtain ⟨t, hkind, rfl⟩ := h
  rw [every_leaf, Readable, hkind] at hread
  rw [textAll_leaf, hread.of_operator]

theorem IsOperator.gives {c : Char} {ns : List Node} (h : IsOperator c ns)
    (hc : String.singleton c ∉ reductions.map Prod.fst)
    : Gives ns [] := by
  obtain ⟨t, hkind, rfl⟩ := h
  exact gives_leaf_of_not_mem (hkind ▸ hc)

theorem means_of {name : String} (hread : Every Readable children →
    ∃ rule, Gives [labelled name children] [rule] ∧ Meaning name (textAll children) rule)
    : Means name [labelled name children] := by
  refine ⟨⟨children, rfl⟩, fun h => ?_⟩
  rw [textAll_labelled]
  exact hread (every_labelled.mp h)

/-- What stands for that text and gives nothing. -/
structure Separates (c : List Char) (ns : List Node) : Prop where
  text : textAll ns = c
  gives : Gives ns []

theorem IsOperator.separates {c : Char} {ns : List Node} (h : IsOperator c ns)
    (hread : Every Readable ns) (hc : String.singleton c ∉ reductions.map Prod.fst)
    : Separates [c] ns :=
  ⟨h.text hread, h.gives hc⟩

theorem separates_nil : Separates [] [] := ⟨textAll_nil, gives_nil⟩

/-- One of that name, behind what separates it from those before it. -/
def Follows (name : String) (c : List Char) (ns : List Node) : Prop :=
  ∃ separator rest, (Every Readable separator → Separates c separator) ∧ Means name rest ∧
    ns = separator ++ rest

theorem follows_bar {ns : List Node} (h : Built Means (.seq [.atom "|", .ref "sequence"]) ns)
    : Follows "sequence" ['|'] ns := by
  obtain ⟨bar, rest, hbar, hrest, rfl⟩ := built_pair.mp h
  refine ⟨bar, rest, fun hread => ?_, built_ref.mp hrest, rfl⟩
  have hbar : IsOperator '|' bar := built_atom.mp hbar
  exact hbar.separates hread (by decide)

theorem follows_item {ns : List Node} (h : Built Means (.ref "item") ns) : Follows "item" [] ns :=
  ⟨[], ns, fun _ => separates_nil, built_ref.mp h, rfl⟩

/-- Several of one name give what each of them gives. -/
theorem gives_of_groups (name : String) (c : List Char)
    (Several : List Char → List (Rule Matcher) → Prop)
    (hlast : ∀ s rule, Meaning name s rule → Several s [rule])
    (hmore : ∀ s rest rule rules, Meaning name s rule → Several rest rules →
      Several (s ++ (c ++ rest)) (rule :: rules))
    {groups : List (List Node)} (hgroups : ∀ group ∈ groups, Follows name c group)
    {first : List Node} (hfirst : Means name first) (hread : Every Readable (first ++ groups.flatten))
    : ∃ rules, Gives (first ++ groups.flatten) rules ∧
        Several (textAll (first ++ groups.flatten)) rules := by
  -- on the groups; behind the separator of the first one stands the first of what is left
  induction groups generalizing first with
  | nil =>
    rw [List.flatten_nil, List.append_nil] at hread ⊢
    obtain ⟨rule, hgives, hmeaning⟩ := hfirst.2 hread
    exact ⟨[rule], hgives, hlast _ _ hmeaning⟩
  | cons group groups ih =>
    rw [List.forall_mem_cons] at hgroups
    obtain ⟨separator, second, hseparates, hsecond, rfl⟩ := hgroups.1
    rw [List.flatten_cons, List.append_assoc, every_append, every_append] at hread
    rw [List.flatten_cons, List.append_assoc]
    obtain ⟨rule, hgives, hmeaning⟩ := hfirst.2 hread.1
    obtain ⟨rules, hothers, hseveral⟩ := ih hgroups.2 hsecond hread.2.2
    have hseparator := hseparates hread.2.1
    refine ⟨rule :: rules, hgives.append (hseparator.gives.append hothers), ?_⟩
    rw [textAll_append, textAll_append, hseparator.text]
    exact hmore _ _ _ _ hmeaning hseveral

theorem means_alternation
    (h : Built Means (.seq [.ref "sequence", .star (.seq [.atom "|", .ref "sequence"])]) children)
    : Means "alternation" [labelled "alternation" children] := by
  obtain ⟨first, rest, hfirst, hrest, rfl⟩ := built_pair.mp h
  obtain ⟨groups, hgroups, rfl⟩ := built_star.mp hrest
  apply means_of
  intro hread
  have hfollow : ∀ group ∈ groups, Follows "sequence" ['|'] group :=
    fun group hgroup => follows_bar (hgroups group hgroup)
  obtain ⟨rules, hgives, hsequences⟩ := gives_of_groups "sequence" ['|'] Sequences
    (fun _ _ => .last) (fun _ _ _ _ => .more) hfollow (built_ref.mp hfirst) hread
  exact ⟨_, gives_alternation hgives, .of hsequences⟩

theorem means_sequence (h : Built Means (.plus (.ref "item")) children)
    : Means "sequence" [labelled "sequence" children] := by
  obtain ⟨first, groups, hfirst, hgroups, rfl⟩ := built_plus.mp h
  apply means_of
  intro hread
  have hfollow : ∀ group ∈ groups, Follows "item" [] group :=
    fun group hgroup => follows_item (hgroups group hgroup)
  obtain ⟨rules, hgives, hitems⟩ := gives_of_groups "item" [] Items
    (fun _ _ => .last) (fun _ _ _ _ => .more) hfollow (built_ref.mp hfirst) hread
  exact ⟨_, gives_sequence hgives, .of hitems⟩

/-- A suffix is one of four operators, each with a meaning of its own. -/
theorem suffixed_item {kind : String} (hkind : kind ∈ suffixes) (rule : Rule Matcher)
    : ∃ c result, kind = String.singleton c ∧ suffixed kind rule = some result ∧
        ∀ s, Operand s rule → Item (s ++ [c]) result := by
  simp only [suffixes, List.mem_cons, List.not_mem_nil, or_false] at hkind
  rcases hkind with rfl | rfl | rfl | rfl
  · exact ⟨'*', .star rule, rfl, rfl, fun _ => .star⟩
  · exact ⟨'+', .plus rule, rfl, rfl, fun _ => .plus⟩
  · exact ⟨'?', .opt rule, rfl, rfl, fun _ => .opt⟩
  · exact ⟨'!', .untilEmpty rule, rfl, rfl, fun _ => .untilEmpty⟩

theorem means_item
    (h : Built Means (.seq [.ref "operand", .opt (.alt (suffixes.map .atom))]) children)
    : Means "item" [labelled "item" children] := by
  obtain ⟨operand, suffix, hoperand, hsuffix, rfl⟩ := built_pair.mp h
  obtain ⟨⟨inner, rfl⟩, hmeans⟩ := built_ref.mp hoperand
  apply means_of
  intro hread
  obtain ⟨hread, hreadSuffix⟩ := every_append.mp hread
  obtain ⟨rule, hgives, hmeaning⟩ := hmeans hread
  rcases built_opt.mp hsuffix with rfl | hsuffix
  · rw [List.append_nil]
    exact ⟨rule, gives_item_plain hgives, .plain hmeaning⟩
  · obtain ⟨atom, hatom, hsuffix⟩ := built_alt.mp hsuffix
    obtain ⟨kind, hkind, rfl⟩ := List.mem_map.mp hatom
    obtain ⟨t, rfl, rfl⟩ := built_atom.mp hsuffix
    obtain ⟨c, result, hc, hresult, hitem⟩ := suffixed_item hkind rule
    have hleaf : Gives [leaf t] [] := gives_leaf_of_not_mem (not_mem_of_suffix hkind)
    refine ⟨result, gives_item_suffixed hkind hleaf hresult hgives, ?_⟩
    rw [textAll_append, IsOperator.text ⟨t, hc, rfl⟩ hreadSuffix]
    exact hitem _ hmeaning

theorem means_group
    (h : Built Means (.seq [.atom "(", .ref "alternation", .atom ")"]) children)
    : Means "group" [labelled "group" children] := by
  obtain ⟨opening, others, hopening, hothers, rfl⟩ := built_seq_cons.mp h
  obtain ⟨inner, closing, hinner, hclosing, rfl⟩ := built_pair.mp hothers
  have hopening : IsOperator '(' opening := built_atom.mp hopening
  have hclosing : IsOperator ')' closing := built_atom.mp hclosing
  apply means_of
  intro hread
  obtain ⟨hreadOpening, hread⟩ := every_append.mp hread
  obtain ⟨hread, hreadClosing⟩ := every_append.mp hread
  obtain ⟨rule, hgives, hmeaning⟩ := (built_ref.mp hinner).2 hread
  refine ⟨rule, gives_labelled_of_not_mem (by decide) ?_, ?_⟩
  · exact (hopening.gives (by decide)).append (hgives.append (hclosing.gives (by decide)))
  · rw [textAll_append, textAll_append, hopening.text hreadOpening, hclosing.text hreadClosing]
    exact .group hmeaning

theorem means_negation (h : Built Means (.seq [.atom "^", .ref "operand"]) children)
    : Means "negation" [labelled "negation" children] := by
  obtain ⟨caret, inner, hcaret, hinner, rfl⟩ := built_pair.mp h
  have hcaret : IsOperator '^' caret := built_atom.mp hcaret
  apply means_of
  intro hread
  obtain ⟨hreadCaret, hread⟩ := every_append.mp hread
  obtain ⟨rule, hgives, hmeaning⟩ := (built_ref.mp hinner).2 hread
  refine ⟨_, gives_negation ((hcaret.gives (by decide)).append hgives), ?_⟩
  rw [textAll_append, hcaret.text hreadCaret]
  exact .negation hmeaning

theorem any_text {t : Token} (hkind : t.kind = "any") (hread : Every Readable [leaf t])
    : ∃ c, c ∉ operatorChars ∧ t.chars = [c] := by
  rw [every_leaf, Readable, hkind] at hread
  exact hread.of_any

theorem means_class
    (h : Built Means (.seq [.atom "[", .atom "any", .atom "-", .atom "any", .atom "]"]) children)
    : Means "class" [labelled "class" children] := by
  obtain ⟨opening, others, hopening, hothers, rfl⟩ := built_seq_cons.mp h
  obtain ⟨low, behind, hlow, hbehind, rfl⟩ := built_seq_cons.mp hothers
  obtain ⟨minus, ending, hminus, hending, rfl⟩ := built_seq_cons.mp hbehind
  obtain ⟨high, closing, hhigh, hclosing, rfl⟩ := built_pair.mp hending
  have hopening : IsOperator '[' opening := built_atom.mp hopening
  have hminus : IsOperator '-' minus := built_atom.mp hminus
  have hclosing : IsOperator ']' closing := built_atom.mp hclosing
  obtain ⟨t₂, hlowKind, rfl⟩ := built_atom.mp hlow
  obtain ⟨t₄, hhighKind, rfl⟩ := built_atom.mp hhigh
  apply means_of
  intro hread
  simp only [every_append] at hread
  obtain ⟨hreadOpening, hreadLow, hreadMinus, hreadHigh, hreadClosing⟩ := hread
  obtain ⟨c, hc, hlowText⟩ := any_text hlowKind hreadLow
  obtain ⟨d, hd, hhighText⟩ := any_text hhighKind hreadHigh
  refine ⟨.atom (.range c d), ?_, ?_⟩
  · obtain ⟨t₁, hkind₁, rfl⟩ := id hopening
    obtain ⟨t₃, hkind₃, rfl⟩ := id hminus
    obtain ⟨t₅, hkind₅, rfl⟩ := id hclosing
    rw [every_leaf, Readable, hkind₃] at hreadMinus
    exact gives_class hkind₁ hlowKind hlowText hkind₃ hreadMinus.of_operator hhighKind hhighText hkind₅
  · simp only [textAll_append, textAll_leaf, hopening.text hreadOpening, hminus.text hreadMinus,
      hclosing.text hreadClosing, hlowText, hhighText]
    exact .range hc hd

theorem unescape_operator {c : Char} (hc : c ∈ operatorChars) {value : String}
    (h : value.toList = ['\\', c])
    : unescape value = some (char c) := by
  have hn : c ≠ 'n' := fun heq => absurd (heq ▸ hc) (by decide)
  have ht : c ≠ 't' := fun heq => absurd (heq ▸ hc) (by decide)
  simp [unescape, h, hn, ht, char]

theorem unescape_operand {t : Token} (hkind : t.kind = "escape") (hread : Every Readable [leaf t])
    : ∃ rule, unescape t.value = some rule ∧ Operand t.chars rule := by
  rw [every_leaf, Readable, hkind] at hread
  obtain ⟨c, hc, htext⟩ := hread.of_escape
  rw [htext]
  rcases hc with hc | rfl | rfl
  · exact ⟨char c, unescape_operator hc htext, .operator hc⟩
  · refine ⟨char '\n', ?_, .newline⟩
    rw [unescape, ← Token.chars, htext]
    rfl
  · refine ⟨char '\t', ?_, .tab⟩
    rw [unescape, ← Token.chars, htext]
    rfl

def operands : List (Rule String) :=
  [.ref "class", .ref "group", .ref "negation", .atom "escape", .atom "any", .atom "-"]

theorem means_operand (h : Built Means (.alt operands) children)
    : Means "operand" [labelled "operand" children] := by
  obtain ⟨rule, hmem, h⟩ := built_alt.mp h
  apply means_of
  intro hread
  have hname : "operand" ∉ reductions.map Prod.fst := by decide
  simp only [operands, List.mem_cons, List.not_mem_nil, or_false] at hmem
  -- nodes of named rules mean something already, tokens get their meaning here
  rcases hmem with rfl | rfl | rfl | rfl | rfl | rfl
  · obtain ⟨rule, hgives, hmeaning⟩ := (built_ref.mp h).2 hread
    exact ⟨rule, gives_labelled_of_not_mem hname hgives, hmeaning⟩
  · obtain ⟨rule, hgives, hmeaning⟩ := (built_ref.mp h).2 hread
    exact ⟨rule, gives_labelled_of_not_mem hname hgives, hmeaning⟩
  · obtain ⟨rule, hgives, hmeaning⟩ := (built_ref.mp h).2 hread
    exact ⟨rule, gives_labelled_of_not_mem hname hgives, hmeaning⟩
  · obtain ⟨t, hkind, rfl⟩ := built_atom.mp h
    obtain ⟨rule, hvalue, hoperand⟩ := unescape_operand hkind hread
    rw [textAll_leaf]
    exact ⟨rule, gives_labelled_of_not_mem hname (gives_escape hkind hvalue), hoperand⟩
  · obtain ⟨t, hkind, rfl⟩ := built_atom.mp h
    obtain ⟨c, hc, htext⟩ := any_text hkind hread
    rw [textAll_leaf, htext]
    exact ⟨_, gives_labelled_of_not_mem hname (gives_char (.inl hkind) htext), .char (.inl hc)⟩
  · obtain ⟨t, hkind, rfl⟩ := built_atom.mp h
    have htext : t.chars = ['-'] := by
      have hminus : IsOperator '-' [leaf t] := ⟨t, hkind, rfl⟩
      rw [← textAll_leaf]
      exact hminus.text hread
    rw [textAll_leaf, htext]
    exact ⟨_, gives_labelled_of_not_mem hname (gives_char (.inr hkind) htext), .char (.inr rfl)⟩

end Steps

def productions : List (String × Rule String) := [
  ("alternation", .seq [.ref "sequence", .star (.seq [.atom "|", .ref "sequence"])]),
  ("sequence", .plus (.ref "item")),
  ("item", .seq [.ref "operand", .opt (.alt (suffixes.map .atom))]),
  ("operand", .alt operands),
  ("class", .seq [.atom "[", .atom "any", .atom "-", .atom "any", .atom "]"]),
  ("group", .seq [.atom "(", .ref "alternation", .atom ")"]),
  ("negation", .seq [.atom "^", .ref "operand"])]

theorem get?_productions {name : String} {body : Rule String}
    : parser.rules.get? name = some body ↔ (name, body) ∈ productions := by
  have hnodup : (productions.map Prod.fst).Nodup := by decide
  exact Table.get?_ofList hnodup

theorem means_step {name : String} {body : Rule String} {children : List Node}
    (hget : parser.rules.get? name = some body) (h : Built Means body children)
    : Means name [labelled name children] := by
  rw [get?_productions] at hget
  simp only [productions, List.mem_cons, List.not_mem_nil, or_false, Prod.mk.injEq] at hget
  rcases hget with ⟨rfl, rfl⟩ | ⟨rfl, rfl⟩ | ⟨rfl, rfl⟩ | ⟨rfl, rfl⟩ | ⟨rfl, rfl⟩ | ⟨rfl, rfl⟩ |
    ⟨rfl, rfl⟩
  · exact means_alternation h
  · exact means_sequence h
  · exact means_item h
  · exact means_operand h
  · exact means_class h
  · exact means_group h
  · exact means_negation h

theorem reduce_sound {n : Node} (h : GrammarKit.Parser.Derives parser.rules (.ref "alternation") [n])
    (hread : ∀ t ∈ n.tokens, Lexeme t.kind t.chars)
    : ∃ rule, reducer.apply n = .ok rule ∧ Alternation (textOf n.tokens) rule := by
  obtain ⟨rule, hgives, hmeaning⟩ :=
    (built_ref.mp (h.built means_step)).2 (every_singleton.mpr hread)
  rw [textAll, tokensAll_singleton] at hmeaning
  exact ⟨rule, apply_of_gives reducer_rules hgives, hmeaning⟩

end Pattern

end GrammarKit
