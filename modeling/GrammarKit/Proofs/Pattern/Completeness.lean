import GrammarKit.Proofs.Pattern.Soundness

/-!
This module contains the completeness of the syntax of patterns: a text that stands for a rule can be
cut into tokens, and these have a tree that is reduced to the rule.
-/

namespace GrammarKit

open Node Reducer

namespace Pattern

open GrammarKit.Parser (Spells)

/-- The text can be cut into tokens for which the rule has a derivation, and a good one. -/
def Writes (rule : Rule String) (s : List Char) (good : List Node → Prop) : Prop :=
  ∃ words : List (String × String), (∀ word ∈ words, Lexeme word.1 word.2.toList) ∧
    (words.flatMap fun word => word.2.toList) = s ∧ Spells parser.rules rule words good

section Writes

variable {rule other whole : Rule String} {s rest : List Char} {good first others : List Node → Prop}

theorem Writes.map (h : Writes rule s first)
    (hspells : ∀ words, Spells parser.rules rule words first →
      Spells parser.rules whole words good)
    : Writes whole s good := by
  obtain ⟨words, hwords, htext, h⟩ := h
  exact ⟨words, hwords, htext, hspells words h⟩

theorem Writes.append (hfirst : Writes rule s first) (hothers : Writes other rest others)
    (hspells : ∀ words more, Spells parser.rules rule words first →
      Spells parser.rules other more others → Spells parser.rules whole (words ++ more) good)
    : Writes whole (s ++ rest) good := by
  obtain ⟨words, hwords, rfl, h⟩ := hfirst
  obtain ⟨more, hmore, rfl, h'⟩ := hothers
  refine ⟨words ++ more, ?_, List.flatMap_append, hspells words more h h'⟩
  exact List.forall_mem_append.mpr ⟨hwords, hmore⟩

theorem Writes.empty (h : Spells parser.rules rule [] good) : Writes rule [] good :=
  ⟨[], by simp, rfl, h⟩

theorem Writes.token {kind : String} (h : Lexeme kind s)
    : Writes (.atom kind) s fun ns => ∃ t, t.kind = kind ∧ t.chars = s ∧ ns = [leaf t] := by
  refine ⟨[(kind, String.ofList s)], by simpa using h, by simp, Spells.atom fun t ht => ?_⟩
  have hvalue : t.value = String.ofList s := congrArg Prod.snd ht
  exact ⟨t, congrArg Prod.fst ht, by rw [Token.chars, hvalue, String.toList_ofList], rfl⟩

theorem Writes.seqCons {members : List (Rule String)} (hfirst : Writes rule s first)
    (hothers : Writes (.seq members) rest others)
    (hgood : ∀ ns ms, first ns → others ms → good (ns ++ ms))
    : Writes (.seq (rule :: members)) (s ++ rest) good :=
  hfirst.append hothers fun _ _ h h' => h.seqCons h' hgood

theorem Writes.last (h : Writes rule s good) : Writes (.seq [rule]) s good := by
  have hnone : Writes (.seq []) [] (· = []) := .empty (.seqNil rfl)
  rw [← List.append_nil s]
  apply h.seqCons hnone
  intro ns ms hns hms
  rwa [hms, List.append_nil]

theorem Writes.star (hfirst : Writes rule s first) (hothers : Writes (.star rule) rest others)
    (hgood : ∀ ns ms, first ns → others ms → good (ns ++ ms))
    : Writes (.star rule) (s ++ rest) good :=
  hfirst.append hothers fun _ _ h h' => h.starCons h' hgood

theorem Writes.plus (hfirst : Writes rule s first) (hothers : Writes (.star rule) rest others)
    (hgood : ∀ ns ms, first ns → others ms → good (ns ++ ms))
    : Writes (.plus rule) (s ++ rest) good :=
  hfirst.append hothers fun _ _ h h' => h.plus h' hgood

theorem Writes.operator {c : Char} (hc : c ∈ operatorChars) (hne : c ≠ '\\')
    (hplain : String.singleton c ∉ reductions.map Prod.fst)
    : Writes (.atom (String.singleton c)) [c] (Gives · []) := by
  refine (Writes.token (.operator hc hne)).map fun words h => h.mono ?_
  rintro ns ⟨t, hkind, _, rfl⟩
  exact gives_leaf_of_not_mem (hkind ▸ hplain)

theorem Writes.atoms {words : List (String × List Char)} (h : ∀ word ∈ words, Lexeme word.1 word.2)
    : Writes (.seq (words.map fun word => .atom word.1)) (words.flatMap Prod.snd) fun ns =>
        ∃ tokens : List Token, ns = tokens.map leaf ∧
          (tokens.map fun t => (t.kind, t.chars)) = words := by
  induction words with
  | nil => exact .empty (.seqNil ⟨[], rfl, rfl⟩)
  | cons word words ih =>
    rw [List.forall_mem_cons] at h
    apply (Writes.token h.1).seqCons (ih h.2)
    rintro ns ms ⟨t, hkind, htext, rfl⟩ ⟨tokens, rfl, rfl⟩
    exact ⟨t :: tokens, rfl, by rw [List.map_cons, hkind, htext]⟩

end Writes

def Reduces (name : String) (rule : Rule Matcher) (ns : List Node) : Prop :=
  (∃ children, ns = [labelled name children]) ∧ Gives ns [rule]

section Steps

variable {s rest : List Char} {rule : Rule Matcher} {rules : List (Rule Matcher)}

theorem writes_node {name : String} {body : Rule String} {good : List Node → Prop}
    (hmem : (name, body) ∈ productions) (h : Writes body s good)
    (hgives : ∀ ns, good ns → Gives [labelled name ns] [rule])
    : Writes (.ref name) s (Reduces name rule) :=
  h.map fun _ h => h.ref (get?_productions.mpr hmem) fun ns hns => ⟨⟨ns, rfl⟩, hgives ns hns⟩

theorem writes_bar (h : Writes (.ref "sequence") s (Reduces "sequence" rule))
    : Writes (.seq [.atom "|", .ref "sequence"]) ('|' :: s) (Gives · [rule]) := by
  have hbar : Writes (.atom "|") ['|'] (Gives · []) :=
    .operator (c := '|') (by decide) (by decide) (by decide)
  exact hbar.seqCons h.last fun _ _ hbar h => hbar.append h.2

/-- Sequences with bars between them can stand first, or behind a bar. -/
def WritesSequences (s : List Char) (rules : List (Rule Matcher)) : Prop :=
  Writes (.seq [.ref "sequence", .star (.seq [.atom "|", .ref "sequence"])]) s (Gives · rules) ∧
    Writes (.star (.seq [.atom "|", .ref "sequence"])) ('|' :: s) (Gives · rules)

theorem writesSequences_last (h : Writes (.ref "sequence") s (Reduces "sequence" rule))
    : WritesSequences s [rule] := by
  have hnone : Writes (.star (.seq [.atom "|", .ref "sequence"])) [] (Gives · []) :=
    .empty (.starNil gives_nil)
  constructor
  · rw [← List.append_nil s]
    exact h.seqCons hnone.last fun _ _ h hnone => h.2.append hnone
  · rw [← List.append_nil ('|' :: s)]
    exact (writes_bar h).star hnone fun _ _ h hnone => h.append hnone

theorem writesSequences_more (hfirst : Writes (.ref "sequence") s (Reduces "sequence" rule))
    (hothers : WritesSequences rest rules)
    : WritesSequences (s ++ '|' :: rest) (rule :: rules) := by
  constructor
  · exact hfirst.seqCons hothers.2.last fun _ _ hfirst hothers => hfirst.2.append hothers
  · exact (writes_bar hfirst).star hothers.2 fun _ _ hfirst hothers => hfirst.append hothers

/-- Items one after the other can stand first, or behind another item. -/
def WritesItems (s : List Char) (rules : List (Rule Matcher)) : Prop :=
  Writes (.plus (.ref "item")) s (Gives · rules) ∧ Writes (.star (.ref "item")) s (Gives · rules)

theorem writesItems_last (h : Writes (.ref "item") s (Reduces "item" rule))
    : WritesItems s [rule] := by
  have hnone : Writes (.star (.ref "item")) [] (Gives · []) := .empty (.starNil gives_nil)
  rw [← List.append_nil s]
  constructor
  · exact h.plus hnone fun _ _ h hnone => h.2.append hnone
  · exact h.star hnone fun _ _ h hnone => h.2.append hnone

theorem writesItems_more (hfirst : Writes (.ref "item") s (Reduces "item" rule))
    (hothers : WritesItems rest rules)
    : WritesItems (s ++ rest) (rule :: rules) := by
  constructor
  · exact hfirst.plus hothers.2 fun _ _ hfirst hothers => hfirst.2.append hothers
  · exact hfirst.star hothers.2 fun _ _ hfirst hothers => hfirst.2.append hothers

theorem writes_item (h : Writes (.seq [.ref "operand", .opt (.alt (suffixes.map .atom))]) s
      fun ns => Gives [labelled "item" ns] [rule])
    : Writes (.ref "item") s (Reduces "item" rule) :=
  writes_node (by simp [productions]) h fun _ hgives => hgives

theorem writes_item_plain (h : Writes (.ref "operand") s (Reduces "operand" rule))
    : Writes (.ref "item") s (Reduces "item" rule) := by
  have hnone : Writes (.opt (.alt (suffixes.map .atom))) [] (· = []) := .empty (.optNone rfl)
  rw [← List.append_nil s]
  apply writes_item
  apply h.seqCons hnone.last
  rintro ns ms ⟨⟨children, rfl⟩, hgives⟩ rfl
  exact gives_item_plain hgives

theorem writes_item_suffixed {c : Char} (hc : c ∈ operatorChars) (hne : c ≠ '\\')
    (hsuffix : String.singleton c ∈ suffixes) {result : Rule Matcher}
    (hresult : suffixed (String.singleton c) rule = some result)
    (h : Writes (.ref "operand") s (Reduces "operand" rule))
    : Writes (.ref "item") (s ++ [c]) (Reduces "item" result) := by
  have hlast := (Writes.token (.operator hc hne)).map fun words h =>
    (h.alt (List.mem_map_of_mem hsuffix)).optSome
  apply writes_item
  apply h.seqCons hlast.last
  rintro ns ms ⟨⟨children, rfl⟩, hgives⟩ ⟨t, hkind, _, rfl⟩
  rw [← hkind] at hsuffix hresult
  exact gives_item_suffixed hsuffix (gives_leaf_of_not_mem (not_mem_of_suffix hsuffix)) hresult hgives

theorem writes_operand {choice : Rule String} (hchoice : choice ∈ operands)
    (h : Writes choice s (Gives · [rule]))
    : Writes (.ref "operand") s (Reduces "operand" rule) := by
  apply writes_node (by simp [productions]) (h.map fun _ h => h.alt hchoice)
  intro ns hgives
  exact gives_labelled_of_not_mem (by decide) hgives

theorem writes_named {name : String} (hname : .ref name ∈ operands)
    (h : Writes (.ref name) s (Reduces name rule))
    : Writes (.ref "operand") s (Reduces "operand" rule) :=
  writes_operand hname (h.map fun _ h => h.mono fun _ h => h.2)

theorem writes_class {low high : Char} (hlow : low ∉ operatorChars) (hhigh : high ∉ operatorChars)
    : Writes (.ref "class") ['[', low, '-', high, ']']
        (Reduces "class" (.atom (.range low high))) := by
  have hopening : Lexeme "[" ['['] := .operator (c := '[') (by decide) (by decide)
  have hminus : Lexeme "-" ['-'] := .operator (c := '-') (by decide) (by decide)
  have hclosing : Lexeme "]" [']'] := .operator (c := ']') (by decide) (by decide)
  have hwords : ∀ word ∈ [("[", ['[']), ("any", [low]), ("-", ['-']), ("any", [high]), ("]", [']'])],
      Lexeme word.1 word.2 := by
    simp [hopening, hminus, hclosing, Lexeme.any hlow, Lexeme.any hhigh]
  apply writes_node (by simp [productions]) (Writes.atoms hwords)
  rintro ns ⟨tokens, rfl, htokens⟩
  simp only [List.map_eq_cons_iff, List.map_eq_nil_iff, Prod.mk.injEq] at htokens
  obtain ⟨t₁, _, rfl, ⟨hkind₁, _⟩, t₂, _, rfl, ⟨hkind₂, hlowText⟩, t₃, _, rfl, ⟨hkind₃, hminusText⟩,
    t₄, _, rfl, ⟨hkind₄, hhighText⟩, t₅, _, rfl, ⟨hkind₅, _⟩, rfl⟩ := htokens
  exact gives_class hkind₁ hkind₂ hlowText hkind₃ hminusText hkind₄ hhighText hkind₅

theorem writes_group (h : Writes (.ref "alternation") s (Reduces "alternation" rule))
    : Writes (.ref "group") ('(' :: s ++ [')']) (Reduces "group" rule) := by
  have hopening : Writes (.atom "(") ['('] (Gives · []) :=
    .operator (c := '(') (by decide) (by decide) (by decide)
  have hclosing : Writes (.atom ")") [')'] (Gives · []) :=
    .operator (c := ')') (by decide) (by decide) (by decide)
  have hinner : Writes (.seq [.ref "alternation", .atom ")"]) (s ++ [')']) (Gives · [rule]) := by
    apply h.seqCons hclosing.last
    intro ns ms hns hms
    exact hns.2.append hms
  have hbody : Writes (.seq [.atom "(", .ref "alternation", .atom ")"]) ('(' :: s ++ [')'])
      (Gives · [rule]) := by
    apply hopening.seqCons hinner
    intro ns ms hns hms
    exact hns.append hms
  apply writes_node (by simp [productions]) hbody
  intro ns hgives
  exact gives_labelled_of_not_mem (by decide) hgives

theorem writes_negation (h : Writes (.ref "operand") s (Reduces "operand" rule))
    : Writes (.ref "negation") ('^' :: s) (Reduces "negation" (.atom (.not rule))) := by
  have hcaret : Writes (.atom "^") ['^'] (Gives · []) :=
    .operator (c := '^') (by decide) (by decide) (by decide)
  have hbody : Writes (.seq [.atom "^", .ref "operand"]) ('^' :: s) (Gives · [rule]) := by
    apply hcaret.seqCons h.last
    intro ns ms hns hms
    exact hns.append hms.2
  apply writes_node (by simp [productions]) hbody
  intro ns hgives
  exact gives_negation hgives

theorem writes_escape {c : Char} (hc : c ∈ operatorChars ∨ c = 'n' ∨ c = 't')
    (hrule : unescape (String.ofList ['\\', c]) = some rule)
    : Writes (.ref "operand") ['\\', c] (Reduces "operand" rule) := by
  refine writes_operand (by simp [operands]) ((Writes.token (.escape hc)).map fun _ h => h.mono ?_)
  rintro ns ⟨t, hkind, htext, rfl⟩
  have hvalue : t.value = String.ofList ['\\', c] := by
    rw [← htext, Token.chars, String.ofList_toList]
  exact gives_escape hkind (hvalue ▸ hrule)

theorem writes_char {kind : String} {c : Char} (hkind : kind = "any" ∨ kind = "-")
    (h : Lexeme kind [c])
    : Writes (.ref "operand") [c] (Reduces "operand" (char c)) := by
  have hchoice : .atom kind ∈ operands := by
    rcases hkind with rfl | rfl
    · simp [operands]
    · simp [operands]
  refine writes_operand hchoice ((Writes.token h).map fun _ h => h.mono ?_)
  rintro ns ⟨t, rfl, htext, rfl⟩
  exact gives_char hkind htext

end Steps

-- one lemma for each type of the specification, and in it one case for each of its rules
mutual

theorem alternation_writes {s : List Char} {rule : Rule Matcher}
    : Alternation s rule → Writes (.ref "alternation") s (Reduces "alternation" rule)
  | .of h => writes_node (by simp [productions]) (sequences_write h).1 fun _ => gives_alternation

theorem sequences_write {s : List Char} {rules : List (Rule Matcher)}
    : Sequences s rules → WritesSequences s rules
  | .last h => writesSequences_last (sequence_writes h)
  | .more first others => writesSequences_more (sequence_writes first) (sequences_write others)

theorem sequence_writes {s : List Char} {rule : Rule Matcher}
    : Sequence s rule → Writes (.ref "sequence") s (Reduces "sequence" rule)
  | .of h => writes_node (by simp [productions]) (items_write h).1 fun _ => gives_sequence

theorem items_write {s : List Char} {rules : List (Rule Matcher)}
    : Items s rules → WritesItems s rules
  | .last h => writesItems_last (item_writes h)
  | .more first others => writesItems_more (item_writes first) (items_write others)

theorem item_writes {s : List Char} {rule : Rule Matcher}
    : Item s rule → Writes (.ref "item") s (Reduces "item" rule)
  | .plain h => writes_item_plain (operand_writes h)
  | .star h => writes_item_suffixed (by decide) (by decide) (by decide) rfl (operand_writes h)
  | .plus h => writes_item_suffixed (by decide) (by decide) (by decide) rfl (operand_writes h)
  | .opt h => writes_item_suffixed (by decide) (by decide) (by decide) rfl (operand_writes h)
  | .untilEmpty h => writes_item_suffixed (by decide) (by decide) (by decide) rfl (operand_writes h)

theorem operand_writes {s : List Char} {rule : Rule Matcher}
    : Operand s rule → Writes (.ref "operand") s (Reduces "operand" rule)
  | .range hlow hhigh => writes_named (by simp [operands]) (writes_class hlow hhigh)
  | .group h => writes_named (by simp [operands]) (writes_group (alternation_writes h))
  | .negation h => writes_named (by simp [operands]) (writes_negation (operand_writes h))
  | .operator h => writes_escape (.inl h) (unescape_operator h (String.toList_ofList))
  | .newline => writes_escape (.inr (.inl rfl)) rfl
  | .tab => writes_escape (.inr (.inr rfl)) rfl
  | .char (.inl h) => writes_char (.inl rfl) (.any h)
  | .char (.inr h) => h ▸ writes_char (.inr rfl) (.operator (c := '-') (by decide) (by decide))

end

end Pattern

end GrammarKit
