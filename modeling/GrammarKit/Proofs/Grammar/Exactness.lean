import GrammarKit.Proofs.Grammar.Written

/-!
This module contains the exactness of the grammar reader: it reads every text of a grammar, since it
never takes a turn that would have to be taken back, and no other text.
-/

namespace GrammarKit

open Reader

namespace Layer

/-- What reads this layer. -/
def reader : Layer → List Char → Except Error (Rhs × List Char)
  | .alternation => rhs
  | .concatenation => row
  | .term => factor
  | .atom => operand rhs

/-- The characters at which a text of this layer ends, since they would not be read on. -/
def Ends : Layer → Char → Prop
  | .alternation, c => c ∈ [')', '}', ']', ';']
  | .concatenation, c => c ∈ [')', '}', ']', ';', '|']
  | .term, c => c ∈ [')', '}', ']', ';', '|', ',']
  | .atom, c => ¬ NamePart c ∧ c ≠ '+'

instance : (layer : Layer) → (c : Char) → Decidable (layer.Ends c)
  | .alternation, _ | .concatenation, _ | .term, _ => inferInstanceAs (Decidable (_ ∈ _))
  | .atom, _ => inferInstanceAs (Decidable (_ ∧ _))

theorem ends_atom_of_space {c : Char} (h : Space c) : Ends .atom c :=
  ⟨not_namePart_of_space h, by rintro rfl; revert h; decide⟩

theorem ends_atom_of_term {c : Char} (h : Ends .term c) : Ends .atom c ∧ isSpace c = false := by
  simp only [Ends, List.mem_cons, List.not_mem_nil, or_false] at h
  rcases h with rfl | rfl | rfl | rfl | rfl | rfl <;> exact ⟨⟨by decide, by decide⟩, rfl⟩

end Layer

namespace Rhs.Written

variable {layer : Layer} {text : List Char} {r : Rhs}

theorem skipSpace_atom (h : r.Written .atom text) (rest : List Char)
    : skipSpace (text ++ rest) = text ++ rest := by
  cases h with
  | group | repetition | repetition1 | optional => exact skipSpace_cons rfl _
  | terminal h => exact skipSpace_quoted h rest
  | identifier h => exact skipSpace_name h rest

/-- Nothing of the text is given up, and nothing behind it is taken. -/
theorem read_eq_ok (h : r.Written layer text) {c : Char} (hc : layer.Ends c) (rest : List Char)
    : layer.reader (text ++ c :: rest) = .ok (r, c :: rest) := by
  induction h generalizing c rest with
  | row _ ih =>
    have hread := ih (List.mem_append_left ['|'] hc) rest
    rw [Layer.reader, rhs_eq]
    refine chained_of_other hread ?_
    rintro ⟨⟩
    exact absurd hc (by decide)
  | alternation _ _ ihleft ihright =>
    rw [Layer.reader, rhs_eq, List.append_assoc]
    exact chained_of_operator (ihleft (by decide) _) (ihright hc rest)
  | factor _ ih =>
    have hread := ih (List.mem_append_left [','] hc) rest
    rw [Layer.reader, row_eq]
    refine chained_of_other hread ?_
    rintro ⟨⟩
    exact absurd hc (by decide)
  | concatenation _ _ ihleft ihright =>
    rw [Layer.reader, row_eq, List.append_assoc]
    exact chained_of_operator (ihleft (by decide) _) (ihright hc rest)
  | @spaced before text after r hbefore h hafter ih =>
    obtain ⟨hatom, hspace⟩ := Layer.ends_atom_of_term hc
    rw [Layer.reader, factor_eq, spaced_eq_ok, List.append_assoc, List.append_assoc,
      skipSpace_append hbefore, h.skipSpace_atom]
    refine ⟨after ++ c :: rest, ?_, ?_⟩
    · cases after with
      | nil => exact ih hatom rest
      | cons d after => exact ih (Layer.ends_atom_of_space (hafter d List.mem_cons_self)) _
    · rw [skipSpace_append hafter, skipSpace_cons hspace]
  | group _ ih =>
    rw [Layer.reader, operand_eq_ok, List.append_assoc]
    exact .group (ih (by decide) _)
  | repetition _ ih =>
    rw [Layer.reader, operand_eq_ok, List.append_assoc]
    refine .repetition (ih (by decide) _) ?_
    rintro ⟨⟩
    exact hc.2 rfl
  | repetition1 _ ih =>
    rw [Layer.reader, operand_eq_ok, List.append_assoc]
    exact .repetition1 (ih (by decide) _)
  | optional _ ih =>
    rw [Layer.reader, operand_eq_ok, List.append_assoc]
    exact .optional (ih (by decide) _)
  | terminal h => exact operand_eq_ok.mpr (.quoted (quotedText_eq_ok.mpr ⟨_, h, rfl⟩))
  | identifier h =>
    refine operand_eq_ok.mpr (.name (name_eq_ok.mpr ⟨h, rfl, ?_⟩))
    rintro _ ⟨⟩
    exact hc.1

end Rhs.Written

namespace Statement.Written

variable {a b : List Char}

theorem operator_stops (op : Operator) (rest : List Char)
    : ∀ c ∈ (op.word ++ rest).head?, ¬ NamePart c ∧ isSpace c = false := by
  intro c hc
  cases op with
  | silentToken | token | production =>
    cases hc
    decide

theorem heading_eq_ok {lhs : String} (ha : Blank a) (hname : IsName lhs) (hb : Blank b)
    (op : Operator) (rest : List Char)
    : name (skipSpace (a ++ (lhs.toList ++ (b ++ (op.word ++ rest))))) =
          .ok (lhs, b ++ (op.word ++ rest)) ∧
        operator (skipSpace (b ++ (op.word ++ rest))) = .ok (op, rest) := by
  have hstops := operator_stops op rest
  constructor
  · rw [skipSpace_append ha, skipSpace_name hname, name_eq_ok]
    refine ⟨hname, rfl, ?_⟩
    cases b with
    | nil => exact fun c hc => (hstops c hc).1
    | cons d b =>
      rintro _ ⟨⟩
      exact not_namePart_of_space (hb d List.mem_cons_self)
  · rw [skipSpace_append hb, operator_eq_ok]
    cases op with
    | silentToken | token | production => exact skipSpace_cons (hstops _ rfl).2 _

theorem read_eq_ok {s : Statement} {text : List Char} (h : s.Written text) (rest : List Char)
    : statement (text ++ rest) = .ok (s, rest) := by
  rw [statement_eq_ok]
  cases h with
  | @token a b c d word rule ha hb hc hd hname hpattern =>
    obtain ⟨lhs, pattern, silent⟩ := rule
    let behind := c ++ (word ++ (d ++ ';' :: rest))
    have hquoted : quotedText (skipSpace behind) = .ok (pattern, d ++ ';' :: rest) := by
      rw [skipSpace_append hc, skipSpace_quoted hpattern]
      exact quotedText_eq_ok.mpr ⟨word, hpattern, rfl⟩
    have hend : skipSpace (d ++ ';' :: rest) = ';' :: rest := by
      rw [skipSpace_append hd, skipSpace_cons rfl]
    obtain ⟨hlhs, hop⟩ :=
      heading_eq_ok ha hname hb (if silent then .silentToken else .token) behind
    refine ⟨lhs, _, behind, ?_, .inr ⟨pattern, silent, _, hop, hquoted, hend, rfl⟩⟩
    cases silent <;> simpa [behind, Operator.word] using hlhs
  | @production a b body rule ha hb hname hbody =>
    obtain ⟨hlhs, hop⟩ := heading_eq_ok ha hname hb .production (body ++ ';' :: rest)
    have hrhs := hbody.read_eq_ok (by decide : Layer.Ends .alternation ';') rest
    refine ⟨rule.name, _, body ++ ';' :: rest, ?_, .inl ⟨rule.rhs, hop, hrhs, rfl⟩⟩
    simpa [Operator.word] using hlhs

end Statement.Written

namespace Grammar

theorem Written.listing_eq {text : List Char} {g : Grammar} (h : g.Written text)
    : ∃ rest, listing text = (g.statements, rest) ∧ skipSpace rest = [] := by
  induction h with
  | @blank text h =>
    have hblank := skipSpace_of_blank h
    obtain ⟨e, he⟩ := statement_of_blank hblank
    exact ⟨text, listing_of_error he, hblank⟩
  | statement hfirst _ ih =>
    obtain ⟨rest, hrest, hblank⟩ := ih
    refine ⟨rest, ?_, hblank⟩
    rw [listing_of_ok (hfirst.read_eq_ok _), hrest]

theorem read_eq_ok_iff {text : String} {g : Grammar}
    : Grammar.read text = .ok g ↔
        ∃ rest, listing text.toList = (g.statements, rest) ∧ skipSpace rest = [] := by
  obtain ⟨statements⟩ := g
  rw [Grammar.read, ← listing]
  obtain ⟨read, rest⟩ := listing text.toList
  dsimp only
  split
  · next hrest =>
    simp only [Except.ok.injEq, Grammar.mk.injEq, Prod.mk.injEq]
    constructor
    · rintro rfl
      exact ⟨rest, ⟨rfl, rfl⟩, hrest⟩
    · rintro ⟨_, ⟨h, _⟩, _⟩
      exact h
  · next hrest => simpa using fun _ => hrest

/--
A text is read as a grammar exactly if the grammar can be written that way, and no two grammars can
be written the same way.
-/
theorem read_exact
    : (∀ (text : String) (g : Grammar), Grammar.read text = .ok g ↔ g.Written text.toList) ∧
        ∀ (text : List Char) (g g' : Grammar), g.Written text → g'.Written text → g = g' := by
  have hexact (text : String) (g : Grammar) : Grammar.read text = .ok g ↔ g.Written text.toList := by
    rw [read_eq_ok_iff]
    constructor
    · rintro ⟨rest, hread, hblank⟩
      exact written_of_statements hread hblank
    · exact Written.listing_eq
  refine ⟨hexact, fun text g g' h h' => ?_⟩
  rw [← String.toList_ofList (l := text), ← hexact] at h h'
  rw [h] at h'
  exact Except.ok.inj h'

theorem read_exact_compact
    : let g : Grammar := ⟨[.token ⟨"a", "b c", true⟩,
        .production ⟨"d", .alternation (.repetition1 (.optional (.identifier "a"))) (.terminal "'")⟩]⟩
      g.Written "a~='b c';\nd->\x7b[a]\x7d+ |(\"'\");".toList ∧
        ∀ g' : Grammar, g'.Written "a~='b c';\nd->\x7b[a]\x7d+ |(\"'\");".toList → g' = g := by
  intro g
  have hwritten : g.Written "a~='b c';\nd->\x7b[a]\x7d+ |(\"'\");".toList :=
    (read_exact.1 _ _).mp (by decide +kernel)
  exact ⟨hwritten, fun g' h => read_exact.2 _ _ _ h hwritten⟩

end Grammar

end GrammarKit
