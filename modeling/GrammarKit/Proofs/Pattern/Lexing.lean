import GrammarKit.Proofs.Lexer.Exactness
import GrammarKit.Proofs.Lexer.Ambiguity
import GrammarKit.Proofs.Parser.Shape
import GrammarKit.Proofs.Pattern.Grammar
import GrammarKit.Proofs.Regex.Classes

/-!
This module contains the tokens of patterns. The first character alone tells which rule of the lexer
matches, and what.
-/

namespace GrammarKit

open Recognizer Token

namespace Pattern

/-- The tokens that patterns consist of. -/
inductive Lexeme : String → List Char → Prop where
  | operator {c : Char} (h : c ∈ operatorChars) (hne : c ≠ '\\') : Lexeme (String.singleton c) [c]
  | escape {c : Char} (h : c ∈ operatorChars ∨ c = 'n' ∨ c = 't') : Lexeme "escape" ['\\', c]
  | any {c : Char} (h : c ∉ operatorChars) : Lexeme "any" [c]

def kindOf (c : Char) : String :=
  if c = '\\' then "escape" else if c ∈ operatorChars then String.singleton c else "any"

theorem Lexeme.kind_eq {kind : String} {text : List Char} (h : Lexeme kind text)
    : ∃ c rest, text = c :: rest ∧ kind = kindOf c := by
  cases h with
  | @operator c hmem hne => exact ⟨c, [], rfl, by rw [kindOf, if_neg hne, if_pos hmem]⟩
  | @escape c _ => exact ⟨'\\', [c], rfl, by rw [kindOf, if_pos rfl]⟩
  | @any c hmem =>
    have hne : c ≠ '\\' := by
      rintro rfl
      exact hmem (by decide)
    exact ⟨c, [], rfl, by rw [kindOf, if_neg hne, if_neg hmem]⟩

theorem Lexeme.ne_nil {kind : String} {text : List Char} (h : Lexeme kind text) : text ≠ [] := by
  obtain ⟨c, rest, rfl, _⟩ := h.kind_eq
  exact List.cons_ne_nil c rest

theorem Lexeme.unique {kind kind' : String} {text text' rest : List Char} (h : Lexeme kind text)
    (h' : Lexeme kind' text') (hpre : text <+: rest) (hpre' : text' <+: rest)
    : kind' = kind := by
  obtain ⟨c, behind, rfl, rfl⟩ := h.kind_eq
  obtain ⟨c', behind', rfl, rfl⟩ := h'.kind_eq
  obtain ⟨_, rfl⟩ := hpre
  obtain ⟨_, heq⟩ := hpre'
  rw [(List.cons.inj heq).1]

section Regexes

variable {r : Regex}

theorem takesOne_char (c : Char) : r.TakesOne (char c) (· == c) :=
  Regex.takesOne_literal (String.toList_singleton c)

theorem operatorChars_nodup : operatorChars.Nodup := by decide

theorem reserved_eq : reserved = .alt ((Regex.singles operatorChars).map Prod.fst) := rfl

theorem takesOne_reserved : r.TakesOne reserved operatorChars.contains :=
  Regex.takesOne_oneOf operatorChars_nodup

theorem takesOne_any : r.TakesOne any fun c => !operatorChars.contains c :=
  Regex.takesOne_not takesOne_reserved

/-- What may stand behind a backslash. -/
def escapees : List (Rule Matcher × (Char → Bool)) :=
  [(reserved, operatorChars.contains), (char 'n', (· == 'n')), (char 't', (· == 't'))]

theorem takesOne_escapees : ∀ entry ∈ escapees, r.TakesOne entry.1 entry.2 := by
  intro entry hentry
  simp only [escapees, List.mem_cons, List.not_mem_nil, or_false] at hentry
  rcases hentry with rfl | rfl | rfl
  · exact takesOne_reserved
  · exact takesOne_char 'n'
  · exact takesOne_char 't'

theorem escapees_disjoint
    : escapees.Pairwise fun a b => ∀ c, a.2 c = true → b.2 c = false := by
  simp only [escapees, List.pairwise_cons, List.mem_cons, List.not_mem_nil, or_false, forall_eq_or_imp,
    forall_eq, List.contains_iff_mem, beq_iff_eq, IsEmpty.forall_iff, implies_true, and_true,
    List.Pairwise.nil]
  refine ⟨⟨?_, ?_⟩, ?_⟩
  · rintro c hmem
    exact beq_false_of_ne fun heq => absurd (heq ▸ hmem) (by decide)
  · rintro c hmem
    exact beq_false_of_ne fun heq => absurd (heq ▸ hmem) (by decide)
  · decide

theorem takesOne_escaped
    : r.TakesOne (.alt (escapees.map Prod.fst)) fun c =>
        operatorChars.contains c || (c == 'n' || c == 't') :=
  (Regex.takesOne_alt takesOne_escapees escapees_disjoint).congr fun c => by simp [escapees]

theorem escape_eq : escape = .seq [char '\\', .alt (escapees.map Prod.fst)] := rfl

theorem eval_escape_yields {rest value : List Char}
    : (r.eval escape ⟨rest⟩).Yields value ↔
        ∃ c, (c ∈ operatorChars ∨ c = 'n' ∨ c = 't') ∧ value = ['\\', c] ∧ value <+: rest := by
  rw [escape_eq, Regex.eval_seq_cons_yields]
  constructor
  · rintro ⟨first, behind, others, rfl, hfirst, hothers, rfl⟩
    obtain ⟨d, _, _, hd, rfl⟩ := (takesOne_char '\\').yields_iff.mp hfirst
    obtain ⟨second, behind, others, rfl, hsecond, hnil, rfl⟩ :=
      Regex.eval_seq_cons_yields.mp hothers
    obtain ⟨c, _, _, hc, rfl⟩ := takesOne_escaped.yields_iff.mp hsecond
    rw [Regex.eval_seq_nil_yields.mp hnil, beq_iff_eq.mp hd]
    exact ⟨c, by simpa using hc, rfl, ⟨behind, rfl⟩⟩
  · rintro ⟨c, hc, rfl, behind, rfl⟩
    refine ⟨['\\'], c :: behind, [c], rfl, ?_, ?_, rfl⟩
    · exact (takesOne_char '\\').takes '\\' (c :: behind) rfl
    · rw [Regex.eval_seq_cons_yields]
      refine ⟨[c], behind, [], rfl, ?_, Regex.eval_seq_nil_yields.mpr rfl, rfl⟩
      exact takesOne_escaped.takes c behind (by simpa using hc)

theorem eval_escape_settles (pos : Position) : (r.eval escape pos).Settles :=
  Regex.eval_seq_cons_settles (takesOne_char '\\').settles
    (Regex.eval_seq_cons_settles takesOne_escaped.settles
      fun _ => Regex.eval_seq_nil_settles) pos

theorem decisive_char (c : Char) : r.Decisive (char c) := Regex.decisive_literal _

theorem decisive_reserved : r.Decisive reserved := by
  rw [reserved_eq]
  apply Regex.decisive_alt (Regex.takesOne_singles _) (Regex.singles_disjoint operatorChars_nodup)
  intro entry hentry
  obtain ⟨c, _, rfl⟩ := List.mem_map.mp hentry
  exact decisive_char c

theorem decisive_escape : r.Decisive escape := by
  rw [escape_eq]
  refine Regex.decisive_seq (List.forall_mem_cons.mpr ⟨decisive_char _, ?_⟩)
  rw [List.forall_mem_singleton]
  apply Regex.decisive_alt takesOne_escapees escapees_disjoint
  intro entry hentry
  simp only [escapees, List.mem_cons, List.not_mem_nil, or_false] at hentry
  rcases hentry with rfl | rfl | rfl
  · exact decisive_reserved
  · exact decisive_char 'n'
  · exact decisive_char 't'

theorem decisive_any : r.Decisive any := Regex.decisive_not decisive_reserved

end Regexes

def lexerEntries : List (String × TokenRule) :=
  (operatorChars.dropLast.map fun c => (String.singleton c, ⟨⟨char c⟩, false⟩)) ++
    [("escape", ⟨⟨escape⟩, false⟩), ("any", ⟨⟨any⟩, false⟩)]

theorem get?_lexer {name : String} {rule : TokenRule}
    : lexer.rules.get? name = some rule ↔ (name, rule) ∈ lexerEntries := by
  have hnodup : (lexerEntries.map Prod.fst).Nodup := by decide
  exact Table.get?_ofList hnodup

theorem regex?_lexer {name : String} {r : Regex}
    : lexer.regex? name = some r ↔
        (∃ c ∈ operatorChars, c ≠ '\\' ∧ name = String.singleton c ∧ r = ⟨char c⟩) ∨
          (name = "escape" ∧ r = ⟨escape⟩) ∨ (name = "any" ∧ r = ⟨any⟩) := by
  -- the last of the operators is the backslash, which has no rule of its own
  have hmem : ∀ c, c ∈ operatorChars.dropLast ↔ c ∈ operatorChars ∧ c ≠ '\\' := by
    intro c
    by_cases h : c = '\\'
    · subst h
      decide
    · simp [operatorChars, h]
  simp only [Lexer.regex?, Option.map_eq_some_iff, get?_lexer, lexerEntries, List.mem_append,
    List.mem_map, List.mem_cons, List.not_mem_nil, hmem]
  constructor
  · rintro ⟨rule, ⟨c, hc, heq⟩ | heq | heq | heq, rfl⟩
    · cases heq
      exact .inl ⟨c, hc.1, hc.2, rfl, rfl⟩
    · cases heq
      exact .inr (.inl ⟨rfl, rfl⟩)
    · cases heq
      exact .inr (.inr ⟨rfl, rfl⟩)
    · cases heq
  · rintro (⟨c, hc, hne, rfl, rfl⟩ | ⟨rfl, rfl⟩ | ⟨rfl, rfl⟩)
    · exact ⟨⟨⟨char c⟩, false⟩, .inl ⟨c, ⟨hc, hne⟩, rfl⟩, rfl⟩
    · exact ⟨⟨⟨escape⟩, false⟩, .inr (.inl rfl), rfl⟩
    · exact ⟨⟨⟨any⟩, false⟩, .inr (.inr (.inl rfl)), rfl⟩

theorem mem_visible {name : String} (h : ∃ r, lexer.regex? name = some r)
    : name ∈ lexer.visible := by
  obtain ⟨r, hr⟩ := h
  obtain ⟨rule, hrule, rfl⟩ := Option.map_eq_some_iff.mp hr
  rw [Lexer.mem_visible_iff hrule]
  rw [get?_lexer, lexerEntries, List.mem_append, List.mem_map] at hrule
  rcases hrule with ⟨c, _, heq⟩ | hrule
  · cases heq
    rfl
  · simp only [List.mem_cons, List.not_mem_nil, or_false, Prod.mk.injEq] at hrule
    rcases hrule with ⟨_, rfl⟩ | ⟨_, rfl⟩
    · rfl
    · rfl

theorem terminatesOn (text : List Char) : lexer.TerminatesOn text := by
  intro suffix _ name r hr
  rw [Regex.terminates_iff]
  rcases regex?_lexer.mp hr with ⟨c, _, _, _, rfl⟩ | ⟨_, rfl⟩ | ⟨_, rfl⟩
  · exact (takesOne_char c).settles _
  · apply eval_escape_settles
  · apply takesOne_any.settles

theorem matches_iff {rest value : List Char} {name : String}
    : lexer.Matches rest name value ↔ Lexeme name value ∧ value <+: rest := by
  simp only [Lexer.Matches, Regex.matchAt_run_eq_some, regex?_lexer]
  constructor
  · rintro ⟨r, hr, _, hpre, hyields⟩
    refine ⟨?_, hpre⟩
    rcases hr with ⟨c, hc, hne, rfl, rfl⟩ | ⟨rfl, rfl⟩ | ⟨rfl, rfl⟩
    · obtain ⟨d, _, _, hd, rfl⟩ := (takesOne_char c).yields_iff.mp hyields
      rw [beq_iff_eq.mp hd]
      exact .operator hc hne
    · obtain ⟨c, hc, rfl, _⟩ := eval_escape_yields.mp hyields
      exact .escape hc
    · obtain ⟨c, _, _, hc, rfl⟩ := takesOne_any.yields_iff.mp hyields
      exact .any (by simpa using hc)
  · rintro ⟨h, hpre⟩
    have hne := h.ne_nil
    obtain ⟨behind, rfl⟩ := id hpre
    cases h with
    | @operator c hc hne' =>
      exact ⟨⟨char c⟩, .inl ⟨c, hc, hne', rfl, rfl⟩, hne, hpre,
        (takesOne_char c).takes c behind (by simp)⟩
    | @escape c hc =>
      exact ⟨⟨escape⟩, .inr (.inl ⟨rfl, rfl⟩), hne, hpre,
        eval_escape_yields.mpr ⟨c, hc, rfl, hpre⟩⟩
    | @any c hc =>
      exact ⟨⟨any⟩, .inr (.inr ⟨rfl, rfl⟩), hne, hpre,
        takesOne_any.takes c behind (by simpa using hc)⟩

theorem onlyMatch_iff {rest value : List Char} {name : String}
    : lexer.OnlyMatch rest name value ↔ Lexeme name value ∧ value <+: rest := by
  rw [Lexer.OnlyMatch, matches_iff]
  refine and_iff_left_of_imp fun ⟨hlexeme, hpre⟩ other value' hother => ?_
  obtain ⟨hlexeme', hpre'⟩ := matches_iff.mp hother
  exact hlexeme.unique hlexeme' hpre hpre'

theorem starts_iff {loc : Location} {text rest : List Char} {t : Token}
    : lexer.Starts loc text t rest ↔
        t.chars ++ rest = text ∧ Lexeme t.kind t.chars ∧ t.visible = true ∧ t.location = loc := by
  constructor
  · intro h
    obtain ⟨r, hr, _⟩ := h.only.1
    exact ⟨h.covers, (onlyMatch_iff.mp h.only).1, h.visible.mpr (mem_visible ⟨r, hr⟩), h.located⟩
  · rintro ⟨rfl, hlexeme, hvisible, hlocated⟩
    have honly := onlyMatch_iff.mpr ⟨hlexeme, ⟨rest, rfl⟩⟩
    obtain ⟨r, hr, _⟩ := honly.1
    exact ⟨rfl, honly, iff_of_true hvisible (mem_visible ⟨r, hr⟩), hlocated⟩

theorem spelled_of_reads {loc : Location} {text : List Char} {tokens : List Token}
    (h : lexer.Reads loc text tokens [])
    : textOf tokens = text ∧ ∀ t ∈ tokens, t.visible = true ∧ Lexeme t.kind t.chars := by
  refine ⟨by simpa using h.covers, fun t ht => ?_⟩
  obtain ⟨before, after, heq⟩ := List.append_of_mem ht
  have honly := h.only before t after heq
  obtain ⟨r, hr, _⟩ := honly.1
  exact ⟨(h.visible t ht).mpr (mem_visible ⟨r, hr⟩), (onlyMatch_iff.mp honly).1⟩

theorem exists_reads {words : List (String × String)}
    (h : ∀ word ∈ words, Lexeme word.1 word.2.toList) (loc : Location)
    : ∃ tokens, lexer.Reads loc (words.flatMap fun word => word.2.toList) tokens [] ∧
        tokens.map Token.spelling = words := by
  induction words generalizing loc with
  | nil => exact ⟨[], Lexer.reads_nil.mpr rfl, rfl⟩
  | cons word words ih =>
    rw [List.forall_mem_cons] at h
    obtain ⟨tokens, hreads, rfl⟩ := ih h.2 (loc.advance word.2.toList)
    refine ⟨⟨word.1, word.2, loc, true⟩ :: tokens, ?_, rfl⟩
    exact Lexer.reads_cons.mpr ⟨_, starts_iff.mpr ⟨rfl, h.1, rfl, rfl⟩, hreads⟩

theorem lex_eq_ok {p : String} {tokens : List Token}
    : (lexer.lex p).run = some (.ok tokens) ↔
        lexer.Reads Location.start p.toList tokens [] := by
  have hfilter : ∀ tokens, lexer.Reads Location.start p.toList tokens [] →
      tokens.filter Token.visible = tokens := by
    intro tokens h
    exact List.filter_eq_self.mpr fun t ht => ((spelled_of_reads h).2 t ht).1
  rw [Lexer.lex_eq_ok_iff]
  constructor
  · rintro ⟨tokens, hall, rfl⟩
    have h := (Lexer.lexAll_eq_ok (terminatesOn _)).mp hall
    rw [hfilter tokens h]
    exact h
  · intro h
    exact ⟨tokens, (Lexer.lexAll_eq_ok (terminatesOn _)).mpr h, hfilter tokens h⟩

theorem lex_settles (p : String) : (lexer.lex p).run ≠ none :=
  Lexer.lex_settles_of_terminates (terminatesOn _)

theorem regex_unambiguous {name : String} {r : Regex} (h : lexer.regex? name = some r)
    : r.recognizer.Unambiguous := by
  apply Regex.Decisive.unambiguous
  rcases regex?_lexer.mp h with ⟨c, _, _, _, rfl⟩ | ⟨_, rfl⟩ | ⟨_, rfl⟩
  · exact decisive_char c
  · exact decisive_escape
  · exact decisive_any

theorem lexer_unambiguous : lexer.recognizer.Unambiguous := by
  apply Lexer.unambiguous_of_matches
  intro rest name name' value value' h h'
  obtain ⟨hlexeme, hpre⟩ := matches_iff.mp h
  obtain ⟨hlexeme', hpre'⟩ := matches_iff.mp h'
  exact hlexeme'.unique hlexeme hpre' hpre

end Pattern

end GrammarKit
