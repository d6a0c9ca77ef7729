import GrammarKit.Proofs.Grammar.Reading

/-!
This module contains the correspondence between grammars and their texts: the well formed ones are
those that are read, and each of them is read back from its own text.
-/

namespace GrammarKit

open Reader

namespace Reader

theorem toList_render_production (lhs : String) (body : Rhs)
    : (Statement.production ⟨lhs, body⟩).render.toList =
        lhs.toList ++ ' ' :: '-' :: '>' :: ' ' :: (body.render.toList ++ [' ', ';']) := by
  simp [Statement.render]

theorem toList_render_token (lhs pattern : String) (silent : Bool)
    : (Statement.token ⟨lhs, pattern, silent⟩).render.toList =
        lhs.toList ++ ' ' :: ((if silent then ['~', '='] else ['=']) ++
          ' ' :: ((Rhs.quote pattern).toList ++ [' ', ';'])) := by
  cases silent <;> simp [Statement.render]

theorem statement_of_skipSpace {s : Statement} (h : s.WellFormed) {text rest : List Char}
    (htext : skipSpace text = s.render.toList ++ rest)
    : statement text = .ok (s, rest) := by
  cases s with
  | token rule =>
    obtain ⟨lhs, pattern, silent⟩ := rule
    obtain ⟨hlhs, hpattern⟩ := h
    let behind := ' ' :: ((Rhs.quote pattern).toList ++ ' ' :: ';' :: rest)
    let op := if silent then ['~', '='] else ['=']
    have hname : name (skipSpace text) = .ok (lhs, ' ' :: (op ++ behind)) := by
      rw [htext, toList_render_token, ← name_append hlhs (apart_space (op ++ behind))]
      simp [behind, op]
    have hop : operator (skipSpace (' ' :: (op ++ behind))) =
        .ok (if silent then .silentToken else .token, behind) := by
      cases silent <;> rfl
    have hquoted : quotedText (skipSpace behind) = .ok (pattern, ' ' :: ';' :: rest) := by
      have hterminal : Rhs.WellFormed (.terminal pattern) := hpattern
      have hbehind : skipSpace behind = (Rhs.quote pattern).toList ++ ' ' :: ';' :: rest :=
        Rhs.solid_render hterminal _
      rw [hbehind]
      exact quotedText_quote hpattern _
    refine statement_eq_ok.mpr ⟨lhs, _, behind, hname, .inr ?_⟩
    exact ⟨pattern, silent, _, hop, hquoted, rfl, rfl⟩
  | production rule =>
    obtain ⟨lhs, body⟩ := rule
    obtain ⟨hlhs, hbody⟩ := h
    let behind := ' ' :: (body.render.toList ++ ' ' :: ';' :: rest)
    have hname : name (skipSpace text) = .ok (lhs, ' ' :: '-' :: '>' :: behind) := by
      rw [htext, toList_render_production, ← name_append hlhs (apart_space ('-' :: '>' :: behind))]
      simp [behind]
    have hrhs : rhs behind = .ok (body, ';' :: rest) := by
      have hbehind : skipSpace behind = body.render.toList ++ ' ' :: ';' :: rest :=
        Rhs.solid_render hbody _
      have hstops : ∀ c ∈ (skipSpace (' ' :: ';' :: rest)).head?, c ∉ ['|', ','] := by
        simp [skipSpace, isSpace]
      exact (Rhs.readBack hbody).alone behind _ hbehind (apart_space _) hstops
    exact statement_eq_ok.mpr ⟨lhs, _, behind, hname, .inl ⟨body, rfl, hrhs, rfl⟩⟩

theorem solid_statement {s : Statement} (h : s.WellFormed) : Solid s.render.toList := by
  have hname : ∀ {lhs : String}, IsName lhs → Solid lhs.toList :=
    fun hlhs => Rhs.solid_render (r := .identifier _) hlhs
  cases s with
  | token rule =>
    obtain ⟨lhs, pattern, silent⟩ := rule
    rw [toList_render_token]
    exact (hname h.1).append _
  | production rule =>
    obtain ⟨lhs, body⟩ := rule
    rw [toList_render_production]
    exact (hname h.1).append _

def printed (ss : List Statement) : List Char :=
  ss.flatMap fun s => s.render.toList ++ ['\n']

theorem listing_of_printed {ss : List Statement} (h : ∀ s ∈ ss, s.WellFormed) {text : List Char}
    (htext : skipSpace text = skipSpace (printed ss))
    : ∃ rest, listing text = (ss, rest) ∧ skipSpace rest = [] := by
  induction ss generalizing text with
  | nil =>
    obtain ⟨e, he⟩ := statement_of_blank htext
    exact ⟨text, listing_of_error he, htext⟩
  | cons s ss ih =>
    have hs : s.WellFormed := h s List.mem_cons_self
    have hstatement : statement text = .ok (s, '\n' :: printed ss) := by
      apply statement_of_skipSpace hs
      rw [htext, printed, List.flatMap_cons, List.append_assoc]
      exact solid_statement hs _
    have htail : skipSpace ('\n' :: printed ss) = skipSpace (printed ss) := rfl
    obtain ⟨rest, hrest, hblank⟩ := ih (fun s hs => h s (List.mem_cons_of_mem _ hs)) htail
    refine ⟨rest, ?_, hblank⟩
    rw [listing_of_ok hstatement, hrest]

end Reader

theorem Grammar.toList_render (g : Grammar) : g.render.toList = printed g.statements := by
  rw [render, String.toList_join, List.flatMap_map]
  simp [printed]

theorem Rhs.rhs_render {r : Rhs} (h : r.WellFormed) : rhs r.render.toList = .ok (r, []) := by
  have htext := solid_render h []
  have hread := (readBack h).alone r.render.toList [] (by simpa using htext) apart_nil
  exact hread (by simp [skipSpace])

theorem Statement.statement_render {s : Statement} (h : s.WellFormed)
    : statement s.render.toList = .ok (s, []) := by
  have htext := solid_statement h []
  exact statement_of_skipSpace h (by simpa using htext)

theorem Grammar.read_render {g : Grammar} (h : g.WellFormed) : Grammar.read g.render = .ok g := by
  obtain ⟨rest, hrest, hblank⟩ := listing_of_printed h rfl
  rw [Grammar.read, toList_render, ← listing, hrest]
  simp only [hblank]

/-- Exactly the well formed values have a text: their own is read as them. -/
structure Lossless {α : Type} (read : String → Except Error α) (render : α → String)
    (WellFormed : α → Prop) : Prop where
  read_render_iff : ∀ a, read (render a) = .ok a ↔ WellFormed a
  wellFormed_of_read : ∀ text a, read text = .ok a → WellFormed a
  read_again : ∀ text a, read text = .ok a → read (render a) = .ok a

theorem Lossless.of_render {α : Type} {read : String → Except Error α} {render : α → String}
    {WellFormed : α → Prop} (hrender : ∀ a, WellFormed a → read (render a) = .ok a)
    (hread : ∀ text a, read text = .ok a → WellFormed a)
    : Lossless read render WellFormed :=
  ⟨fun a => ⟨hread (render a) a, hrender a⟩, hread, fun text a h => hrender a (hread text a h)⟩

/--
Grammars, statements and right-hand sides are read from a text exactly if they are well formed, and
the whole of their own text is theirs.
-/
theorem grammar_text_lossless
    : Lossless Grammar.read Grammar.render Grammar.WellFormed ∧
        Lossless Statement.read Statement.render Statement.WellFormed ∧
        Lossless Rhs.read Rhs.render Rhs.WellFormed ∧
        (∀ s : Statement, s.WellFormed → statement s.render.toList = .ok (s, [])) ∧
        ∀ r : Rhs, r.WellFormed → rhs r.render.toList = .ok (r, []) := by
  refine ⟨.of_render (fun _ => Grammar.read_render) fun _ _ => Grammar.wellFormed_of_read,
    .of_render (fun s h => ?_) fun _ _ => Statement.wellFormed_of_read,
    .of_render (fun r h => ?_) fun _ _ => Rhs.wellFormed_of_read,
    fun _ => Statement.statement_render, fun _ => Rhs.rhs_render⟩
  · exact map_fst_eq_ok.mpr ⟨[], Statement.statement_render h⟩
  · exact map_fst_eq_ok.mpr ⟨[], Rhs.rhs_render h⟩

theorem grammar_text_lossless_nested
    : let r : Rhs := .concatenation (.alternation (.identifier "a") (.terminal "\""))
        (.repetition1 (.identifier "_b1"))
      r.WellFormed ∧ r.render = "( a | '\"' ) , \x7b _b1 \x7d+" ∧
        rhs r.render.toList = .ok (r, []) := by
  intro r
  have hwell : r.WellFormed := by decide
  exact ⟨hwell, by decide, grammar_text_lossless.2.2.2.2 r hwell⟩

end GrammarKit
