import GrammarKit.Lexer
import Mathlib.Logic.ExistsUnique

/-!
This module contains `Lexer.Reads`, the division of a text into tokens that a lexer stands for: at
every token exactly one of its rules matches.
-/

namespace GrammarKit

namespace Location

theorem le_advance (loc : Location) (text : List Char) : loc ≤ loc.advance text := by
  induction text generalizing loc with
  | nil => exact le_refl loc
  | cons c text ih =>
    have hnext := lt_next loc c
    have hrest := ih (loc.next c)
    simp only [le_def, lt_def, advance_cons] at *
    omega

theorem lt_advance (loc : Location) {text : List Char} (h : text ≠ []) : loc < loc.advance text := by
  obtain ⟨c, rest, rfl⟩ := List.exists_cons_of_ne_nil h
  have hnext := lt_next loc c
  have hrest := le_advance (loc.next c) rest
  simp only [le_def, lt_def, advance_cons] at *
  omega

end Location

namespace Token

def chars (t : Token) : List Char := t.value.toList

def textOf (tokens : List Token) : List Char := tokens.flatMap chars

@[simp]
theorem textOf_nil : textOf [] = [] := rfl

@[simp]
theorem textOf_cons (t : Token) (tokens : List Token)
    : textOf (t :: tokens) = t.chars ++ textOf tokens := rfl

@[simp]
theorem textOf_append (tokens others : List Token)
    : textOf (tokens ++ others) = textOf tokens ++ textOf others := by
  simp [textOf]

end Token

namespace Lexer

open Token

variable (lexer : Lexer)

/-- The rule of that name matches `text`, which is not empty, at the start of `rest`. -/
def Matches (rest : List Char) (name : String) (text : List Char) : Prop :=
  ∃ r, lexer.regex? name = some r ∧ text ≠ [] ∧ text <+: rest ∧
    (r.matchAt ⟨rest⟩).run = some (.ok text)

/-- As `Matches`, and no other rule matches there. -/
def OnlyMatch (rest : List Char) (name : String) (text : List Char) : Prop :=
  lexer.Matches rest name text ∧ ∀ other text', lexer.Matches rest other text' → other = name

/-- The token is the only match at the start of `text`, and `rest` is what it leaves. -/
structure Starts (start : Location) (text : List Char) (t : Token) (rest : List Char) : Prop where
  covers : t.chars ++ rest = text
  only : lexer.OnlyMatch text t.kind t.chars
  visible : t.visible = true ↔ t.kind ∈ lexer.visible
  located : t.location = start

/--
The tokens divide `text`, which begins at `start`, up to `rest`. Each one is the only match where it
stands.
-/
structure Reads (start : Location) (text : List Char) (tokens : List Token) (rest : List Char) :
    Prop where
  covers : textOf tokens ++ rest = text
  only : ∀ before t after, tokens = before ++ t :: after →
    lexer.OnlyMatch (t.chars ++ (textOf after ++ rest)) t.kind t.chars
  visible : ∀ t ∈ tokens, t.visible = true ↔ t.kind ∈ lexer.visible
  located : ∀ before t after, tokens = before ++ t :: after →
    t.location = start.advance (textOf before)

/-- The text can be read up to `left`, and not exactly one rule matches there. -/
structure Stuck (loc : Location) (text : List Char) (tokens : List Token)
    (left : List Char) : Prop where
  reads : lexer.Reads loc text tokens left
  ne_nil : left ≠ []
  stuck : ¬ ∃! name, ∃ value, lexer.Matches left name value

variable {lexer}

theorem OnlyMatch.starts {text value : List Char} {name : String}
    (h : lexer.OnlyMatch text name value) (loc : Location) {visible : Bool}
    (hvisible : visible = true ↔ name ∈ lexer.visible)
    : ∃ rest, lexer.Starts loc text ⟨name, String.ofList value, loc, visible⟩ rest := by
  obtain ⟨_, _, _, ⟨rest, hrest⟩, _⟩ := id h.1
  exact ⟨rest, by simpa [chars] using hrest, by simpa [chars] using h, hvisible, rfl⟩

theorem exists_starts (loc : Location) {text : List Char}
    (h : ∃! name, ∃ value, lexer.Matches text name value)
    : ∃ t rest, lexer.Starts loc text t rest := by
  obtain ⟨name, ⟨value, hmatch⟩, hunique⟩ := h
  have honly : lexer.OnlyMatch text name value :=
    ⟨hmatch, fun other value' hother => hunique other ⟨value', hother⟩⟩
  exact ⟨_, honly.starts loc decide_eq_true_iff⟩

theorem Starts.existsUnique {loc : Location} {text rest : List Char} {t : Token}
    (h : lexer.Starts loc text t rest)
    : ∃! name, ∃ value, lexer.Matches text name value :=
  ⟨t.kind, ⟨t.chars, h.only.1⟩, fun other ⟨value, hother⟩ => h.only.2 other value hother⟩

theorem Starts.unique {loc : Location} {text rest rest' : List Char} {t t' : Token}
    (h : lexer.Starts loc text t rest) (h' : lexer.Starts loc text t' rest')
    : t = t' ∧ rest = rest' := by
  obtain ⟨⟨r, hr, _, _, hmatch⟩, honly⟩ := h.only
  obtain ⟨⟨r', hr', _, _, hmatch'⟩, _⟩ := id h'.only
  have hkind : t'.kind = t.kind := honly _ _ h'.only.1
  rw [hkind, hr] at hr'
  cases hr'
  have hchars : t.chars = t'.chars := by
    rw [hmatch] at hmatch'
    simpa using hmatch'
  have hvisible : t.visible = t'.visible := by
    rw [Bool.eq_iff_iff, h.visible, h'.visible, hkind]
  have hrest : rest = rest' := by
    have hcovers := h.covers.trans h'.covers.symm
    rw [hchars] at hcovers
    exact List.append_cancel_left hcovers
  refine ⟨?_, hrest⟩
  obtain ⟨kind, value, location, visible⟩ := t
  obtain ⟨kind', value', location', visible'⟩ := t'
  simp only [Token.mk.injEq]
  exact ⟨hkind.symm, String.toList_inj.mp hchars, h.located.trans h'.located.symm, hvisible⟩

theorem reads_nil {start : Location} {text rest : List Char}
    : lexer.Reads start text [] rest ↔ rest = text := by
  constructor
  · intro h
    exact h.covers
  · rintro rfl
    exact ⟨rfl, by simp, by simp, by simp⟩

section Cons

variable {start : Location} {text rest : List Char} {t : Token} {tokens : List Token}

theorem Reads.starts (h : lexer.Reads start text (t :: tokens) rest)
    : lexer.Starts start text t (textOf tokens ++ rest) := by
  have hcovers := h.covers
  rw [textOf_cons, List.append_assoc] at hcovers
  refine ⟨hcovers, ?_, h.visible t (by simp), h.located [] t tokens rfl⟩
  -- what `Reads` says about the first token is put in terms of the whole text
  rw [← hcovers]
  exact h.only [] t tokens rfl

theorem Reads.tail (h : lexer.Reads start text (t :: tokens) rest)
    : lexer.Reads (start.advance t.chars) (textOf tokens ++ rest) tokens rest := by
  refine ⟨rfl, ?_, fun t' ht' => h.visible t' (by simp [ht']), ?_⟩
  · rintro before t' after rfl
    exact h.only (t :: before) t' after rfl
  · rintro before t' after rfl
    rw [h.located (t :: before) t' after rfl, textOf_cons, Location.advance_append]

theorem Starts.cons {text' : List Char} (hstarts : lexer.Starts start text t text')
    (h : lexer.Reads (start.advance t.chars) text' tokens rest)
    : lexer.Reads start text (t :: tokens) rest := by
  refine ⟨?_, ?_, ?_, ?_⟩
  · rw [textOf_cons, List.append_assoc, h.covers, hstarts.covers]
  · intro before t' after heq
    -- a token stands either first or among the others
    cases before with
    | nil =>
      injection heq with ht htokens
      rw [← ht, ← htokens, h.covers, hstarts.covers]
      exact hstarts.only
    | cons first before =>
      injection heq with _ htokens
      exact h.only before t' after htokens
  · intro t' ht'
    rcases List.mem_cons.mp ht' with rfl | hmem
    · exact hstarts.visible
    · exact h.visible t' hmem
  · intro before t' after heq
    cases before with
    | nil =>
      injection heq with ht _
      rw [← ht]
      exact hstarts.located
    | cons first before =>
      injection heq with hfirst htokens
      rw [← hfirst, textOf_cons, Location.advance_append]
      exact h.located before t' after htokens

theorem reads_cons
    : lexer.Reads start text (t :: tokens) rest ↔
        ∃ text', lexer.Starts start text t text' ∧
          lexer.Reads (start.advance t.chars) text' tokens rest :=
  ⟨fun h => ⟨_, h.starts, h.tail⟩, fun ⟨_, hstarts, h⟩ => hstarts.cons h⟩

end Cons

theorem Reads.append {start : Location} {text middle rest : List Char} {tokens others : List Token}
    (h : lexer.Reads start text tokens middle)
    (h' : lexer.Reads (start.advance (textOf tokens)) middle others rest)
    : lexer.Reads start text (tokens ++ others) rest := by
  induction tokens generalizing start text with
  | nil => rwa [← reads_nil.mp h]
  | cons t tokens ih =>
    obtain ⟨text', hstarts, hreads⟩ := reads_cons.mp h
    rw [textOf_cons, Location.advance_append] at h'
    exact reads_cons.mpr ⟨text', hstarts, ih hreads h'⟩

theorem Starts.length_lt {start : Location} {text rest : List Char} {t : Token}
    (h : lexer.Starts start text t rest)
    : rest.length < text.length := by
  obtain ⟨_, _, hne, _⟩ := h.only.1
  have := List.length_pos_iff.mpr hne
  rw [← h.covers, List.length_append]
  omega

theorem Reads.ne_nil {start : Location} {text rest : List Char} {tokens : List Token}
    (h : lexer.Reads start text tokens rest) {t : Token} (ht : t ∈ tokens)
    : t.chars ≠ [] := by
  obtain ⟨before, after, heq⟩ := List.append_of_mem ht
  obtain ⟨_, _, hne, _⟩ := (h.only before t after heq).1
  exact hne

theorem Reads.increasing {start : Location} {text rest : List Char} {tokens : List Token}
    (h : lexer.Reads start text tokens rest)
    : (tokens.map Token.location).Pairwise (· < ·) := by
  induction tokens generalizing start text with
  | nil => simp
  | cons t tokens ih =>
    obtain ⟨text', hstarts, hrest⟩ := reads_cons.mp h
    rw [List.map_cons, List.pairwise_cons]
    refine ⟨fun loc hloc => ?_, ih hrest⟩
    obtain ⟨t', ht', rfl⟩ := List.mem_map.mp hloc
    obtain ⟨before, after, heq⟩ := List.append_of_mem ht'
    have hlt : start < start.advance t.chars := Location.lt_advance start (h.ne_nil (by simp))
    have hle := Location.le_advance (start.advance t.chars) (textOf before)
    rw [hstarts.located, hrest.located before t' after heq]
    simp only [Location.le_def, Location.lt_def] at *
    omega

theorem Stuck.unique {start : Location} {text left left' : List Char}
    {tokens tokens' : List Token} (h : lexer.Stuck start text tokens left)
    (h' : lexer.Stuck start text tokens' left')
    : tokens = tokens' ∧ left = left' := by
  -- where one of them halts the other one has no token either, since exactly one rule would match
  induction tokens generalizing start text tokens' with
  | nil =>
    obtain rfl := reads_nil.mp h.reads
    cases tokens' with
    | nil => exact ⟨rfl, (reads_nil.mp h'.reads).symm⟩
    | cons t' tokens' =>
      obtain ⟨rest, hstarts, _⟩ := reads_cons.mp h'.reads
      exact absurd hstarts.existsUnique h.stuck
  | cons t tokens ih =>
    obtain ⟨rest, hstarts, hreads⟩ := reads_cons.mp h.reads
    cases tokens' with
    | nil =>
      obtain rfl := reads_nil.mp h'.reads
      exact absurd hstarts.existsUnique h'.stuck
    | cons t' tokens' =>
      obtain ⟨rest', hstarts', hreads'⟩ := reads_cons.mp h'.reads
      obtain ⟨rfl, rfl⟩ := hstarts.unique hstarts'
      obtain ⟨rfl, rfl⟩ := ih ⟨hreads, h.ne_nil, h.stuck⟩ ⟨hreads', h'.ne_nil, h'.stuck⟩
      exact ⟨rfl, rfl⟩

end Lexer

end GrammarKit
