import GrammarKit.Grammar.Printer
import GrammarKit.Proofs.Grammar.WellFormed

/-!
This module contains how printed right-hand sides are read. Whatever follows a printed operand, as
long as it stands apart and does not begin with an operator that would be read on, the operand is
read back and nothing more.
-/

namespace GrammarKit

namespace Reader

/-- The text cannot continue a name or a repetition. -/
def Apart (rest : List Char) : Prop := ∀ c ∈ rest.head?, isSpace c = true

/-- The text starts with something other than space. -/
def Solid (word : List Char) : Prop := ∀ rest, skipSpace (word ++ rest) = word ++ rest

section Characters

variable {c : Char} {rest word : List Char}

theorem apart_nil : Apart [] := by simp [Apart]

theorem apart_space (text : List Char) : Apart (' ' :: text) := by simp [Apart, isSpace]

theorem solid_cons (h : isSpace c = false) (word : List Char) : Solid (c :: word) :=
  fun rest => skipSpace_cons h (word ++ rest)

theorem Solid.append (h : Solid word) (other : List Char) : Solid (word ++ other) := by
  intro rest
  rw [List.append_assoc]
  exact h (other ++ rest)

theorem Apart.not_namePart (h : Apart rest) : ∀ c ∈ rest.head?, ¬ NamePart c :=
  fun c hc => not_namePart_of_space (isSpace_iff.mp (h c hc))

end Characters

section Words

theorem name_append {found : String} (h : IsName found) {rest : List Char} (hrest : Apart rest)
    : name (found.toList ++ rest) = .ok (found, rest) :=
  name_eq_ok.mpr ⟨h, rfl, hrest.not_namePart⟩

theorem quoted_quote {text : String} (h : Quotable text) : Quoted (Rhs.quote text).toList text := by
  unfold Rhs.quote
  split
  · next hdouble =>
    have hsingle : '\'' ∉ text.toList := fun hmem => h ⟨hdouble, hmem⟩
    simpa using Quoted.single hsingle
  · next hdouble => simpa using Quoted.double hdouble

theorem quotedText_quote {text : String} (h : Quotable text) (rest : List Char)
    : quotedText ((Rhs.quote text).toList ++ rest) = .ok (text, rest) :=
  quotedText_eq_ok.mpr ⟨_, quoted_quote h, rfl⟩

end Words

/--
Wherever the word stands, apart from what follows, it is read and what follows is left, unless that
goes on with one of `stops`.
-/
def Recognizes (read : List Char → Except Error (Rhs × List Char)) (word : List Char) (r : Rhs)
    (stops : List Char) : Prop :=
  ∀ text rest, skipSpace text = word ++ rest → Apart rest →
    (∀ c ∈ (skipSpace rest).head?, c ∉ stops) → read text = .ok (r, skipSpace rest)

section Chains

variable {op : Char} {combine : Rhs → Rhs → Rhs}
variable {read right : List Char → Except Error (Rhs × List Char)}
variable {word other : List Char} {l r : Rhs} {stops : List Char}

theorem recognizes_chained_one (h : Recognizes read word r stops)
    : Recognizes (chained op combine read right) word r (op :: stops) := by
  intro text rest htext hrest hstops
  have hread := h text rest htext hrest fun c hc hmem => hstops c hc (List.mem_cons_of_mem _ hmem)
  exact chained_of_other hread fun hmem => hstops op hmem List.mem_cons_self

theorem recognizes_chained_more (hleft : Recognizes read word l stops)
    (hright : Recognizes right other r (op :: stops)) (hother : Solid other) (hop : op ∉ stops)
    (hspace : isSpace op = false)
    : Recognizes (chained op combine read right) (word ++ ' ' :: op :: ' ' :: other) (combine l r)
        (op :: stops) := by
  intro text rest htext hrest hstops
  have hskip : skipSpace (' ' :: op :: ' ' :: (other ++ rest)) = op :: ' ' :: (other ++ rest) :=
    skipSpace_cons hspace _
  have hread : read text = .ok (l, op :: ' ' :: (other ++ rest)) := by
    rw [← hskip]
    refine hleft text _ (by simpa using htext) (apart_space _) fun c hc => ?_
    rw [hskip, List.head?_cons, Option.mem_some] at hc
    rwa [← hc]
  exact chained_of_operator hread (hright _ rest (hother rest) hrest hstops)

end Chains

section Operands

variable {nested : List Char → Except Error (Rhs × List Char)} {word : List Char} {r : Rhs}
variable {stops : List Char}

theorem nested_of_recognizes {close : Char} (h : Recognizes nested word r stops)
    (hword : Solid word) (hclose : close ∉ stops) (hspace : isSpace close = false)
    (rest : List Char)
    : nested (' ' :: (word ++ ' ' :: close :: rest)) = .ok (r, close :: rest) := by
  have hskip : skipSpace (' ' :: close :: rest) = close :: rest := skipSpace_cons hspace rest
  have hstops : ∀ c ∈ (skipSpace (' ' :: close :: rest)).head?, c ∉ stops := by
    intro c hc
    rw [hskip, List.head?_cons, Option.mem_some] at hc
    rwa [← hc]
  have hnested := h (' ' :: (word ++ ' ' :: close :: rest)) _ (hword _) (apart_space _) hstops
  rwa [hskip] at hnested

/-- The word is read as an operand, apart from what follows. -/
def IsOperand (nested : List Char → Except Error (Rhs × List Char)) (word : List Char) (r : Rhs) :
    Prop :=
  ∀ rest, Apart rest → operand nested (word ++ rest) = .ok (r, rest)

theorem isOperand_name {found : String} (h : IsName found)
    : IsOperand nested found.toList (.identifier found) :=
  fun _ hrest => operand_eq_ok.mpr (.name (name_append h hrest))

theorem isOperand_quote {text : String} (h : Quotable text)
    : IsOperand nested (Rhs.quote text).toList (.terminal text) :=
  fun rest _ => operand_eq_ok.mpr (.quoted (quotedText_quote h rest))

theorem isOperand_group (h : Recognizes nested word r stops) (hword : Solid word)
    (hclose : ')' ∉ stops)
    : IsOperand nested ('(' :: ' ' :: (word ++ [' ', ')'])) r := by
  intro rest _
  have hnested := nested_of_recognizes h hword hclose rfl rest
  simpa using operand_eq_ok.mpr (.group hnested)

theorem isOperand_optional (h : Recognizes nested word r stops) (hword : Solid word)
    (hclose : ']' ∉ stops)
    : IsOperand nested ('[' :: ' ' :: (word ++ [' ', ']'])) (.optional r) := by
  intro rest _
  have hnested := nested_of_recognizes h hword hclose rfl rest
  simpa using operand_eq_ok.mpr (.optional hnested)

theorem isOperand_repetition (h : Recognizes nested word r stops) (hword : Solid word)
    (hclose : '}' ∉ stops)
    : IsOperand nested ('{' :: ' ' :: (word ++ [' ', '}'])) (.repetition r) := by
  intro rest hrest
  have hnested := nested_of_recognizes h hword hclose rfl rest
  have hplus : '+' ∉ rest.head? := fun hmem => absurd (hrest '+' hmem) (by decide)
  simpa using operand_eq_ok.mpr (.repetition hnested hplus)

theorem isOperand_repetition1 (h : Recognizes nested word r stops) (hword : Solid word)
    (hclose : '}' ∉ stops)
    : IsOperand nested ('{' :: ' ' :: (word ++ [' ', '}', '+'])) (.repetition1 r) := by
  intro rest hrest
  have hnested := nested_of_recognizes h hword hclose rfl ('+' :: rest)
  simpa using operand_eq_ok.mpr (.repetition1 hnested)

end Operands

section Levels

variable {word other : List Char} {l r : Rhs}

theorem recognizes_factor (h : IsOperand rhs word r) : Recognizes factor word r [] := by
  intro text rest htext hrest _
  rw [factor_eq, spaced_eq_ok, htext]
  exact ⟨rest, h rest hrest, rfl⟩

theorem Recognizes.inRow (h : Recognizes factor word r []) : Recognizes row word r [','] := by
  rw [row_eq]
  exact recognizes_chained_one h

theorem Recognizes.alone (h : Recognizes row word r [',']) : Recognizes rhs word r ['|', ','] := by
  rw [rhs_eq]
  exact recognizes_chained_one h

theorem recognizes_concatenation (hleft : Recognizes factor word l [])
    (hright : Recognizes row other r [',']) (hother : Solid other)
    : Recognizes row (word ++ ' ' :: ',' :: ' ' :: other) (.concatenation l r) [','] := by
  rw [row_eq]
  exact recognizes_chained_more hleft hright hother (by simp) rfl

theorem recognizes_alternation (hleft : Recognizes row word l [','])
    (hright : Recognizes rhs other r ['|', ',']) (hother : Solid other)
    : Recognizes rhs (word ++ ' ' :: '|' :: ' ' :: other) (.alternation l r) ['|', ','] := by
  rw [rhs_eq]
  exact recognizes_chained_more hleft hright hother (by simp) rfl

end Levels

end Reader

namespace Rhs

open Reader

theorem toList_grouped (needed : Bool) (text : String)
    : (grouped needed text).toList =
        if needed then '(' :: ' ' :: (text.toList ++ [' ', ')']) else text.toList := by
  unfold grouped
  split <;> simp

theorem solid_grouped {text : String} (h : Solid text.toList) (needed : Bool)
    : Solid (grouped needed text).toList := by
  rw [toList_grouped]
  split
  · exact solid_cons rfl _
  · exact h

theorem solid_render {r : Rhs} (h : r.WellFormed) : Solid r.render.toList := by
  induction r with
  | identifier name => exact skipSpace_name h
  | terminal text => exact skipSpace_quoted (quoted_quote h)
  | optional inner | repetition inner | repetition1 inner =>
    simpa [render] using solid_cons rfl _
  | alternation left right ihleft _ | concatenation left right ihleft _ =>
    simp only [render, String.toList_append, List.append_assoc]
    exact (solid_grouped (ihleft h.1) _).append _

/-- What is printed of a right-hand side is read back on its own, in a row and as an operand. -/
structure ReadBack (r : Rhs) : Prop where
  alone : Recognizes rhs r.render.toList r ['|', ',']
  inRow : Recognizes row (grouped r.isAlternation r.render).toList r [',']
  asOperand :
    Recognizes factor (grouped (r.isAlternation || r.isConcatenation) r.render).toList r []

theorem ReadBack.of_operand {r : Rhs} (h : IsOperand rhs r.render.toList r)
    (halternation : r.isAlternation = false) (hconcatenation : r.isConcatenation = false)
    : r.ReadBack := by
  have hfactor := recognizes_factor h
  refine ⟨hfactor.inRow.alone, ?_, ?_⟩
  · rw [halternation]
    exact hfactor.inRow
  · rw [halternation, hconcatenation]
    exact hfactor

theorem recognizes_group {r : Rhs} (hsolid : Solid r.render.toList)
    (h : Recognizes rhs r.render.toList r ['|', ','])
    : Recognizes factor (grouped true r.render).toList r [] := by
  rw [toList_grouped, if_pos rfl]
  exact recognizes_factor (isOperand_group h hsolid (by decide))

theorem readBack {r : Rhs} (h : r.WellFormed) : r.ReadBack := by
  induction r with
  | identifier name => exact .of_operand (isOperand_name h) rfl rfl
  | terminal text => exact .of_operand (isOperand_quote h) rfl rfl
  | optional inner ih =>
    have hinner := isOperand_optional (ih h).alone (solid_render h) (by decide)
    exact .of_operand (by simpa [render] using hinner) rfl rfl
  | repetition inner ih =>
    have hinner := isOperand_repetition (ih h).alone (solid_render h) (by decide)
    exact .of_operand (by simpa [render] using hinner) rfl rfl
  | repetition1 inner ih =>
    have hinner := isOperand_repetition1 (ih h).alone (solid_render h) (by decide)
    exact .of_operand (by simpa [render] using hinner) rfl rfl
  | alternation left right ihleft ihright =>
    have hchain := recognizes_alternation (ihleft h.1).inRow (ihright h.2).alone (solid_render h.2)
    have halone : Recognizes rhs (render (.alternation left right)).toList
        (.alternation left right) ['|', ','] := by
      simpa [render] using hchain
    have hgroup := recognizes_group (solid_render h) halone
    exact ⟨halone, hgroup.inRow, hgroup⟩
  | concatenation left right ihleft ihright =>
    have hchain := recognizes_concatenation (ihleft h.1).asOperand (ihright h.2).inRow
      (solid_grouped (solid_render h.2) _)
    have hrow : Recognizes row (render (.concatenation left right)).toList
        (.concatenation left right) [','] := by
      simpa [render] using hchain
    exact ⟨hrow.alone, hrow, recognizes_group (solid_render h) hrow.alone⟩

end Rhs

end GrammarKit
