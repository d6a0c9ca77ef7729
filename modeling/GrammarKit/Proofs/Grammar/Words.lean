import GrammarKit.Grammar.Reader
import Mathlib.Data.List.TakeWhile

/-!
This module contains the words of grammars, namely names, texts in quotes, operators and space. Each
of them is found by the reader exactly where it stands.
-/

namespace GrammarKit

def Space (c : Char) : Prop :=
  c = ' ' ∨ c = '\t' ∨ c = '\r' ∨ c = '\n'

def Blank (text : List Char) : Prop :=
  ∀ c ∈ text, Space c

def NameStart (c : Char) : Prop :=
  ('A' ≤ c ∧ c ≤ 'Z') ∨ ('a' ≤ c ∧ c ≤ 'z') ∨ c = '_'

def NamePart (c : Char) : Prop :=
  NameStart c ∨ ('0' ≤ c ∧ c ≤ '9')

namespace Reader

theorem isSpace_iff {c : Char} : isSpace c = true ↔ Space c := by
  simp [isSpace, Space, or_assoc]

theorem isUpper_iff {c : Char} : c.isUpper = true ↔ 'A' ≤ c ∧ c ≤ 'Z' :=
  decide_eq_true_iff

theorem isLower_iff {c : Char} : c.isLower = true ↔ 'a' ≤ c ∧ c ≤ 'z' := by
  show (c.val ≥ 'a'.val && c.val ≤ 'z'.val : Bool) = true ↔ _
  rw [Bool.and_eq_true, decide_eq_true_iff, decide_eq_true_iff]
  rfl

theorem isNameStart_iff {c : Char} : isNameStart c = true ↔ NameStart c := by
  show (c.isUpper || c.isLower || c == '_') = true ↔ _
  rw [Bool.or_eq_true, Bool.or_eq_true, isUpper_iff, isLower_iff, beq_iff_eq, or_assoc]
  rfl

theorem isNamePart_iff {c : Char} : isNamePart c = true ↔ NamePart c := by
  rw [NamePart, ← isNameStart_iff]
  simp [isNamePart, isNameStart, Char.isAlphanum, Char.isDigit, Char.le_def]
  grind

theorem isNamePart_eq_false {c : Char} : isNamePart c = false ↔ ¬ NamePart c := by
  rw [Bool.eq_false_iff, ne_eq, isNamePart_iff]

end Reader

instance (c : Char) : Decidable (Space c) :=
  decidable_of_iff _ Reader.isSpace_iff

instance (c : Char) : Decidable (NameStart c) :=
  decidable_of_iff _ Reader.isNameStart_iff

instance (c : Char) : Decidable (NamePart c) :=
  decidable_of_iff _ Reader.isNamePart_iff

/-- ASCII letters, digits and underscores, at least one and no digit first. -/
def IsName (name : String) : Prop :=
  ∃ c rest, name.toList = c :: rest ∧ NameStart c ∧ ∀ d ∈ rest, NamePart d

theorem isName_iff {name : String}
    : IsName name ↔
        (name.toList.head?.any Reader.isNameStart && name.toList.tail.all Reader.isNamePart) =
          true := by
  unfold IsName
  cases name.toList with
  | nil => simp
  | cons c rest =>
    simp only [List.cons.injEq, List.head?_cons, Option.any_some, List.tail_cons, Bool.and_eq_true,
      List.all_eq_true, Reader.isNameStart_iff, Reader.isNamePart_iff]
    grind

instance (name : String) : Decidable (IsName name) :=
  decidable_of_iff _ isName_iff.symm

/-- Double quotes around a text without any, or single quotes around one without those. -/
inductive Quoted : List Char → String → Prop where
  | double {inner : List Char} (h : '"' ∉ inner) :
      Quoted ('"' :: (inner ++ ['"'])) (String.ofList inner)
  | single {inner : List Char} (h : '\'' ∉ inner) :
      Quoted ('\'' :: (inner ++ ['\''])) (String.ofList inner)

section Stop

variable {p : Char → Bool} {text rest : List Char}

theorem takeWhile_append_of_stop (htext : ∀ c ∈ text, p c = true)
    (hrest : ∀ c ∈ rest.head?, p c = false)
    : (text ++ rest).takeWhile p = text := by
  rw [List.takeWhile_append_of_pos htext]
  cases rest with
  | nil => exact List.append_nil text
  | cons c rest => rw [List.takeWhile_cons_of_neg (by simp [hrest c rfl]), List.append_nil]

theorem dropWhile_append_of_stop (htext : ∀ c ∈ text, p c = true)
    (hrest : ∀ c ∈ rest.head?, p c = false)
    : (text ++ rest).dropWhile p = rest := by
  rw [List.dropWhile_append_of_pos htext]
  cases rest with
  | nil => rfl
  | cons c rest => exact List.dropWhile_cons_of_neg (by simp [hrest c rfl])

end Stop

namespace Reader

variable {text rest : List Char}

section Space

theorem not_namePart_of_space {c : Char} (h : Space c) : ¬ NamePart c := by
  rcases h with rfl | rfl | rfl | rfl <;> decide

theorem isSpace_of_nameStart {c : Char} (h : NameStart c) : isSpace c = false := by
  cases hspace : isSpace c with
  | false => rfl
  | true => exact absurd (.inl h) (not_namePart_of_space (isSpace_iff.mp hspace))

theorem skipSpace_cons {c : Char} (h : isSpace c = false) (text : List Char)
    : skipSpace (c :: text) = c :: text := by
  simp [skipSpace, h]

theorem skipSpace_name {found : String} (h : IsName found) (rest : List Char)
    : skipSpace (found.toList ++ rest) = found.toList ++ rest := by
  obtain ⟨c, part, heq, hstart, _⟩ := h
  rw [heq, List.cons_append, skipSpace_cons (isSpace_of_nameStart hstart)]

theorem skipSpace_quoted {word : List Char} {found : String} (h : Quoted word found)
    (rest : List Char)
    : skipSpace (word ++ rest) = word ++ rest := by
  cases h with
  | double | single => exact skipSpace_cons rfl _

theorem skipSpace_append (h : Blank text) (rest : List Char)
    : skipSpace (text ++ rest) = skipSpace rest :=
  List.dropWhile_append_of_pos fun c hc => isSpace_iff.mpr (h c hc)

theorem skipSpace_of_blank (h : Blank text) : skipSpace text = [] := by
  rw [← List.append_nil text, skipSpace_append h]
  rfl

theorem exists_blank_skipSpace (text : List Char)
    : ∃ blank, Blank blank ∧ text = blank ++ skipSpace text := by
  refine ⟨text.takeWhile isSpace, fun c hc => ?_, List.takeWhile_append_dropWhile.symm⟩
  exact isSpace_iff.mp (List.mem_takeWhile_imp hc)

end Space

theorem symbol_eq_ok {c : Char} : symbol c text = .ok rest ↔ text = c :: rest := by
  unfold symbol
  split
  · simp
  · split
    · next heq => simp [heq]
    · next hne => simp [hne]

theorem name_eq_ok {found : String}
    : name text = .ok (found, rest) ↔
        IsName found ∧ text = found.toList ++ rest ∧ ∀ c ∈ rest.head?, ¬ NamePart c := by
  constructor
  · intro h
    unfold name at h
    split at h
    · cases h
    · next c behind =>
      split at h
      · next hstart =>
        cases h
        refine ⟨⟨c, _, String.toList_ofList, isNameStart_iff.mp hstart, fun d hd => ?_⟩, ?_, ?_⟩
        · exact isNamePart_iff.mp (List.mem_takeWhile_imp hd)
        · rw [String.toList_ofList, List.cons_append, List.takeWhile_append_dropWhile]
        · intro d hd
          rw [← isNamePart_eq_false]
          have hnot := List.head?_dropWhile_not isNamePart behind
          rwa [Option.mem_def.mp hd] at hnot
      · cases h
  · rintro ⟨⟨c, part, heq, hstart, hpart⟩, rfl, hrest⟩
    have hinside : ∀ d ∈ part, isNamePart d = true := fun d hd => isNamePart_iff.mpr (hpart d hd)
    have hstop : ∀ d ∈ rest.head?, isNamePart d = false :=
      fun d hd => isNamePart_eq_false.mpr (hrest d hd)
    rw [heq, List.cons_append, name, if_pos (isNameStart_iff.mpr hstart),
      takeWhile_append_of_stop hinside hstop, dropWhile_append_of_stop hinside hstop, ← heq,
      String.ofList_toList]

theorem untilQuote_eq_some {quote : Char} {inner : List Char}
    : untilQuote quote text = some (inner, rest) ↔ text = inner ++ quote :: rest ∧ quote ∉ inner := by
  induction text generalizing inner rest with
  | nil => simp [untilQuote]
  | cons c text ih =>
    rw [untilQuote]
    split
    · next heq => cases inner <;> grind
    · next hne =>
      rw [Option.map_eq_some_iff]
      simp only [Prod.exists, ih, Prod.mk.injEq]
      cases inner with
      | nil => simp [hne]
      | cons d inner =>
        constructor
        · rintro ⟨found, behind, ⟨rfl, hnot⟩, ⟨rfl, rfl⟩, rfl⟩
          exact ⟨rfl, List.not_mem_cons_of_ne_of_not_mem (Ne.symm hne) hnot⟩
        · rintro ⟨heq, hnot⟩
          cases heq
          exact ⟨inner, rest, ⟨rfl, List.not_mem_of_not_mem_cons hnot⟩, rfl, rfl⟩

theorem quotedText_eq_ok {found : String}
    : quotedText text = .ok (found, rest) ↔ ∃ word, Quoted word found ∧ text = word ++ rest := by
  constructor
  · intro h
    unfold quotedText at h
    split at h
    · split at h
      · next hinner =>
        cases h
        obtain ⟨rfl, hnot⟩ := untilQuote_eq_some.mp hinner
        exact ⟨_, .double hnot, by simp⟩
      · cases h
    · split at h
      · next hinner =>
        cases h
        obtain ⟨rfl, hnot⟩ := untilQuote_eq_some.mp hinner
        exact ⟨_, .single hnot, by simp⟩
      · cases h
    · cases h
  · rintro ⟨word, hword, rfl⟩
    cases hword with
    | double h | single h => simp [quotedText, untilQuote_eq_some.mpr ⟨rfl, h⟩]

def Operator.word : Operator → List Char
  | .silentToken => ['~', '=']
  | .token => ['=']
  | .production => ['-', '>']

theorem operator_eq_ok {op : Operator} : operator text = .ok (op, rest) ↔ text = op.word ++ rest := by
  constructor
  · intro h
    unfold operator at h
    split at h
    all_goals
      cases h
      try rfl
  · rintro rfl
    cases op <;> rfl

end Reader

end GrammarKit
