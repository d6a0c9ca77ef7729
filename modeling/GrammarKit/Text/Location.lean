/-!
This module contains `Location`, a zero-based line and column in a text. Columns count characters;
locations are ordered by line, then by column.
-/

namespace GrammarKit

/--
A line and a column, both counted from zero.
-/
structure Location where
  line : Nat
  col : Nat
  deriving DecidableEq, Repr

namespace Location

def start : Location := ⟨0, 0⟩

/--
The location behind `c`. Only a line feed starts a new line.
-/
def next (loc : Location) (c : Char) : Location :=
  if c = '\n' then ⟨loc.line + 1, 0⟩ else ⟨loc.line, loc.col + 1⟩

def advance (loc : Location) (text : List Char) : Location :=
  text.foldl next loc

@[simp]
theorem advance_nil (loc : Location) : loc.advance [] = loc := rfl

@[simp]
theorem advance_cons (loc : Location) (c : Char) (text : List Char) :
    loc.advance (c :: text) = (loc.next c).advance text := rfl

theorem advance_append (loc : Location) (s t : List Char) :
    loc.advance (s ++ t) = (loc.advance s).advance t := by
  simp [advance]

instance : LE Location where
  le a b := a.line < b.line ∨ (a.line = b.line ∧ a.col ≤ b.col)

instance : LT Location where
  lt a b := a.line < b.line ∨ (a.line = b.line ∧ a.col < b.col)

theorem le_def (a b : Location) :
    a ≤ b ↔ a.line < b.line ∨ (a.line = b.line ∧ a.col ≤ b.col) := Iff.rfl

theorem lt_def (a b : Location) :
    a < b ↔ a.line < b.line ∨ (a.line = b.line ∧ a.col < b.col) := Iff.rfl

instance (a b : Location) : Decidable (a ≤ b) :=
  decidable_of_iff _ (le_def a b).symm

instance (a b : Location) : Decidable (a < b) :=
  decidable_of_iff _ (lt_def a b).symm

instance : Max Location where
  max a b := if a ≤ b then b else a

instance : Min Location where
  min a b := if a ≤ b then a else b

theorem le_refl (a : Location) : a ≤ a := by
  simp [le_def]

theorem le_trans {a b c : Location} (hab : a ≤ b) (hbc : b ≤ c) : a ≤ c := by
  simp only [le_def] at *
  omega

theorem le_antisymm {a b : Location} (hab : a ≤ b) (hba : b ≤ a) : a = b := by
  obtain ⟨l, c⟩ := a
  obtain ⟨l', c'⟩ := b
  simp only [le_def, Location.mk.injEq] at *
  omega

theorem le_total (a b : Location) : a ≤ b ∨ b ≤ a := by
  simp only [le_def]
  omega

theorem lt_iff_not_le {a b : Location} : a < b ↔ ¬ b ≤ a := by
  simp only [le_def, lt_def]
  omega

theorem lt_next (loc : Location) (c : Char) : loc < loc.next c := by
  unfold next
  split <;> simp [lt_def]

def sort (locs : List Location) : List Location :=
  locs.mergeSort fun a b => decide (a ≤ b)

def render (loc : Location) : String :=
  s!"{loc.line}:{loc.col}"

end Location

end GrammarKit
