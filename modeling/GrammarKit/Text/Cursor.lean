import GrammarKit.Text.Location
import GrammarKit.Text.Position

/-!
This module contains `Cursor`, a position in a text that knows its line and column.
-/

namespace GrammarKit

structure Cursor where
  position : Position
  location : Location
  deriving DecidableEq, Repr

namespace Cursor

def ofString (text : String) : Cursor :=
  ⟨Position.ofString text, Location.start⟩

def advance (cursor : Cursor) (text : List Char) : Cursor :=
  ⟨cursor.position.skip (byteLength text), cursor.location.advance text⟩

theorem advance_append (taken rest : List Char) (loc : Location) :
    advance ⟨⟨taken ++ rest⟩, loc⟩ taken = ⟨⟨rest⟩, loc.advance taken⟩ := by
  simp [advance, Position.skip_byteLength]

end Cursor

end GrammarKit
