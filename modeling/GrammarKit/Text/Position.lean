/-!
This module contains `Position`, a place in a text from which reading goes on. Distances are counted
in bytes of the text's UTF-8 form.
-/

namespace GrammarKit

def byteLength : List Char → Nat
  | [] => 0
  | c :: cs => c.utf8Size + byteLength cs

@[simp]
theorem byteLength_nil : byteLength [] = 0 := rfl

@[simp]
theorem byteLength_cons (c : Char) (cs : List Char) :
    byteLength (c :: cs) = c.utf8Size + byteLength cs := rfl

@[simp]
theorem byteLength_append (s t : List Char) :
    byteLength (s ++ t) = byteLength s + byteLength t := by
  induction s with
  | nil => simp
  | cons c s ih => simp [ih, Nat.add_assoc]

theorem byteLength_ofList (text : List Char) :
    byteLength text = (String.ofList text).utf8ByteSize := by
  induction text with
  | nil => simp [String.ofList_nil]
  | cons c cs ih =>
    have hsplit : String.ofList (c :: cs) = String.singleton c ++ String.ofList cs := by
      rw [String.singleton_eq_ofList, ← String.ofList_append, List.singleton_append]
    rw [byteLength_cons, ih, hsplit, String.utf8ByteSize_append, String.utf8ByteSize_singleton]

/--
A position is known by the text that is left to read.
-/
structure Position where
  rest : List Char
  deriving DecidableEq, Repr

namespace Position

def ofString (text : String) : Position :=
  ⟨text.toList⟩

def isEmpty (pos : Position) : Bool :=
  pos.rest.isEmpty

def peek (pos : Position) : Option Char :=
  pos.rest.head?

def startsWith (pos : Position) (text : String) : Bool :=
  text.toList.isPrefixOf pos.rest

/--
Move past `n` bytes, and no further than to the end.
-/
def skip (pos : Position) (n : Nat) : Position :=
  ⟨go pos.rest n⟩
where
  go : List Char → Nat → List Char
    | rest, 0 => rest
    | [], _ + 1 => []
    | c :: rest, n + 1 => go rest (n + 1 - c.utf8Size)

/--
The number `n` is the byte length of a prefix of what is left: skipping it divides no character and
stays within the text.
-/
def OnBoundary (pos : Position) (n : Nat) : Prop :=
  ∃ taken, taken <+: pos.rest ∧ byteLength taken = n

theorem skip.go_append (taken rest : List Char) :
    skip.go (taken ++ rest) (byteLength taken) = rest := by
  induction taken with
  | nil => unfold skip.go; split <;> simp_all
  | cons c taken ih =>
    obtain ⟨n, hn⟩ := Nat.exists_eq_succ_of_ne_zero (Nat.pos_iff_ne_zero.mp c.utf8Size_pos)
    have : byteLength (c :: taken) = (n + byteLength taken) + 1 := by
      rw [byteLength_cons, hn]
      omega
    rw [this, List.cons_append, go, ← this, byteLength_cons, Nat.add_sub_cancel_left, ih]

theorem skip_byteLength (taken rest : List Char) :
    skip ⟨taken ++ rest⟩ (byteLength taken) = ⟨rest⟩ := by
  simp [skip, skip.go_append]

end Position

end GrammarKit
