/-!
This module contains checked arithmetic on 64-bit integers: a result outside their range is no
result.
-/

namespace GrammarKit

namespace Checked

def InRange (n : Int) : Prop :=
  Int64.minValue.toInt ≤ n ∧ n ≤ Int64.maxValue.toInt

instance (n : Int) : Decidable (InRange n) :=
  inferInstanceAs (Decidable (_ ∧ _))

def ofInt? (n : Int) : Option Int64 :=
  if InRange n then some (Int64.ofInt n) else none

def add (a b : Int64) : Option Int64 := ofInt? (a.toInt + b.toInt)

def sub (a b : Int64) : Option Int64 := ofInt? (a.toInt - b.toInt)

def mul (a b : Int64) : Option Int64 := ofInt? (a.toInt * b.toInt)

def neg (a : Int64) : Option Int64 := ofInt? (-a.toInt)

theorem inRange_toInt (a : Int64) : InRange a.toInt :=
  ⟨a.minValue_le_toInt, a.toInt_le⟩

theorem toInt_ofInt {n : Int} (h : InRange n) : (Int64.ofInt n).toInt = n :=
  Int64.toInt_ofInt_of_le h.1 (Int.lt_add_one_of_le h.2)

theorem ofInt?_eq_none_iff {n : Int} : ofInt? n = none ↔ ¬ InRange n := by
  simp [ofInt?]

theorem ofInt?_eq_some_iff {n : Int} {a : Int64} : ofInt? n = some a ↔ a.toInt = n := by
  unfold ofInt?
  constructor
  · intro h
    split at h
    · next hr =>
      cases h
      exact toInt_ofInt hr
    · cases h
  · intro h
    subst h
    rw [if_pos (inRange_toInt a), Int64.ofInt_toInt]

end Checked

end GrammarKit
