import GrammarKit.Lisp.Reader
import GrammarKit.Proofs.Lexer.Reading
import GrammarKit.Proofs.Lisp.Spelling
import GrammarKit.Proofs.Reduction.Named

/-!
This module contains what the trees of expressions are reduced to.
-/

namespace GrammarKit

open Node Token Reducer

namespace Lisp

section Numerals

variable {text : List Char} {v : Int}

theorem readNat?_of_digits {digits : List Char} (hne : digits ≠ [])
    (h : ∀ c ∈ digits, Decimal.isDigit c = true)
    : Decimal.readNat? digits = some (Decimal.value digits) := by
  rw [Decimal.readNat?, if_pos ⟨hne, List.all_eq_true.mpr h⟩]

theorem Numeral.readInt? (h : Numeral text v) : Decimal.readInt? text = some v := by
  cases h with
  | plain hne h =>
    have hread := readNat?_of_digits hne h
    unfold Decimal.readInt?
    split
    · exact absurd (h '-' List.mem_cons_self) (by decide)
    · exact absurd (h '+' List.mem_cons_self) (by decide)
    · rw [hread]
      rfl
  | negative hne h =>
    rw [Decimal.readInt?, readNat?_of_digits hne h]
    rfl

theorem Numeral.read?_eq_some {value : String} (h : Numeral value.toList v) {n : Int64}
    : Decimal.read? value = some n ↔ n.toInt = v := by
  rw [Decimal.read?, h.readInt?, Option.bind_some, Checked.ofInt?_eq_some_iff]

theorem Numeral.read?_eq_none {value : String} (h : Numeral value.toList v)
    : Decimal.read? value = none ↔ ¬ Checked.InRange v := by
  rw [Decimal.read?, h.readInt?, Option.bind_some, Checked.ofInt?_eq_none_iff]

end Numerals

theorem unquote_quoted (text : String) : unquote ("'" ++ text ++ "'") = some text := by
  have hlist : ("'" ++ text ++ "'").toList = '\'' :: (text.toList ++ ['\'']) := by simp
  rw [unquote, hlist]
  simp

def reductions : List (String × Reduction Expr) := [
  ("int", ofToken fun value => (Decimal.read? value).map .int),
  ("str", ofToken fun value => (unquote value).map .str),
  ("id", ofToken fun value => some (.ref value)),
  ("call", ofValues call)]

theorem reducer_rules : reducer.rules = byName reductions := by
  simp only [reducer, byName, reductions, List.map_cons, List.map_nil]
  rfl

theorem reductions_nodup : (reductions.map Prod.fst).Nodup := by decide

abbrev Gives (ns : List Node) (es : List Expr) : Prop :=
  Reducer.Gives reductions ns es

section Leaves

variable {t : Token}

theorem gives_int (hkind : t.kind = "int") {n : Int64} (h : Decimal.read? t.value = some n)
    : Gives [leaf t] [.int n] := by
  have hmem : (t.kind, ofToken fun value => (Decimal.read? value).map Expr.int) ∈ reductions := by
    simp [reductions, hkind]
  have hleaf := gives_leaf reductions_nodup hmem
  simpa [ofToken, leaf, h] using hleaf

theorem gives_str (hkind : t.kind = "str") {text : String} (h : t.value = "'" ++ text ++ "'")
    : Gives [leaf t] [.str text] := by
  have hmem : (t.kind, ofToken fun value => (unquote value).map Expr.str) ∈ reductions := by
    simp [reductions, hkind]
  have hleaf := gives_leaf reductions_nodup hmem
  simpa [ofToken, leaf, h, unquote_quoted] using hleaf

theorem gives_id (hkind : t.kind = "id") : Gives [leaf t] [.ref t.value] := by
  have hmem : (t.kind, ofToken fun value => some (Expr.ref value)) ∈ reductions := by
    simp [reductions, hkind]
  exact gives_leaf reductions_nodup hmem

end Leaves

theorem gives_expr {children : List Node} {es : List Expr} (h : Gives children es)
    : Gives [labelled "expr" children] es :=
  gives_labelled_of_not_mem (by decide) h

theorem gives_call {opening closing : Token} (hopening : opening.kind = "(")
    (hclosing : closing.kind = ")") {ns ms : List Node} {func : Expr} {args : List Expr}
    (hfunc : Gives ns [func]) (hargs : Gives ms args)
    : Gives [labelled "call" ([leaf opening] ++ (ns ++ (ms ++ [leaf closing])))]
        [.call func args] := by
  have hmem : ("call", ofValues call) ∈ reductions := by simp [reductions]
  have hfirst : Gives [leaf opening] [] := gives_leaf_of_not_mem (hopening ▸ by decide)
  have hlast : Gives [leaf closing] [] := gives_leaf_of_not_mem (hclosing ▸ by decide)
  have hchildren := hfirst.append (hfunc.append (hargs.append hlast))
  rw [List.append_nil] at hchildren
  exact gives_labelled reductions_nodup hmem hchildren

end Lisp

end GrammarKit
