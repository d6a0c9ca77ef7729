import GrammarKit.Lisp.Eval
import GrammarKit.Proofs.Lisp.RoundTrip

/-!
This module contains the texts of results. Evaluation brings no quote into a text, so that what
comes out of it can be put in again.
-/

namespace GrammarKit

namespace Lisp

/-- The text, if it is one, can stand between quotes. -/
def Value.QuoteFree : Value → Prop
  | .str text => '\'' ∉ text.toList
  | _ => True

def Scope.QuoteFree (scope : Scope) : Prop :=
  ∀ name value, scope.get? name = some value → value.QuoteFree

theorem Scope.quoteFree_builtins : Scope.builtins.QuoteFree := by
  intro name value h
  have hnodup : ((Builtin.all.map fun f => (f.name, Value.builtin f)).map Prod.fst).Nodup := by decide
  have hget : (Table.ofList (Builtin.all.map fun f => (f.name, Value.builtin f))).get? name =
      some value := by
    simpa [Scope.get?, Scope.builtins] using h
  obtain ⟨f, _, heq⟩ := List.mem_map.mp ((Table.get?_ofList hnodup).mp hget)
  cases heq
  trivial

namespace Builtin

theorem strs_quoteFree {args : List Value} {texts : List String} (h : strs args = .ok texts)
    (hargs : ∀ arg ∈ args, arg.QuoteFree)
    : ∀ text ∈ texts, '\'' ∉ text.toList := by
  induction args generalizing texts with
  | nil =>
    cases h
    simp
  | cons arg args ih =>
    rw [List.forall_mem_cons] at hargs
    cases arg with
    | str text =>
      obtain ⟨others, hothers, h⟩ := bind_eq_ok.mp h
      cases h
      exact List.forall_mem_cons.mpr ⟨hargs.1, ih hothers hargs.2⟩
    | int | builtin => cases h

theorem run_quoteFree {f : Builtin} {args : List Value} {value : Value}
    (h : f.run args = .ok value) (hargs : ∀ arg ∈ args, arg.QuoteFree)
    : value.QuoteFree := by
  cases f with
  | add | sub | mul =>
    obtain ⟨ns, _, h⟩ := bind_eq_ok.mp h
    obtain ⟨n, _, h⟩ := bind_eq_ok.mp h
    cases h
    trivial
  | concat =>
    obtain ⟨texts, htexts, h⟩ := bind_eq_ok.mp h
    cases h
    intro hmem
    rw [String.toList_join, List.mem_flatMap] at hmem
    obtain ⟨text, htext, hquote⟩ := hmem
    exact strs_quoteFree htexts hargs text htext hquote

end Builtin

theorem Value.apply_quoteFree {f : Value} {args : List Value} {value : Value}
    (h : f.apply args = .ok value) (hargs : ∀ arg ∈ args, arg.QuoteFree)
    : value.QuoteFree := by
  cases f with
  | int | str => cases h
  | builtin f => exact Builtin.run_quoteFree (mapError_eq_ok.mp h) hargs

mutual

theorem Expr.eval_quoteFree {scope : Scope} (hscope : scope.QuoteFree) {value : Value}
    : ∀ {e : Expr}, e.Printable → e.eval scope = .ok value → value.QuoteFree
  | .int _, _, h => by
    cases h
    trivial
  | .str _, hprintable, h => by
    cases h
    exact hprintable
  | .ref name, _, h => by
    rw [Expr.eval] at h
    split at h
    · cases h
    · next hget =>
      cases h
      exact hscope name _ hget
  | .call func args, hprintable, h => by
    rw [Expr.eval] at h
    obtain ⟨f, _, h⟩ := bind_eq_ok.mp h
    obtain ⟨values, hvalues, h⟩ := bind_eq_ok.mp h
    exact Value.apply_quoteFree h (Expr.evalArgs_quoteFree hscope hprintable.2 hvalues)

theorem Expr.evalArgs_quoteFree {scope : Scope} (hscope : scope.QuoteFree) {values : List Value}
    : ∀ {es : List Expr}, PrintableAll es → evalArgs scope es = .ok values →
        ∀ value ∈ values, value.QuoteFree
  | [], _, h => by
    cases h
    simp
  | e :: es, hprintable, h => by
    rw [Expr.evalArgs] at h
    obtain ⟨first, hfirst, h⟩ := bind_eq_ok.mp h
    obtain ⟨others, hothers, h⟩ := bind_eq_ok.mp h
    cases h
    rw [List.forall_mem_cons]
    exact ⟨Expr.eval_quoteFree hscope hprintable.1 hfirst,
      Expr.evalArgs_quoteFree hscope hprintable.2 hothers⟩

end

theorem eval_eq_ok {scope : Scope} {text : String} {value : Value}
    : (eval scope text).run = some (.ok value) ↔
        ∃ e, (parse text).run = some (.ok e) ∧ e.eval scope = .ok value := by
  rw [eval, Eventually.bind_eq_ok]
  simp only [Eventually.run_ofExcept, Option.some.injEq, mapError_eq_ok]

theorem quoteFree_of_eval {scope : Scope} (hscope : scope.QuoteFree) {text : String} {value : Value}
    (h : (eval scope text).run = some (.ok value))
    : value.QuoteFree := by
  obtain ⟨e, hparse, he⟩ := eval_eq_ok.mp h
  exact Expr.eval_quoteFree hscope (printable_of_parse hparse) he

/-- A literal is its own source, whatever the scope. -/
theorem eval_literal {e : Expr} (h : e.Printable) {value : Value}
    (hvalue : ∀ scope, e.eval scope = .ok value) (scope : Scope)
    : (eval scope e.render).run = some (.ok value) :=
  eval_eq_ok.mpr ⟨e, parse_render h, hvalue scope⟩

theorem eval_render {value : Value} (h : value.QuoteFree) (hfunc : ∀ f, value ≠ .builtin f)
    (scope : Scope)
    : (eval scope value.render).run = some (.ok value) := by
  cases value with
  | int n =>
    have hrender : (Value.int n).render = (Expr.int n).render := by rw [Value.render, Expr.render]
    have hprintable : (Expr.int n).Printable := trivial
    rw [hrender]
    exact eval_literal hprintable (fun scope => by rw [Expr.eval]) scope
  | str text =>
    have hrender : (Value.str text).render = (Expr.str text).render := by
      rw [Value.render, Expr.render]
    have hprintable : (Expr.str text).Printable := h
    rw [hrender]
    exact eval_literal hprintable (fun scope => by rw [Expr.eval]) scope
  | builtin f => exact absurd rfl (hfunc f)

/--
Where no text in scope has a quote, as with the functions alone, an integer or a text that comes out
as a result is printed as a source that has the same result in every scope.
-/
theorem eval_render_of_eval
    : Scope.builtins.QuoteFree ∧
        ∀ scope : Scope, scope.QuoteFree →
          ∀ (text : String) (value : Value), (eval scope text).run = some (.ok value) →
            (∀ f, value ≠ .builtin f) →
              ∀ scope' : Scope, (eval scope' value.render).run = some (.ok value) :=
  ⟨Scope.quoteFree_builtins,
    fun _ hscope _ _ h hfunc => eval_render (quoteFree_of_eval hscope h) hfunc⟩

theorem eval_render_of_eval_concat
    : (eval .builtins "(concat 'add(' '1 2)')").run = some (.ok (.str "add(1 2)")) ∧
        ∀ scope, (eval scope "'add(1 2)'").run = some (.ok (.str "add(1 2)")) := by
  let e : Expr := .call (.ref "concat") [.str "add(", .str "1 2)"]
  have hprintable : e.Printable := by decide
  have heval : (eval .builtins e.render).run = some (.ok (.str "add(1 2)")) :=
    eval_eq_ok.mpr ⟨e, parse_render hprintable, by decide⟩
  have hagain := eval_render_of_eval.2 .builtins eval_render_of_eval.1 e.render _ heval (by simp)
  have hsource : e.render = "(concat 'add(' '1 2)')" := by decide
  have hresult : (Value.str "add(1 2)").render = "'add(1 2)'" := by decide
  rw [hsource] at heval
  rw [hresult] at hagain
  exact ⟨heval, hagain⟩

end Lisp

end GrammarKit
