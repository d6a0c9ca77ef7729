import GrammarKit.Lisp.Eval

/-!
This module contains evaluation with integers of any size, and that evaluation with 64 bits is
exact: it differs only where something on the way is out of range, and then it fails. To have
something that can be out of range, evaluation here records all that it computes.
-/

namespace GrammarKit

namespace Lisp

namespace Unbounded

inductive Value where
  | int (n : Int)
  | str (text : String)
  | builtin (f : Builtin)
  deriving DecidableEq

inductive Error where
  | unknownVariable (name : String)
  | intNotCallable
  | strNotCallable
  | expectedInt (value : Value)
  | expectedStr (value : Value)
  | expectedArgument
  | inCall (f : Builtin) (cause : Error)
  deriving DecidableEq

/-- A result, and the integers that were computed on the way to it. -/
structure Outcome (α : Type) where
  result : Except Error α
  computed : List Int

namespace Outcome

variable {α β : Type}

def ok (value : α) : Outcome α := ⟨.ok value, []⟩

def fail (e : Error) : Outcome α := ⟨.error e, []⟩

def after (ns : List Int) (x : Outcome α) : Outcome α := ⟨x.result, ns ++ x.computed⟩

def andThen (x : Outcome α) (f : α → Outcome β) : Outcome β :=
  match x with
  | ⟨.error e, ns⟩ => ⟨.error e, ns⟩
  | ⟨.ok a, ns⟩ => (f a).after ns

instance : Monad Outcome where
  pure := ok
  bind := andThen

def mapError (f : Error → Error) (x : Outcome α) : Outcome α :=
  ⟨x.result.mapError f, x.computed⟩

end Outcome

def ints : List Value → Outcome (List Int)
  | [] => .ok []
  | .int n :: rest => do
    let others ← ints rest
    return n :: others
  | value :: _ => .fail (.expectedInt value)

def strs : List Value → Outcome (List String)
  | [] => .ok []
  | .str text :: rest => do
    let others ← strs rest
    return text :: others
  | value :: _ => .fail (.expectedStr value)

/-- All accumulators are computed, from the first one to the last. -/
def accumulate (op : Int → Int → Int) (acc : Int) (ns : List Int) : Outcome Int :=
  ⟨.ok (ns.foldl op acc), ns.scanl op acc⟩

def difference : List Int → Outcome Int
  | [] => .fail .expectedArgument
  | [n] => ⟨.ok (-n), [-n]⟩
  | n :: rest => accumulate (· - ·) n rest

def run (f : Builtin) (args : List Value) : Outcome Value :=
  match f with
  | .add => return .int (← accumulate (· + ·) 0 (← ints args))
  | .sub => return .int (← difference (← ints args))
  | .mul => return .int (← accumulate (· * ·) 1 (← ints args))
  | .concat => return .str (String.join (← strs args))

def apply (f : Value) (args : List Value) : Outcome Value :=
  match f with
  | .int _ => .fail .intNotCallable
  | .str _ => .fail .strNotCallable
  | .builtin f => (run f args).mapError (.inCall f)

end Unbounded

/-- The value among those with integers of any size. -/
def Value.unbounded : Value → Unbounded.Value
  | .int n => .int n.toInt
  | .str text => .str text
  | .builtin f => .builtin f

/-- The error among those of evaluation with integers of any size, where nothing overflows. -/
def EvalError.unbounded? : EvalError → Option Unbounded.Error
  | .unknownVariable name => some (.unknownVariable name)
  | .intNotCallable => some .intNotCallable
  | .strNotCallable => some .strNotCallable
  | .expectedInt value => some (.expectedInt value.unbounded)
  | .expectedStr value => some (.expectedStr value.unbounded)
  | .expectedArgument => some .expectedArgument
  | .overflow => none
  | .inCall f cause => cause.unbounded?.map (.inCall f)

/-- What went wrong, whatever calls it went wrong in. -/
def EvalError.origin : EvalError → EvalError
  | .inCall _ cause => cause.origin
  | e => e

theorem EvalError.unbounded?_eq_none {e : EvalError}
    : e.unbounded? = none ↔ e.origin = .overflow := by
  induction e with
  | inCall f cause ih => simp [unbounded?, origin, ih]
  | _ => simp [unbounded?, origin]

namespace Unbounded

mutual

def eval (scope : Scope) : Expr → Outcome Value
  | .int n => .ok (.int n.toInt)
  | .str text => .ok (.str text)
  | .ref name =>
    match scope.get? name with
    | none => .fail (.unknownVariable name)
    | some value => .ok value.unbounded
  | .call func args => do
    let func ← eval scope func
    let args ← evalArgs scope args
    apply func args

def evalArgs (scope : Scope) : List Expr → Outcome (List Value)
  | [] => .ok []
  | arg :: rest => do
    let value ← eval scope arg
    let values ← evalArgs scope rest
    return value :: values

end

/--
How evaluation with 64 bits compares: as long as what is computed stays in range, it comes to the
same result; as soon as something does not, it overflows.
-/
inductive Checks {α β : Type} (f : α → β) : Except EvalError α → Outcome β → Prop where
  | value {a : α} {ns : List Int} (hrange : ∀ n ∈ ns, Checked.InRange n) :
      Checks f (.ok a) ⟨.ok (f a), ns⟩
  | error {e : EvalError} {e' : Error} {ns : List Int} (hrange : ∀ n ∈ ns, Checked.InRange n)
      (he : e.unbounded? = some e') : Checks f (.error e) ⟨.error e', ns⟩
  | overflow {e : EvalError} {result : Except Error β} {ns : List Int} {n : Int} (hmem : n ∈ ns)
      (hrange : ¬ Checked.InRange n) (he : e.unbounded? = none) :
      Checks f (.error e) ⟨result, ns⟩

namespace Checks

variable {α β γ δ : Type} {f : α → β} {g : γ → δ} {x : Except EvalError α} {y : Outcome β}

theorem ok (a : α) : Checks f (.ok a) (.ok (f a)) := .value (by simp)

theorem fail {e : EvalError} {e' : Error} (he : e.unbounded? = some e')
    : Checks f (.error e) (.fail e') :=
  .error (by simp) he

theorem after {ns : List Int} (hrange : ∀ n ∈ ns, Checked.InRange n) (h : Checks f x y)
    : Checks f x (y.after ns) := by
  cases h with
  | value hmore => exact .value (List.forall_mem_append.mpr ⟨hrange, hmore⟩)
  | error hmore he => exact .error (List.forall_mem_append.mpr ⟨hrange, hmore⟩) he
  | overflow hmem hout he => exact .overflow (List.mem_append_right ns hmem) hout he

theorem bind {k : α → Except EvalError γ} {l : β → Outcome δ} (h : Checks f x y)
    (hkl : ∀ a, Checks g (k a) (l (f a)))
    : Checks g (x >>= k) (y >>= l) := by
  cases h with
  | @value a ns hrange => exact (hkl a).after hrange
  | error hrange he => exact .error hrange he
  | @overflow e result ns n hmem hrange he =>
    -- one evaluation is over, the other goes on, but `n` stays on record
    cases result with
    | ok b => exact .overflow (List.mem_append_left _ hmem) hrange he
    | error _ => exact .overflow hmem hrange he

theorem map_eq_ok (h : Checks f x y) {b : β}
    : x.map f = .ok b ↔ y.result = .ok b ∧ ∀ n ∈ y.computed, Checked.InRange n := by
  cases h with
  | value hrange => simpa [Except.map] using fun _ => hrange
  | error hrange he => simp [Except.map]
  | overflow hmem hrange he =>
    simp only [Except.map, reduceCtorEq, false_iff, not_and]
    exact fun _ hall => hrange (hall _ hmem)

theorem fails_iff (h : Checks f x y) {e' : Error}
    : (∃ e, x = .error e ∧ e.unbounded? = some e') ↔
        y.result = .error e' ∧ ∀ n ∈ y.computed, Checked.InRange n := by
  cases h with
  | value hrange => simp
  | error hrange he => simpa [he] using fun _ => hrange
  | overflow hmem hrange he =>
    simp only [Except.error.injEq, exists_eq_left', he, reduceCtorEq, false_iff, not_and]
    exact fun _ hall => hrange (hall _ hmem)

theorem overflows_iff (h : Checks f x y)
    : (∃ e, x = .error e ∧ e.origin = .overflow) ↔ ∃ n ∈ y.computed, ¬ Checked.InRange n := by
  simp only [← EvalError.unbounded?_eq_none]
  cases h with
  | value hrange => simpa using hrange
  | error hrange he => simpa [he] using hrange
  | overflow hmem hrange he => simpa [he] using ⟨_, hmem, hrange⟩

theorem inCall (b : Builtin) (h : Checks f x y)
    : Checks f (x.mapError (.inCall b)) (y.mapError (.inCall b)) := by
  cases h with
  | value hrange => exact .value hrange
  | error hrange he => exact .error hrange (by rw [EvalError.unbounded?, he]; rfl)
  | overflow hmem hrange he => exact .overflow hmem hrange (by rw [EvalError.unbounded?, he]; rfl)

end Checks

theorem ints_checks (args : List Lisp.Value)
    : Checks (List.map Int64.toInt) (Builtin.ints args) (ints (args.map Value.unbounded)) := by
  induction args with
  | nil => exact .ok []
  | cons arg args ih =>
    cases arg with
    | int n => exact ih.bind fun ns => .ok (n :: ns)
    | str | builtin => exact .fail rfl

theorem strs_checks (args : List Lisp.Value)
    : Checks id (Builtin.strs args) (strs (args.map Value.unbounded)) := by
  induction args with
  | nil => exact .ok []
  | cons arg args ih =>
    cases arg with
    | str text => exact ih.bind fun texts => .ok (text :: texts)
    | int | builtin => exact .fail rfl

section Arithmetic

theorem checked_checks (n : Int)
    : Checks Int64.toInt (Builtin.checked (Checked.ofInt? n)) ⟨.ok n, [n]⟩ := by
  cases h : Checked.ofInt? n with
  | none => exact .overflow (List.mem_singleton_self n) (Checked.ofInt?_eq_none_iff.mp h) rfl
  | some value =>
    rw [Checked.ofInt?_eq_some_iff] at h
    rw [← h]
    exact .value (by simp [Checked.inRange_toInt])

theorem accumulate_cons (op : Int → Int → Int) (acc n : Int) (ns : List Int)
    : accumulate op acc (n :: ns) = (accumulate op (op acc n) ns).after [acc] := by
  simp [accumulate, Outcome.after, List.scanl_cons]

theorem mem_computed_accumulate (op : Int → Int → Int) (acc : Int) (ns : List Int)
    : acc ∈ (accumulate op acc ns).computed := by
  cases ns <;> simp [accumulate, List.scanl_cons]

theorem accumulate_checks {op : Int64 → Int64 → Option Int64} {exact : Int → Int → Int}
    (hop : ∀ a b, op a b = Checked.ofInt? (exact a.toInt b.toInt)) (acc : Int64) (ns : List Int64)
    : Checks Int64.toInt (Builtin.accumulate op acc ns)
        (accumulate exact acc.toInt (ns.map Int64.toInt)) := by
  induction ns generalizing acc with
  | nil => exact .value (by simp [Checked.inRange_toInt])
  | cons n ns ih =>
    rw [Builtin.accumulate, List.map_cons, accumulate_cons, hop]
    apply Checks.after (by simp [Checked.inRange_toInt])
    cases h : Checked.ofInt? (exact acc.toInt n.toInt) with
    | none =>
      exact .overflow (mem_computed_accumulate exact _ _) (Checked.ofInt?_eq_none_iff.mp h) rfl
    | some next =>
      rw [Checked.ofInt?_eq_some_iff] at h
      rw [← h]
      exact ih next

theorem difference_checks (ns : List Int64)
    : Checks Int64.toInt (Builtin.difference ns) (difference (ns.map Int64.toInt)) := by
  match ns with
  | [] => exact .fail rfl
  | [n] => exact checked_checks (-n.toInt)
  | n :: k :: rest => exact accumulate_checks (fun _ _ => rfl) n (k :: rest)

end Arithmetic

theorem ofInts_checks {f : List Int64 → Except EvalError Int64} {g : List Int → Outcome Int}
    (h : ∀ ns, Checks Int64.toInt (f ns) (g (ns.map Int64.toInt))) (args : List Lisp.Value)
    : Checks Value.unbounded (do return .int (← f (← Builtin.ints args)))
        (do return .int (← g (← ints (args.map Value.unbounded)))) := by
  apply (ints_checks args).bind
  intro ns
  apply (h ns).bind
  exact fun n => .ok (Lisp.Value.int n)

theorem run_checks (f : Builtin) (args : List Lisp.Value)
    : Checks Value.unbounded (f.run args) (run f (args.map Value.unbounded)) := by
  cases f with
  | add => exact ofInts_checks (accumulate_checks (fun _ _ => rfl) 0) args
  | sub => exact ofInts_checks difference_checks args
  | mul => exact ofInts_checks (accumulate_checks (fun _ _ => rfl) 1) args
  | concat =>
    apply (strs_checks args).bind
    exact fun texts => .ok (Lisp.Value.str (String.join texts))

theorem apply_checks (f : Lisp.Value) (args : List Lisp.Value)
    : Checks Value.unbounded (f.apply args) (apply f.unbounded (args.map Value.unbounded)) := by
  cases f with
  | int | str => exact .fail rfl
  | builtin f => exact (run_checks f args).inCall f

mutual

theorem eval_checks (scope : Scope)
    : ∀ e : Expr, Checks Value.unbounded (e.eval scope) (eval scope e)
  | .int n => by
    rw [Expr.eval, eval]
    exact .ok (Lisp.Value.int n)
  | .str text => by
    rw [Expr.eval, eval]
    exact .ok (Lisp.Value.str text)
  | .ref name => by
    rw [Expr.eval, eval]
    cases scope.get? name with
    | none => exact .fail rfl
    | some value => exact .ok value
  | .call func args => by
    rw [Expr.eval, eval]
    apply (eval_checks scope func).bind
    intro f
    apply (evalArgs_checks scope args).bind
    exact fun values => apply_checks f values

theorem evalArgs_checks (scope : Scope)
    : ∀ es : List Expr, Checks (List.map Value.unbounded) (Expr.evalArgs scope es)
        (evalArgs scope es)
  | [] => by
    rw [Expr.evalArgs, evalArgs]
    exact .ok []
  | e :: es => by
    rw [Expr.evalArgs, evalArgs]
    apply (eval_checks scope e).bind
    intro value
    apply (evalArgs_checks scope es).bind
    exact fun values => .ok (value :: values)

end

end Unbounded

/--
Evaluation with 64 bits is exact. It comes to the value or to the error that evaluation with
integers of any size comes to, as long as everything computed on the way is in range: sums, products
and differences up to each argument, and negations. If one of these is out of range, and only then,
it overflows.
-/
theorem eval_exact (scope : Scope) (e : Expr)
    : (∀ value, (e.eval scope).map Value.unbounded = .ok value ↔
          (Unbounded.eval scope e).result = .ok value ∧
            ∀ n ∈ (Unbounded.eval scope e).computed, Checked.InRange n) ∧
        (∀ err, (∃ err', e.eval scope = .error err' ∧ err'.unbounded? = some err) ↔
          (Unbounded.eval scope e).result = .error err ∧
            ∀ n ∈ (Unbounded.eval scope e).computed, Checked.InRange n) ∧
        ((∃ err, e.eval scope = .error err ∧ err.origin = .overflow) ↔
          ∃ n ∈ (Unbounded.eval scope e).computed, ¬ Checked.InRange n) := by
  have h := Unbounded.eval_checks scope e
  exact ⟨fun _ => h.map_eq_ok, fun _ => h.fails_iff, h.overflows_iff⟩

/-- The total would be in range, but not the sum of the first two. -/
theorem eval_exact_sum
    : ∃ e : Expr, e.render = "(add 9223372036854775807 1 -1)" ∧
        (Unbounded.eval .builtins e).result = .ok (.int 9223372036854775807) ∧
        ∃ err, e.eval .builtins = .error err ∧ err.origin = .overflow := by
  let e : Expr := .call (.ref "add") [.int 9223372036854775807, .int 1, .int (-1)]
  refine ⟨e, by decide, rfl, (eval_exact .builtins e).2.2.mpr ?_⟩
  exact ⟨9223372036854775808, by decide, by decide⟩

end Lisp

end GrammarKit
