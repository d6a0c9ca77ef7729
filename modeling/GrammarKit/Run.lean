import GrammarKit.Failure

/-!
This module contains `Run`, the outcome of evaluating a rule: a result, and the failures that were
swallowed on the way to it. A run that has not settled within its bound has neither.
-/

namespace GrammarKit

/--
A result, or nothing where the evaluation behind it has not settled.
-/
abbrev Eventually (ε : Type) : Type → Type :=
  ExceptT ε Option

/--
An evaluation that may have settled: how it ended, and the failures it swallowed, oldest first.
-/
inductive Run (α : Type) where
  | unsettled
  | settled (result : Except Failure α) (swallowed : List Failure)

namespace Run

variable {α β γ : Type}

def ok (value : α) : Run α := .settled (.ok value) []

def fail (e : Failure) : Run α := .settled (.error e) []

def after (log : List Failure) : Run α → Run α
  | .unsettled => .unsettled
  | .settled result more => .settled result (log ++ more)

/--
Go on with the value of a run. A failure ends the whole run; what is swallowed adds up in order.
-/
def andThen (x : Run α) (f : α → Run β) : Run β :=
  match x with
  | .unsettled => .unsettled
  | .settled (.error e) log => .settled (.error e) log
  | .settled (.ok a) log => (f a).after log

instance : Monad Run where
  pure := ok
  bind := andThen

/--
Make the result a value, so that a failure does not end the run.
-/
def attempt : Run α → Run (Except Failure α)
  | .unsettled => .unsettled
  | .settled result log => .settled (.ok result) log

def swallow (e : Failure) : Run Unit :=
  .settled (.ok ()) [e]

def toEventually : Run α → Eventually Failure α
  | .unsettled => .mk none
  | .settled result _ => .mk (some result)

def ofEventually (x : Eventually Failure α) : Run α :=
  match x.run with
  | none => .unsettled
  | some result => .settled result []

@[simp]
theorem pure_eq (a : α) : (pure a : Run α) = ok a := rfl

@[simp]
theorem bind_eq (x : Run α) (f : α → Run β) : x >>= f = x.andThen f := rfl

@[simp]
theorem after_nil (x : Run α) : after [] x = x := by
  cases x <;> rfl

@[simp]
theorem after_after (log more : List Failure) (x : Run α) :
    after log (after more x) = after (log ++ more) x := by
  cases x <;> simp [after]

@[simp]
theorem unsettled_andThen (f : α → Run β) : andThen unsettled f = unsettled := rfl

@[simp]
theorem fail_andThen (e : Failure) (f : α → Run β) : andThen (fail e) f = fail e := rfl

@[simp]
theorem ok_andThen (a : α) (f : α → Run β) : andThen (ok a) f = f a := by
  simp [andThen, ok]

@[simp]
theorem andThen_ok (x : Run α) : andThen x ok = x := by
  match x with
  | .unsettled => rfl
  | .settled (.error e) log => rfl
  | .settled (.ok a) log => simp [andThen, ok, after]

theorem after_andThen (log : List Failure) (x : Run α) (f : α → Run β) :
    andThen (after log x) f = after log (andThen x f) := by
  match x with
  | .unsettled => rfl
  | .settled (.error e) more => rfl
  | .settled (.ok a) more => exact (after_after log more (f a)).symm

theorem andThen_assoc (x : Run α) (f : α → Run β) (g : β → Run γ) :
    (x.andThen f).andThen g = x.andThen fun a => (f a).andThen g := by
  match x with
  | .unsettled => rfl
  | .settled (.error e) log => rfl
  | .settled (.ok a) log => exact after_andThen log (f a) g

instance : LawfulMonad Run :=
  LawfulMonad.mk' Run (fun x => andThen_ok x) (fun a f => ok_andThen a f)
    (fun x f g => andThen_assoc x f g)

end Run

end GrammarKit
