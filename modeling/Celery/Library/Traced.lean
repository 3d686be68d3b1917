/-
# Computations that make calls and may raise

`Traced κ ε α` is a finished computation: the calls of type `κ` it made, in
order, and its value in `α` or the exception in `ε` it ended with.  What the
outside world answers is fixed in advance, so a computation is no function of a
state.  It is a monad, `attempt` is the `try` of a `try … except`, and a
`finally` is an `attempt` followed by `restore`.
-/

import Mathlib.Data.List.Basic
import Mathlib.Tactic.Common

/-- The calls of a computation and how it ended. -/
structure Traced (κ ε α : Type) where
  calls : List κ
  result : Except ε α

namespace Traced

variable {κ ε α β : Type}

instance : Monad (Traced κ ε) where
  pure a := ⟨[], .ok a⟩
  bind x f := match x.result with
    | .ok a => ⟨x.calls ++ (f a).calls, (f a).result⟩
    | .error e => ⟨x.calls, .error e⟩

instance : LawfulMonad (Traced κ ε) := LawfulMonad.mk' _
  (fun x => by
    obtain ⟨calls, result⟩ := x
    cases result with
    | error e => rfl
    | ok a => exact congrArg (Traced.mk · _) (List.append_nil calls))
  (fun _ _ => rfl)
  (fun x f g => by
    obtain ⟨calls, result⟩ := x
    cases result with
    | error e => rfl
    | ok a =>
      show (Traced.mk (calls ++ (f a).calls) (f a).result >>= g)
        = ⟨calls ++ (f a >>= g).calls, (f a >>= g).result⟩
      generalize f a = y
      obtain ⟨calls', result'⟩ := y
      cases result' with
      | error e => rfl
      | ok b => exact congrArg (Traced.mk · _) (List.append_assoc calls calls' (g b).calls))

/-- `raise e`. -/
def raise (e : ε) : Traced κ ε α := ⟨[], .error e⟩

/-- A call, and the exception it answers with, if any. -/
def call (c : κ) (outcome : Option ε) : Traced κ ε Unit :=
  ⟨[c], match outcome with
    | none => .ok ()
    | some e => .error e⟩

/-- Run `x`, and go on with how it ended. -/
def attempt (x : Traced κ ε α) : Traced κ ε (Except ε α) := ⟨x.calls, .ok x.result⟩

/-- Go on with a value, or raise again. -/
def restore (r : Except ε α) : Traced κ ε α := ⟨[], r⟩

@[simp] theorem pure_calls (a : α) : (pure a : Traced κ ε α).calls = [] := rfl

@[simp] theorem pure_result (a : α) : (pure a : Traced κ ε α).result = .ok a := rfl

@[simp] theorem raise_calls (e : ε) : (raise e : Traced κ ε α).calls = [] := rfl

@[simp] theorem raise_result (e : ε) : (raise e : Traced κ ε α).result = .error e := rfl

@[simp] theorem restore_calls (r : Except ε α) : (restore r : Traced κ ε α).calls = [] := rfl

@[simp] theorem restore_result (r : Except ε α) : (restore r : Traced κ ε α).result = r := rfl

@[simp] theorem call_calls (c : κ) (o : Option ε) : (call c o).calls = [c] := rfl

@[simp] theorem call_none (c : κ) : (call c (none : Option ε)).result = .ok () := rfl

@[simp] theorem call_some (c : κ) (e : ε) : (call c (some e)).result = .error e := rfl

/-- What follows a value. -/
theorem bind_of_ok {x : Traced κ ε α} {a : α} (h : x.result = .ok a) (f : α → Traced κ ε β) :
    (x >>= f) = ⟨x.calls ++ (f a).calls, (f a).result⟩ := by
  change (match x.result with | .ok a => _ | .error e => _) = _
  rw [h]

/-- Nothing follows an exception. -/
theorem bind_of_error {x : Traced κ ε α} {e : ε} (h : x.result = .error e)
    (f : α → Traced κ ε β) : (x >>= f) = ⟨x.calls, .error e⟩ := by
  change (match x.result with | .ok a => _ | .error e => _) = _
  rw [h]

/-- What follows a `try`. -/
@[simp] theorem attempt_bind (x : Traced κ ε α) (f : Except ε α → Traced κ ε β) :
    (attempt x >>= f) = ⟨x.calls ++ (f x.result).calls, (f x.result).result⟩ := rfl

end Traced
