import Doors.Lib.Run

/-!
# Doors.Lib.Post

Postconditions of fallible code.

`Post ok x Q` — the computation `x` ends with a result that meets `Q`, or with
an error that `ok` accepts.  Proofs about sequences of operations go through
`Post.bind`, one specification per operation.
-/

namespace Run

variable {ε α β : Type} {ok : ε → Prop} {x : Except ε α} {Q R : α → Prop}

/-- `x` ends with a result in `Q` or an accepted error. -/
def Post (ok : ε → Prop) (x : Except ε α) (Q : α → Prop) : Prop :=
  match x with
  | .ok a => Q a
  | .error e => ok e

/-- A result meets its postcondition. -/
theorem Post.pure {a : α} (h : Q a) : Post ok (Except.ok a) Q := h

/-- An accepted error meets every postcondition. -/
theorem Post.throw {e : ε} (h : ok e) : Post ok (Except.error e) Q := h

/-- The postcondition of the first half is the precondition of the second. -/
theorem Post.bind {f : α → Except ε β} {S : β → Prop} (hx : Post ok x Q)
    (hf : ∀ a, Q a → Post ok (f a) S) :
    Post ok (x >>= f) S := by
  cases x with
  | ok a => exact hf a hx
  | error e => exact hx

theorem Post.pure_bind {a : α} {f : α → Except ε β} {S : β → Prop} (h : Post ok (f a) S) :
    Post ok (Except.ok a >>= f) S := h

/-- Postconditions may be weakened. -/
theorem Post.mono (hx : Post ok x Q) (h : ∀ a, Q a → R a) : Post ok x R := by
  cases x with
  | ok a => exact h a hx
  | error e => exact hx

/-- Two things that hold of one result. -/
theorem Post.and {ok' : ε → Prop} (hx : Post ok x Q) (hy : Post ok' x R) :
    Post ok x fun a => Q a ∧ R a := by
  cases x with
  | ok a => exact ⟨hx, hy⟩
  | error e => exact hx

/-- Nothing is asked of `x`. -/
theorem Post.trivial (x : Except ε α) : Post (fun _ => True) x fun _ => True := by
  cases x with
  | ok a => exact True.intro
  | error e => exact True.intro

/-- Any error may be accepted. -/
theorem Post.any (hx : Post ok x Q) : Post (fun _ => True) x Q := by
  cases x with
  | ok a => exact hx
  | error e => exact True.intro

/-- What the result of a computation that ended meets. -/
theorem Post.of_eq {a : α} (hx : Post ok x Q) (h : x = .ok a) : Q a := by
  subst h
  exact hx

end Run
