/-!
# Ways to stop

An operation of this library ends in a value, in an *error* of its own
domain, or in an *abort*. After an error the caller goes on with
whatever state the operation left behind; after an abort there is no
state to go on with.
-/

namespace Ownership

/-- Why an operation gives up without an answer. -/
inductive Abort where
  /-- A size or an address does not fit in 64 bits. -/
  | overflow
  /-- A buffer would be larger than any memory. -/
  | capacity
  /-- An access outside the bounds of a buffer. -/
  | bounds
  /-- An id that names no block, function or external symbol. -/
  | dangling
  /-- A computation that would never end. -/
  | endless
  deriving DecidableEq, Repr

/-- How an operation with errors in `ε` ends when it has no value. -/
inductive Stop (ε : Type) where
  | error (e : ε)
  | abort (a : Abort)
  deriving DecidableEq, Repr

namespace Stop

/-- The same end, with its error seen as one of a wider domain. -/
def map {ε ε' : Type} (f : ε → ε') : Stop ε → Stop ε'
  | .error e => .error (f e)
  | .abort a => .abort a

end Stop

/-- A computation on a state `σ` that keeps the state when it fails. -/
abbrev Step (ε σ α : Type) := EStateM (Stop ε) σ α

namespace Step

/-- Fails with an error of the domain. -/
def fail {ε σ α : Type} (e : ε) : Step ε σ α := throw (.error e)

/-- Fails with an error unless a condition holds. -/
def require {ε σ : Type} (ok : Bool) (e : ε) : Step ε σ Unit := if ok then pure () else fail e

/-- Gives up. -/
def giveUp {ε σ α : Type} (a : Abort) : Step ε σ α := throw (.abort a)

/-- The value of `x`, with its errors seen as errors of a wider domain. -/
def lift {ε ε' σ α : Type} (f : ε → ε') : Except (Stop ε) α → Step ε' σ α
  | .ok a => pure a
  | .error s => throw (s.map f)

/-- The value of `x`, which either succeeds or aborts. -/
def ofAbort {ε σ α : Type} : Except Abort α → Step ε σ α
  | .ok a => pure a
  | .error a => throw (.abort a)

/-- The value of `x`, or an abort where there is none. -/
def ofOption {ε σ α : Type} (a : Abort) : Option α → Step ε σ α
  | some x => pure x
  | none => throw (.abort a)

/-- The answer of `x` started in the state `s`; the state it leaves is dropped. -/
def answer {ε σ α : Type} (x : Step ε σ α) (s : σ) : Except (Stop ε) α :=
  match x.run s with
  | .ok a _ => .ok a
  | .error e _ => .error e

/-! ## What they do to a state -/

variable {ε ε' σ α : Type}

@[simp]
theorem run_fail (e : ε) (s : σ) : (fail e : Step ε σ α).run s = .error (.error e) s := rfl

@[simp]
theorem run_giveUp (a : Abort) (s : σ) : (giveUp a : Step ε σ α).run s = .error (.abort a) s := rfl

@[simp]
theorem run_require (ok : Bool) (e : ε) (s : σ) :
    (require ok e : Step ε σ Unit).run s = if ok then .ok () s else .error (.error e) s := by
  cases ok <;> rfl

@[simp]
theorem run_lift_ok (f : ε → ε') (a : α) (s : σ) :
    (lift f (.ok a) : Step ε' σ α).run s = .ok a s := rfl

@[simp]
theorem run_lift_error (f : ε → ε') (e : Stop ε) (s : σ) :
    (lift f (.error e) : Step ε' σ α).run s = .error (e.map f) s := rfl

@[simp]
theorem run_ofAbort_ok (a : α) (s : σ) : (ofAbort (.ok a) : Step ε σ α).run s = .ok a s := rfl

@[simp]
theorem run_ofAbort_error (a : Abort) (s : σ) :
    (ofAbort (.error a) : Step ε σ α).run s = .error (.abort a) s := rfl

@[simp]
theorem run_ofOption_some (a : Abort) (x : α) (s : σ) :
    (ofOption a (some x) : Step ε σ α).run s = .ok x s := rfl

@[simp]
theorem run_ofOption_none (a : Abort) (s : σ) :
    (ofOption a none : Step ε σ α).run s = .error (.abort a) s := rfl

end Step

end Ownership
