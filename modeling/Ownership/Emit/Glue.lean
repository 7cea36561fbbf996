import Ownership.Emit.Reference

/-!
# Glue functions

The body of a glue function lets go of the fields of one record type.
Writing it may request further glue functions, so the requests are worked
off until none is left. A request is taken off the stack before its body
is written; if that fails, it is gone.
-/

namespace Ownership

/-- Work on a unit between functions. -/
abbrev UnitStep (α : Type) := Step EmitError CodeUnit α

namespace Emitter

/-- Code that lets go of one field of the record at `base`. -/
def releaseField (e : Emitter) (base : Operand) (record : TypeId) (r : FieldRelease) :
    Emit Unit := do
  let slot := r.slot
  let addr ← Emit.build (·.fieldAddr base record slot.index (UInt64.ofNat slot.offset))
  match r.action with
  | .release _ =>
    let v ← Emit.build (·.load slot.type (.value addr))
    e.release (.value v) slot.type
  | .descend => e.releaseContents (.value addr) slot.type

/-- The body of the glue function of a type. -/
def glueBody (e : Emitter) (ty : TypeId) (plan : ReleasePlan) : Emit Unit := do
  let d ← get
  plan.forM (e.releaseField (.value (d.builder.param 0)) ty)
  Emit.edit (·.ret none)

/-- Runs an emission into a new function; the result is the builder. -/
def inFunction (b : Builder) (x : Emit Unit) : UnitStep Builder := fun unit =>
  match x.run ⟨unit, b⟩ with
  | .ok _ d => .ok d.builder d.unit
  | .error s d => .error s d.unit

/-- Gives a glue function its body. -/
def defineGlue (e : Emitter) (ty : TypeId) (id : FuncId) : UnitStep Unit := do
  let plan ← Step.lift .layout (e.layouts.plan ty)
  let u ← get
  let declared ← Step.ofOption .dangling (u.function? id)
  let b ← inFunction (.new declared.name [.ptr] .unit) (e.glueBody ty plan)
  let u ← get
  let u ← Step.ofOption .dangling (u.setFunction? id b.function)
  set u

/-- Works off at most `limit` requests, the newest first; the result is
their number. -/
def drainGlue (e : Emitter) : (limit : Nat) → UnitStep Nat
  | 0 => do
    let u ← get
    if u.pending.isEmpty then return 0 else Step.giveUp .endless
  | limit + 1 => do
    let u ← get
    match u.pending with
    | [] => return 0
    | (ty, id) :: rest =>
      set { u with pending := rest }
      e.defineGlue ty id
      let n ← e.drainGlue limit
      return n + 1

/-- Writes the bodies of all requested glue functions, and of those that
they request; the result is their number. There is at most one request for
each type of the pool. -/
def emitPendingGlue (e : Emitter) : UnitStep Nat := do
  let u ← get
  e.drainGlue (u.pending.length + e.pool.size)

end Emitter

end Ownership
