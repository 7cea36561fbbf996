import Ownership.Layout.Basic

/-!
# Layout queries

The layouts of the types of a pool at a word width. A query fills a cache
that later queries may use, and keeps the set of records that are being
sized: meeting one of them again means that it contains itself. The
recursion goes from a record to the types of its fields; as the records
on the way are all different it is never deeper than the pool is large.

`Layouts.value`, `record`, `ref` and `plan` are the answers of a query
with an empty cache.
-/

namespace Ownership

/-- What the queries so far have found out. -/
structure LayoutCache where
  values : List (TypeId × ValueLayout) := []
  records : List (TypeId × RecordLayout) := []
  plans : List (TypeId × ReleasePlan) := []
  /-- The records that are being sized. -/
  sizing : List TypeId := []
  deriving DecidableEq, Repr

/-- A question about layouts. -/
abbrev LayoutQuery (α : Type) := Step LayoutError LayoutCache α

/-- The layouts of the types of a pool, for words of a width. -/
structure Layouts where
  pool : Pool
  width : PointerWidth

namespace Layouts

/-- Size of a word. -/
def word (L : Layouts) : Nat := L.width.bytes

/-- The layout of words, addresses and references. -/
def wordLayout (L : Layouts) : ValueLayout := ⟨L.word, L.word⟩

def primitiveLayout (L : Layouts) : Primitive → ValueLayout
  | .int | .float => ⟨8, 8⟩
  | .i32 => ⟨4, 4⟩
  | .bool | .byte => ⟨1, 1⟩
  | .unit => ⟨0, 1⟩
  | .usize | .ptr => L.wordLayout

/-- How deep a query may go. -/
def depth (L : Layouts) : Nat := L.pool.size + 1

/-! ## Sizes -/

/-- Runs `x` with `ty` among the records being sized. -/
def whileSizing {α : Type} (ty : TypeId) (x : LayoutQuery α) : LayoutQuery α := fun cache =>
  match x.run { cache with sizing := ty :: cache.sizing } with
  | .ok a after => .ok a { after with sizing := after.sizing.erase ty }
  | .error e after => .error e { after with sizing := after.sizing.erase ty }

/-- Places fields whose layouts `measure` finds. -/
def placeFields (measure : TypeId → LayoutQuery ValueLayout) :
    List FieldDef → Placement → LayoutQuery RecordLayout
  | [], p => Step.ofAbort p.finish
  | field :: fields, p => do
    let layout ← measure field.type
    let p ← Step.ofAbort (p.add field layout)
    placeFields measure fields p

/-- The layout of a record; a type that is none has no fields. -/
def recordWith (L : Layouts) (measure : TypeId → LayoutQuery ValueLayout) (ty : TypeId) :
    LayoutQuery RecordLayout := do
  let cache ← get
  match cache.records.lookup ty with
  | some layout => return layout
  | none =>
    if cache.sizing.contains ty then Step.fail (.infiniteSize ty)
    else
      let layout ← whileSizing ty (placeFields measure (L.pool.fields ty) .start)
      modify fun cache => { cache with records := (ty, layout) :: cache.records }
      return layout

/-- The layout of a value, looking into at most `depth` levels of records. -/
def valueWithin (L : Layouts) : (depth : Nat) → TypeId → LayoutQuery ValueLayout
  | 0, _ => Step.giveUp .endless
  | depth + 1, ty =>
    match ty.primitive? with
    | some p => return L.primitiveLayout p
    | none => do
      let cache ← get
      match cache.values.lookup ty with
      | some layout => return layout
      | none =>
        let layout ← match L.pool.tag ty with
          | .record => do
            let record ← L.recordWith (L.valueWithin depth) ty
            pure record.value
          | .reference => pure L.wordLayout
          | .primitive p => pure (L.primitiveLayout p)
        modify fun cache => { cache with values := (ty, layout) :: cache.values }
        return layout

/-- Asks for size and alignment of a type. -/
def queryValue (L : Layouts) (ty : TypeId) : LayoutQuery ValueLayout := L.valueWithin L.depth ty

/-- Asks for the layout of a record. -/
def queryRecord (L : Layouts) (ty : TypeId) : LayoutQuery RecordLayout :=
  L.recordWith L.queryValue ty

/-! ## References -/

/-- Size of the header in front of a pointee. -/
def header (L : Layouts) (region : Region) (value : ValueLayout) : Except Abort Nat :=
  match region with
  | .counted => alignSize L.word value.align
  | .owning | .borrowed => .ok 0

/-- Asks for the block behind a reference. -/
def queryRef (L : Layouts) (ty : TypeId) : LayoutQuery RefLayout :=
  match L.pool.reference? ty with
  | none => Step.fail (.notReference ty)
  | some (region, pointee) => do
    let value ← L.queryValue pointee
    let header ← Step.ofAbort (L.header region value)
    return ⟨region, pointee, value, header⟩

/-! ## Release plans -/

/-- How the field in a slot is let go of; `inner` finds the plans of records. -/
def slotAction (L : Layouts) (inner : TypeId → LayoutQuery ReleasePlan) (slot : FieldSlot) :
    LayoutQuery (Option FieldAction) :=
  match L.pool.item? slot.type with
  | some (.reference .borrowed _) | none => return none
  | some (.reference region _) => return some (.release region)
  | some (.record _) => do
    let plan ← inner slot.type
    return if plan.isTrivial then none else some .descend

/-- The releases for a list of slots. -/
def planSlots (L : Layouts) (inner : TypeId → LayoutQuery ReleasePlan) :
    List FieldSlot → LayoutQuery ReleasePlan
  | [] => return []
  | slot :: slots => do
    let action ← L.slotAction inner slot
    let rest ← L.planSlots inner slots
    return match action with
      | some action => ⟨slot, action⟩ :: rest
      | none => rest

/-- The release plan of a value, looking into at most `depth` levels of records. -/
def planWithin (L : Layouts) : (depth : Nat) → TypeId → LayoutQuery ReleasePlan
  | 0, _ => Step.giveUp .endless
  | depth + 1, ty => do
    let cache ← get
    match cache.plans.lookup ty with
    | some plan => return plan
    | none =>
      let plan ← match L.pool.record? ty with
        | some _ => do
          let layout ← L.queryRecord ty
          L.planSlots (L.planWithin depth) layout.fields
        | none => pure []
      modify fun cache => { cache with plans := (ty, plan) :: cache.plans }
      return plan

/-- Asks what has to be let go of inside a value. -/
def queryPlan (L : Layouts) (ty : TypeId) : LayoutQuery ReleasePlan := L.planWithin L.depth ty

/-! ## Answers -/

/-- Size and alignment of a type. -/
def value (L : Layouts) (ty : TypeId) : Except (Stop LayoutError) ValueLayout :=
  (L.queryValue ty).answer {}

/-- The layout of a record. -/
def record (L : Layouts) (ty : TypeId) : Except (Stop LayoutError) RecordLayout :=
  (L.queryRecord ty).answer {}

/-- The block behind a reference. -/
def ref (L : Layouts) (ty : TypeId) : Except (Stop LayoutError) RefLayout :=
  (L.queryRef ty).answer {}

/-- What has to be let go of inside a value. -/
def plan (L : Layouts) (ty : TypeId) : Except (Stop LayoutError) ReleasePlan :=
  (L.queryPlan ty).answer {}

end Layouts

end Ownership
