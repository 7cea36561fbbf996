import Ownership.Emit.Basic

/-!
# The life of a reference

Code that allocates the block behind a reference and fills it, code that
adjusts the counter of a shared block, and code that releases a
reference: the contents of a block are let go of before the block is
freed. Letting go of the contents of a record is the work of its glue
function, which is requested here and gets its body later.
-/

namespace Ownership

/-- What a new block is filled with. -/
inductive Initial where
  | value (v : Operand)
  /-- Values for the leading fields of a record. -/
  | fields (vs : List Operand)
  deriving DecidableEq

namespace Emitter

/-! ## Allocation -/

/-- The operand for a field of a literal with the values `vs`. -/
def fieldOperand (vs : List Operand) : FieldSource → Except Abort Operand
  | .provided index =>
    match vs[index]? with
    | some v => .ok v
    | none => .error .bounds
  | .default value => .ok (.const (.literal value))

/-- Stores one field of a record. -/
def storeField (base : ValueId) (record : TypeId) (vs : List Operand)
    (entry : FieldSlot × FieldSource) : Emit Unit := do
  let slot := entry.1
  let v ← Step.ofAbort (fieldOperand vs entry.2)
  let addr ← Emit.build (·.fieldAddr (.value base) record slot.index (UInt64.ofNat slot.offset))
  Emit.edit (·.store slot.type v (.value addr))

/-- Fills a record with the values `vs` and the defaults of the other fields. -/
def storeLiteral (e : Emitter) (base : ValueId) (record : TypeId) (vs : List Operand) :
    Emit Unit := do
  let d ← get
  let given := vs.map d.builder.function.operandType
  let sources ← Step.lift .literal (e.pool.checkLiteral record given)
  let layout ← Emit.layout (e.layouts.record record)
  (layout.fields.zip sources).forM (storeField base record vs)

/-- Writes the first count into the block, and moves behind the header. -/
def startCounter (e : Emitter) (layout : RefLayout) (block : ValueId) : Emit ValueId :=
  if layout.hasCounter then do
    Emit.edit (·.store .usize (e.wordConst 1) (.value block))
    Emit.build (·.offset (.value block) (Int64.ofInt (-layout.countOffset)))
  else pure block

/-- Code for a new reference of type `ty`. The values are checked against
the fields only after the block was allocated. -/
def allocate (e : Emitter) (ty : TypeId) (init : Initial) : Emit ValueId := do
  let layout ← Emit.layout (e.layouts.ref ty)
  e.requireShowing (layout.region ≠ .borrowed) ty (.borrowed .allocate)
  Emit.requirePoint
  let heap ← e.requireHeap
  let size ← Step.ofAbort layout.allocSize
  let block ← Emit.build (·.callExternal heap.alloc [.const (.usize (UInt64.ofNat size))] .ptr)
  let payload ← e.startCounter layout block
  let reference ← Emit.build (·.cast ty (.value payload))
  match init with
  | .value v => Emit.edit (·.store layout.pointee v (.value reference))
  | .fields vs => e.storeLiteral reference layout.pointee vs
  return reference

/-! ## Letting go of contents -/

/-- Code that lets go of the references inside the value of type `ty` at
`base`; nothing is emitted where there are none. -/
def releaseContents (e : Emitter) (base : Operand) (ty : TypeId) : Emit Unit := do
  let plan ← Emit.layout (e.layouts.plan ty)
  if plan.isTrivial then pure ()
  else
    Emit.requirePoint
    let d ← get
    let (glue, unit) := d.unit.requestGlue ty (e.glueName ty)
    set { d with unit }
    Emit.edit (·.callVoid glue [base])

/-! ## Counting -/

/-- The layout behind a counted reference. -/
def countedLayout (e : Emitter) (ty : TypeId) : Emit RefLayout := do
  let layout ← Emit.layout (e.layouts.ref ty)
  match layout.region with
  | .counted => return layout
  | .owning => e.failShowing ty .notCounted
  | .borrowed => e.failShowing ty (.borrowed .adjustCount)

/-- The negation of a number, cut off at the largest one. -/
def negateCapped (n : Int64) : Int64 := if n = Int64.minValue then Int64.maxValue else -n

/-- The address of the counter and its value. -/
def loadCounter (layout : RefLayout) (reference : Operand) : Emit (ValueId × ValueId) := do
  let counter ← Emit.build (·.offset reference (Int64.ofInt layout.countOffset))
  let old ← Emit.build (·.load .usize (.value counter))
  return (counter, old)

/-- Code that adds holders; it traps where the counter would wrap. -/
def increaseCount (e : Emitter) (layout : RefLayout) (reference : Operand) (delta : Int64) :
    Emit Unit := do
  let (counter, old) ← loadCounter layout reference
  let new ← Emit.build (·.add .usize (.value old) (e.wordConst delta))
  if e.config.checks = .trap then
    let wrapped ← Emit.build (·.cmp .lt .usize (.value new) (.value old))
    Emit.trapIf (.value wrapped) .countOverflow "rc.inc"
  Emit.edit (·.store .usize (.value new) (.value counter))

/-- Code that frees the block of a reference when its new count is zero. -/
def freeAtZero (e : Emitter) (heap : HeapPrimitives) (layout : RefLayout) (reference : Operand)
    (counter new : ValueId) : Emit Unit := do
  let isZero ← Emit.build (·.cmp .eq .usize (.value new) (.const (.usize 0)))
  let freeBlock ← Emit.build (·.appendBlock "rc.free")
  let liveBlock ← Emit.build (·.appendBlock "rc.live")
  Emit.edit (·.branch (.value isZero) freeBlock liveBlock)
  Emit.moveTo freeBlock
  e.releaseContents reference layout.pointee
  Emit.edit (·.callExternalVoid heap.free [.value counter])
  Emit.edit (·.jump liveBlock)
  Emit.moveTo liveBlock

/-- Code that takes holders away; it traps where there are fewer. -/
def decreaseCount (e : Emitter) (layout : RefLayout) (reference : Operand) (delta : Int64) :
    Emit Unit := do
  let heap ← e.requireHeap
  let (counter, old) ← loadCounter layout reference
  if e.config.checks = .trap then
    let amount := e.wordConst (negateCapped delta)
    let tooFew ← Emit.build (·.cmp .lt .usize (.value old) amount)
    Emit.trapIf (.value tooFew) .countUnderflow "rc.dec"
  let new ← Emit.build (·.add .usize (.value old) (e.wordConst delta))
  Emit.edit (·.store .usize (.value new) (.value counter))
  e.freeAtZero heap layout reference counter new

/-- Code that changes the number of holders of a counted block by `delta`
and frees the block when none is left. -/
def adjustCount (e : Emitter) (reference : Operand) (delta : Int64) (ty : TypeId) :
    Emit Unit := do
  Step.require (delta ≠ 0) .zeroDelta
  let layout ← e.countedLayout ty
  Emit.requirePoint
  if delta < 0 then e.decreaseCount layout reference delta
  else e.increaseCount layout reference delta

/-! ## Release -/

/-- Code that lets go of a reference; a borrowed one needs none. -/
def release (e : Emitter) (reference : Operand) (ty : TypeId) : Emit Unit := do
  let layout ← Emit.layout (e.layouts.ref ty)
  match layout.region with
  | .owning =>
    Emit.requirePoint
    let heap ← e.requireHeap
    e.releaseContents reference layout.pointee
    Emit.edit (·.callExternalVoid heap.free [reference])
  | .counted => e.adjustCount reference (-1) ty
  | .borrowed => return ()

end Emitter

end Ownership
