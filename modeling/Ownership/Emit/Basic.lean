import Ownership.Code.Builder
import Ownership.Code.CodeUnit
import Ownership.Layout.Table
import Ownership.RecordLiteral

/-!
# Emitting code

An `Emitter` knows the layouts of the program's types and the settings of
the target. It works on a `Draft`: the unit that is being filled and the
function under construction. An operation that fails leaves the draft as
far as it had come.
-/

namespace Ownership

/-- An operation that only makes sense for some regions. -/
inductive RefOperation where
  | allocate
  | adjustCount
  deriving DecidableEq, Repr

def RefOperation.name : RefOperation → String
  | .allocate => "allocate"
  | .adjustCount => "adjust_count"

/-- Why code cannot be emitted. -/
inductive EmitError where
  | borrowed (op : RefOperation) (type : String)
  | notCounted (type : String)
  | zeroDelta
  | heapUnavailable
  | noInsertionPoint
  | literal (e : LiteralError)
  | layout (e : LayoutError)
  deriving DecidableEq, Repr

def EmitError.message (pool : Pool) : EmitError → Except Abort String
  | .borrowed op ty =>
    .ok ("internal error: `" ++ op.name ++ "` called on borrowed reference type `" ++ ty ++ "`")
  | .notCounted ty => .ok ("internal error: reference type `" ++ ty ++ "` is not reference-counted")
  | .zeroDelta => .ok "internal error: reference count adjustment of zero"
  | .heapUnavailable => .ok "target environment provides no heap allocation primitives"
  | .noInsertionPoint => .ok "internal error: no insertion point for memory codegen"
  | .literal e => .ok e.message
  | .layout e => e.message pool

/-- A unit and the function under construction in it. -/
structure Draft where
  unit : CodeUnit
  builder : Builder
  deriving DecidableEq

/-- Emission of code into a draft. -/
abbrev Emit (α : Type) := Step EmitError Draft α

namespace Emit

/-- Lets the builder make something. -/
def build {α : Type} (f : Builder → α × Builder) : Emit α :=
  modifyGet fun d => let (a, builder) := f d.builder; (a, { d with builder })

/-- Changes the function under construction. -/
def edit (f : Builder → Builder) : Emit Unit :=
  modify fun d => { d with builder := f d.builder }

@[simp]
theorem run_build {α : Type} (f : Builder → α × Builder) (d : Draft) :
    (build f).run d = .ok (f d.builder).1 { d with builder := (f d.builder).2 } := rfl

@[simp]
theorem run_edit (f : Builder → Builder) (d : Draft) :
    (edit f).run d = .ok () { d with builder := f d.builder } := rfl

/-- Moves to the end of a block, which has to be there. -/
def moveTo (id : BlockId) : Emit Unit := do
  let d ← get
  if h : id.index < d.builder.function.blocks.length then
    set { d with builder := d.builder.moveTo id h }
  else Step.giveUp .dangling

theorem run_moveTo (id : BlockId) (d : Draft) :
    (moveTo id).run d = if h : id.index < d.builder.function.blocks.length then
      .ok () { d with builder := d.builder.moveTo id h } else .error (.abort .dangling) d := by
  change (if h : _ then set _ else Step.giveUp .dangling : Emit Unit).run d = _
  split <;> rfl

theorem run_moveTo_ok {id : BlockId} {d : Draft}
    (h : id.index < d.builder.function.blocks.length) :
    (moveTo id).run d = .ok () { d with builder := d.builder.moveTo id h } := by
  rw [run_moveTo, dif_pos h]

/-- The answer of a layout query. -/
def layout {α : Type} (x : Except (Stop LayoutError) α) : Emit α := Step.lift .layout x

/-- Fails unless there is an open block. -/
def requirePoint : Emit Unit := do
  let d ← get
  Step.require d.builder.insertionBlock?.isSome .noInsertionPoint

/-- Goes to a block that traps if `cond` holds, and otherwise on in a new block. -/
def trapIf (cond : Operand) (cause : TrapCause) (label : String) : Emit Unit := do
  let trapBlock ← build (·.appendBlock cause.keyword)
  let nextBlock ← build (·.appendBlock label)
  edit (·.branch cond trapBlock nextBlock)
  moveTo trapBlock
  edit (·.trap cause)
  moveTo nextBlock

end Emit

/-- What emission depends on. -/
structure Emitter where
  layouts : Layouts
  config : Config

namespace Emitter

def pool (e : Emitter) : Pool := e.layouts.pool

/-- Fails with an error that shows a type. -/
def failShowing {α : Type} (e : Emitter) (ty : TypeId) (err : String → EmitError) : Emit α := do
  let text ← Step.ofAbort (e.pool.display ty)
  Step.fail (err text)

/-- Fails with an error that shows a type, unless a condition holds. -/
def requireShowing (e : Emitter) (ok : Bool) (ty : TypeId) (err : String → EmitError) : Emit Unit :=
  if ok then pure () else e.failShowing ty err

/-- The heap symbols, declared now if they are needed for the first time. -/
def requireHeap (e : Emitter) : Emit HeapPrimitives := do
  let d ← get
  match d.unit.requireHeap? e.config.target with
  | some (heap, unit) =>
    set { d with unit }
    return heap
  | none => Step.fail .heapUnavailable

/-- A number as a word of the target. -/
def wordConst (e : Emitter) (n : Int64) : Operand :=
  .const (.usize (e.config.target.width.truncate n.toUInt64))

/-- The name of the glue function of a type. -/
def glueName (e : Emitter) (ty : TypeId) : String := e.config.gluePrefix ++ toString ty.raw

end Emitter

end Ownership
