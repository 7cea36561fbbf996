import Ownership.Code.CodeUnit
import Ownership.Machine.Encoding

/-!
# Running code

A machine runs the functions of a unit on simulated memory. Every
instruction costs one step of a budget that all runs share; jumps are
free. The stack slots of a call end with it, whether it returns or
faults.

Runs are total. A call needs a step, so calls nest no deeper than the
budget. A visit of a block with instructions needs a step too, so a run
that visits more blocks than the budget allows has gone around a circle
of empty blocks, and would do so for ever.
-/

namespace Ownership

/-- Code together with the layouts it was made for. -/
structure Program where
  unit : CodeUnit
  layouts : Layouts

structure Machine where
  heap : Heap
  /-- Number of instructions that may still run. -/
  budget : Nat
  /-- The stack slots of the running call. -/
  slots : List Address

namespace Machine

/-- The budget of a machine for which none is chosen. -/
def defaultBudget : Nat := 1000000

def new (budget : Nat) : Machine := ⟨.initial, budget, []⟩

end Machine

/-- What happens on a machine. -/
abbrev Exec (α : Type) := Step Fault Machine α

namespace Exec

def outcome {α : Type} (x : Outcome α) : Exec α := Step.lift id x

/-- Takes one step from the budget. -/
def tick : Exec Unit := do
  let m ← get
  match m.budget with
  | 0 => Step.fail .stepLimit
  | budget + 1 => set { m with budget }

/-- Lets an operation change the memory. -/
def withHeap (f : Heap → Outcome Heap) : Exec Unit := do
  let m ← get
  let heap ← outcome (f m.heap)
  set { m with heap }

def malloc (size : UInt64) : Exec UInt64 := do
  let m ← get
  let (addr, heap) ← Step.ofAbort (m.heap.malloc size.toNat)
  set { m with heap }
  return UInt64.ofNat addr

def free (addr : UInt64) : Exec Unit :=
  withHeap fun h => (h.free addr.toNat).mapError fun f => .error (.memory f)

/-- A stack slot of the running call. -/
def pushSlot (size : Nat) : Exec UInt64 := do
  let m ← get
  let (addr, heap) ← Step.ofAbort (m.heap.pushSlot size)
  set { m with heap, slots := addr :: m.slots }
  return UInt64.ofNat addr

/-- The machine after the running call ends, for a caller with `slots`. -/
def leave (m : Machine) (slots : List Address) : Machine :=
  { m with heap := m.heap.dropSlots m.slots, slots }

/-- Runs `x` as a call of its own. -/
def inCall {α : Type} (x : Exec α) : Exec α := fun m =>
  match x.run { m with slots := [] } with
  | .ok a after => .ok a (leave after m.slots)
  | .error s after => .error s (leave after m.slots)

end Exec

/-- The values of a call, as far as they are defined. -/
abbrev Frame := Array (Option Value)

namespace Frame

/-- Gives a value number its value. -/
def define (frame : Frame) (id : ValueId) (v : Value) : Frame :=
  frame.setIfInBounds id.index (some v)

/-- The frame of a call of `f`: its parameters have the arguments that are there. -/
def start (f : Function) (args : List Value) : Frame :=
  (f.params.zip args).foldl (fun frame arg => frame.define arg.1 arg.2)
    (Array.replicate f.valueTypes.length none)

def eval (frame : Frame) : Operand → Outcome Value
  | .const c => .ok (.ofConst c)
  | .value id =>
    match frame[id.index]? with
    | some (some v) => .ok v
    | _ => .fail (.undefinedValue id)

def evalAddr (frame : Frame) (op : Operand) : Outcome UInt64 := do
  let v ← frame.eval op
  Outcome.ofKind v.asAddr

end Frame

namespace Comparison

def holds : Comparison → UInt64 → UInt64 → Bool
  | .eq, a, b => a = b
  | .ne, a, b => a ≠ b
  | .lt, a, b => a < b

end Comparison

namespace Program

/-- The sum of two numbers of one kind; it wraps at the width of the kind. -/
def add (p : Program) : Value → Value → Outcome Value
  | .usize a, .usize b => .ok (.usize (p.layouts.width.truncate (a + b)))
  | .int a, .int b => .ok (.int (a + b))
  | .i32 a, .i32 b => .ok (.i32 (a + b))
  | .byte a, .byte b => .ok (.byte (a + b))
  | a, b => .fail (.mismatch ⟨a.kind, b.kind⟩)

def compare (how : Comparison) (frame : Frame) (lhs rhs : Operand) : Outcome Value := do
  let a ← frame.eval lhs
  let a ← Outcome.ofKind a.unsigned
  let b ← frame.eval rhs
  let b ← Outcome.ofKind b.unsigned
  return .bool (how.holds a b)

/-- A call of an external symbol: only the heap symbols are there, and they
take one argument. -/
def callExternal (p : Program) (callee : ExternalId) (args : List Value) : Exec Value :=
  match p.unit.heap, args with
  | some heap, [arg] =>
    if heap.alloc = callee then do
      let size ← Exec.outcome (Outcome.ofKind arg.asAddr)
      return .ptr (← Exec.malloc size)
    else if heap.free = callee then do
      let addr ← Exec.outcome (Outcome.ofKind arg.asAddr)
      Exec.free addr
      return .unit
    else unresolved
  | _, _ => unresolved
where
  unresolved : Exec Value := do
    let e ← Step.ofOption .dangling (p.unit.external? callee)
    Step.fail (.unknownExternal e.name)

/-- How a function of the unit is called. -/
abbrev Caller := FuncId → List Value → Exec (Option Value)

/-- The frame after an instruction. -/
def runInstr (p : Program) (call : Caller) (frame : Frame) : Instr → Exec Frame
  | .alloca dst ty _ => do
    let layout ← Exec.outcome (Outcome.ofLayout (p.layouts.value ty))
    let addr ← Exec.pushSlot layout.size
    return frame.define dst (.ptr addr)
  | .load dst ty ptr => do
    let addr ← Exec.outcome (frame.evalAddr ptr)
    let m ← get
    let v ← Exec.outcome (p.layouts.load m.heap ty addr)
    return frame.define dst v
  | .store ty value ptr => do
    let addr ← Exec.outcome (frame.evalAddr ptr)
    let v ← Exec.outcome (frame.eval value)
    Exec.withHeap fun h => p.layouts.store h ty addr v
    return frame
  | .fieldAddr dst base _ _ bytes => do
    let addr ← Exec.outcome (frame.evalAddr base)
    return frame.define dst (.ptr (addr + bytes))
  | .offset dst base bytes => do
    let addr ← Exec.outcome (frame.evalAddr base)
    return frame.define dst (.ptr (addr + bytes.toUInt64))
  | .cast dst _ value => do
    let v ← Exec.outcome (frame.eval value)
    return frame.define dst v
  | .add dst _ lhs rhs => do
    let a ← Exec.outcome (frame.eval lhs)
    let b ← Exec.outcome (frame.eval rhs)
    let sum ← Exec.outcome (p.add a b)
    return frame.define dst sum
  | .cmp dst how _ lhs rhs => do
    let v ← Exec.outcome (compare how frame lhs rhs)
    return frame.define dst v
  | .callExternal dst callee args => do
    let vs ← Exec.outcome (args.mapM frame.eval)
    let v ← p.callExternal callee vs
    return match dst with
      | some dst => frame.define dst v
      | none => frame
  | .call dst callee args => do
    let vs ← Exec.outcome (args.mapM frame.eval)
    let v ← call callee vs
    return match dst with
      | some dst => frame.define dst (v.getD .unit)
      | none => frame

/-- The frame after a list of instructions. -/
def runInstrs (p : Program) (call : Caller) : List Instr → Frame → Exec Frame
  | [], frame => pure frame
  | i :: rest, frame => do
    Exec.tick
    let frame ← p.runInstr call frame i
    p.runInstrs call rest frame

/-- Runs `f` from the start of a block on, for at most `visits` blocks. -/
def runBlocks (p : Program) (call : Caller) (f : Function) :
    (visits : Nat) → BlockId → Frame → Exec (Option Value)
  | 0, _, _ => Step.giveUp .endless
  | visits + 1, id, frame => do
    let block ← Step.ofOption .dangling (f.block? id)
    let frame ← p.runInstrs call block.body frame
    match block.terminator with
    | none => Step.fail (.unterminated f.name id)
    | some (.jump target) => p.runBlocks call f visits target frame
    | some (.branch cond thenBlock elseBlock) =>
      let v ← Exec.outcome (frame.eval cond)
      let taken ← Exec.outcome (Outcome.ofKind v.asBool)
      p.runBlocks call f visits (if taken then thenBlock else elseBlock) frame
    | some (.ret none) => return none
    | some (.ret (some value)) =>
      let v ← Exec.outcome (frame.eval value)
      return some v
    | some (.trap cause) => Step.fail (.trap cause)

/-- More blocks than a run of `f` can visit with a budget, unless it goes
around a circle of empty blocks. -/
def visitLimit (f : Function) (budget : Nat) : Nat := (budget + 1) * (f.blocks.length + 1)

/-- The body of a call of `f`. -/
def runBody (p : Program) (call : Caller) (f : Function) (args : List Value) :
    Exec (Option Value) := do
  let m ← get
  p.runBlocks call f (visitLimit f m.budget) ⟨0⟩ (Frame.start f args)

/-- Calls a function, with calls nested at most `depth` deep. -/
def callWithin (p : Program) : (depth : Nat) → Caller
  | 0, _, _ => Step.giveUp .endless
  | depth + 1, id, args => do
    let f ← Step.ofOption .dangling (p.unit.function? id)
    if f.isDeclaration then Step.fail (.missingBody f.name)
    else Exec.inCall (p.runBody (p.callWithin depth) f args)

/-- Calls a function. -/
def call (p : Program) : Caller := fun id args => do
  let m ← get
  p.callWithin (m.budget + 1) id args

/-- Runs the function of a name. -/
def run (p : Program) (name : String) (args : List Value) : Exec (Option Value) :=
  match p.unit.functionNamed? name with
  | none => Step.fail (.unknownFunction name)
  | some id => p.call id args

end Program

end Ownership
