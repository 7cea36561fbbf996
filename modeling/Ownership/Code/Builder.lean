import Ownership.Code.Basic
import Ownership.Stop

/-!
# Building functions

A `Builder` holds a function under construction and the block that new
instructions go to, which is one of the function's blocks. Without an open
block an instruction or terminator is dropped and counted; the value
number it was given is used up all the same.
-/

namespace Ownership

structure Builder where
  function : Function
  /-- The block that was chosen last, open or not. -/
  position : Option BlockId
  /-- Number of instructions and terminators that were dropped. -/
  dropped : Nat
  /-- The chosen block is one of the function's. -/
  positioned : ∀ id ∈ position, id.index < function.blocks.length
  deriving DecidableEq

namespace Builder

/-- The value of the `i`th parameter. -/
def param (b : Builder) (i : Nat) : ValueId :=
  if i < b.function.arity then ⟨i⟩ else .none

/-! ## Blocks -/

/-- A new open block behind all others; the position stays. -/
def appendBlock (b : Builder) (label : String) : BlockId × Builder :=
  (⟨b.function.blocks.length⟩,
    { b with
      function.blocks := b.function.blocks ++ [⟨label, [], none⟩]
      positioned := fun id hid => by
        rw [List.length_append]
        exact Nat.lt_add_right _ (b.positioned id hid) })

/-- Moves to the end of a block. -/
def moveTo (b : Builder) (id : BlockId) (h : id.index < b.function.blocks.length) : Builder :=
  { b with
    position := some id
    positioned := fun _ hid => Option.mem_some.mp hid ▸ h }

/-- A function with the single open block `entry`. -/
def new (name : String) (paramTypes : List TypeId) (returnType : TypeId) : Builder :=
  let b : Builder := ⟨.declaration name paramTypes returnType, none, 0, nofun⟩
  (b.appendBlock "entry").2.moveTo ⟨0⟩ Nat.one_pos

/-- The block that was chosen last. -/
def current? (b : Builder) : Option BasicBlock := b.position.bind b.function.block?

/-- Whether the chosen block has its terminator. -/
def currentTerminated (b : Builder) : Bool := b.current?.any (·.terminator.isSome)

/-- The open block that instructions go to. -/
def insertionBlock? (b : Builder) : Option BlockId :=
  b.position.filter fun _ => !b.currentTerminated

/-- Changes one block. -/
def modifyBlock (b : Builder) (id : BlockId) (change : BasicBlock → BasicBlock) : Builder :=
  { b with
    function.blocks := b.function.blocks.modify id.index change
    positioned := fun id' hid => by
      rw [List.length_modify]
      exact b.positioned id' hid }

/-- Changes the open block, or counts a drop where there is none. -/
def extend (b : Builder) (change : BasicBlock → BasicBlock) : Builder :=
  match b.insertionBlock? with
  | some id => b.modifyBlock id change
  | none => { b with dropped := b.dropped + 1 }

def push (b : Builder) (instr : Instr) : Builder :=
  b.extend fun block => { block with body := block.body ++ [instr] }

def terminate (b : Builder) (t : Terminator) : Builder :=
  b.extend fun block => { block with terminator := some t }

/-- A new value of type `ty`. -/
def fresh (b : Builder) (ty : TypeId) : ValueId × Builder :=
  (⟨b.function.valueTypes.length⟩,
    { b with function.valueTypes := b.function.valueTypes ++ [ty] })

/-- A new value of type `ty`, defined by an instruction. -/
def define (b : Builder) (ty : TypeId) (instr : ValueId → Instr) : ValueId × Builder :=
  let (dst, b) := b.fresh ty
  (dst, b.push (instr dst))

/-! ## Instructions -/

def alloca (b : Builder) (ty : TypeId) (name : Name) : ValueId × Builder :=
  b.define .ptr fun dst => .alloca dst ty name

def load (b : Builder) (ty : TypeId) (ptr : Operand) : ValueId × Builder :=
  b.define ty fun dst => .load dst ty ptr

def store (b : Builder) (ty : TypeId) (value ptr : Operand) : Builder :=
  b.push (.store ty value ptr)

def fieldAddr (b : Builder) (base : Operand) (record : TypeId) (field : Nat) (offset : UInt64) :
    ValueId × Builder :=
  b.define .ptr fun dst => .fieldAddr dst base record field offset

def offset (b : Builder) (base : Operand) (bytes : Int64) : ValueId × Builder :=
  b.define .ptr fun dst => .offset dst base bytes

def cast (b : Builder) (ty : TypeId) (value : Operand) : ValueId × Builder :=
  b.define ty fun dst => .cast dst ty value

def add (b : Builder) (ty : TypeId) (lhs rhs : Operand) : ValueId × Builder :=
  b.define ty fun dst => .add dst ty lhs rhs

def cmp (b : Builder) (how : Comparison) (ty : TypeId) (lhs rhs : Operand) : ValueId × Builder :=
  b.define .bool fun dst => .cmp dst how ty lhs rhs

def callExternal (b : Builder) (callee : ExternalId) (args : List Operand) (ret : TypeId) :
    ValueId × Builder :=
  b.define ret fun dst => .callExternal (some dst) callee args

def callExternalVoid (b : Builder) (callee : ExternalId) (args : List Operand) : Builder :=
  b.push (.callExternal none callee args)

def call (b : Builder) (callee : FuncId) (args : List Operand) (ret : TypeId) :
    ValueId × Builder :=
  b.define ret fun dst => .call (some dst) callee args

def callVoid (b : Builder) (callee : FuncId) (args : List Operand) : Builder :=
  b.push (.call none callee args)

/-! ## Terminators -/

def jump (b : Builder) (target : BlockId) : Builder := b.terminate (.jump target)

def branch (b : Builder) (cond : Operand) (thenBlock elseBlock : BlockId) : Builder :=
  b.terminate (.branch cond thenBlock elseBlock)

def ret (b : Builder) (value : Option Operand) : Builder := b.terminate (.ret value)

def trap (b : Builder) (cause : TrapCause) : Builder := b.terminate (.trap cause)

end Builder

end Ownership
