import Ownership.Name
import Ownership.Literal

/-!
# Code

The memory operations of a program as functions of basic blocks over
numbered values: stack slots, loads and stores, address arithmetic,
additions, comparisons and calls. Each value has one type; the parameters
of a function are its first values. A function without blocks is a
declaration.
-/

namespace Ownership

/-! ## Ids -/

/-- A value of a function. -/
structure ValueId where
  index : Nat
  deriving DecidableEq, Repr

/-- A basic block of a function. -/
structure BlockId where
  index : Nat
  deriving DecidableEq, Repr

/-- A function of a code unit. -/
structure FuncId where
  index : Nat
  deriving DecidableEq, Repr

/-- An external symbol of a code unit. -/
structure ExternalId where
  index : Nat
  deriving DecidableEq, Repr

/-- Stands where there is no value. -/
def ValueId.none : ValueId := ⟨4294967295⟩

/-! ## Operands -/

/-- A constant of the code: a literal, or the reference to nothing. -/
inductive Const where
  | literal (value : Literal)
  | null
  deriving DecidableEq

def Const.type : Const → TypeId
  | .literal value => value.type
  | .null => .ptr

/-- A word constant. -/
def Const.usize (n : UInt64) : Const := .literal (.usize n)

inductive Operand where
  | value (id : ValueId)
  | const (c : Const)
  deriving DecidableEq

/-- How two numbers are compared; all comparisons are unsigned. -/
inductive Comparison where
  | eq
  | ne
  | lt
  deriving DecidableEq, Repr

def Comparison.keyword : Comparison → String
  | .eq => "eq"
  | .ne => "ne"
  | .lt => "ult"

/-- Why emitted code stops itself. -/
inductive TrapCause where
  /-- More holders let go than there were. -/
  | countUnderflow
  /-- More holders than a word can count. -/
  | countOverflow
  deriving DecidableEq, Repr

def TrapCause.keyword : TrapCause → String
  | .countUnderflow => "rc_underflow"
  | .countOverflow => "rc_overflow"

/-! ## Instructions -/

inductive Instr where
  /-- A stack slot for a value of type `ty`. -/
  | alloca (dst : ValueId) (ty : TypeId) (name : Name)
  | load (dst : ValueId) (ty : TypeId) (ptr : Operand)
  | store (ty : TypeId) (value ptr : Operand)
  /-- The address of a field of the record at `base`. -/
  | fieldAddr (dst : ValueId) (base : Operand) (record : TypeId) (field : Nat) (offset : UInt64)
  /-- An address some bytes away. -/
  | offset (dst : ValueId) (base : Operand) (bytes : Int64)
  /-- The same value under another type. -/
  | cast (dst : ValueId) (ty : TypeId) (value : Operand)
  | add (dst : ValueId) (ty : TypeId) (lhs rhs : Operand)
  | cmp (dst : ValueId) (how : Comparison) (ty : TypeId) (lhs rhs : Operand)
  | callExternal (dst : Option ValueId) (callee : ExternalId) (args : List Operand)
  | call (dst : Option ValueId) (callee : FuncId) (args : List Operand)
  deriving DecidableEq

/-- The value that an instruction defines. -/
def Instr.dst? : Instr → Option ValueId
  | .alloca dst _ _ | .load dst _ _ | .fieldAddr dst _ _ _ _ | .offset dst _ _ | .cast dst _ _
  | .add dst _ _ _ | .cmp dst _ _ _ _ => some dst
  | .callExternal dst _ _ | .call dst _ _ => dst
  | .store _ _ _ => none

/-- How control leaves a block. -/
inductive Terminator where
  | jump (target : BlockId)
  | branch (cond : Operand) (thenBlock elseBlock : BlockId)
  | ret (value : Option Operand)
  | trap (cause : TrapCause)
  deriving DecidableEq

/-- The blocks that control may go to. -/
def Terminator.successors : Terminator → List BlockId
  | .jump target => [target]
  | .branch _ thenBlock elseBlock => [thenBlock, elseBlock]
  | .ret _ | .trap _ => []

/-! ## Blocks and functions -/

structure BasicBlock where
  label : String
  body : List Instr
  /-- Absent while the block is open. -/
  terminator : Option Terminator
  deriving DecidableEq

structure Function where
  name : String
  /-- Number of parameters; they are the values below it. -/
  arity : Nat
  returnType : TypeId
  blocks : List BasicBlock
  /-- The type of each value. -/
  valueTypes : List TypeId
  deriving DecidableEq

namespace Function

/-- A function without a body. -/
def declaration (name : String) (paramTypes : List TypeId) (returnType : TypeId) : Function where
  name := name
  arity := paramTypes.length
  returnType := returnType
  blocks := []
  valueTypes := paramTypes

def isDeclaration (f : Function) : Bool := f.blocks.isEmpty

/-- The block that a call starts in. -/
def entry? (f : Function) : Option BlockId := if f.isDeclaration then none else some ⟨0⟩

def params (f : Function) : List ValueId := (List.range f.arity).map ValueId.mk

def block? (f : Function) (id : BlockId) : Option BasicBlock := f.blocks[id.index]?

/-- The type of a value; an unknown value has none. -/
def valueType (f : Function) (id : ValueId) : TypeId := (f.valueTypes[id.index]?).getD .none

def operandType (f : Function) : Operand → TypeId
  | .value id => f.valueType id
  | .const c => c.type

/-- All instructions, in the order of the blocks. -/
def instrs (f : Function) : List Instr := f.blocks.flatMap BasicBlock.body

end Function

/-- A function that the code expects from outside. -/
structure External where
  name : String
  params : List TypeId
  returnType : TypeId
  deriving DecidableEq

end Ownership
