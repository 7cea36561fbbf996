import Ownership.Code.Basic

/-!
# Runtime values

What a value of the code stands for while it runs. Addresses and words
are kept in 64 bits whatever the target; a reference is its address.
-/

namespace Ownership

inductive Value where
  | int (value : Int64)
  | i32 (value : Int32)
  | float (bits : UInt64)
  | bool (value : Bool)
  | byte (value : UInt8)
  | usize (value : UInt64)
  | ptr (addr : UInt64)
  | unit
  | record (fields : List Value)

/-- What a value is, or is expected to be. -/
inductive Kind where
  | int
  | i32
  | float
  | bool
  | byte
  | usize
  | ptr
  | unit
  | record
  /-- A record with as many fields as its type. -/
  | fullRecord
  /-- Anything with an order. -/
  | integer
  deriving DecidableEq, Repr

def Kind.text : Kind → String
  | .int => "int"
  | .i32 => "i32"
  | .float => "float"
  | .bool => "bool"
  | .byte => "byte"
  | .usize => "usize"
  | .ptr => "ptr"
  | .unit => "()"
  | .record => "record"
  | .fullRecord => "record of matching arity"
  | .integer => "integer"

/-- A value of one kind stands where another kind is expected. -/
structure Mismatch where
  expected : Kind
  found : Kind
  deriving DecidableEq, Repr

def Mismatch.message (m : Mismatch) : String :=
  "type mismatch: expected " ++ m.expected.text ++ ", found " ++ m.found.text

namespace Value

def ofLiteral : Literal → Value
  | .int v => .int v
  | .i32 v => .i32 v
  | .float bits => .float bits
  | .bool v => .bool v
  | .byte v => .byte v
  | .usize v => .usize v
  | .unit => .unit

def ofConst : Const → Value
  | .literal l => ofLiteral l
  | .null => .ptr 0

def kind : Value → Kind
  | .int _ => .int
  | .i32 _ => .i32
  | .float _ => .float
  | .bool _ => .bool
  | .byte _ => .byte
  | .usize _ => .usize
  | .ptr _ => .ptr
  | .unit => .unit
  | .record _ => .record

/-- The value as an address; a word is one too. -/
def asAddr : Value → Except Mismatch UInt64
  | .ptr a => .ok a
  | .usize a => .ok a
  | v => .error ⟨.ptr, v.kind⟩

/-- The value as a condition. -/
def asBool : Value → Except Mismatch Bool
  | .bool b => .ok b
  | v => .error ⟨.bool, v.kind⟩

/-- The bits by which a value is compared; they are never sign-extended. -/
def unsigned : Value → Except Mismatch UInt64
  | .usize v => .ok v
  | .ptr v => .ok v
  | .int v => .ok v.toUInt64
  | .i32 v => .ok v.toUInt32.toUInt64
  | .byte v => .ok v.toUInt64
  | .bool v => .ok (if v then 1 else 0)
  | v => .error ⟨.integer, v.kind⟩

end Value

end Ownership
