import Ownership.TypeId

/-!
# Literals

The scalar constants that a program can write down. A float is kept as
the 64 bits of its binary representation, so that no bit of it is ever
lost.
-/

namespace Ownership

inductive Literal where
  | int (value : Int64)
  | i32 (value : Int32)
  | float (bits : UInt64)
  | bool (value : Bool)
  | byte (value : UInt8)
  | usize (value : UInt64)
  | unit
  deriving DecidableEq

/-- The primitive type of a literal. -/
def Literal.type : Literal → TypeId
  | .int _ => .int
  | .i32 _ => .i32
  | .float _ => .float
  | .bool _ => .bool
  | .byte _ => .byte
  | .usize _ => .usize
  | .unit => .unit

end Ownership
