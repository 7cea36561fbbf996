/-!
# Type numbers

Types are referred to by number. The eight primitive types have the
numbers 0 to 7, numbers up to 15 are reserved, and the records and
references of a pool are numbered from `TypeId.firstDynamic` on in order
of creation.
-/

namespace Ownership

/-- The primitive types, in the order of their numbers. -/
inductive Primitive where
  | int
  | float
  | bool
  | byte
  | i32
  | unit
  | usize
  | ptr
  deriving DecidableEq, Repr

/-- The number of a type. -/
structure TypeId where
  raw : Nat
  deriving DecidableEq, Repr

namespace Primitive

def all : List Primitive := [.int, .float, .bool, .byte, .i32, .unit, .usize, .ptr]

def name : Primitive → String
  | .int => "int"
  | .float => "float"
  | .bool => "bool"
  | .byte => "byte"
  | .i32 => "i32"
  | .unit => "()"
  | .usize => "usize"
  | .ptr => "ptr"

/-- The number of a primitive type. -/
def type : Primitive → TypeId
  | .int => ⟨0⟩
  | .float => ⟨1⟩
  | .bool => ⟨2⟩
  | .byte => ⟨3⟩
  | .i32 => ⟨4⟩
  | .unit => ⟨5⟩
  | .usize => ⟨6⟩
  | .ptr => ⟨7⟩

end Primitive

namespace TypeId

def int : TypeId := Primitive.int.type
def float : TypeId := Primitive.float.type
def bool : TypeId := Primitive.bool.type
def byte : TypeId := Primitive.byte.type
def i32 : TypeId := Primitive.i32.type
def unit : TypeId := Primitive.unit.type
def usize : TypeId := Primitive.usize.type
def ptr : TypeId := Primitive.ptr.type

/-- Stands where there is no type. -/
def none : TypeId := ⟨4294967295⟩

instance : Inhabited TypeId := ⟨none⟩

/-- The number of the first record or reference of a pool. -/
def firstDynamic : Nat := 16

/-- The primitive type with this number. -/
def primitive? (ty : TypeId) : Option Primitive := Primitive.all[ty.raw]?

def isPrimitive (ty : TypeId) : Bool := ty.primitive?.isSome

def isNone (ty : TypeId) : Bool := ty = none

/-- A type number as it appears in diagnostics. -/
def describe (ty : TypeId) : String :=
  if ty.isNone then "Idx::NONE"
  else
    let inner := match ty.primitive? with
      | some p => p.name
      | .none => toString ty.raw
    "Idx(" ++ inner ++ ")"

end TypeId

end Ownership
