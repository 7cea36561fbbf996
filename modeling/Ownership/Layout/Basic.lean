import Ownership.Size
import Ownership.Pool
import Ownership.Target

/-!
# Layouts

How values lie in memory: size and alignment of each type, the offsets of
the fields of a record, and the block behind a reference. Fields lie in
order of declaration, each at the first multiple of its alignment behind
the one before it. A counted block starts with its counter, padded so
that the pointee behind it is aligned.
-/

namespace Ownership

structure ValueLayout where
  size : Nat
  align : Nat
  deriving DecidableEq, Repr

/-- A field at its place in a record. -/
structure FieldSlot where
  index : Nat
  name : Name
  type : TypeId
  offset : Nat
  deriving DecidableEq, Repr

structure RecordLayout where
  fields : List FieldSlot
  size : Nat
  align : Nat
  deriving DecidableEq, Repr

def RecordLayout.value (r : RecordLayout) : ValueLayout := ⟨r.size, r.align⟩

/-- The block behind a reference: a header and the pointee. -/
structure RefLayout where
  region : Region
  pointee : TypeId
  value : ValueLayout
  /-- Size of the header; the counter is its first word. -/
  header : Nat
  deriving DecidableEq, Repr

namespace RefLayout

/-- Size of the whole block. -/
def allocSize (r : RefLayout) : Except Abort Nat := addSize r.header r.value.size

/-- Where the pointee starts in the block. -/
def payloadOffset (r : RefLayout) : Nat := r.header

/-- Where the counter lies, seen from the pointee. -/
def countOffset (r : RefLayout) : Int := -(r.header : Int)

def hasCounter (r : RefLayout) : Bool := r.region = .counted

end RefLayout

/-! ## What is let go of inside a value -/

/-- How a field is let go of. -/
inductive FieldAction where
  /-- The field is a reference that is released. -/
  | release (region : Region)
  /-- The field is a record with such references inside. -/
  | descend
  deriving DecidableEq, Repr

structure FieldRelease where
  slot : FieldSlot
  action : FieldAction
  deriving DecidableEq, Repr

/-- The fields of a value that have to be let go of, in order. -/
abbrev ReleasePlan := List FieldRelease

def ReleasePlan.isTrivial (plan : ReleasePlan) : Bool := plan.isEmpty

/-! ## Errors -/

/-- Why a type has no layout. -/
inductive LayoutError where
  /-- A record that contains itself. -/
  | infiniteSize (type : TypeId)
  | notReference (type : TypeId)
  deriving DecidableEq, Repr

def LayoutError.message (pool : Pool) : LayoutError → Except Abort String
  | .infiniteSize ty => do
    return "internal error: `" ++ (← pool.display ty)
      ++ "` contains itself by value and has no finite size"
  | .notReference ty => do
    return "internal error: `" ++ (← pool.display ty) ++ "` is not a reference type"

/-! ## Placing fields -/

/-- The fields placed so far, the end of the last one and the greatest alignment. -/
structure Placement where
  slots : List FieldSlot
  offset : Nat
  align : Nat
  deriving DecidableEq, Repr

namespace Placement

/-- No field yet. -/
def start : Placement := ⟨[], 0, 1⟩

/-- Puts one more field behind the others. -/
def add (p : Placement) (field : FieldDef) (layout : ValueLayout) : Except Abort Placement := do
  let offset ← alignSize p.offset layout.align
  let next ← addSize offset layout.size
  return {
    slots := p.slots ++ [⟨p.slots.length, field.name, field.type, offset⟩]
    offset := next
    align := max p.align layout.align }

/-- The record of all fields placed. -/
def finish (p : Placement) : Except Abort RecordLayout := do
  let size ← alignSize p.offset p.align
  return ⟨p.slots, size, p.align⟩

end Placement

end Ownership
