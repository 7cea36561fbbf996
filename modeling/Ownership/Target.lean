/-!
# Targets and settings

What the emitted code runs on: the width of a machine word, the symbols
of the heap if the target has one, whether counter arithmetic is checked,
and how the helper functions are named.
-/

namespace Ownership

/-- The width of a machine word, in bits. -/
inductive PointerWidth where
  | w32
  | w64
  deriving DecidableEq, Repr

namespace PointerWidth

/-- Size of a word in bytes. -/
def bytes : PointerWidth → Nat
  | .w32 => 4
  | .w64 => 8

def bits (w : PointerWidth) : Nat := 8 * w.bytes

/-- The largest word. -/
def mask : PointerWidth → UInt64
  | .w32 => 0xFFFFFFFF
  | .w64 => 0xFFFFFFFFFFFFFFFF

/-- The part of a number that a word can hold. -/
def truncate (w : PointerWidth) (n : UInt64) : UInt64 := n &&& w.mask

end PointerWidth

/-- The external symbols that allocate and free. -/
structure HeapSymbols where
  alloc : String := "malloc"
  free : String := "free"
  deriving DecidableEq, Repr

structure Target where
  width : PointerWidth := .w64
  /-- Absent where the target has no heap. -/
  heap : Option HeapSymbols := some {}
  deriving DecidableEq, Repr

namespace Target

/-- A hosted machine with 64-bit words. -/
def native : Target := {}

/-- A machine without a heap. -/
def freestanding : Target := { heap := none }

end Target

/-- Whether counter arithmetic traps where it leaves the range of a word. -/
inductive CountChecks where
  | trap
  | unchecked
  deriving DecidableEq, Repr

structure Config where
  target : Target := {}
  checks : CountChecks := .trap
  /-- The names of helper functions start with this. -/
  gluePrefix : String := "_cone_dealias$"
  deriving DecidableEq, Repr

end Ownership
