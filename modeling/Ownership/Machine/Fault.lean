import Ownership.Layout.Basic
import Ownership.Machine.Value
import Ownership.Memory.Heap

/-!
# Faults

What can go wrong while code runs.
-/

namespace Ownership

inductive Fault where
  | memory (fault : HeapFault)
  /-- The code stopped itself. -/
  | trap (cause : TrapCause)
  | mismatch (m : Mismatch)
  | unknownFunction (name : String)
  /-- A call of a function that is only declared. -/
  | missingBody (name : String)
  | unknownExternal (name : String)
  | undefinedValue (id : ValueId)
  /-- The end of a block that is still open. -/
  | unterminated (function : String) (block : BlockId)
  | stepLimit
  | layout (e : LayoutError)
  deriving DecidableEq, Repr

def Fault.message (pool : Pool) : Fault → Except Abort String
  | .memory fault => .ok fault.message
  | .trap cause => .ok ("trap: " ++ cause.keyword)
  | .mismatch m => .ok m.message
  | .unknownFunction name => .ok ("unknown function `" ++ name ++ "`")
  | .missingBody name => .ok ("call to `" ++ name ++ "`, which has no body")
  | .unknownExternal name => .ok ("unresolved external `" ++ name ++ "`")
  | .undefinedValue id => .ok ("use of undefined value %" ++ toString id.index)
  | .unterminated function block =>
    .ok ("block " ++ toString block.index ++ " of `" ++ function ++ "` has no terminator")
  | .stepLimit => .ok "step limit exceeded"
  | .layout e => e.message pool

/-- An answer that may be a fault. -/
abbrev Outcome (α : Type) := Except (Stop Fault) α

namespace Outcome

def fail {α : Type} (f : Fault) : Outcome α := .error (.error f)

def giveUp {α : Type} (a : Abort) : Outcome α := .error (.abort a)

/-- The answer of a layout query. -/
def ofLayout {α : Type} (x : Except (Stop LayoutError) α) : Outcome α :=
  x.mapError (Stop.map .layout)

/-- The answer of a memory operation. -/
def ofMemory {α : Type} (x : Except (Stop HeapFault) α) : Outcome α :=
  x.mapError (Stop.map .memory)

/-- A value of the expected kind. -/
def ofKind {α : Type} (x : Except Mismatch α) : Outcome α :=
  x.mapError fun m => .error (.mismatch m)

end Outcome

end Ownership
