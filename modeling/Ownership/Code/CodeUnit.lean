import Ownership.Code.Basic
import Ownership.Target

/-!
# Code units

A unit collects functions and the external symbols they call. The symbols
of the heap are declared when they are first needed. For each record type
whose values hold references, the unit can have one *glue* function that
lets go of them; it is declared when it is first asked for, and waits on a
stack of requests until it gets its body.
-/

namespace Ownership

/-- The external symbols by which a unit allocates and frees. -/
structure HeapPrimitives where
  alloc : ExternalId
  free : ExternalId
  deriving DecidableEq, Repr

structure CodeUnit where
  name : String
  externals : List External
  functions : List Function
  heap : Option HeapPrimitives
  /-- The glue function of each type that has one. -/
  glue : List (TypeId × FuncId)
  /-- Glue functions that wait for a body, the newest first. -/
  pending : List (TypeId × FuncId)
  deriving DecidableEq

namespace CodeUnit

def new (name : String) : CodeUnit where
  name := name
  externals := []
  functions := []
  heap := none
  glue := []
  pending := []

/-! ## External symbols -/

def external? (u : CodeUnit) (id : ExternalId) : Option External := u.externals[id.index]?

def findExternal? (u : CodeUnit) (name : String) : Option ExternalId :=
  (u.externals.findIdx? fun e => e.name = name).map ExternalId.mk

/-- The external symbol of a name; a symbol that is there keeps its type. -/
def declareExternal (u : CodeUnit) (name : String) (params : List TypeId) (ret : TypeId) :
    ExternalId × CodeUnit :=
  match u.findExternal? name with
  | some id => (id, u)
  | none => (⟨u.externals.length⟩, { u with externals := u.externals ++ [⟨name, params, ret⟩] })

/-- The heap symbols, declared now if they are needed for the first time;
there is no result on a target without a heap. -/
def requireHeap? (u : CodeUnit) (target : Target) : Option (HeapPrimitives × CodeUnit) :=
  match u.heap, target.heap with
  | some heap, _ => some (heap, u)
  | none, none => none
  | none, some symbols =>
    let (alloc, u) := u.declareExternal symbols.alloc [.usize] .ptr
    let (free, u) := u.declareExternal symbols.free [.ptr] .unit
    let heap : HeapPrimitives := ⟨alloc, free⟩
    some (heap, { u with heap := some heap })

/-! ## Functions -/

def function? (u : CodeUnit) (id : FuncId) : Option Function := u.functions[id.index]?

/-- The first function of a name. -/
def functionNamed? (u : CodeUnit) (name : String) : Option FuncId :=
  (u.functions.findIdx? fun f => f.name = name).map FuncId.mk

def addFunction (u : CodeUnit) (f : Function) : FuncId × CodeUnit :=
  (⟨u.functions.length⟩, { u with functions := u.functions ++ [f] })

/-- Replaces a function; there is no result if the id names none. -/
def setFunction? (u : CodeUnit) (id : FuncId) (f : Function) : Option CodeUnit :=
  if id.index < u.functions.length then
    some { u with functions := u.functions.set id.index f }
  else none

/-! ## Glue -/

def glueFor? (u : CodeUnit) (ty : TypeId) : Option FuncId := u.glue.lookup ty

/-- The glue function of a type, requested now if it is new. -/
def requestGlue (u : CodeUnit) (ty : TypeId) (name : String) : FuncId × CodeUnit :=
  match u.glueFor? ty with
  | some id => (id, u)
  | none =>
    let (id, u) := u.addFunction (.declaration name [.ptr] .unit)
    (id, { u with glue := (ty, id) :: u.glue, pending := (ty, id) :: u.pending })

end CodeUnit

end Ownership
