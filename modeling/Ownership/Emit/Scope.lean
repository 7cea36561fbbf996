import Ownership.Emit.Reference

/-!
# Scopes

The variables that a program declares, scope by scope, and the code that
lets go of them where a scope ends: the scopes from the innermost on, and
in each the variables in order of declaration. What was moved away, or
holds nothing, is left alone.
-/

namespace Ownership

structure Variable where
  name : Name
  type : TypeId
  /-- The stack slot that holds it. -/
  slot : ValueId
  custody : Custody
  /-- Whether its contents were handed on. -/
  moved : Bool
  deriving DecidableEq, Repr

def Variable.needsRelease (v : Variable) : Bool := v.custody.needsRelease && !v.moved

/-- The variables of a scope in order of declaration. -/
structure Scope where
  vars : List Variable
  deriving DecidableEq, Repr

namespace Scope

def empty : Scope := ⟨[]⟩

def get? (s : Scope) (index : Nat) : Option Variable := s.vars[index]?

/-- Adds a variable; its index is the number of those before it. -/
def declare (s : Scope) (v : Variable) : Nat × Scope := (s.vars.length, ⟨s.vars ++ [v]⟩)

/-- Notes that the contents of a variable were handed on. -/
def markMoved (s : Scope) (index : Nat) : Scope :=
  ⟨s.vars.modify index fun v => { v with moved := true }⟩

/-- The variable declared last under a name. -/
def find? (s : Scope) (name : Name) : Option Nat :=
  (s.vars.zipIdx.reverse.find? fun entry => entry.1.name = name).map (·.2)

/-- The variables that have to be let go of. -/
def pending (s : Scope) : List Variable := s.vars.filter Variable.needsRelease

end Scope

/-- Nested scopes, the outermost first. -/
structure ScopeStack where
  scopes : List Scope
  deriving DecidableEq, Repr

namespace ScopeStack

def empty : ScopeStack := ⟨[]⟩

def depth (s : ScopeStack) : Nat := s.scopes.length

/-- Opens a scope inside all others. -/
def push (s : ScopeStack) : ScopeStack := ⟨s.scopes ++ [.empty]⟩

/-- Closes the innermost scope. -/
def pop (s : ScopeStack) : ScopeStack := ⟨s.scopes.dropLast⟩

/-- The innermost scope. -/
def current? (s : ScopeStack) : Option Scope := s.scopes.getLast?

/-- Changes the scope at a depth, if there is one. -/
def modify (s : ScopeStack) (depth : Nat) (f : Scope → Scope) : ScopeStack :=
  ⟨s.scopes.modify depth f⟩

/-- Puts another scope in the place of the innermost one. -/
def setCurrent (s : ScopeStack) (scope : Scope) : ScopeStack :=
  s.modify (s.depth - 1) fun _ => scope

/-- Depth and index of the variable that a name means. -/
def lookup? (s : ScopeStack) (name : Name) : Option (Nat × Nat) :=
  s.scopes.zipIdx.reverse.findSome? fun entry =>
    (entry.1.find? name).map fun index => (entry.2, index)

/-- The scopes that end when control goes back to a depth, innermost first. -/
def exiting (s : ScopeStack) (depth : Nat) : List Scope := (s.scopes.drop depth).reverse

end ScopeStack

namespace Emitter

/-- What a variable of a type has to let go of. -/
def custody (e : Emitter) (ty : TypeId) : Emit Custody :=
  match e.pool.item? ty with
  | some (.reference region _) => return region.custody
  | some (.record _) => do
    let plan ← Emit.layout (e.layouts.plan ty)
    return if plan.isTrivial then .none else .embedded
  | none => return .none

/-- Code for a variable in a new stack slot, and the scope with it. -/
def declareLocal (e : Emitter) (scope : Scope) (name : Name) (ty : TypeId)
    (init : Option Operand) : Emit (Nat × Scope) := do
  Emit.requirePoint
  let custody ← e.custody ty
  let slot ← Emit.build (·.alloca ty name)
  match init with
  | some v => Emit.edit (·.store ty v (.value slot))
  | none => pure ()
  return scope.declare ⟨name, ty, slot, custody, false⟩

/-- Code that lets go of one variable. -/
def releaseVariable (e : Emitter) (v : Variable) : Emit Unit :=
  match v.custody with
  | .embedded => e.releaseContents (.value v.slot) v.type
  | _ => do
    let held ← Emit.build (·.load v.type (.value v.slot))
    e.release (.value held) v.type

/-- Code for the end of a scope. -/
def closeScope (e : Emitter) (scope : Scope) : Emit Unit :=
  scope.pending.forM e.releaseVariable

/-- Code for leaving all scopes from a depth on. -/
def closeScopes (e : Emitter) (stack : ScopeStack) (depth : Nat) : Emit Unit :=
  (stack.exiting depth).forM e.closeScope

end Emitter

end Ownership
