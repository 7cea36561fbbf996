import Ownership.Pool

/-!
# Record literals

A record literal gives values for the leading fields of a record, in
order; the others take their declared defaults. `checkLiteral` decides
whether the types fit and says where each field gets its value.
-/

namespace Ownership

/-- Where a field of a record literal gets its value. -/
inductive FieldSource where
  /-- From the value at this position of the literal. -/
  | provided (index : Nat)
  /-- From the default of the field. -/
  | default (value : Literal)
  deriving DecidableEq

/-- What is wrong with a literal. -/
inductive LiteralFlaw where
  | notRecord (type : TypeId)
  | empty (record : TypeId)
  | mismatch (field : Name) (expected found : TypeId)
  | notEnough (record : TypeId) (field : Name)
  | tooMany (record : TypeId) (expected found : Nat)
  deriving DecidableEq, Repr

/-- Why a literal is refused, in the texts of types and fields. -/
inductive LiteralError where
  | notRecord (type : String)
  | empty (record : String)
  | mismatch (field expected found : String)
  | notEnough (record field : String)
  | tooMany (record : String) (expected found : Nat)
  deriving DecidableEq, Repr

def LiteralError.message : LiteralError → String
  | .notRecord ty => "`" ++ ty ++ "` is not a record type"
  | .empty record => "literal for `" ++ record ++ "` may not be empty"
  | .mismatch field expected found =>
    "literal value for field `" ++ field ++ "` has type `" ++ found ++ "`, expected `" ++ expected
      ++ "`"
  | .notEnough record field =>
    "not enough values for `" ++ record ++ "`: field `" ++ field ++ "` has no default"
  | .tooMany record expected found =>
    "too many values for `" ++ record ++ "`: expected at most " ++ toString expected ++ ", found "
      ++ toString found

/-- The error that tells of a flaw; there is none if it would have to show a
type that has no text. -/
def LiteralFlaw.report (pool : Pool) : LiteralFlaw → Except Abort LiteralError
  | .notRecord ty => do return .notRecord (← pool.display ty)
  | .empty record => do return .empty (← pool.display record)
  | .mismatch field expected found => do
    return .mismatch (pool.text field) (← pool.display expected) (← pool.display found)
  | .notEnough record field => do return .notEnough (← pool.display record) (pool.text field)
  | .tooMany record expected found => do return .tooMany (← pool.display record) expected found

/-- Where one field gets its value, when the literal has `given` for it. -/
def FieldDef.source (record : TypeId) (field : FieldDef) (index : Nat) (given : Option TypeId) :
    Except LiteralFlaw FieldSource :=
  match given with
  | some found =>
    if found = field.type then .ok (.provided index)
    else .error (.mismatch field.name field.type found)
  | none =>
    match field.default with
    | some value =>
      if value.type = field.type then .ok (.default value)
      else .error (.mismatch field.name field.type value.type)
    | none => .error (.notEnough record field.name)

/-- The sources of the fields from position `index` on; `given` are the
types of the values left. -/
def fieldSources (record : TypeId) :
    List FieldDef → (index : Nat) → (given : List TypeId) → Except LiteralFlaw (List FieldSource)
  | [], _, _ => .ok []
  | field :: fields, index, given =>
    match field.source record index given.head? with
    | .error e => .error e
    | .ok source =>
      match fieldSources record fields (index + 1) given.tail with
      | .error e => .error e
      | .ok sources => .ok (source :: sources)

/-- The sources of all fields for a literal with values of the types
`given`, in order. The first field that does not fit is the flaw; surplus
values are one only when all fields fit. -/
def Pool.literalSources (pool : Pool) (record : TypeId) (given : List TypeId) :
    Except LiteralFlaw (List FieldSource) :=
  match pool.record? record with
  | none => .error (.notRecord record)
  | some defn =>
    if given.isEmpty then .error (.empty record)
    else
      match fieldSources record defn.fields 0 given with
      | .error e => .error e
      | .ok sources =>
        if defn.fields.length < given.length then
          .error (.tooMany record defn.fields.length given.length)
        else .ok sources

/-- Checks a literal against the type `record`: one source for each field,
or the error for its flaw. -/
def Pool.checkLiteral (pool : Pool) (record : TypeId) (given : List TypeId) :
    Except (Stop LiteralError) (List FieldSource) :=
  match pool.literalSources record given with
  | .ok sources => .ok sources
  | .error flaw =>
    match flaw.report pool with
    | .ok e => .error (.error e)
    | .error a => .error (.abort a)

end Ownership
