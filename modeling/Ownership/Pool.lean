import Ownership.Name
import Ownership.Region
import Ownership.Literal
import Ownership.Stop

/-!
# The type pool

A pool holds the record and reference types of a program. Records are
declared by name and may be defined later, so that they can refer to
themselves; two references of one region to one pointee are the same
type. Beside the items there are two tables: one finds the reference type
of a region and a pointee, the other the record that was declared last
under a name (`Pool.Indexed`). A number that the pool does not know is
treated as a value without contents.
-/

namespace Ownership

/-- A field of a record, with the value it takes when a literal leaves it out. -/
structure FieldDef where
  name : Name
  type : TypeId
  default : Option Literal
  deriving DecidableEq

structure RecordDef where
  name : Name
  fields : List FieldDef
  deriving DecidableEq

/-- A type made by a program. -/
inductive TypeItem where
  | record (defn : RecordDef)
  | reference (region : Region) (pointee : TypeId)
  deriving DecidableEq

/-- What kind of type a number stands for. -/
inductive Tag where
  | primitive (p : Primitive)
  | record
  | reference
  deriving DecidableEq, Repr

def Tag.isPrimitive : Tag → Bool
  | .primitive _ => true
  | _ => false

/-- Region and pointee of a reference. -/
def TypeItem.parts? : TypeItem → Option (Region × TypeId)
  | .record _ => none
  | .reference region pointee => some (region, pointee)

/-- The name of a record. -/
def TypeItem.recordName? : TypeItem → Option Name
  | .record defn => some defn.name
  | .reference _ _ => none

/-! ## The tables of a pool -/

namespace Pool

/-- The number of the item at an index. -/
def typeAt (index : Nat) : TypeId := ⟨TypeId.firstDynamic + index⟩

section Entries

variable {κ : Type} [BEq κ] (key : TypeItem → Option κ)

/-- The number of the first entry that has this key; an entry is an item
with its index. -/
def entryWith (entries : List (TypeItem × Nat)) (k : κ) : Option TypeId :=
  (entries.find? fun entry => key entry.1 == some k).map fun entry => typeAt entry.2

/-- The entries that have a key, by their keys. -/
def tableOf (entries : List (TypeItem × Nat)) : List (κ × TypeId) :=
  entries.filterMap fun entry => (key entry.1).map fun k => (k, typeAt entry.2)

theorem entryWith_cons (entry : TypeItem × Nat) (entries : List (TypeItem × Nat)) (k : κ) :
    entryWith key (entry :: entries) k
      = if key entry.1 == some k then some (typeAt entry.2) else entryWith key entries k := by
  cases hkey : key entry.1 == some k <;> simp [entryWith, hkey]

theorem entryWith_append (entries more : List (TypeItem × Nat)) (k : κ) :
    entryWith key (entries ++ more) k = (entryWith key entries k).or (entryWith key more k) := by
  rw [entryWith, List.find?_append, entryWith, entryWith]
  cases entries.find? fun entry => key entry.1 == some k <;> rfl

/-- Only the keys of the items matter. -/
theorem entryWith_congr {items items' : List TypeItem} (h : items.map key = items'.map key)
    (k : κ) :
    entryWith key items.zipIdx k = entryWith key items'.zipIdx k
      ∧ entryWith key items.zipIdx.reverse k = entryWith key items'.zipIdx.reverse k := by
  have hkeys : ∀ l : List (TypeItem × Nat), entryWith key l k
      = ((l.map (Prod.map key id)).find? fun e => e.1 == some k).map fun e => typeAt e.2 := by
    intro l
    rw [List.find?_map, Option.map_map]
    rfl
  have hsame : items.zipIdx.map (Prod.map key id) = items'.zipIdx.map (Prod.map key id) := by
    rw [← List.zipIdx_map, ← List.zipIdx_map, h]
  rw [hkeys, hkeys, hkeys, hkeys, List.map_reverse, List.map_reverse, hsame]
  exact ⟨rfl, rfl⟩

theorem lookup_tableOf [LawfulBEq κ] (k : κ) : ∀ entries : List (TypeItem × Nat),
    (tableOf key entries).lookup k = entryWith key entries k
  | [] => rfl
  | entry :: entries => by
      rw [entryWith_cons, ← lookup_tableOf k entries, tableOf, List.filterMap_cons]
      cases hkey : key entry.1 with
      | none => rfl
      | some k' =>
          rw [Option.map_some, List.lookup_cons]
          by_cases hk : k = k'
          · simp [hk]
          · simp [beq_false_of_ne hk, Ne.symm hk, tableOf]

end Entries

/-- The tables lead to the items: to the place where a reference is listed
first, and to the record that is listed last under a name. -/
structure Indexed (items : List TypeItem) (references : List ((Region × TypeId) × TypeId))
    (records : List (Name × TypeId)) : Prop where
  reference : ∀ parts, references.lookup parts = entryWith TypeItem.parts? items.zipIdx parts
  record : ∀ n, records.lookup n = entryWith TypeItem.recordName? items.zipIdx.reverse n

/-- New fields of a record change nothing that does not depend on them. -/
theorem map_define {β : Type} {f : TypeItem → β} {items : List TypeItem} {index : Nat}
    {defn : RecordDef} (hitem : items[index]? = some (.record defn)) (fields : List FieldDef)
    (hf : f (.record ⟨defn.name, fields⟩) = f (.record defn)) :
    (items.set index (.record ⟨defn.name, fields⟩)).map f = items.map f := by
  refine List.ext_getElem? fun i => ?_
  rw [List.getElem?_map, List.getElem?_map, List.getElem?_set]
  split
  · next hi =>
      subst hi
      rw [if_pos (List.getElem?_eq_some_iff.mp hitem).1, hitem]
      exact congrArg some hf
  · rfl

namespace Indexed

variable {items : List TypeItem} {references : List ((Region × TypeId) × TypeId)}
  {records : List (Name × TypeId)}

/-- A new record is the last one of its name. -/
theorem addRecord (h : Indexed items references records) (defn : RecordDef) :
    Indexed (items ++ [.record defn]) references
      ((defn.name, typeAt items.length) :: records) where
  reference parts := by
    rw [h.reference, List.zipIdx_append, entryWith_append, List.zipIdx_singleton, entryWith_cons]
    exact (Option.or_none).symm
  record n := by
    rw [List.zipIdx_append, List.reverse_append, List.zipIdx_singleton, List.reverse_singleton,
      List.singleton_append, entryWith_cons, ← h.record, List.lookup_cons]
    by_cases hn : n = defn.name
    · simp [hn, TypeItem.recordName?]
    · simp [TypeItem.recordName?, beq_false_of_ne hn, Ne.symm hn]

/-- A reference that is not in the table gets the next number. -/
theorem addReference (h : Indexed items references records) {region : Region} {pointee : TypeId}
    (hnew : references.lookup (region, pointee) = none) :
    Indexed (items ++ [.reference region pointee])
      (((region, pointee), typeAt items.length) :: references) records where
  reference parts := by
    rw [List.zipIdx_append, entryWith_append, ← h.reference, List.zipIdx_singleton,
      entryWith_cons, List.lookup_cons]
    by_cases hparts : parts = (region, pointee)
    · simp [hparts, hnew, TypeItem.parts?]
    · simp [TypeItem.parts?, beq_false_of_ne hparts, Ne.symm hparts, entryWith]
  record n := by
    rw [h.record, List.zipIdx_append, List.reverse_append, List.zipIdx_singleton,
      List.reverse_singleton, List.singleton_append, entryWith_cons]
    rfl

/-- The tables stay when a record gets new fields. -/
theorem define (h : Indexed items references records) {index : Nat} {defn : RecordDef}
    (hitem : items[index]? = some (.record defn)) (fields : List FieldDef) :
    Indexed (items.set index (.record ⟨defn.name, fields⟩)) references records where
  reference parts := by
    rw [h.reference, (entryWith_congr _ (map_define hitem fields rfl) parts).1]
  record n := by
    rw [h.record, (entryWith_congr _ (map_define hitem fields rfl) n).2]

end Indexed

end Pool

structure Pool where
  names : Interner
  items : List TypeItem
  /-- The reference types, by region and pointee. -/
  references : List ((Region × TypeId) × TypeId)
  /-- The records that were declared last under their names. -/
  records : List (Name × TypeId)
  indexed : Pool.Indexed items references records

namespace Pool

/-- The pool of some items, with the tables that go with them. -/
def ofItems (names : Interner) (items : List TypeItem) : Pool where
  names := names
  items := items
  references := tableOf TypeItem.parts? items.zipIdx
  records := tableOf TypeItem.recordName? items.zipIdx.reverse
  indexed := ⟨fun parts => lookup_tableOf _ parts _, fun n => lookup_tableOf _ n _⟩

/-- No record and no reference. -/
def empty : Pool := ofItems .new []

instance : Inhabited Pool := ⟨empty⟩

/-- Number of records and references. -/
def size (pool : Pool) : Nat := pool.items.length

/-- The name of `s`, handed out now if it is new. -/
def intern (pool : Pool) (s : String) : Name × Pool :=
  let (n, names) := pool.names.intern s
  (n, { pool with names })

/-- The text of a name. -/
def text (pool : Pool) (n : Name) : String := pool.names.lookup n

/-- The record or reference with this number. -/
def item? (pool : Pool) (ty : TypeId) : Option TypeItem :=
  if ty.isNone || ty.raw < TypeId.firstDynamic then none
  else pool.items[ty.raw - TypeId.firstDynamic]?

/-! ## Records -/

def record? (pool : Pool) (ty : TypeId) : Option RecordDef :=
  match pool.item? ty with
  | some (.record defn) => some defn
  | _ => none

/-- The fields of a record, and none for any other type. -/
def fields (pool : Pool) (ty : TypeId) : List FieldDef :=
  match pool.record? ty with
  | some defn => defn.fields
  | none => []

/-- A new record type without fields. -/
def declareRecord (pool : Pool) (name : String) : TypeId × Pool :=
  let (n, pool) := pool.intern name
  (typeAt pool.size, { pool with
    items := pool.items ++ [.record ⟨n, []⟩]
    records := (n, typeAt pool.size) :: pool.records
    indexed := pool.indexed.addRecord ⟨n, []⟩ })

/-- Gives the record at an index of the items its fields. -/
def setFields (pool : Pool) {index : Nat} {defn : RecordDef}
    (hitem : pool.items[index]? = some (.record defn)) (fields : List FieldDef) : Pool :=
  { pool with
    items := pool.items.set index (.record ⟨defn.name, fields⟩)
    indexed := pool.indexed.define hitem fields }

/-- Gives a record its fields; there is no result if `ty` is no record. -/
def defineRecord? (pool : Pool) (ty : TypeId) (fields : List FieldDef) : Option Pool :=
  if ty.raw < TypeId.firstDynamic then none
  else
    match hitem : pool.items[ty.raw - TypeId.firstDynamic]? with
    | some (.record _) => some (pool.setFields hitem fields)
    | _ => none

/-- A new record type with the given fields. -/
def addRecord (pool : Pool) (name : String) (fields : List FieldDef) : TypeId × Pool :=
  let (ty, pool) := pool.declareRecord name
  (ty, (pool.defineRecord? ty fields).getD pool)

/-- Fields without default values; their names are interned in order. -/
def plainFields (pool : Pool) : List (String × TypeId) → List FieldDef × Pool
  | [] => ([], pool)
  | (s, ty) :: rest =>
    let (n, pool) := pool.intern s
    let (defs, pool) := pool.plainFields rest
    (⟨n, ty, none⟩ :: defs, pool)

/-- A new record type whose fields have no default values. -/
def addPlainRecord (pool : Pool) (name : String) (fields : List (String × TypeId)) :
    TypeId × Pool :=
  let (defs, pool) := pool.plainFields fields
  pool.addRecord name defs

/-- The record declared last under a name; asking hands out the name. -/
def recordNamed (pool : Pool) (name : String) : Option TypeId × Pool :=
  let (n, pool) := pool.intern name
  (pool.records.lookup n, pool)

/-! ## References -/

/-- The reference type of a region and a pointee, made now if it is new. -/
def reference (pool : Pool) (region : Region) (pointee : TypeId) : TypeId × Pool :=
  match hnew : pool.references.lookup (region, pointee) with
  | some ty => (ty, pool)
  | none => (typeAt pool.size, { pool with
      items := pool.items ++ [.reference region pointee]
      references := ((region, pointee), typeAt pool.size) :: pool.references
      indexed := pool.indexed.addReference hnew })

/-- Region and pointee of a reference type. -/
def reference? (pool : Pool) (ty : TypeId) : Option (Region × TypeId) :=
  match pool.item? ty with
  | some (.reference region pointee) => some (region, pointee)
  | _ => none

/-! ## Queries -/

/-- What kind of type a number stands for; an unknown number is a unit. -/
def tag (pool : Pool) (ty : TypeId) : Tag :=
  match ty.primitive? with
  | some p => .primitive p
  | none =>
    match pool.item? ty with
    | some (.record _) => .record
    | some (.reference _ _) => .reference
    | none => .primitive .unit

/-- The text of a type number that stands for nothing. -/
def unknownText : String := "<unknown>"

/-- The text of a type, looking through at most `depth` references. -/
def displayWithin (pool : Pool) : (depth : Nat) → TypeId → Except Abort String
  | 0, _ => .error .endless
  | depth + 1, ty =>
    match ty.primitive? with
    | some p => .ok p.name
    | none =>
      match pool.item? ty with
      | some (.record defn) => .ok (pool.text defn.name)
      | some (.reference region pointee) => do
        return region.keyword ++ " " ++ (← pool.displayWithin depth pointee)
      | none => .ok unknownText

/-- The text of a type: region keywords, outermost first, then the name of
the type they lead to. A chain of references that comes back to itself has
no text. -/
def display (pool : Pool) (ty : TypeId) : Except Abort String :=
  pool.displayWithin (pool.size + 1) ty

end Pool

end Ownership
