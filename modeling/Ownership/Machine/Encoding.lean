import Ownership.Layout.Table
import Ownership.Machine.Fault

/-!
# Values as bytes

How a value of a type lies in memory: scalars in little-endian order,
words cut to the width of the target, the fields of a record at their
offsets with zeros between them. Reading takes whatever the bytes are,
except that a record has to be there in full.
-/

namespace Ownership

/-! ## Numbers as bytes -/

/-- The lowest `len` bytes of a number, the lowest first. -/
def leBytes : (len : Nat) → Nat → List UInt8
  | 0, _ => []
  | len + 1, n => UInt8.ofNat n :: leBytes len (n / 256)

/-- The number that bytes stand for, the lowest first. -/
def ofLeBytes : List UInt8 → Nat
  | [] => 0
  | b :: bs => b.toNat + 256 * ofLeBytes bs

/-! ## Kinds of types -/

/-- The kind of the values of a primitive type. -/
def Primitive.kind : Primitive → Kind
  | .int => .int
  | .float => .float
  | .bool => .bool
  | .byte => .byte
  | .i32 => .i32
  | .unit => .unit
  | .usize => .usize
  | .ptr => .ptr

/-- The kind of the values of a type. -/
def Tag.kind : Tag → Kind
  | .primitive p => p.kind
  | .record => .record
  | .reference => .ptr

namespace Layouts

/-! ## Writing -/

/-- The bytes of a word of the target. -/
def wordBytes (L : Layouts) (n : UInt64) : List UInt8 := leBytes L.word n.toNat

/-- The bytes of a value that is no record. -/
def encodeScalar (L : Layouts) (tag : Tag) (v : Value) : Outcome (List UInt8) :=
  match tag, v with
  | .primitive .int, .int n => .ok (leBytes 8 n.toUInt64.toNat)
  | .primitive .i32, .i32 n => .ok (leBytes 4 n.toUInt32.toNat)
  | .primitive .float, .float bits => .ok (leBytes 8 bits.toNat)
  | .primitive .bool, .bool b => .ok [if b then 1 else 0]
  | .primitive .byte, .byte b => .ok [b]
  | .primitive .unit, .unit => .ok []
  | .primitive .usize, .usize n | .primitive .usize, .ptr n => .ok (L.wordBytes n)
  | .primitive .ptr, .usize n | .primitive .ptr, .ptr n => .ok (L.wordBytes n)
  | .reference, .usize n | .reference, .ptr n => .ok (L.wordBytes n)
  | _, _ => .fail (.mismatch ⟨tag.kind, v.kind⟩)

/-- The parts of a record at their offsets, with zeros up to `size`. The
parts must come in order and fit; `pos` is where the last one ended. -/
def pack (size : Nat) : (pos : Nat) → List (Nat × List UInt8) → Option (List UInt8)
  | pos, [] => if pos ≤ size then some (List.replicate (size - pos) 0) else none
  | pos, (offset, part) :: parts =>
    if pos ≤ offset then
      match pack size (offset + part.length) parts with
      | some rest => some (List.replicate (offset - pos) 0 ++ part ++ rest)
      | none => none
    else none

mutual

/-- The bytes of a value of type `ty`. -/
def encode (L : Layouts) (ty : TypeId) : Value → Outcome (List UInt8)
  | .record fields =>
    match L.pool.tag ty with
    | .record => do
      let layout ← Outcome.ofLayout (L.record ty)
      if fields.length = layout.fields.length then
        let parts ← encodeFields L layout.fields fields
        match pack layout.size 0 parts with
        | some data => .ok data
        | none => .giveUp .bounds
      else .fail (.mismatch ⟨.fullRecord, .record⟩)
    | tag => .fail (.mismatch ⟨tag.kind, .record⟩)
  | v => L.encodeScalar (L.pool.tag ty) v

/-- The bytes of fields with the offsets of their slots. -/
def encodeFields (L : Layouts) : List FieldSlot → List Value → Outcome (List (Nat × List UInt8))
  | slot :: slots, v :: vs => do
    let layout ← Outcome.ofLayout (L.value slot.type)
    let part ← encode L slot.type v
    if part.length = layout.size then
      let parts ← encodeFields L slots vs
      return (slot.offset, part) :: parts
    else .giveUp .bounds
  | _, _ => .ok []

end

/-! ## Reading -/

/-- A part of a byte string. -/
def slice? (data : List UInt8) (start len : Nat) : Option (List UInt8) :=
  if start + len ≤ data.length then some ((data.drop start).take len) else none

/-- The value of a primitive type that bytes stand for. -/
def decodePrimitive (data : List UInt8) : Primitive → Value
  | .int => .int (UInt64.ofNat (ofLeBytes (data.take 8))).toInt64
  | .float => .float (UInt64.ofNat (ofLeBytes (data.take 8)))
  | .bool => .bool (data.headD 0 ≠ 0)
  | .byte => .byte (data.headD 0)
  | .i32 => .i32 (UInt32.ofNat (ofLeBytes (data.take 4))).toInt32
  | .unit => .unit
  | .usize => .usize (UInt64.ofNat (ofLeBytes (data.take 8)))
  | .ptr => .ptr (UInt64.ofNat (ofLeBytes (data.take 8)))

/-- The values of the fields in slots; `inner` reads one of them. -/
def decodeFields (L : Layouts) (inner : TypeId → List UInt8 → Outcome Value)
    (data : List UInt8) : List FieldSlot → Outcome (List Value)
  | [] => .ok []
  | slot :: slots => do
    let layout ← Outcome.ofLayout (L.value slot.type)
    match slice? data slot.offset layout.size with
    | some part => do
      let v ← inner slot.type part
      let vs ← L.decodeFields inner data slots
      return v :: vs
    | none => .giveUp .bounds

/-- The value of type `ty` that bytes stand for, looking into at most
`depth` levels of records. -/
def decodeWithin (L : Layouts) : (depth : Nat) → TypeId → List UInt8 → Outcome Value
  | 0, _, _ => .giveUp .endless
  | depth + 1, ty, data =>
    match L.pool.tag ty with
    | .primitive p => .ok (decodePrimitive data p)
    | .reference => .ok (decodePrimitive data .ptr)
    | .record => do
      let layout ← Outcome.ofLayout (L.record ty)
      let vs ← L.decodeFields (L.decodeWithin depth) data layout.fields
      return .record vs

/-- The value of type `ty` that bytes stand for. -/
def decode (L : Layouts) (ty : TypeId) (data : List UInt8) : Outcome Value :=
  L.decodeWithin L.depth ty data

/-! ## Memory -/

/-- Reads a value from memory. -/
def load (L : Layouts) (h : Heap) (ty : TypeId) (addr : UInt64) : Outcome Value := do
  let layout ← Outcome.ofLayout (L.value ty)
  let data ← Outcome.ofMemory (h.read addr.toNat layout.size)
  L.decode ty data

/-- Writes a value to memory. -/
def store (L : Layouts) (h : Heap) (ty : TypeId) (addr : UInt64) (v : Value) : Outcome Heap := do
  let layout ← Outcome.ofLayout (L.value ty)
  if layout.size < capacityLimit then
    let data ← L.encode ty v
    if data.length = layout.size then Outcome.ofMemory (h.write addr.toNat data)
    else .giveUp .bounds
  else .giveUp .capacity

/-- The first address of the block behind a reference; that of its counter
if it has one. -/
def blockOf (L : Layouts) (ty : TypeId) (reference : UInt64) : Outcome UInt64 := do
  let layout ← Outcome.ofLayout (L.ref ty)
  return reference + (Int64.ofInt layout.countOffset).toUInt64

/-- The count in the block behind a reference. -/
def refCount (L : Layouts) (h : Heap) (ty : TypeId) (reference : UInt64) : Outcome UInt64 := do
  let counter ← L.blockOf ty reference
  let v ← L.load h .usize counter
  Outcome.ofKind v.asAddr

end Layouts

end Ownership
