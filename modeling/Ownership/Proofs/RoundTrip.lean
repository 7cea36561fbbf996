import Ownership.Proofs.Shapes

/-!
# Values to bytes and back

A value that has bytes is read back from them, except that a word comes
back cut to the width of the target and as what its type says it is
(`Layouts.readBack`, `Layouts.decodeWithin_encode`). Every string of as
many bytes as a type has is a value of the type, and the bytes of that
value are the string again, except that a byte of no scalar is zero and
one of a condition is zero or one (`Layouts.Normalized`,
`Layouts.decodeWithin_ok`). `byte_round_trip` puts both together.
-/

namespace Ownership

namespace Layouts

variable {L : Layouts} {ty : TypeId} {v : Value} {p : Primitive} {data out : List UInt8}

/-! ## What is read back -/

/-- A number stored as a word of a type. -/
def wordOf (L : Layouts) (tag : Tag) (n : UInt64) : Value :=
  let stored := UInt64.ofNat (n.toNat % 2 ^ L.width.bits)
  if tag = .primitive .usize then .usize stored else .ptr stored

mutual

/-- A value of type `ty` as it comes back from its bytes. -/
def readBack (L : Layouts) (ty : TypeId) : Value → Value
  | .record fields => .record (readBackAll L (L.pool.fieldTypes ty) fields)
  | .usize n => L.wordOf (L.pool.tag ty) n
  | .ptr n => L.wordOf (L.pool.tag ty) n
  | v => v

def readBackAll (L : Layouts) : List TypeId → List Value → List Value
  | ty :: tys, v :: vs => readBack L ty v :: readBackAll L tys vs
  | _, _ => []

end

/-- What the bytes of a word keep of a number. -/
theorem ofLeBytes_wordBytes (L : Layouts) (n : UInt64) :
    ofLeBytes (L.wordBytes n) = n.toNat % 2 ^ L.width.bits := by
  rw [wordBytes, ofLeBytes_leBytes, PointerWidth.bits, Nat.pow_mul]
  rfl

theorem decode_leBytes (n : UInt64) :
    UInt64.ofNat (ofLeBytes ((leBytes 8 n.toNat).take 8)) = n := by
  have hlt : n.toNat < 256 ^ 8 := n.toNat_lt
  rw [List.take_of_length_le (by rw [length_leBytes]), ofLeBytes_leBytes, Nat.mod_eq_of_lt hlt,
    UInt64.ofNat_toNat]

theorem decode_wordBytes (L : Layouts) (n : UInt64) :
    UInt64.ofNat (ofLeBytes ((L.wordBytes n).take 8))
      = UInt64.ofNat (n.toNat % 2 ^ L.width.bits) := by
  have hlen : (L.wordBytes n).length ≤ 8 := by
    rw [wordBytes, length_leBytes]
    exact L.word_le
  rw [List.take_of_length_le hlen, ofLeBytes_wordBytes]

theorem wordOf_usize {tag : Tag} (h : tag.scalar? = some .usize) (n : UInt64) :
    L.wordOf tag n = .usize (UInt64.ofNat (n.toNat % 2 ^ L.width.bits)) := by
  cases tag <;> cases h
  rfl

theorem wordOf_ptr {tag : Tag} (h : tag.scalar? = some .ptr) (n : UInt64) :
    L.wordOf tag n = .ptr (UInt64.ofNat (n.toNat % 2 ^ L.width.bits)) := by
  cases tag <;> cases h <;> rfl

theorem readBack_same (hrecord : v.kind ≠ .record) (hword : v.kind.isWord = false) :
    L.readBack ty v = v := by
  cases v with
  | record fields => exact absurd rfl hrecord
  | usize n => cases hword
  | ptr n => cases hword
  | _ => rw [readBack] <;> nofun

/-- What is read from the bytes of a scalar. -/
theorem decodePrimitive_eq (hscalar : (L.pool.tag ty).scalar? = some p)
    (h : L.encodeScalar (.primitive p) v = .ok data) :
    decodePrimitive data p = L.readBack ty v := by
  cases p with
  | int =>
      cases v with
      | int n =>
          cases h
          rw [readBack_same (v := .int n) nofun rfl, decodePrimitive, decode_leBytes]
          rfl
      | _ => cases h
  | float =>
      cases v with
      | float bits =>
          cases h
          rw [readBack_same (v := .float bits) nofun rfl, decodePrimitive, decode_leBytes]
      | _ => cases h
  | bool =>
      cases v with
      | bool b =>
          cases h
          rw [readBack_same (v := .bool b) nofun rfl]
          cases b <;> rfl
      | _ => cases h
  | byte =>
      cases v with
      | byte b =>
          cases h
          rw [readBack_same (v := .byte b) nofun rfl]
          rfl
      | _ => cases h
  | i32 =>
      cases v with
      | i32 n =>
          cases h
          have hlt : n.toUInt32.toNat < 256 ^ 4 := n.toUInt32.toNat_lt
          rw [readBack_same (v := .i32 n) nofun rfl, decodePrimitive,
            List.take_of_length_le (by rw [length_leBytes]), ofLeBytes_leBytes,
            Nat.mod_eq_of_lt hlt, UInt32.ofNat_toNat]
          rfl
      | _ => cases h
  | unit =>
      cases v with
      | unit => exact (readBack_same (v := .unit) nofun rfl).symm
      | _ => cases h
  | usize =>
      cases v with
      | usize n =>
          cases h
          rw [decodePrimitive, decode_wordBytes, readBack, wordOf_usize hscalar]
      | ptr n =>
          cases h
          rw [decodePrimitive, decode_wordBytes, readBack, wordOf_usize hscalar]
      | _ => cases h
  | ptr =>
      cases v with
      | usize n =>
          cases h
          rw [decodePrimitive, decode_wordBytes, readBack, wordOf_ptr hscalar]
      | ptr n =>
          cases h
          rw [decodePrimitive, decode_wordBytes, readBack, wordOf_ptr hscalar]
      | _ => cases h

theorem readBackAll_cons (tys : List TypeId) (vs : List Value) :
    L.readBackAll (ty :: tys) (v :: vs) = L.readBack ty v :: L.readBackAll tys vs := by
  rw [readBackAll]

theorem decodeWithin_scalar (hscalar : (L.pool.tag ty).scalar? = some p) (d : Nat)
    (data : List UInt8) : L.decodeWithin (d + 1) ty data = .ok (decodePrimitive data p) := by
  rw [decodeWithin]
  cases htag : L.pool.tag ty <;> rw [htag] at hscalar <;> cases hscalar <;> rfl

theorem decodeWithin_record {r : RecordLayout} (htag : L.pool.tag ty = .record)
    (hr : L.placed ty = some r) (d : Nat) (data : List UInt8) :
    L.decodeWithin (d + 1) ty data =
      (L.decodeFields (L.decodeWithin d) data r.fields).map Value.record := by
  rw [decodeWithin]
  simp only [htag, record_eq_ok_iff.mpr hr]
  change (L.decodeFields (L.decodeWithin d) data r.fields >>= _) = _
  cases L.decodeFields (L.decodeWithin d) data r.fields <;> rfl

theorem decodeFields_cons {inner : TypeId → List UInt8 → Outcome Value} {slot : FieldSlot}
    {slots : List FieldSlot} {w : ValueLayout} {part : List UInt8} {vs : List Value}
    (hsize : L.sizeOf slot.type = some w) (hslice : slice? data slot.offset w.size = some part)
    (hv : inner slot.type part = .ok v) (hvs : L.decodeFields inner data slots = .ok vs) :
    L.decodeFields inner data (slot :: slots) = .ok (v :: vs) := by
  simp only [decodeFields, value_eq_ok_iff.mpr hsize, Outcome.ofLayout, Except.mapError, bind,
    Except.bind, hslice, hv, hvs, pure, Except.pure]

/-- Fields that are where their slots are come back one by one. -/
theorem EncodedFields.decodeFields_eq {slots : List FieldSlot} {vs : List Value}
    {parts : List (Nat × List UInt8)} (h : L.EncodedFields slots vs parts)
    {inner : TypeId → List UInt8 → Outcome Value}
    (hinner : ∀ s ∈ slots, ∀ v part, L.encode s.type v = .ok part →
      inner s.type part = .ok (L.readBack s.type v))
    (hslice : ∀ p ∈ parts, slice? data p.1 p.2.length = some p.2) :
    L.decodeFields inner data slots
      = .ok (L.readBackAll (slots.map FieldSlot.type) vs) := by
  induction h with
  | nil =>
      rw [decodeFields, List.map_nil, readBackAll]
      exact nofun
  | @cons slot slots v vs w part parts hsize hpart hlen _ ih =>
      obtain ⟨hhead, htail⟩ := List.forall_mem_cons.mp hslice
      rw [List.map_cons, readBackAll_cons]
      refine decodeFields_cons hsize (hlen ▸ hhead) (hinner slot List.mem_cons_self v part hpart) ?_
      exact ih (fun s hs => hinner s (List.mem_cons_of_mem _ hs)) htail

theorem decodeWithin_encode : ∀ {d : Nat} {ty : TypeId} {w : ValueLayout} {v : Value}
    {data : List UInt8}, L.measure d ty = some w → L.encode ty v = .ok data →
    L.decodeWithin d ty data = .ok (L.readBack ty v)
  | d + 1, ty, w, v, data, h, hdata => by
      have hsize := measure_depth h
      have hshape := hasShape_of_encode hsize hdata
      cases hscalar : (L.pool.tag ty).scalar? with
      | some p =>
          have hkind := hshape.kind_ne_record hscalar
          rw [encode_scalar hkind, encodeScalar_of_scalar hscalar] at hdata
          rw [decodeWithin_scalar hscalar, decodePrimitive_eq hscalar hdata]
      | none =>
          have htag := eq_record_of_scalar hscalar
          obtain ⟨r, hr, -⟩ := exists_placed htag hsize
          obtain ⟨fields, rfl, hshapes⟩ := hshape.exists_record htag
          rw [Pool.fieldTypes, ← (placed_shape hr).2.2] at hshapes
          obtain ⟨parts, hparts⟩ := encodedFields_of_shapes hr hshapes
          obtain ⟨data', hdata', hpack, -⟩ := encode_record htag hr hparts
          obtain rfl := Except.ok.inj (hdata'.symm.trans hdata)
          have hinner : ∀ s ∈ r.fields, ∀ v part, L.encode s.type v = .ok part →
              L.decodeWithin d s.type part = .ok (L.readBack s.type v) := by
            intro s hs v part hpart
            obtain ⟨w, hw⟩ := measure_slot h hr hs
            exact decodeWithin_encode hw hpart
          have hfields := hparts.decodeFields_eq hinner fun p hp => (slice?_of_pack hpack p hp).2
          rw [decodeWithin_record htag hr, hfields, readBack, Pool.fieldTypes,
            ← (placed_shape hr).2.2]
          rfl

/-! ## The bytes of a type -/

/-- Byte `i` of a value of type `ty` belongs to a scalar, stored as the primitive type `p`. -/
inductive ScalarAt (L : Layouts) : (ty : TypeId) → (i : Nat) → (p : Primitive) → Prop where
  | here {ty : TypeId} {i : Nat} {p : Primitive} : (L.pool.tag ty).scalar? = some p →
      i < (L.primitiveLayout p).size → ScalarAt L ty i p
  | field {ty : TypeId} {r : RecordLayout} {slot : FieldSlot} {i : Nat} {p : Primitive} :
      L.pool.tag ty = .record → L.record ty = .ok r → slot ∈ r.fields → ScalarAt L slot.type i p →
      ScalarAt L ty (slot.offset + i) p

/-- The byte of the condition that a byte stands for. -/
def conditionByte (b : UInt8) : UInt8 := if b = 0 then 0 else 1

/-- The bytes `out` of a value of type `ty` are `data`, except that a byte
of no scalar is zero, and one of a condition is zero or one. -/
structure Normalized (L : Layouts) (ty : TypeId) (data out : List UInt8) : Prop where
  length : out.length = data.length
  content : ∀ {i p}, L.ScalarAt ty i p → p ≠ .bool → out[i]? = data[i]?
  condition : ∀ {i}, L.ScalarAt ty i .bool → out[i]? = (data[i]?).map conditionByte
  padding : ∀ {i}, i < data.length → (∀ p, ¬ L.ScalarAt ty i p) → out[i]? = some 0

/-- In a scalar there is no padding, and all bytes are of one kind. -/
theorem scalarAt_iff (hscalar : (L.pool.tag ty).scalar? = some p) {i : Nat} {q : Primitive} :
    L.ScalarAt ty i q ↔ q = p ∧ i < (L.primitiveLayout p).size := by
  constructor
  · rintro (⟨hq, hi⟩ | ⟨htag, -, -, -⟩)
    · obtain rfl := Option.some.inj (hq.symm.trans hscalar)
      exact ⟨rfl, hi⟩
    · rw [htag] at hscalar
      cases hscalar
  · rintro ⟨rfl, hi⟩
    exact .here hscalar hi

theorem ScalarAt.lt {i : Nat} (h : L.ScalarAt ty i p) {w : ValueLayout}
    (hsize : L.sizeOf ty = some w) : i < w.size := by
  induction h generalizing w with
  | here hscalar hi =>
      rw [sizeOf_scalar hscalar] at hsize
      exact Option.some.inj hsize ▸ hi
  | field htag hrecord hslot _ ih =>
      have hr := record_eq_ok_iff.mp hrecord
      obtain rfl := Option.some.inj ((sizeOf_of_placed htag hr).symm.trans hsize)
      obtain ⟨w, hw, hend⟩ := (placed_shape hr).1.ends _ hslot
      have := ih hw
      change _ < RecordLayout.size _
      omega

theorem leBytes_decode {n : Nat} (hlen : data.length = n) (hn : n ≤ 8) :
    leBytes n (UInt64.ofNat (ofLeBytes (data.take 8))).toNat = data := by
  subst hlen
  have hlt : ofLeBytes data < 2 ^ 64 :=
    Nat.lt_of_lt_of_le (ofLeBytes_lt data) (Nat.pow_le_pow_right (by decide) hn)
  rw [List.take_of_length_le hn, UInt64.toNat_ofNat_of_lt' hlt, leBytes_ofLeBytes]

/-- The bytes of what is read from the bytes of a scalar. -/
theorem encode_decodePrimitive (hlen : data.length = (L.primitiveLayout p).size) :
    L.encodeScalar (.primitive p) (decodePrimitive data p) =
      .ok (if p = .bool then data.map conditionByte else data) := by
  cases p with
  | int => exact congrArg Except.ok (leBytes_decode hlen (Nat.le_refl 8))
  | float => exact congrArg Except.ok (leBytes_decode hlen (Nat.le_refl 8))
  | bool =>
      obtain ⟨b, rfl⟩ := List.length_eq_one_iff.mp hlen
      by_cases hb : b = 0 <;> simp [encodeScalar, decodePrimitive, conditionByte, hb]
  | byte =>
      obtain ⟨b, rfl⟩ := List.length_eq_one_iff.mp hlen
      rfl
  | i32 =>
      have hlen' : data.length = 4 := hlen
      have hlt : ofLeBytes data < 2 ^ 32 := by
        have := ofLeBytes_lt data
        rwa [hlen'] at this
      have hbytes : leBytes 4 (UInt32.ofNat (ofLeBytes (data.take 4))).toNat = data := by
        rw [List.take_of_length_le (Nat.le_of_eq hlen'), UInt32.toNat_ofNat_of_lt' hlt, ← hlen',
          leBytes_ofLeBytes]
      exact congrArg Except.ok hbytes
  | unit =>
      obtain rfl := List.eq_nil_of_length_eq_zero hlen
      rfl
  | usize => exact congrArg Except.ok (leBytes_decode hlen L.word_le)
  | ptr => exact congrArg Except.ok (leBytes_decode hlen L.word_le)

theorem normalized_scalar (hscalar : (L.pool.tag ty).scalar? = some p)
    (hlen : data.length = (L.primitiveLayout p).size) :
    L.Normalized ty data (if p = .bool then data.map conditionByte else data) where
  length := by split <;> simp
  content := by
    intro i q hq hbool
    obtain ⟨rfl, -⟩ := (scalarAt_iff hscalar).mp hq
    rw [if_neg hbool]
  condition := by
    intro i hq
    obtain ⟨rfl, -⟩ := (scalarAt_iff hscalar).mp hq
    rw [if_pos rfl, List.getElem?_map]
  padding := by
    intro i hi hnone
    exact absurd ((scalarAt_iff hscalar).mpr ⟨rfl, hlen ▸ hi⟩) (hnone p)

/-- The bytes in the slot of a record are `part`. -/
def HasPart (L : Layouts) (data : List UInt8) (s : FieldSlot) (part : List UInt8) : Prop :=
  ∃ w, L.sizeOf s.type = some w ∧ slice? data s.offset w.size = some part

theorem HasPart.getElem? {s : FieldSlot} {part : List UInt8} (h : L.HasPart data s part) {i : Nat}
    (hi : i < part.length) : data[s.offset + i]? = part[i]? := by
  obtain ⟨w, -, hslice⟩ := h
  exact (getElem?_slice hslice (length_of_slice hslice ▸ hi)).symm

theorem HasPart.length_eq {s : FieldSlot} {part : List UInt8} (h : L.HasPart data s part)
    {w : ValueLayout} (hsize : L.sizeOf s.type = some w) : part.length = w.size := by
  obtain ⟨w', hsize', hslice⟩ := h
  obtain rfl := Option.some.inj (hsize.symm.trans hsize')
  exact length_of_slice hslice

/-- Two records of bytes, the one normal in each slot and zero between them. -/
structure SlotsNormalized (L : Layouts) (slots : List FieldSlot) (data out : List UInt8) :
    Prop where
  length : out.length = data.length
  field : ∀ s ∈ slots, ∃ part part', L.HasPart data s part ∧ L.HasPart out s part'
    ∧ L.Normalized s.type part part'
  gap : ∀ {i}, i < out.length → (∀ s ∈ slots, ∀ w, L.sizeOf s.type = some w →
    i < s.offset ∨ s.offset + w.size ≤ i) → out[i]? = some 0

/-- A scalar in a record is one in a field. -/
theorem SlotsNormalized.scalarAt {r : RecordLayout} (h : L.SlotsNormalized r.fields data out)
    (htag : L.pool.tag ty = .record) (hr : L.placed ty = some r) {i : Nat}
    (hp : L.ScalarAt ty i p) : ∃ s j part part', L.ScalarAt s j p ∧ L.Normalized s part part'
      ∧ data[i]? = part[j]? ∧ out[i]? = part'[j]? := by
  cases hp with
  | here hscalar =>
      rw [htag] at hscalar
      cases hscalar
  | @field _ r' slot j _ _ hrecord hslot hj =>
      obtain rfl := Option.some.inj ((record_eq_ok_iff.mp hrecord).symm.trans hr)
      obtain ⟨part, part', hpart, hpart', hnormal⟩ := h.field slot hslot
      obtain ⟨w, hsize, -⟩ := (placed_shape hr).1.ends slot hslot
      have hlt : j < w.size := hj.lt hsize
      refine ⟨slot.type, j, part, part', hj, hnormal, hpart.getElem? ?_, hpart'.getElem? ?_⟩
      · rwa [hpart.length_eq hsize]
      · rwa [hpart'.length_eq hsize]

theorem SlotsNormalized.normalized {r : RecordLayout} (h : L.SlotsNormalized r.fields data out)
    (htag : L.pool.tag ty = .record) (hr : L.placed ty = some r) : L.Normalized ty data out where
  length := h.length
  content := by
    intro i p hp hbool
    obtain ⟨s, j, part, part', hj, hnormal, hdata, hout⟩ := h.scalarAt htag hr hp
    rw [hdata, hout, hnormal.content hj hbool]
  condition := by
    intro i hp
    obtain ⟨s, j, part, part', hj, hnormal, hdata, hout⟩ := h.scalarAt htag hr hp
    rw [hdata, hout, hnormal.condition hj]
  padding := by
    intro i hi hnone
    -- a byte of a field that is no scalar of the record is padding of the field
    by_cases hin : ∃ s ∈ r.fields, ∃ w, L.sizeOf s.type = some w
        ∧ s.offset ≤ i ∧ i < s.offset + w.size
    · obtain ⟨s, hs, w, hsize, hstart, hend⟩ := hin
      obtain ⟨part, part', hpart, hpart', hnormal⟩ := h.field s hs
      have hlen := hpart.length_eq hsize
      have hlen' := hpart'.length_eq hsize
      obtain ⟨j, rfl⟩ := Nat.exists_eq_add_of_le hstart
      rw [hpart'.getElem? (by omega)]
      exact hnormal.padding (by omega) fun p hp =>
        hnone p (.field htag (record_eq_ok_iff.mpr hr) hs hp)
    · refine h.gap (h.length ▸ hi) fun s hs w hsize => ?_
      by_contra hcon
      exact hin ⟨s, hs, w, hsize, by omega, by omega⟩

/-! ## From bytes to values and back -/

/-- What is read from the parts of a record, and the bytes of that. -/
theorem decodeFields_ok {inner : TypeId → List UInt8 → Outcome Value} :
    ∀ {slots : List FieldSlot},
      (∀ s ∈ slots, ∃ part v part', L.HasPart data s part ∧ inner s.type part = .ok v
        ∧ L.encode s.type v = .ok part' ∧ L.Normalized s.type part part') →
      ∃ vs parts, L.decodeFields inner data slots = .ok vs ∧ L.EncodedFields slots vs parts
        ∧ ∀ s ∈ slots, ∃ part part', L.HasPart data s part ∧ (s.offset, part') ∈ parts
          ∧ L.Normalized s.type part part'
  | [], _ => ⟨[], [], by rw [decodeFields], .nil, by simp⟩
  | slot :: slots, h => by
      obtain ⟨⟨part, v, part', hpart, hv, hpart', hnormal⟩, htail⟩ := List.forall_mem_cons.mp h
      obtain ⟨vs, parts, hvs, hparts, hslots⟩ := decodeFields_ok htail
      obtain ⟨w, hsize, hslice⟩ := hpart
      have hlen : part'.length = w.size := hnormal.length.trans (length_of_slice hslice)
      refine ⟨v :: vs, (slot.offset, part') :: parts, decodeFields_cons hsize hslice hv hvs,
        .cons hsize hpart' hlen hparts, List.forall_mem_cons.mpr ⟨?_, fun s hs => ?_⟩⟩
      · exact ⟨part, part', ⟨w, hsize, hslice⟩, List.mem_cons_self, hnormal⟩
      · obtain ⟨part, part', h1, h2, h3⟩ := hslots s hs
        exact ⟨part, part', h1, List.mem_cons_of_mem _ h2, h3⟩

/-- The bytes of fields that were read from `data` are `data` in normal form. -/
theorem EncodedFields.slotsNormalized {r : RecordLayout} {vs : List Value}
    {parts : List (Nat × List UInt8)} (h : L.EncodedFields r.fields vs parts)
    (hpack : pack r.size 0 parts = some out) (hlength : out.length = data.length)
    (hslots : ∀ s ∈ r.fields, ∃ part part', L.HasPart data s part ∧ (s.offset, part') ∈ parts
      ∧ L.Normalized s.type part part') : L.SlotsNormalized r.fields data out where
  length := hlength
  field := by
    intro s hs
    obtain ⟨part, part', hpart, hmem, hnormal⟩ := hslots s hs
    have hslice := (slice?_of_pack hpack _ hmem).2
    obtain ⟨w, hsize, hpart⟩ := hpart
    rw [hnormal.length, length_of_slice hpart] at hslice
    exact ⟨part, part', ⟨w, hsize, hpart⟩, ⟨w, hsize, hslice⟩, hnormal⟩
  gap := by
    intro i hi hout
    refine getElem?_of_pack hpack hi fun p hp => ?_
    obtain ⟨s, hs, w, hsize, hoffset, hlen⟩ := h.slot_of_part p hp
    rw [Nat.zero_add, hoffset, hlen]
    exact hout s hs w hsize

theorem decodeWithin_ok : ∀ {d : Nat} {ty : TypeId} {w : ValueLayout} {data : List UInt8},
    L.measure d ty = some w → data.length = w.size →
    ∃ v out, L.decodeWithin d ty data = .ok v ∧ L.encode ty v = .ok out
      ∧ L.Normalized ty data out
  | d + 1, ty, w, data, h, hlen => by
      have hsize := measure_depth h
      cases hscalar : (L.pool.tag ty).scalar? with
      | some p =>
          rw [sizeOf_scalar hscalar] at hsize
          obtain rfl := Option.some.inj hsize
          have hkind : (decodePrimitive data p).kind ≠ .record := by cases p <;> nofun
          refine ⟨_, _, decodeWithin_scalar hscalar d data, ?_, normalized_scalar hscalar hlen⟩
          rw [encode_scalar hkind, encodeScalar_of_scalar hscalar, encode_decodePrimitive hlen]
      | none =>
          have htag := eq_record_of_scalar hscalar
          obtain ⟨r, hr, rfl⟩ := exists_placed htag hsize
          have hinner : ∀ s ∈ r.fields, ∃ part v part', L.HasPart data s part
              ∧ L.decodeWithin d s.type part = .ok v ∧ L.encode s.type v = .ok part'
              ∧ L.Normalized s.type part part' := by
            intro s hs
            obtain ⟨w, hsize, hend⟩ := (placed_shape hr).1.ends s hs
            obtain ⟨w', hw⟩ := measure_slot h hr hs
            obtain rfl := Option.some.inj (hsize.symm.trans (measure_depth hw))
            have hslice : slice? data s.offset w.size = some ((data.drop s.offset).take w.size) :=
              slice?_eq_some_iff.mpr ⟨hlen ▸ hend, rfl⟩
            obtain ⟨v, part', hv, hpart', hnormal⟩ :=
              decodeWithin_ok hw (length_of_slice hslice)
            exact ⟨_, v, part', ⟨w, hsize, hslice⟩, hv, hpart', hnormal⟩
          obtain ⟨vs, parts, hvs, hparts, hslots⟩ := decodeFields_ok hinner
          obtain ⟨out, hout, hpack, hlength⟩ := encode_record htag hr hparts
          refine ⟨.record vs, out, ?_, hout, ?_⟩
          · rw [decodeWithin_record htag hr, hvs]
            rfl
          · exact (hparts.slotsNormalized hpack (hlength.trans hlen.symm) hslots).normalized htag hr

end Layouts

/-- A type with a layout takes the values of its shape and refuses all
others; a value comes back from its bytes as it is stored; and every
string of as many bytes as the layout says is a value, whose bytes are the
normal form of the string. -/
theorem byte_round_trip {L : Layouts} {ty : TypeId} {w : ValueLayout} (h : L.value ty = .ok w) :
    (∀ v, ((∃ data, L.encode ty v = .ok data) ↔ L.pool.HasShape ty v)
      ∧ (¬ L.pool.HasShape ty v → ∃ m, L.encode ty v = .fail (.mismatch m))
      ∧ ∀ data, L.encode ty v = .ok data →
        data.length = w.size ∧ L.decode ty data = .ok (L.readBack ty v))
    ∧ ∀ data, data.length = w.size →
      ∃ v out, L.decode ty data = .ok v ∧ L.encode ty v = .ok out ∧ L.Normalized ty data out := by
  have hsize := Layouts.value_eq_ok_iff.mp h
  refine ⟨fun v => ⟨?_, ?_, fun data hdata => ?_⟩, fun data hlen => ?_⟩
  · constructor
    · rintro ⟨data, hdata⟩
      exact Layouts.hasShape_of_encode hsize hdata
    · intro hshape
      obtain ⟨data, hdata, -⟩ := Layouts.encode_ok hsize hshape
      exact ⟨data, hdata⟩
  · intro hshape
    obtain ⟨hshape', -⟩ | ⟨-, hrefused⟩ := Layouts.encode_cases hsize v
    · exact absurd hshape' hshape
    · exact hrefused
  · obtain ⟨data', hdata', hlen⟩ :=
      Layouts.encode_ok hsize (Layouts.hasShape_of_encode hsize hdata)
    obtain rfl := Except.ok.inj (hdata'.symm.trans hdata)
    exact ⟨hlen, Layouts.decodeWithin_encode hsize hdata⟩
  · exact Layouts.decodeWithin_ok hsize hlen

namespace Nested

/-- A record of a condition and a word; and one of a byte, the first record, a reference and
another condition. -/
def pool : Pool :=
  .ofItems .new [.record ⟨⟨0⟩, [⟨⟨1⟩, .bool, none⟩, ⟨⟨2⟩, .usize, none⟩]⟩,
    .record ⟨⟨3⟩, [⟨⟨4⟩, .byte, none⟩, ⟨⟨5⟩, ⟨16⟩, none⟩, ⟨⟨6⟩, ⟨18⟩, none⟩, ⟨⟨7⟩, .bool, none⟩]⟩,
    .reference .owning ⟨17⟩]

def layouts : Layouts := ⟨pool, .w32⟩

/-- A value with an address for the word, a word for the reference, and both too wide. -/
def value : Value :=
  .record [.byte 7, .record [.bool true, .ptr 0x100000005], .usize 0x20000000A, .bool false]

theorem value_layout : layouts.value ⟨17⟩ = .ok ⟨20, 4⟩ := by decide +kernel

theorem hasShape_value : layouts.pool.HasShape ⟨17⟩ value := by
  have hword : Kind.Accepts .usize .ptr := by decide
  have haddr : Kind.Accepts .ptr .usize := by decide
  have hinner : pool.HasShape ⟨16⟩ (.record [.bool true, .ptr 0x100000005]) :=
    Pool.hasShape_record.mpr ⟨rfl, Or.inl rfl, hword, trivial⟩
  exact Pool.hasShape_record.mpr ⟨rfl, Or.inl rfl, hinner, haddr, Or.inl rfl, trivial⟩

end Nested

/-- The value comes back with both words cut and put right, and of twenty equal bytes the paddings
are lost and the conditions become one. -/
theorem byte_round_trip_nested :
    (∃ data, Nested.layouts.encode ⟨17⟩ Nested.value = .ok data ∧ data.length = 20
      ∧ Nested.layouts.decode ⟨17⟩ data
        = .ok (.record [.byte 7, .record [.bool true, .usize 5], .ptr 10, .bool false]))
    ∧ ∃ v out, Nested.layouts.decode ⟨17⟩ (List.replicate 20 9) = .ok v
      ∧ Nested.layouts.encode ⟨17⟩ v = .ok out
      ∧ Nested.layouts.Normalized ⟨17⟩ (List.replicate 20 9) out := by
  obtain ⟨hvalues, hbytes⟩ := byte_round_trip Nested.value_layout
  obtain ⟨hshape, -, hback⟩ := hvalues Nested.value
  obtain ⟨data, hdata⟩ := hshape.mpr Nested.hasShape_value
  obtain ⟨hlen, hdecode⟩ := hback data hdata
  exact ⟨⟨data, hdata, hlen, hdecode⟩, hbytes _ List.length_replicate⟩

end Ownership
