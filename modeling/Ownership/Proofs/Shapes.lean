import Ownership.Proofs.Leaves
import Ownership.Proofs.Words

/-!
# The shape of a value

A value has the shape of a type if it is of the kind of the type, where
words and addresses stand for one another, and the fields of a record have
the shapes of its fields. A type that has a layout encodes exactly the
values of its shape, into as many bytes as the layout says, and refuses
all others (`Layouts.encode_cases`).
-/

namespace Ownership

/-- Kinds of values that take a word. -/
def Kind.isWord : Kind → Bool
  | .usize | .ptr => true
  | _ => false

/-- A value of kind `found` may stand where `expected` is. -/
def Kind.Accepts (expected found : Kind) : Prop :=
  expected = found ∨ (expected.isWord = true ∧ found.isWord = true)

instance (expected found : Kind) : Decidable (expected.Accepts found) :=
  inferInstanceAs (Decidable (_ ∨ _))

/-- The primitive type that a type other than a record is stored as. -/
def Tag.scalar? : Tag → Option Primitive
  | .primitive p => some p
  | .reference => some .ptr
  | .record => none

namespace Pool

/-- The types of the fields of a record. -/
def fieldTypes (pool : Pool) (ty : TypeId) : List TypeId := (pool.fields ty).map FieldDef.type

mutual

/-- The value has the shape of type `ty`. -/
def HasShape (pool : Pool) (ty : TypeId) : Value → Prop
  | .record fields => pool.tag ty = .record ∧ HasShapes pool (pool.fieldTypes ty) fields
  | v => (pool.tag ty).kind.Accepts v.kind

def HasShapes (pool : Pool) : List TypeId → List Value → Prop
  | [], [] => True
  | ty :: tys, v :: vs => HasShape pool ty v ∧ HasShapes pool tys vs
  | _, _ => False

end

variable {pool : Pool} {ty : TypeId} {v : Value}

theorem hasShape_record {fields : List Value} : pool.HasShape ty (.record fields) ↔
    pool.tag ty = .record ∧ pool.HasShapes (pool.fieldTypes ty) fields := by
  rw [HasShape]

theorem hasShape_scalar (h : v.kind ≠ .record) :
    pool.HasShape ty v ↔ (pool.tag ty).kind.Accepts v.kind := by
  cases v with
  | record fields => exact absurd rfl h
  | _ =>
      rw [HasShape]
      rintro _ ⟨⟩

theorem hasShapes_cons {tys : List TypeId} {vs : List Value} :
    pool.HasShapes (ty :: tys) (v :: vs) ↔ pool.HasShape ty v ∧ pool.HasShapes tys vs := by
  rw [HasShapes]

theorem hasShapes_iff : ∀ {tys : List TypeId} {vs : List Value},
    pool.HasShapes tys vs ↔ List.Forall₂ pool.HasShape tys vs
  | [], [] => by simp [HasShapes]
  | [], _ :: _ => by simp [HasShapes]
  | _ :: _, [] => by simp [HasShapes]
  | _ :: _, _ :: _ => by rw [hasShapes_cons, List.forall₂_cons, hasShapes_iff]

theorem HasShapes.length_eq {tys : List TypeId} {vs : List Value} (h : pool.HasShapes tys vs) :
    tys.length = vs.length := (hasShapes_iff.mp h).length_eq

theorem HasShape.kind_ne_record {p : Primitive} (h : pool.HasShape ty v)
    (hscalar : (pool.tag ty).scalar? = some p) : v.kind ≠ .record := by
  cases v with
  | record fields =>
      rw [(hasShape_record.mp h).1] at hscalar
      cases hscalar
  | _ => nofun

theorem HasShape.exists_record (h : pool.HasShape ty v) (htag : pool.tag ty = .record) :
    ∃ fields, v = .record fields ∧ pool.HasShapes (pool.fieldTypes ty) fields := by
  by_cases hkind : v.kind = .record
  · cases v with
    | record fields => exact ⟨fields, rfl, (hasShape_record.mp h).2⟩
    | _ => cases hkind
  · rw [hasShape_scalar hkind, htag] at h
    rcases h with h | ⟨h, -⟩
    · exact absurd h.symm hkind
    · cases h

end Pool

namespace Layouts

variable {L : Layouts} {ty : TypeId} {v : Value} {p : Primitive}

/-! ## Scalars -/

theorem kind_of_scalar {tag : Tag} (h : tag.scalar? = some p) : tag.kind = p.kind := by
  cases tag <;> cases h <;> rfl

theorem eq_record_of_scalar {tag : Tag} (h : tag.scalar? = none) : tag = .record := by
  cases tag with
  | record => rfl
  | _ => cases h

theorem sizeOf_scalar (h : (L.pool.tag ty).scalar? = some p) :
    L.sizeOf ty = some (L.primitiveLayout p) := by
  cases htag : L.pool.tag ty with
  | primitive q =>
      rw [htag] at h
      cases h
      exact sizeOf_primitive htag
  | reference =>
      rw [htag] at h
      cases h
      exact sizeOf_reference htag
  | record =>
      rw [htag] at h
      cases h

theorem encodeScalar_of_scalar {tag : Tag} (h : tag.scalar? = some p) (v : Value) :
    L.encodeScalar tag v = L.encodeScalar (.primitive p) v := by
  cases tag <;> cases h <;> cases v <;> rfl

theorem encode_scalar (h : v.kind ≠ .record) :
    L.encode ty v = L.encodeScalar (L.pool.tag ty) v := by
  cases v with
  | record fields => exact absurd rfl h
  | _ =>
      rw [encode]
      rintro _ ⟨⟩

/-- A scalar takes the values of its kind and refuses all others. -/
theorem encodeScalar_cases (L : Layouts) (p : Primitive) (v : Value) :
    (p.kind.Accepts v.kind ∧ ∃ data, L.encodeScalar (.primitive p) v = .ok data
        ∧ data.length = (L.primitiveLayout p).size)
    ∨ (¬ p.kind.Accepts v.kind
      ∧ L.encodeScalar (.primitive p) v = .fail (.mismatch ⟨p.kind, v.kind⟩)) := by
  have hword : ∀ n : UInt64, (L.wordBytes n).length = L.word := fun n => length_leBytes _ _
  cases p <;> cases v <;> first
    | exact Or.inl ⟨Or.inl rfl, _, rfl, rfl⟩
    | exact Or.inl ⟨Or.inl rfl, _, rfl, length_leBytes _ _⟩
    | exact Or.inl ⟨Or.inr ⟨rfl, rfl⟩, _, rfl, hword _⟩
    | exact Or.inr ⟨by simp [Kind.Accepts, Primitive.kind, Value.kind, Kind.isWord], rfl⟩

/-! ## Packing -/

theorem pack_cons_some {size pos offset : Nat} {part data : List UInt8}
    {parts : List (Nat × List UInt8)} : pack size pos ((offset, part) :: parts) = some data ↔
      pos ≤ offset ∧ ∃ rest, pack size (offset + part.length) parts = some rest
        ∧ data = List.replicate (offset - pos) 0 ++ part ++ rest := by
  rw [pack]
  by_cases hpos : pos ≤ offset
  · rw [if_pos hpos]
    cases pack size (offset + part.length) parts with
    | none => simp
    | some rest => simp [hpos, eq_comm]
  · simp [hpos]

theorem slice?_eq_some_iff {data part : List UInt8} {start len : Nat} :
    slice? data start len = some part ↔
      start + len ≤ data.length ∧ (data.drop start).take len = part := by
  unfold slice?
  split
  · next hle => simp [hle]
  · next hle => simp [hle]

theorem getElem?_slice {data part : List UInt8} {start len : Nat}
    (h : slice? data start len = some part) {i : Nat} (hi : i < len) :
    part[i]? = data[start + i]? := by
  obtain ⟨-, rfl⟩ := slice?_eq_some_iff.mp h
  rw [List.getElem?_take_of_lt hi, List.getElem?_drop]

theorem length_of_slice {data part : List UInt8} {start len : Nat}
    (h : slice? data start len = some part) : part.length = len := by
  obtain ⟨hle, rfl⟩ := slice?_eq_some_iff.mp h
  rw [List.length_take, List.length_drop]
  omega

theorem slice?_append_right {l data part : List UInt8} {start len : Nat}
    (h : slice? data start len = some part) :
    slice? (l ++ data) (l.length + start) len = some part := by
  obtain ⟨hle, hpart⟩ := slice?_eq_some_iff.mp h
  refine slice?_eq_some_iff.mpr ⟨by rw [List.length_append]; omega, ?_⟩
  rw [List.drop_length_add_append, hpart]

theorem slice?_append_left (part rest : List UInt8) :
    slice? (part ++ rest) 0 part.length = some part := by
  simp [slice?]

/-- The parts of a record are where they were packed. -/
theorem slice?_of_pack {size : Nat} : ∀ {parts : List (Nat × List UInt8)} {pos : Nat}
    {data : List UInt8}, pack size pos parts = some data → ∀ p ∈ parts,
      pos ≤ p.1 ∧ slice? data (p.1 - pos) p.2.length = some p.2
  | (offset, part) :: parts, pos, data, h, p, hp => by
      obtain ⟨hpos, rest, hrest, rfl⟩ := pack_cons_some.mp h
      have hgap : (List.replicate (offset - pos) (0 : UInt8)).length = offset - pos :=
        List.length_replicate
      rw [List.append_assoc]
      rcases List.mem_cons.mp hp with rfl | hp
      · refine ⟨hpos, ?_⟩
        have := slice?_append_right (l := List.replicate (offset - pos) 0)
          (slice?_append_left part rest)
        rwa [hgap] at this
      · obtain ⟨hle, hslice⟩ := slice?_of_pack hrest p hp
        have := slice?_append_right (l := List.replicate (offset - pos) 0)
          (slice?_append_right (l := part) hslice)
        have hplace :
            offset - pos + (part.length + (p.1 - (offset + part.length))) = p.1 - pos := by omega
        rw [hgap, hplace] at this
        exact ⟨by omega, this⟩

/-- Between the parts there are zeros. -/
theorem getElem?_of_pack {size : Nat} : ∀ {parts : List (Nat × List UInt8)} {pos : Nat}
    {data : List UInt8}, pack size pos parts = some data → ∀ {i : Nat}, i < data.length →
      (∀ p ∈ parts, pos + i < p.1 ∨ p.1 + p.2.length ≤ pos + i) → data[i]? = some 0
  | [], pos, data, h, i, hi, _ => by
      rw [pack] at h
      split at h
      · obtain rfl := Option.some.inj h
        rw [List.length_replicate] at hi
        rw [List.getElem?_replicate, if_pos hi]
      · cases h
  | (offset, part) :: parts, pos, data, h, i, hi, hout => by
      obtain ⟨hpos, rest, hrest, rfl⟩ := pack_cons_some.mp h
      obtain ⟨hhead, htail⟩ := List.forall_mem_cons.mp hout
      simp only [List.length_append, List.length_replicate] at hi
      simp only at hhead
      rw [List.append_assoc]
      rcases hhead with hbefore | hbehind
      · rw [List.getElem?_append_left (by rw [List.length_replicate]; omega),
          List.getElem?_replicate, if_pos (by omega)]
      · rw [List.getElem?_append_right (by rw [List.length_replicate]; omega),
          List.getElem?_append_right (by rw [List.length_replicate]; omega),
          List.length_replicate]
        refine getElem?_of_pack hrest (by omega) fun p hp => ?_
        have := htail p hp
        omega

/-! ## Fields -/

/-- Each field in its slot has a part of bytes, as many as the layout of the slot says. -/
inductive EncodedFields (L : Layouts) :
    List FieldSlot → List Value → List (Nat × List UInt8) → Prop where
  | nil : EncodedFields L [] [] []
  | cons {slot : FieldSlot} {slots : List FieldSlot} {v : Value} {vs : List Value}
      {w : ValueLayout} {part : List UInt8} {parts : List (Nat × List UInt8)} :
      L.sizeOf slot.type = some w → L.encode slot.type v = .ok part → part.length = w.size →
      EncodedFields L slots vs parts →
      EncodedFields L (slot :: slots) (v :: vs) ((slot.offset, part) :: parts)

namespace EncodedFields

variable {slots : List FieldSlot} {vs : List Value} {parts : List (Nat × List UInt8)}

theorem encodeFields_eq (h : L.EncodedFields slots vs parts) :
    L.encodeFields slots vs = .ok parts := by
  induction h with
  | nil =>
      rw [encodeFields]
      exact nofun
  | @cons slot slots v vs w part parts hsize hpart hlen _ ih =>
      rw [encodeFields, value_eq_ok_iff.mpr hsize]
      change (L.encode slot.type v >>= _) = _
      rw [hpart]
      change (if part.length = w.size then _ else _) = _
      rw [if_pos hlen, ih]
      rfl

theorem length_eq (h : L.EncodedFields slots vs parts) : vs.length = slots.length := by
  induction h with
  | nil => rfl
  | cons _ _ _ _ ih => rw [List.length_cons, List.length_cons, ih]

theorem zip (h : L.EncodedFields slots vs parts) :
    ∀ p ∈ slots.zip vs, ∃ part, L.encode p.1.type p.2 = .ok part ∧ (p.1.offset, part) ∈ parts := by
  induction h with
  | nil => exact nofun
  | @cons slot slots v vs w part parts hsize hpart hlen _ ih =>
      refine List.forall_mem_cons.mpr ⟨?_, fun p hp => ?_⟩
      · exact ⟨part, hpart, List.mem_cons_self⟩
      · obtain ⟨part', hpart', hin⟩ := ih p hp
        exact ⟨part', hpart', List.mem_cons_of_mem _ hin⟩

theorem slot_of_part (h : L.EncodedFields slots vs parts) :
    ∀ p ∈ parts, ∃ s ∈ slots, ∃ w, L.sizeOf s.type = some w ∧ p.1 = s.offset
      ∧ p.2.length = w.size := by
  induction h with
  | nil => exact nofun
  | @cons slot slots v vs w part parts hsize hpart hlen _ ih =>
      refine List.forall_mem_cons.mpr ⟨?_, fun p hp => ?_⟩
      · exact ⟨slot, List.mem_cons_self, w, hsize, rfl, hlen⟩
      · obtain ⟨s, hs, hrest⟩ := ih p hp
        exact ⟨s, List.mem_cons_of_mem _ hs, hrest⟩

/-- Fields that lie behind one another fill the record up to its end. -/
theorem pack_ok (h : L.EncodedFields slots vs parts) {bound pos : Nat}
    (hlined : Lined L.sizeOf slots bound) (hpos : ∀ s ∈ slots, pos ≤ s.offset)
    (hbound : pos ≤ bound) :
    ∃ data, pack bound pos parts = some data ∧ data.length = bound - pos := by
  induction h generalizing pos with
  | nil =>
      refine ⟨List.replicate (bound - pos) 0, ?_, List.length_replicate⟩
      rw [pack, if_pos hbound]
  | @cons slot slots v vs w part parts hsize hpart hlen _ ih =>
      obtain ⟨w', hsize', hend⟩ := hlined.ends slot List.mem_cons_self
      obtain rfl := Option.some.inj (hsize.symm.trans hsize')
      have hbefore := (List.pairwise_cons.mp hlined.apart).1
      obtain ⟨rest, hrest, hlength⟩ :=
        ih hlined.tail (fun s hs => hbefore s hs w hsize) hend
      have hslot := hpos slot List.mem_cons_self
      refine ⟨_, pack_cons_some.mpr ⟨hslot, rest, hlen ▸ hrest, rfl⟩, ?_⟩
      simp only [List.length_append, List.length_replicate]
      omega

end EncodedFields

theorem encode_record {fields : List Value} {r : RecordLayout} {parts : List (Nat × List UInt8)}
    (htag : L.pool.tag ty = .record) (hr : L.placed ty = some r)
    (hparts : L.EncodedFields r.fields fields parts) :
    ∃ data, L.encode ty (.record fields) = .ok data ∧ pack r.size 0 parts = some data
      ∧ data.length = r.size := by
  obtain ⟨data, hpack, hlen⟩ :=
    hparts.pack_ok (placed_shape hr).1 (fun _ _ => Nat.zero_le _) (Nat.zero_le _)
  refine ⟨data, ?_, hpack, hlen⟩
  rw [encode]
  simp only [htag, record_eq_ok_iff.mpr hr]
  change (if fields.length = r.fields.length then _ else _) = _
  rw [if_pos hparts.length_eq, hparts.encodeFields_eq]
  simp only [bind, Except.bind, hpack]

/-! ## Which values have bytes -/

/-- A type encodes a value of its shape, and refuses any other value. -/
def Judges (L : Layouts) (ty : TypeId) (size : Nat) (v : Value) : Prop :=
  (L.pool.HasShape ty v ∧ ∃ data, L.encode ty v = .ok data ∧ data.length = size)
    ∨ (¬ L.pool.HasShape ty v ∧ ∃ m, L.encode ty v = .fail (.mismatch m))

theorem encodeFields_cases : ∀ {slots : List FieldSlot} {vs : List Value},
    (∀ s ∈ slots, ∃ w, L.sizeOf s.type = some w ∧ ∀ v, L.Judges s.type w.size v) →
    vs.length = slots.length →
    (L.pool.HasShapes (slots.map FieldSlot.type) vs ∧ ∃ parts, L.EncodedFields slots vs parts)
      ∨ (¬ L.pool.HasShapes (slots.map FieldSlot.type) vs
        ∧ ∃ m, L.encodeFields slots vs = .fail (.mismatch m))
  | [], [], _, _ => Or.inl ⟨by simp [Pool.HasShapes], [], .nil⟩
  | slot :: slots, v :: vs, hslots, hlength => by
      obtain ⟨w, hsize, hjudges⟩ := hslots slot List.mem_cons_self
      rw [List.map_cons, Pool.hasShapes_cons, encodeFields, value_eq_ok_iff.mpr hsize]
      obtain ⟨hshape, part, hpart, hlen⟩ | ⟨hshape, m, hrefused⟩ := hjudges v
      · obtain ⟨hshapes, parts, hparts⟩ | ⟨hshapes, m, hrefused⟩ :=
          encodeFields_cases (fun s hs => hslots s (List.mem_cons_of_mem _ hs))
            (Nat.succ.inj hlength)
        · exact Or.inl ⟨⟨hshape, hshapes⟩, _, .cons hsize hpart hlen hparts⟩
        · refine Or.inr ⟨fun h => hshapes h.2, m, ?_⟩
          change (L.encode slot.type v >>= _) = _
          rw [hpart]
          change (if part.length = w.size then _ else _) = _
          rw [if_pos hlen, hrefused]
          rfl
      · refine Or.inr ⟨fun h => hshape h.1, m, ?_⟩
        change (L.encode slot.type v >>= _) = _
        rw [hrefused]
        rfl

theorem judges_scalar (hscalar : (L.pool.tag ty).scalar? = some p) (v : Value) :
    L.Judges ty (L.primitiveLayout p).size v := by
  by_cases hkind : v.kind = .record
  · cases v with
    | record fields =>
        have htag : L.pool.tag ty ≠ .record := by
          intro htag
          rw [htag] at hscalar
          cases hscalar
        refine Or.inr ⟨fun h => htag (Pool.hasShape_record.mp h).1, ?_⟩
        rw [encode]
        split
        · next h => exact absurd h htag
        · exact ⟨_, rfl⟩
    | _ => cases hkind
  · rw [Judges, Pool.hasShape_scalar hkind, kind_of_scalar hscalar, encode_scalar hkind,
      encodeScalar_of_scalar hscalar]
    exact (L.encodeScalar_cases p v).imp id fun h => ⟨h.1, _, h.2⟩

theorem judges_record {r : RecordLayout} (htag : L.pool.tag ty = .record)
    (hr : L.placed ty = some r)
    (hslots : ∀ s ∈ r.fields, ∃ w, L.sizeOf s.type = some w ∧ ∀ v, L.Judges s.type w.size v)
    (v : Value) : L.Judges ty r.size v := by
  have htypes : L.pool.fieldTypes ty = r.fields.map FieldSlot.type := (placed_shape hr).2.2.symm
  by_cases hkind : v.kind = .record
  · cases v with
    | record fields =>
        rw [Judges, Pool.hasShape_record, htypes]
        by_cases hlength : fields.length = r.fields.length
        · obtain ⟨hshapes, parts, hparts⟩ | ⟨hshapes, m, hrefused⟩ :=
            encodeFields_cases hslots hlength
          · obtain ⟨data, hdata, -, hlen⟩ := encode_record htag hr hparts
            exact Or.inl ⟨⟨htag, hshapes⟩, data, hdata, hlen⟩
          · refine Or.inr ⟨fun h => hshapes h.2, m, ?_⟩
            rw [encode]
            simp only [htag, record_eq_ok_iff.mpr hr]
            change (if fields.length = r.fields.length then _ else _) = _
            rw [if_pos hlength, hrefused]
            rfl
        · refine Or.inr ⟨fun h => hlength ?_, ⟨.fullRecord, .record⟩, ?_⟩
          · rw [← h.2.length_eq, List.length_map]
          · rw [encode]
            simp only [htag, record_eq_ok_iff.mpr hr]
            change (if fields.length = r.fields.length then _ else _) = _
            rw [if_neg hlength]
    | _ => cases hkind
  · rw [Judges, Pool.hasShape_scalar hkind, encode_scalar hkind, htag]
    refine Or.inr ⟨?_, ⟨.record, v.kind⟩, ?_⟩
    · rintro (h | ⟨h, -⟩)
      · exact hkind h.symm
      · cases h
    · cases v <;> rfl

theorem judges_within : ∀ {d : Nat} {ty : TypeId} {w : ValueLayout}, L.measure d ty = some w →
    ∀ v, L.Judges ty w.size v
  | d + 1, ty, w, h, v => by
      have hsize := measure_depth h
      cases hscalar : (L.pool.tag ty).scalar? with
      | some p =>
          rw [sizeOf_scalar hscalar] at hsize
          obtain rfl := Option.some.inj hsize
          exact judges_scalar hscalar v
      | none =>
          have htag := eq_record_of_scalar hscalar
          obtain ⟨r, hr, rfl⟩ := exists_placed htag hsize
          refine judges_record htag hr (fun s hs => ?_) v
          obtain ⟨w, hw⟩ := measure_slot h hr hs
          exact ⟨w, measure_depth hw, judges_within hw⟩

/-- A type with a layout encodes the values of its shape, and refuses all others. -/
theorem encode_cases {w : ValueLayout} (hsize : L.sizeOf ty = some w) (v : Value) :
    L.Judges ty w.size v := judges_within hsize v

theorem encode_ok {w : ValueLayout} (hsize : L.sizeOf ty = some w)
    (hshape : L.pool.HasShape ty v) : ∃ data, L.encode ty v = .ok data ∧ data.length = w.size := by
  obtain ⟨-, hok⟩ | ⟨hno, -⟩ := encode_cases hsize v
  · exact hok
  · exact absurd hshape hno

theorem hasShape_of_encode {w : ValueLayout} {data : List UInt8} (hsize : L.sizeOf ty = some w)
    (h : L.encode ty v = .ok data) : L.pool.HasShape ty v := by
  obtain ⟨hshape, -⟩ | ⟨-, m, hrefused⟩ := encode_cases hsize v
  · exact hshape
  · rw [h] at hrefused
    cases hrefused

theorem encodedFields_of_shapes {r : RecordLayout} (hr : L.placed ty = some r)
    {fields : List Value} (hshapes : L.pool.HasShapes (r.fields.map FieldSlot.type) fields) :
    ∃ parts, L.EncodedFields r.fields fields parts := by
  have hslots : ∀ s ∈ r.fields, ∃ w, L.sizeOf s.type = some w
      ∧ ∀ v, L.Judges s.type w.size v := by
    intro s hs
    obtain ⟨w, hw, -⟩ := (placed_shape hr).1.ends s hs
    exact ⟨w, hw, encode_cases hw⟩
  have hlength : fields.length = r.fields.length := by
    rw [← hshapes.length_eq, List.length_map]
  obtain ⟨-, hparts⟩ | ⟨hno, -⟩ := encodeFields_cases hslots hlength
  · exact hparts
  · exact absurd hshapes hno

end Layouts

end Ownership
