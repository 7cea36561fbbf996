import Ownership.Proofs.Allocation
import Ownership.Proofs.Shapes

/-!
# Typed values

A value has a type if it is of the kind of the type, and the fields of a
record have the types of its fields. Such a value has the shape of the
type (`Pool.HasType.hasShape`) and so it has bytes, and the owning and
counted references in it are what the leaves of the type are in these
bytes (`Layouts.refsOf_of_carries`). So the references that a new block
holds are those in the values that it was made from
(`Emitter.Makes.refsOf`).
-/

namespace Ownership

namespace Pool

/-- Whether the values of a type are owning or counted references. -/
def isHolder (pool : Pool) (ty : TypeId) : Bool :=
  match pool.reference? ty with
  | some (region, _) => region.isOwning
  | none => false

mutual

/-- The value is one of type `ty`. -/
def HasType (pool : Pool) (ty : TypeId) : Value → Prop
  | .record fields => pool.tag ty = .record ∧ HasTypes pool (pool.fieldTypes ty) fields
  | v => (pool.tag ty).kind = v.kind

def HasTypes (pool : Pool) : List TypeId → List Value → Prop
  | [], [] => True
  | ty :: tys, v :: vs => HasType pool ty v ∧ HasTypes pool tys vs
  | _, _ => False

end

mutual

/-- The owning and counted references in a value of type `ty`. -/
def refsIn (pool : Pool) (ty : TypeId) : Value → List Ref
  | .ptr addr => if pool.isHolder ty then [⟨ty, addr⟩] else []
  | .record fields => refsInAll pool (pool.fieldTypes ty) fields
  | _ => []

def refsInAll (pool : Pool) : List TypeId → List Value → List Ref
  | ty :: tys, v :: vs => refsIn pool ty v ++ refsInAll pool tys vs
  | _, _ => []

end

variable {pool : Pool} {ty : TypeId} {v : Value}

theorem HasType.kind (h : pool.HasType ty v) : (pool.tag ty).kind = v.kind := by
  cases v with
  | record fields =>
      simp only [HasType] at h
      rw [h.1]
      rfl
  | _ =>
      simp only [HasType] at h
      exact h

theorem hasTypes_cons {tys : List TypeId} {vs : List Value} :
    pool.HasTypes (ty :: tys) (v :: vs) ↔ pool.HasType ty v ∧ pool.HasTypes tys vs := by
  rw [HasTypes]

theorem hasTypes_iff : ∀ {tys : List TypeId} {vs : List Value},
    pool.HasTypes tys vs ↔ List.Forall₂ pool.HasType tys vs
  | [], [] => by simp [HasTypes]
  | [], _ :: _ => by simp [HasTypes]
  | _ :: _, [] => by simp [HasTypes]
  | _ :: _, _ :: _ => by rw [hasTypes_cons, List.forall₂_cons, hasTypes_iff]

theorem HasTypes.length_eq {tys : List TypeId} {vs : List Value} (h : pool.HasTypes tys vs) :
    tys.length = vs.length := (hasTypes_iff.mp h).length_eq

mutual

theorem HasType.hasShape : ∀ (v : Value) {ty : TypeId}, pool.HasType ty v → pool.HasShape ty v := by
  intro v ty h
  cases v with
  | record fields =>
      rw [HasType] at h
      exact hasShape_record.mpr ⟨h.1, HasTypes.hasShapes fields h.2⟩
  | _ => exact (hasShape_scalar (by nofun)).mpr (Or.inl h.kind)

theorem HasTypes.hasShapes : ∀ (vs : List Value) {tys : List TypeId}, pool.HasTypes tys vs →
    pool.HasShapes tys vs
  | [], [], _ => by rw [HasShapes]; trivial
  | v :: vs, _ :: _, h =>
      hasShapes_cons.mpr ⟨HasType.hasShape v (hasTypes_cons.mp h).1,
        HasTypes.hasShapes vs (hasTypes_cons.mp h).2⟩

end

end Pool

/-! ## The references in the bytes -/

namespace Bytes

/-- A part of a range of a buffer is a range of it. -/
theorem slice?_slice (b : Bytes) (off : Nat) {n start len : Nat} (h : start + len ≤ n) :
    Layouts.slice? (b.slice off n) start len = some (b.slice (off + start) len) := by
  refine Layouts.slice?_eq_some_iff.mpr ⟨by rwa [length_slice], ?_⟩
  rw [slice, ← List.map_drop, ← List.map_take, List.drop_range', Nat.mul_one,
    List.take_range'_of_length_ge (by omega)]
  rfl

/-- What lies in a buffer lies there part by part. -/
theorem slice_of_slice? {b : Bytes} {off start : Nat} {data part : List UInt8}
    (hdata : b.slice off data.length = data)
    (hpart : Layouts.slice? data start part.length = some part) :
    b.slice (off + start) part.length = part := by
  have hin := (Layouts.slice?_eq_some_iff.mp hpart).1
  have hslice := b.slice?_slice off hin
  rw [hdata, hpart] at hslice
  exact (Option.some.inj hslice).symm

end Bytes

namespace Layouts

variable {L : Layouts} {bytes : Bytes} {off : Nat} {ty : TypeId}

theorem Carries.fields {fields : List Value} {r : RecordLayout}
    (hc : L.Carries bytes off ty (.record fields)) (htag : L.pool.tag ty = .record)
    (hr : L.placed ty = some r) (htypes : L.pool.HasTypes (r.fields.map FieldSlot.type) fields) :
    ∀ p ∈ r.fields.zip fields, L.Carries bytes (off + p.1.offset) p.1.type p.2 := by
  obtain ⟨parts, hparts⟩ := encodedFields_of_shapes hr (htypes.hasShapes fields)
  obtain ⟨data, hdata, hpack, -⟩ := encode_record htag hr hparts
  obtain ⟨data', hdata', hslice⟩ := hc
  obtain rfl := Except.ok.inj (hdata'.symm.trans hdata)
  intro p hp
  obtain ⟨part, hpart, hin⟩ := hparts.zip p hp
  obtain ⟨-, hpart'⟩ := slice?_of_pack hpack _ hin
  exact ⟨part, hpart, Bytes.slice_of_slice? hslice hpart'⟩

/-- The reference that is a leaf of the value in a buffer, from `off` on. -/
def refOf (L : Layouts) (bytes : Bytes) (off : Nat) (l : Leaf) : Ref :=
  ⟨l.type, UInt64.ofNat (ofLeBytes (bytes.slice (off + l.offset) L.word))⟩

/-- The references inside the value of type `ty` in a buffer. -/
def refsOf (L : Layouts) (bytes : Bytes) (off : Nat) (ty : TypeId) : List Ref :=
  (L.leaves ty).map (L.refOf bytes off)

theorem refOf_shift (n : Nat) (l : Leaf) :
    L.refOf bytes off (l.shift n) = L.refOf bytes (off + n) l := by
  simp only [refOf, Leaf.shift, Nat.add_assoc]

theorem refOf_ptr {slot : FieldSlot} {a : UInt64} (htag : L.pool.tag slot.type = .reference)
    (hc : L.Carries bytes (off + slot.offset) slot.type (.ptr a))
    (hfits : a.toNat < 2 ^ L.width.bits) :
    L.refOf bytes off ⟨slot.offset, slot.type⟩ = ⟨slot.type, a⟩ := by
  obtain ⟨data, hdata, hslice⟩ := hc
  rw [encode_scalar (v := .ptr a) nofun, htag] at hdata
  obtain rfl : L.wordBytes a = data := Except.ok.inj hdata
  rw [show (L.wordBytes a).length = L.word from length_leBytes _ _] at hslice
  have hword : a.toNat < 256 ^ L.word := by
    rw [PointerWidth.bits, Nat.pow_mul] at hfits
    exact hfits
  rw [refOf, hslice, wordBytes, ofLeBytes_leBytes, Nat.mod_eq_of_lt hword, UInt64.ofNat_toNat]

theorem leaves_of_kind {v : Value} (htype : L.pool.HasType ty v) (h : v.kind ≠ .record) :
    L.leaves ty = [] := by
  refine leaves_plain ?_
  cases hrec : L.pool.record? ty with
  | none => rfl
  | some defn =>
      have hkind := htype.kind
      rw [tag_of_record? hrec] at hkind
      exact absurd hkind.symm h

/-- The references in a field, if those in its value are known where it is no reference. -/
theorem map_slotLeaves {slot : FieldSlot} {v : Value} (htype : L.pool.HasType slot.type v)
    (hc : L.Carries bytes (off + slot.offset) slot.type v)
    (hfits : ∀ x ∈ L.pool.refsIn slot.type v, x.addr.toNat < 2 ^ L.width.bits)
    (hinner : L.pool.isHolder slot.type = false →
      L.refsOf bytes (off + slot.offset) slot.type = L.pool.refsIn slot.type v) :
    (slotLeaves L.pool L.leaves slot).map (L.refOf bytes off) = L.pool.refsIn slot.type v := by
  unfold slotLeaves
  split
  · next hitem =>
      have href : L.pool.isHolder slot.type = false := by
        simp only [Pool.isHolder, Pool.reference?, hitem]
        rfl
      have hrec : L.pool.record? slot.type = none := by simp only [Pool.record?, hitem]
      rw [← hinner href, refsOf, leaves_plain hrec]
      rfl
  · next hitem =>
      have href : L.pool.isHolder slot.type = false := by
        simp only [Pool.isHolder, Pool.reference?, hitem]
      have hrec : L.pool.record? slot.type = none := by simp only [Pool.record?, hitem]
      rw [← hinner href, refsOf, leaves_plain hrec]
      rfl
  · next region pointee hborrow hitem =>
      have htag := tag_of_reference? hitem
      have href : L.pool.isHolder slot.type = true := by
        simp only [Pool.isHolder, Pool.reference?, hitem]
        cases region with
        | borrowed => exact absurd rfl hborrow
        | _ => rfl
      have hkind := htype.kind
      rw [htag] at hkind
      cases v with
      | ptr a =>
          rw [Pool.refsIn, if_pos href] at hfits ⊢
          rw [List.map_singleton, refOf_ptr htag hc (hfits _ (List.mem_singleton.mpr rfl))]
      | _ => cases hkind
  · next hitem =>
      have href : L.pool.isHolder slot.type = false := by
        simp only [Pool.isHolder, Pool.reference?, hitem]
      rw [← hinner href, List.map_map, refsOf]
      exact List.map_congr_left fun l _ => refOf_shift slot.offset l

mutual

/-- The leaves of the bytes of a value are the references in it. -/
theorem refsOf_of_carries (v : Value) {ty : TypeId} {w : ValueLayout} {off : Nat}
    (hsize : L.sizeOf ty = some w) (htype : L.pool.HasType ty v)
    (hplain : L.pool.isHolder ty = false) (hc : L.Carries bytes off ty v)
    (hfits : ∀ x ∈ L.pool.refsIn ty v, x.addr.toNat < 2 ^ L.width.bits) :
    L.refsOf bytes off ty = L.pool.refsIn ty v := by
  cases v with
  | record fields =>
      rw [Pool.HasType] at htype
      obtain ⟨htag, hfields⟩ := htype
      obtain ⟨r, hr, -⟩ := exists_placed htag hsize
      obtain ⟨defn, hitem⟩ := item_of_tag_record htag
      have hrec : L.pool.record? ty = some defn := by simp only [Pool.record?, hitem]
      rw [Pool.refsIn] at hfits ⊢
      rw [Pool.fieldTypes, ← (placed_shape hr).2.2] at hfields hfits ⊢
      rw [refsOf, leaves_record hrec hr]
      exact map_flatMap_of_carries fields (placed_shape hr).1 hfields (hc.fields htag hr hfields)
        hfits
  | ptr a =>
      rw [refsOf, leaves_of_kind htype nofun, Pool.refsIn, hplain]
      rfl
  | _ =>
      rw [refsOf, leaves_of_kind htype nofun]
      rfl

theorem map_flatMap_of_carries : ∀ (vs : List Value) {slots : List FieldSlot} {bound off : Nat},
    Lined L.sizeOf slots bound → L.pool.HasTypes (slots.map FieldSlot.type) vs →
    (∀ p ∈ slots.zip vs, L.Carries bytes (off + p.1.offset) p.1.type p.2) →
    (∀ x ∈ L.pool.refsInAll (slots.map FieldSlot.type) vs, x.addr.toNat < 2 ^ L.width.bits) →
    (slots.flatMap (slotLeaves L.pool L.leaves)).map (L.refOf bytes off)
      = L.pool.refsInAll (slots.map FieldSlot.type) vs
  | [], [], _, _, _, _, _, _ => by
      rw [List.map_nil, Pool.refsInAll]
      · rfl
      · exact nofun
  | v :: vs, slot :: slots, bound, off, hlined, htypes, hc, hfits => by
      obtain ⟨htype, hrest⟩ := Pool.hasTypes_cons.mp htypes
      obtain ⟨w, hsize, -⟩ := hlined.ends slot List.mem_cons_self
      rw [List.map_cons, Pool.refsInAll] at hfits ⊢
      have hfits₁ := fun x hx => hfits x (List.mem_append_left _ hx)
      have hcarries := hc (slot, v) List.mem_cons_self
      rw [List.flatMap_cons, List.map_append,
        map_slotLeaves htype hcarries hfits₁ fun hplain =>
          refsOf_of_carries v hsize htype hplain hcarries hfits₁,
        map_flatMap_of_carries vs hlined.tail hrest (fun p hp => hc p (List.mem_cons_of_mem _ hp))
          fun x hx => hfits x (List.mem_append_right _ hx)]

end

/-- The references inside a block are in its bytes. -/
theorem leafRefs_eq_refsOf {h : Heap} {x : Ref} {layout : RefLayout} {b : Block}
    (hp : L.Placed h x layout b) (hs : h.Sound) :
    L.leafRefs h x = L.refsOf b.bytes layout.header layout.pointee := by
  rw [leafRefs_eq hp.ref, refsAt, refsOf]
  refine List.map_congr_left fun l hl => ?_
  obtain ⟨haddr, hsize, hlimit⟩ := hp.addr_eq hs.bounded
  have hin := (leaf_bounds (ref_eq_ok_iff.mp hp.ref).2.1 l hl).1
  have ha : (x.addr + UInt64.ofNat l.offset).toNat = L.base x + (layout.header + l.offset) := by
    rw [toNat_add_ofNat (by omega), haddr, Nat.add_assoc]
  have hj := hs.judges_add (base_eq hp.ref ▸ hp.block)
    (show layout.header + l.offset + L.word ≤ b.bytes.size by omega)
  rw [refAt, wordAt, loadWord_eq hj hp.live ha]
  rfl

end Layouts

/-! ## Blocks made from arguments -/

/-- The type of an operand where the parameters have the types `params`. -/
def Operand.typeIn (params : List TypeId) : Operand → TypeId
  | .value id => (params[id.index]?).getD .none
  | .const c => c.type

theorem operandType_new (name : String) (params : List TypeId) (ret : TypeId) :
    (Builder.new name params ret).function.operandType = Operand.typeIn params := by
  funext op
  cases op <;> rfl

namespace Pool

variable {pool : Pool} {params : List TypeId} {args : List Value}

/-- The owning and counted references in the operands that a block is made from. -/
def refsGiven (pool : Pool) (params : List TypeId) (init : Initial) (args : List Value) :
    List Ref :=
  init.operands.flatMap fun op => pool.refsIn (op.typeIn params) (op.valueIn args)

theorem HasTypes.get : ∀ {tys : List TypeId} {vs : List Value}, pool.HasTypes tys vs →
    ∀ {i : Nat} {ty : TypeId} {v : Value}, tys[i]? = some ty → vs[i]? = some v → pool.HasType ty v
  | _ :: _, _ :: _, h, 0, _, _, hty, hv => by
      obtain rfl := Option.some.inj hty
      obtain rfl := Option.some.inj hv
      exact (hasTypes_cons.mp h).1
  | _ :: _, _ :: _, h, i + 1, _, _, hty, hv => (hasTypes_cons.mp h).2.get (i := i) hty hv
  | [], [], _, _, _, _, hty, _ => by cases hty

theorem hasType_ofLiteral (pool : Pool) (l : Literal) : pool.HasType l.type (.ofLiteral l) := by
  cases l <;> simp only [Value.ofLiteral, HasType] <;> rfl

theorem hasType_valueIn (h : pool.HasTypes params args) {op : Operand}
    (hop : op.Below params.length) : pool.HasType (op.typeIn params) (op.valueIn args) := by
  cases op with
  | const c =>
      cases c with
      | literal l => exact pool.hasType_ofLiteral l
      | null =>
          simp only [Operand.typeIn, Operand.valueIn, Value.ofConst, HasType]
          rfl
  | value id =>
      have hlt : id.index < params.length := hop
      have hlt' : id.index < args.length := h.length_eq ▸ hlt
      have hty := List.getElem?_eq_getElem hlt
      refine h.get (i := id.index) ?_ ?_
      · rw [Operand.typeIn, hty]
        rfl
      · rw [Operand.valueIn, List.getD_eq_getElem _ _ hlt']
        exact List.getElem?_eq_getElem hlt'

theorem hasTypes_append {tys tys' : List TypeId} {vs vs' : List Value} (h : pool.HasTypes tys vs)
    (h' : pool.HasTypes tys' vs') : pool.HasTypes (tys ++ tys') (vs ++ vs') :=
  hasTypes_iff.mpr (List.rel_append (hasTypes_iff.mp h) (hasTypes_iff.mp h'))

theorem hasTypes_map {α : Type} {t : α → TypeId} {v : α → Value} {l : List α}
    (h : ∀ a ∈ l, pool.HasType (t a) (v a)) : pool.HasTypes (l.map t) (l.map v) := by
  rw [hasTypes_iff, List.forall₂_map_left_iff, List.forall₂_map_right_iff, List.forall₂_same]
  exact h

theorem refsInAll_append {α : Type} {t : α → TypeId} {v : α → Value} {tys : List TypeId}
    {vs : List Value} : ∀ l : List α, pool.refsInAll (l.map t ++ tys) (l.map v ++ vs)
      = (l.flatMap fun a => pool.refsIn (t a) (v a)) ++ pool.refsInAll tys vs
  | [] => rfl
  | a :: l => by
      rw [List.map_cons, List.map_cons, List.cons_append, List.cons_append, refsInAll,
        refsInAll_append l, List.flatMap_cons, List.append_assoc]

theorem refsInAll_ofLiteral : ∀ l : List Literal,
    pool.refsInAll (l.map Literal.type) (l.map Value.ofLiteral) = []
  | [] => by simp only [List.map_nil, refsInAll]
  | a :: l => by
      rw [List.map_cons, List.map_cons, refsInAll, refsInAll_ofLiteral l, List.append_nil]
      cases a <;> simp only [Value.ofLiteral, refsIn]

end Pool

/-- The contents of a block have the shapes of the places that they are put into. -/
def Pool.Suits (pool : Pool) (ty : TypeId) : Contents → Prop
  | .value v => pool.HasShape ty v
  | .fields l => ∀ p ∈ l, pool.HasShape p.1.type p.2

theorem Pool.suits_zip {pool : Pool} {ty : TypeId} {slots : List FieldSlot} {vs : List Value}
    (h : pool.HasShapes (slots.map FieldSlot.type) vs) :
    pool.Suits ty (.fields (slots.zip vs)) := by
  have hslots := List.forall₂_map_left_iff.mp (hasShapes_iff.mp h)
  exact fun p hp => List.forall₂_zip hslots hp

theorem Layouts.encodes_of_shape {L : Layouts} {ty : TypeId} {v : Value} {w : ValueLayout}
    (hshape : L.pool.HasShape ty v) (hsize : L.sizeOf ty = some w)
    (hlt : w.size < capacityLimit) : L.Encodes ty v := by
  obtain ⟨data, hdata, hlen⟩ := encode_ok hsize hshape
  exact ⟨w, data, value_eq_ok_iff.mpr hsize, hlt, hdata, hlen⟩

namespace Emitter.Makes

variable {e : Emitter} {ty : TypeId} {params : List TypeId} {args : List Value} {init : Initial}
  {c : Contents} {w : ValueLayout}

/-- The contents of a block made from arguments that have the types of the parameters have the
types of the block. -/
theorem fields_typed {l : List (FieldSlot × Value)}
    (h : e.Makes ty (Operand.typeIn params) init (init.operands.map (Operand.valueIn args))
      (.fields l)) (hargs : e.pool.HasTypes params args)
    (hbelow : ∀ op ∈ init.operands, op.Below params.length) :
    ∃ r vs, e.pool.tag ty = .record ∧ e.layouts.placed ty = some r ∧ l = r.fields.zip vs
      ∧ e.pool.HasTypes (r.fields.map FieldSlot.type) vs
      ∧ e.pool.refsInAll (r.fields.map FieldSlot.type) vs = e.pool.refsGiven params init args := by
  cases h with
  | @fields ops _ defaults r htag hlayout htypes =>
      refine ⟨r, _, htag, Layouts.record_eq_ok_iff.mp hlayout, rfl, ?_, ?_⟩
      · rw [htypes]
        exact Pool.hasTypes_append
          (Pool.hasTypes_map fun op hop => Pool.hasType_valueIn hargs (hbelow op hop))
          (Pool.hasTypes_map fun l _ => e.pool.hasType_ofLiteral l)
      · rw [htypes, Initial.operands, Pool.refsInAll_append, Pool.refsInAll_ofLiteral,
          List.append_nil]
        rfl

theorem encodesAll_of_suits {typeOf : Operand → TypeId} {vs : List Value}
    (h : e.Makes ty typeOf init vs c) (hvs : vs.length = init.operands.length)
    (hsuits : e.pool.Suits ty c) (hsize : e.layouts.sizeOf ty = some w)
    (hcapacity : w.size < capacityLimit) : e.layouts.EncodesAll ty c := by
  cases c with
  | value v => exact Layouts.encodes_of_shape hsuits hsize hcapacity
  | fields l =>
      obtain ⟨w', hsize', hlined⟩ := h.lined hvs
      obtain rfl := Option.some.inj (hsize.symm.trans hsize')
      intro p hp
      obtain ⟨v, hv, hend⟩ := hlined.ends p.1 (List.mem_map_of_mem hp)
      exact Layouts.encodes_of_shape (hsuits p hp) hv (by omega)

theorem encodesAll
    (h : e.Makes ty (Operand.typeIn params) init (init.operands.map (Operand.valueIn args)) c)
    (hargs : e.pool.HasTypes params args) (hbelow : ∀ op ∈ init.operands, op.Below params.length)
    (hvalue : ∀ op, init = .value op → op.typeIn params = ty)
    (hsize : e.layouts.sizeOf ty = some w) (hcapacity : w.size < capacityLimit) :
    e.layouts.EncodesAll ty c := by
  refine h.encodesAll_of_suits (List.length_map _) ?_ hsize hcapacity
  cases c with
  | value v =>
      cases h with
      | value op =>
          rw [← hvalue op rfl]
          exact (Pool.hasType_valueIn hargs (hbelow op List.mem_cons_self)).hasShape _
  | fields l =>
      obtain ⟨r, vs, -, -, rfl, htypes, -⟩ := h.fields_typed hargs hbelow
      exact Pool.suits_zip (htypes.hasShapes vs)

/-- The references in a new block are those in the operands that it was made from. -/
theorem refsOf
    (h : e.Makes ty (Operand.typeIn params) init (init.operands.map (Operand.valueIn args)) c)
    (hargs : e.pool.HasTypes params args) (hbelow : ∀ op ∈ init.operands, op.Below params.length)
    (hvalue : ∀ op, init = .value op → op.typeIn params = ty)
    (hsize : e.layouts.sizeOf ty = some w) (hplain : e.pool.isHolder ty = false)
    {bytes : Bytes} {off : Nat} (hc : e.layouts.CarriesAll bytes off ty c)
    (hfits : ∀ x ∈ e.pool.refsGiven params init args, x.addr.toNat < 2 ^ e.layouts.width.bits) :
    e.layouts.refsOf bytes off ty = e.pool.refsGiven params init args := by
  cases c with
  | value v =>
      cases h with
      | value op =>
          have hgiven : e.pool.refsGiven params (.value op) args
              = e.pool.refsIn ty (op.valueIn args) := by
            rw [Pool.refsGiven, Initial.operands, List.flatMap_singleton, hvalue op rfl]
          have htype : e.pool.HasType ty (op.valueIn args) :=
            hvalue op rfl ▸ Pool.hasType_valueIn hargs (hbelow op List.mem_cons_self)
          rw [hgiven] at hfits ⊢
          exact Layouts.refsOf_of_carries _ hsize htype hplain hc hfits
  | fields l =>
      obtain ⟨r, vs, htag, hr, rfl, htypes, hrefs⟩ := h.fields_typed hargs hbelow
      obtain ⟨defn, hitem⟩ := Layouts.item_of_tag_record htag
      have hrec : e.layouts.pool.record? ty = some defn := by
        simp only [Pool.record?]
        rw [show e.layouts.pool.item? ty = _ from hitem]
      rw [← hrefs] at hfits ⊢
      rw [Layouts.refsOf, Layouts.leaves_record hrec hr]
      exact Layouts.map_flatMap_of_carries vs (Layouts.placed_shape hr).1 htypes hc hfits

end Emitter.Makes

end Ownership
