import Mathlib.Data.List.Infix
import Ownership.Proofs.Leaves

/-!
# Calls that make types

A pool is made by calls: records are declared and defined, references are
asked for, and names are handed out in between. `Pool.History` is a pool
with the calls that made it, and `Pool.History.Extends` leads from one
history to later ones. `Pool.Outcome` says once what a call can do, and
what later modules know of the calls comes from it: a call makes no type,
gives a record new fields, finds a reference that is there, or appends
one item.
-/

namespace Ownership

/-! ## Names -/

namespace Interner

/-- Names are handed out beyond those of `i`, and no text gets two. -/
structure Grows (i j : Interner) : Prop where
  texts : i.texts <+: j.texts
  nodup : i.texts.Nodup → j.texts.Nodup

theorem Grows.refl (i : Interner) : i.Grows i := ⟨List.prefix_refl _, id⟩

theorem Grows.trans {i j k : Interner} (h : i.Grows j) (h' : j.Grows k) : i.Grows k :=
  ⟨h.texts.trans h'.texts, fun hnodup => h'.nodup (h.nodup hnodup)⟩

theorem Grows.getElem? {i j : Interner} (h : i.Grows j) {k : Nat} {s : String}
    (hk : i.texts[k]? = some s) : j.texts[k]? = some s := by
  obtain ⟨more, hmore⟩ := h.texts
  have hlt := (List.getElem?_eq_some_iff.mp hk).1
  rw [← hmore, List.getElem?_append_left hlt, hk]

theorem mem_texts_iff {i : Interner} {s : String} :
    s ∈ i.texts ↔ ∃ n, i.known.lookup s = some n := by
  rw [List.mem_iff_getElem?]
  constructor
  · rintro ⟨k, hk⟩
    exact ⟨⟨k⟩, (i.agree s ⟨k⟩).mpr hk⟩
  · rintro ⟨n, hn⟩
    exact ⟨n.index, (i.agree s n).mp hn⟩

/-- The name handed out for a text has that text. -/
theorem intern_grows (i : Interner) (s : String) :
    i.Grows (i.intern s).2 ∧ (i.intern s).2.texts[(i.intern s).1.index]? = some s := by
  cases h : i.known.lookup s with
  | some n =>
      rw [intern_of_known h]
      exact ⟨.refl i, (i.agree s n).mp h⟩
  | none =>
      have hnew : s ∉ i.texts := by simp [mem_texts_iff, h]
      rw [intern_of_new h]
      refine ⟨⟨List.prefix_append _ _, fun hnodup => ?_⟩, by simp [add, size]⟩
      exact List.nodup_append.mpr ⟨hnodup, by simp, by
        rintro a ha b hb rfl
        rw [List.mem_singleton] at hb
        exact hnew (hb ▸ ha)⟩

theorem lookup_of_getElem? {i : Interner} {n : Name} {s : String}
    (h : i.texts[n.index]? = some s) : i.lookup n = s := by
  simp [lookup, h]

end Interner

/-! ## Calls and histories -/

/-- An item without the fields of a record. -/
def TypeItem.bare : TypeItem → TypeItem
  | .record defn => .record ⟨defn.name, []⟩
  | .reference region pointee => .reference region pointee

namespace Pool

/-- A call that makes or changes types, or hands out a name. -/
inductive Call where
  | declare (name : String)
  | define (ty : TypeId) (fields : List FieldDef)
  /-- A record from the names and types of its fields. -/
  | record (name : String) (fields : List (String × TypeId))
  /-- A record from its fields with their default values. -/
  | recordWith (name : String) (fields : List FieldDef)
  | reference (region : Region) (pointee : TypeId)
  | intern (text : String)

inductive Answer where
  | type (ty : TypeId)
  /-- Whether a record was defined. -/
  | defined (done : Bool)
  | name (n : Name)

/-- What a call answers, and the pool it leaves. -/
def call (pool : Pool) : Call → Answer × Pool
  | .declare name =>
    let (ty, pool) := pool.declareRecord name
    (.type ty, pool)
  | .define ty fields =>
    match pool.defineRecord? ty fields with
    | some pool => (.defined true, pool)
    | none => (.defined false, pool)
  | .record name fields =>
    let (ty, pool) := pool.addPlainRecord name fields
    (.type ty, pool)
  | .recordWith name fields =>
    let (ty, pool) := pool.addRecord name fields
    (.type ty, pool)
  | .reference region pointee =>
    let (ty, pool) := pool.reference region pointee
    (.type ty, pool)
  | .intern text =>
    let (n, pool) := pool.intern text
    (.name n, pool)

namespace Call

/-- The name under which a call declares a record. -/
def declares? : Call → Option String
  | .declare name | .record name _ | .recordWith name _ => some name
  | _ => none

/-- The fields with which a call declares its record. -/
def Gives (names : Interner) : Call → List FieldDef → Prop
  | .declare _, fields => fields = []
  | .record _ given, fields =>
    List.Forall₂ (fun f g => names.texts[f.name.index]? = some g.1 ∧ f.type = g.2
      ∧ f.default = none) fields given
  | .recordWith _ given, fields => fields = given
  | _, _ => False

/-- The fields that a call leaves a record with. -/
def fieldsFor (ty : TypeId) (fields : List FieldDef) : Call → List FieldDef
  | .define target given => if target = ty then given else fields
  | _ => fields

end Call

/-- A pool with the calls that made it and their answers, newest first. -/
structure History where
  pool : Pool
  log : List (Call × Answer)

namespace History

def new : History := ⟨.empty, []⟩

def call (h : History) (c : Call) : History :=
  ⟨(h.pool.call c).2, (c, (h.pool.call c).1) :: h.log⟩

/-- The call was made, and `ty` was its answer. -/
def Returned (h : History) (c : Call) (ty : TypeId) : Prop := (c, .type ty) ∈ h.log

/-- A primitive type, or one that a call returned. -/
def Known (h : History) (ty : TypeId) : Prop := ty.isPrimitive = true ∨ ∃ c, h.Returned c ty

/-- References are only asked for known types. -/
def Admits (h : History) : Call → Prop
  | .reference _ pointee => h.Known pointee
  | _ => True

/-- Admitted calls lead from `start` to a later history. -/
inductive Extends (start : History) : History → Prop
  | refl : Extends start start
  | call {h : History} (c : Call) (hext : Extends start h) (hadmits : h.Admits c) :
      Extends start (h.call c)

/-- The type that an entry of a log declares under a name. -/
def declaredAs (name : String) : Call × Answer → Option TypeId
  | (c, .type ty) => if c.declares? = some name then some ty else none
  | _ => none

/-- The fields that a log leaves a record with. -/
def fieldsAfter (ty : TypeId) (fields : List FieldDef) : List (Call × Answer) → List FieldDef
  | [] => fields
  | (c, _) :: older => c.fieldsFor ty (fieldsAfter ty fields older)

end History

/-! ## Reading a pool by index -/

/-- The items of a pool without the fields of its records. -/
def bare (pool : Pool) : List TypeItem := pool.items.map TypeItem.bare

@[simp] theorem length_bare (pool : Pool) : pool.bare.length = pool.size := by
  simp [bare, size]

theorem bare_reference {pool : Pool} {i : Nat} {r : Region} {p : TypeId} :
    pool.bare[i]? = some (.reference r p) ↔ pool.items[i]? = some (.reference r p) := by
  rw [bare, List.getElem?_map]
  cases pool.items[i]? with
  | none => simp
  | some item => cases item <;> simp [TypeItem.bare]

theorem bare_record {pool : Pool} {i : Nat} {defn : RecordDef}
    (h : pool.items[i]? = some (.record defn)) :
    pool.bare[i]? = some (.record ⟨defn.name, []⟩) := by
  simp [bare, h, TypeItem.bare]

theorem items_of_bare_record {pool : Pool} {i : Nat} {defn : RecordDef}
    (h : pool.bare[i]? = some (.record defn)) :
    ∃ fields, pool.items[i]? = some (.record ⟨defn.name, fields⟩) := by
  rw [bare, List.getElem?_map] at h
  cases hitem : pool.items[i]? with
  | none => simp [hitem] at h
  | some item =>
      cases item with
      | record d =>
          simp only [hitem, TypeItem.bare, Option.map_some, Option.some.injEq,
            TypeItem.record.injEq] at h
          exact ⟨d.fields, by rw [← h]⟩
      | reference r p => simp [hitem, TypeItem.bare] at h

theorem typeAt_inj {i j : Nat} (h : typeAt i = typeAt j) : i = j := by
  simp only [typeAt, TypeId.mk.injEq] at h
  omega

/-- A pool with fewer types than this has a number for the next one: `2³² - 17`, as the numbers
start at 16 and the last one stands for no type. -/
def typeLimit : Nat := 4294967279

theorem item?_typeAt {pool : Pool} {i : Nat} (h : i < typeLimit) :
    pool.item? (typeAt i) = pool.items[i]? := by
  have hnone : (typeAt i).isNone = false := by
    simp only [TypeId.isNone, typeAt, TypeId.none, TypeId.firstDynamic, TypeId.mk.injEq,
      decide_eq_false_iff_not]
    unfold typeLimit at h
    omega
  have hlow : ¬ (typeAt i).raw < TypeId.firstDynamic := by
    simp only [typeAt]
    omega
  rw [item?, hnone, Bool.false_or, if_neg (by simpa using hlow), typeAt, Nat.add_sub_cancel_left]

theorem item?_eq_some {pool : Pool} {ty : TypeId} {item : TypeItem}
    (h : pool.item? ty = some item) : ∃ i, ty = typeAt i ∧ pool.items[i]? = some item := by
  obtain ⟨hlow, -⟩ := Layouts.index_of_item h
  refine ⟨ty.raw - TypeId.firstDynamic, ?_, ?_⟩
  · cases ty
    simp only [typeAt, TypeId.mk.injEq] at hlow ⊢
    omega
  · unfold item? at h
    split at h
    · cases h
    · exact h

theorem record?_eq_some_iff {pool : Pool} {ty : TypeId} {defn : RecordDef} :
    pool.record? ty = some defn ↔ pool.item? ty = some (.record defn) := by
  unfold record?
  cases pool.item? ty with
  | none => simp
  | some item => cases item <;> simp

theorem reference?_eq_some_iff {pool : Pool} {ty : TypeId} {r : Region} {p : TypeId} :
    pool.reference? ty = some (r, p) ↔ pool.item? ty = some (.reference r p) := by
  unfold reference?
  cases pool.item? ty with
  | none => simp
  | some item => cases item <;> simp

/-! ## What a call does -/

/-- What a call can do to a pool. -/
inductive Outcome (pool : Pool) : Call → Answer → Pool → Prop
  | interned {text : String} {n : Name} {pool' : Pool} (hnames : pool.names.Grows pool'.names)
      (hitems : pool'.items = pool.items) : Outcome pool (.intern text) (.name n) pool'
  | refused {ty : TypeId} {fields : List FieldDef} (hno : pool.record? ty = none) :
      Outcome pool (.define ty fields) (.defined false) pool
  | defined {i : Nat} {defn : RecordDef} {fields : List FieldDef} {pool' : Pool}
      (hitem : pool.items[i]? = some (.record defn)) (hnames : pool'.names = pool.names)
      (hitems : pool'.items = pool.items.set i (.record ⟨defn.name, fields⟩)) :
      Outcome pool (.define (typeAt i) fields) (.defined true) pool'
  | found {i : Nat} {r : Region} {p : TypeId} (hitem : pool.items[i]? = some (.reference r p)) :
      Outcome pool (.reference r p) (.type (typeAt i)) pool
  | referred {r : Region} {p : TypeId} {pool' : Pool} (hnew : .reference r p ∉ pool.items)
      (hnames : pool'.names = pool.names) (hitems : pool'.items = pool.items ++ [.reference r p]) :
      Outcome pool (.reference r p) (.type (typeAt pool.size)) pool'
  | declared {c : Call} {s : String} {n : Name} {fields : List FieldDef} {pool' : Pool}
      (hc : c.declares? = some s) (hnames : pool.names.Grows pool'.names)
      (hn : pool'.names.texts[n.index]? = some s) (hgives : c.Gives pool'.names fields)
      (hitems : pool'.items = pool.items ++ [.record ⟨n, fields⟩]) :
      Outcome pool c (.type (typeAt pool.size)) pool'

theorem defineRecord?_of_none {pool : Pool} (hroom : pool.size < typeLimit) {ty : TypeId}
    (h : pool.record? ty = none) (fields : List FieldDef) :
    pool.defineRecord? ty fields = none := by
  unfold defineRecord?
  split
  · rfl
  · next hlow =>
      split
      · next defn hitem =>
          -- the number of no type is beyond the items
          have hlt := (List.getElem?_eq_some_iff.mp hitem).1
          have hty : ty = typeAt (ty.raw - TypeId.firstDynamic) := by
            cases ty
            simp only [typeAt, TypeId.mk.injEq] at hlow ⊢
            omega
          have hrecord : pool.record? ty = some defn := by
            rw [record?_eq_some_iff, hty, item?_typeAt (hlt.trans hroom)]
            exact hitem
          rw [h] at hrecord
          cases hrecord
      · rfl

theorem defineRecord?_of_some {pool : Pool} {ty : TypeId} {defn : RecordDef}
    (h : pool.record? ty = some defn) (fields : List FieldDef) :
    ∃ i pool', ty = typeAt i ∧ pool.items[i]? = some (.record defn)
      ∧ pool.defineRecord? ty fields = some pool' ∧ pool'.names = pool.names
      ∧ pool'.items = pool.items.set i (.record ⟨defn.name, fields⟩) := by
  obtain ⟨i, rfl, hitem⟩ := item?_eq_some (record?_eq_some_iff.mp h)
  have hindex : (typeAt i).raw - TypeId.firstDynamic = i := Nat.add_sub_cancel_left _ _
  have hlow : ¬ (typeAt i).raw < TypeId.firstDynamic := by
    simp only [typeAt]
    omega
  have hitem' := hitem
  rw [← hindex] at hitem'
  refine ⟨i, pool.setFields hitem' fields, rfl, hitem, ?_, rfl, by simp [setFields, hindex]⟩
  unfold defineRecord?
  rw [if_neg hlow]
  split
  · next defn' hitem'' =>
      obtain rfl := TypeItem.record.inj (Option.some.inj (hitem''.symm.trans hitem'))
      rfl
  · next hno => exact absurd hitem' (hno defn)

/-- A record is declared and defined at once. -/
theorem addRecord_spec {pool : Pool} (hroom : pool.size < typeLimit) (name : String)
    (fields : List FieldDef) :
    (pool.addRecord name fields).1 = typeAt pool.size
      ∧ (pool.addRecord name fields).2.names = (pool.names.intern name).2
      ∧ (pool.addRecord name fields).2.items
        = pool.items ++ [.record ⟨(pool.names.intern name).1, fields⟩] := by
  have hrecord : (pool.declareRecord name).2.record? (typeAt pool.size)
      = some ⟨(pool.names.intern name).1, []⟩ := by
    rw [record?_eq_some_iff, item?_typeAt hroom]
    exact List.getElem?_concat_length
  obtain ⟨i, pool', htype, -, hdefine, hnames, hitems⟩ := defineRecord?_of_some hrecord fields
  obtain rfl := typeAt_inj htype
  have hpool : (pool.addRecord name fields).2 = pool' := by
    change ((pool.declareRecord name).2.defineRecord? (typeAt pool.size) fields).getD _ = pool'
    rw [hdefine]
    rfl
  rw [hpool]
  refine ⟨rfl, hnames, hitems.trans ?_⟩
  exact (List.set_append_right _ _ (Nat.le_refl _)).trans (by simp)

/-! ### What the tables know -/

theorem entryWith_eq_some {κ : Type} [BEq κ] [LawfulBEq κ] {key : TypeItem → Option κ}
    {items : List TypeItem} {k : κ} {ty : TypeId} (h : entryWith key items.zipIdx k = some ty) :
    ∃ i item, ty = typeAt i ∧ items[i]? = some item ∧ key item = some k := by
  obtain ⟨⟨item, i⟩, hfind, rfl⟩ := Option.map_eq_some_iff.mp h
  refine ⟨i, item, rfl, List.mem_zipIdx_iff_getElem?.mp (List.mem_of_find?_eq_some hfind), ?_⟩
  have hkey := List.find?_some hfind
  exact eq_of_beq hkey

theorem entryWith_eq_none {κ : Type} [BEq κ] [LawfulBEq κ] {key : TypeItem → Option κ}
    {entries : List (TypeItem × Nat)} {k : κ} :
    entryWith key entries k = none ↔ ∀ entry ∈ entries, key entry.1 ≠ some k := by
  simp [entryWith]

theorem item_of_reference {pool : Pool} {r : Region} {p ty : TypeId}
    (h : pool.references.lookup (r, p) = some ty) :
    ∃ i, ty = typeAt i ∧ pool.items[i]? = some (.reference r p) := by
  rw [pool.indexed.reference] at h
  obtain ⟨i, item, rfl, hitem, hkey⟩ := entryWith_eq_some h
  cases item with
  | record defn => cases hkey
  | reference r' p' =>
      obtain ⟨rfl, rfl⟩ := Prod.mk.inj (Option.some.inj hkey)
      exact ⟨i, rfl, hitem⟩

theorem not_mem_of_reference {pool : Pool} {r : Region} {p : TypeId}
    (h : pool.references.lookup (r, p) = none) : .reference r p ∉ pool.items := by
  rw [pool.indexed.reference, entryWith_eq_none] at h
  intro hmem
  obtain ⟨i, hi⟩ := List.mem_iff_getElem?.mp hmem
  exact h (.reference r p, i) (List.mem_zipIdx_iff_getElem?.mpr hi) rfl

theorem reference_of_known {pool : Pool} {r : Region} {p ty : TypeId}
    (h : pool.references.lookup (r, p) = some ty) : pool.reference r p = (ty, pool) := by
  unfold reference
  split
  · next ty' hty' => rw [Option.some.inj (hty'.symm.trans h)]
  · next hnew => cases hnew.symm.trans h

theorem reference_of_new {pool : Pool} {r : Region} {p : TypeId}
    (h : pool.references.lookup (r, p) = none) :
    (pool.reference r p).1 = typeAt pool.size ∧ (pool.reference r p).2.names = pool.names
      ∧ (pool.reference r p).2.items = pool.items ++ [.reference r p] := by
  unfold reference
  split
  · next ty hty => cases hty.symm.trans h
  · exact ⟨rfl, rfl, rfl⟩

/-! ### Every call -/

/-- Naming the fields of a record hands out names and makes no type. -/
theorem plainFields_spec : ∀ (given : List (String × TypeId)) (pool : Pool),
    (pool.plainFields given).2.items = pool.items
      ∧ pool.names.Grows (pool.plainFields given).2.names
      ∧ ∀ {names : Interner}, (pool.plainFields given).2.names.Grows names →
        ∀ name, (Call.record name given).Gives names (pool.plainFields given).1
  | [], pool => ⟨rfl, .refl _, fun _ _ => .nil⟩
  | (s, ty) :: rest, pool => by
      obtain ⟨hgrows, hs⟩ := pool.names.intern_grows s
      obtain ⟨hitems, hrest, hgives⟩ := plainFields_spec rest (pool.intern s).2
      refine ⟨hitems, hgrows.trans hrest, fun hnames name => ?_⟩
      exact .cons ⟨(hrest.trans hnames).getElem? hs, rfl, rfl⟩ (hgives hnames name)

theorem call_outcome {pool : Pool} (hroom : pool.size < typeLimit) (c : Call) :
    Outcome pool c (pool.call c).1 (pool.call c).2 := by
  cases c with
  | declare name =>
      obtain ⟨hgrows, hname⟩ := pool.names.intern_grows name
      exact .declared rfl hgrows hname rfl rfl
  | define ty fields =>
      cases hrecord : pool.record? ty with
      | none =>
          simp only [call, defineRecord?_of_none hroom hrecord]
          exact .refused hrecord
      | some defn =>
          obtain ⟨i, pool', rfl, hitem, hdefine, hnames, hitems⟩ :=
            defineRecord?_of_some hrecord fields
          simp only [call, hdefine]
          exact .defined hitem hnames hitems
  | record name fields =>
      obtain ⟨hitems, hgrows, hgives⟩ := plainFields_spec fields pool
      obtain ⟨hgrows', hname⟩ := (pool.plainFields fields).2.names.intern_grows name
      have hsize : (pool.plainFields fields).2.size = pool.size := by rw [size, hitems, size]
      obtain ⟨htype, hnames, hadded⟩ :=
        addRecord_spec (hsize ▸ hroom) name (pool.plainFields fields).1
      rw [hsize] at htype
      rw [hitems] at hadded
      rw [← hnames] at hgrows' hname
      have houtcome : Outcome pool (.record name fields) (.type (typeAt pool.size)) _ :=
        .declared rfl (hgrows.trans hgrows') hname (hgives hgrows' name) hadded
      rw [← htype] at houtcome
      exact houtcome
  | recordWith name fields =>
      obtain ⟨hgrows, hname⟩ := pool.names.intern_grows name
      obtain ⟨htype, hnames, hadded⟩ := addRecord_spec hroom name fields
      rw [← hnames] at hgrows hname
      have houtcome : Outcome pool (.recordWith name fields) (.type (typeAt pool.size)) _ :=
        .declared rfl hgrows hname rfl hadded
      rw [← htype] at houtcome
      exact houtcome
  | reference r p =>
      cases hknown : pool.references.lookup (r, p) with
      | none =>
          obtain ⟨htype, hnames, hitems⟩ := reference_of_new hknown
          have houtcome := Outcome.referred (not_mem_of_reference hknown) hnames hitems
          rw [← htype] at houtcome
          exact houtcome
      | some ty =>
          obtain ⟨i, rfl, hitem⟩ := item_of_reference hknown
          simp only [call, reference_of_known hknown]
          exact .found hitem
  | intern text => exact .interned (pool.names.intern_grows text).1 rfl

theorem record?_of_items {pool pool' : Pool} {i : Nat} {defn defn' : RecordDef}
    (h : pool.record? (typeAt i) = some defn) (hitem : pool'.items[i]? = some (.record defn')) :
    pool'.record? (typeAt i) = some defn' := by
  have hroom : ¬ ((typeAt i).isNone || (typeAt i).raw < TypeId.firstDynamic) = true := by
    intro hbad
    rw [record?_eq_some_iff, item?, if_pos hbad] at h
    cases h
  rw [record?_eq_some_iff, item?, if_neg hroom, typeAt, Nat.add_sub_cancel_left, hitem]

theorem Call.fieldsFor_of_declares {c : Call} {s : String} (h : c.declares? = some s) (ty : TypeId)
    (fields : List FieldDef) : c.fieldsFor ty fields = fields := by
  cases c with
  | define => cases h
  | declare | record | recordWith | reference | intern => rfl

/-- A call changes the fields of a record only by defining that very record. -/
theorem Outcome.record? {pool pool' : Pool} {c : Call} {a : Answer} (h : Outcome pool c a pool')
    {ty : TypeId} {defn : RecordDef} (hdefn : pool.record? ty = some defn) :
    pool'.record? ty = some ⟨defn.name, c.fieldsFor ty defn.fields⟩ := by
  obtain ⟨i, rfl, hitem⟩ := item?_eq_some (record?_eq_some_iff.mp hdefn)
  have hlt := (List.getElem?_eq_some_iff.mp hitem).1
  cases h with
  | interned hnames hitems => exact record?_of_items hdefn (hitems ▸ hitem)
  | @refused ty' fields hno =>
      have hother : ty' ≠ typeAt i := by
        rintro rfl
        rw [hdefn] at hno
        cases hno
      rw [Call.fieldsFor, if_neg hother]
      exact hdefn
  | @defined j defn' fields _ hitem' hnames hitems =>
      refine record?_of_items hdefn ?_
      rw [hitems]
      by_cases hj : j = i
      · subst hj
        obtain rfl := TypeItem.record.inj (Option.some.inj (hitem.symm.trans hitem'))
        rw [List.getElem?_set_self hlt, Call.fieldsFor, if_pos rfl]
      · rw [List.getElem?_set_ne hj, Call.fieldsFor, if_neg (mt typeAt_inj hj)]
        exact hitem
  | found hitem' => exact hdefn
  | referred hnew hnames hitems =>
      refine record?_of_items hdefn ?_
      rw [hitems]
      exact (List.getElem?_append_left hlt).trans hitem
  | declared hc hnames hn hgives hitems =>
      refine record?_of_items hdefn ?_
      rw [Call.fieldsFor_of_declares hc, hitems]
      exact (List.getElem?_append_left hlt).trans hitem

/-- A declaration returns a new record with its name and its fields. -/
theorem Outcome.declares {pool pool' : Pool} {c : Call} {a : Answer} (h : Outcome pool c a pool')
    (hroom : pool.size < typeLimit) {s : String} (hc : c.declares? = some s) :
    ∃ n fields, a = .type (typeAt pool.size) ∧ pool'.names.texts[n.index]? = some s
      ∧ c.Gives pool'.names fields ∧ pool'.record? (typeAt pool.size) = some ⟨n, fields⟩ := by
  cases h with
  | @declared _ t n fields _ ht hnames hn hgives hitems =>
      obtain rfl := Option.some.inj (ht.symm.trans hc)
      refine ⟨n, fields, rfl, hn, hgives, ?_⟩
      rw [record?_eq_some_iff, item?_typeAt hroom, hitems]
      exact List.getElem?_concat_length
  | interned | refused | defined | found | referred => cases hc

theorem Call.Gives.grows {names names' : Interner} {c : Call} {fields : List FieldDef}
    (h : c.Gives names fields) (hgrows : names.Grows names') : c.Gives names' fields := by
  cases c with
  | record name given => exact h.imp fun f g hfg => ⟨hgrows.getElem? hfg.1, hfg.2⟩
  | declare | define | recordWith | reference | intern => exact h

theorem size_defineRecord? {pool pool' : Pool} {ty : TypeId} {fields : List FieldDef}
    (h : pool.defineRecord? ty fields = some pool') : pool'.size = pool.size := by
  unfold defineRecord? at h
  split at h
  · cases h
  · split at h
    · obtain rfl := Option.some.inj h
      exact List.length_set
    · cases h

theorem size_le_declareRecord (pool : Pool) (name : String) :
    pool.size ≤ (pool.declareRecord name).2.size :=
  (List.sublist_append_left _ _).length_le

theorem size_le_addRecord (pool : Pool) (name : String) (fields : List FieldDef) :
    pool.size ≤ (pool.addRecord name fields).2.size := by
  have hdeclared := pool.size_le_declareRecord name
  simp only [addRecord]
  cases hdefine : (pool.declareRecord name).2.defineRecord? (pool.declareRecord name).1 fields with
  | none => exact hdeclared
  | some pool' => exact hdeclared.trans_eq (size_defineRecord? hdefine).symm

/-- Types are never taken away. -/
theorem size_le_call (pool : Pool) (c : Call) : pool.size ≤ (pool.call c).2.size := by
  cases c with
  | declare name => exact pool.size_le_declareRecord name
  | define ty fields =>
      cases hdefine : pool.defineRecord? ty fields with
      | none => simp [call, hdefine]
      | some pool' => simpa [call, hdefine] using (size_defineRecord? hdefine).ge
  | record name fields =>
      have hitems := (plainFields_spec fields pool).1
      have hsize : (pool.plainFields fields).2.size = pool.size := by rw [size, hitems, size]
      exact hsize.ge.trans (size_le_addRecord _ _ _)
  | recordWith name fields => exact size_le_addRecord _ _ _
  | reference r p =>
      cases hknown : pool.references.lookup (r, p) with
      | none =>
          simp only [call, size, (reference_of_new hknown).2.2, List.length_append]
          exact Nat.le_add_right _ _
      | some ty => simp [call, reference_of_known hknown]
  | intern text => exact le_rfl

end Pool

end Ownership
