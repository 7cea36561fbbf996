import Mathlib.Order.Bounds.Basic
import Ownership.Proofs.Leaves

/-!
# The geometry of records

The layout of a record is determined by the layouts of its fields: the
slots are the fields in order, each at the least offset that suits it
(`Layouts.Packed`), and alignment and size are the least that suit them
all (`Layouts.Arranged`).

`Layouts.flatten` replaces each record inside a value by its own fields,
down to scalars and references. These lie one behind another inside the
value, each aligned for itself (`Layouts.Tiled`): a record starts at a
multiple of its alignment, and that is a multiple of the alignments of
all that it holds.
-/

namespace Ownership

/-- The multiples of `align` at or above `n`. -/
def multiplesFrom (align n : Nat) : Set Nat := {m | align ∣ m ∧ n ≤ m}

theorem isLeast_alignUp {align : Nat} (h : 0 < align) (n : Nat) :
    IsLeast (multiplesFrom align n) (alignUp n align) :=
  ⟨⟨dvd_alignUp n align, le_alignUp h n⟩, fun _ hm => alignUp_le hm.2 hm.1⟩

namespace Layouts

/-! ## Fields in order -/

/-- The slots `slots` lie one behind another between `start` and `stop`, each at the least multiple
of its alignment behind the one before it. -/
inductive Packed (L : Layouts) : (start : Nat) → List FieldSlot → (stop : Nat) → Prop
  | nil {stop : Nat} : Packed L stop [] stop
  | cons {start stop : Nat} {slot : FieldSlot} {slots : List FieldSlot} {v : ValueLayout} :
      L.value slot.type = .ok v → IsLeast (multiplesFrom v.align start) slot.offset →
      Packed L (slot.offset + v.size) slots stop → Packed L start (slot :: slots) stop

/-- The layout `r` is that of a record with the fields `fields`. -/
structure Arranged (L : Layouts) (fields : List FieldDef) (r : RecordLayout) : Prop where
  slots : r.fields.map (fun s => (s.index, s.name, s.type)) =
    fields.mapIdx fun i f => (i, f.name, f.type)
  packed : ∃ stop, L.Packed 0 r.fields stop ∧ IsLeast (multiplesFrom r.align stop) r.size
  first : ∀ s ∈ r.fields.head?, s.offset = 0
  align : IsGreatest (insert 1 {a | ∃ f ∈ fields, ∃ v, L.value f.type = .ok v ∧ a = v.align})
    r.align
  natural : Natural r.align

/-- The slots that placing adds, and the end of the last one. -/
theorem placeAll_packed {L : Layouts} : ∀ {fs : List FieldDef} {p : Placement} {r : RecordLayout},
    Natural p.align → placeAll L.sizeOf fs p = some r →
    ∃ slots stop, r.fields = p.slots ++ slots ∧ L.Packed p.offset slots stop
      ∧ r.size = alignUp stop r.align
      ∧ slots.map (fun s => (s.index, s.name, s.type)) =
          fs.mapIdx fun i f => (p.slots.length + i, f.name, f.type)
  | [], p, r, hal, h => by
      rw [placeAll] at h
      cases hfin : p.finish with
      | error a => simp [hfin, Except.toOption] at h
      | ok r' =>
          simp only [hfin, Except.toOption, Option.some.injEq] at h
          subst h
          obtain ⟨n, hn, rfl⟩ := Placement.finish_ok hfin
          obtain ⟨rfl, -⟩ := alignSize_ok hal.isPowerOfTwo hn
          exact ⟨[], p.offset, by simp, .nil, rfl, rfl⟩
  | f :: fs, p, r, hal, h => by
      obtain ⟨v, p', hv, hp', hr⟩ := placeAll_cons_some h
      obtain ⟨o, ho, hslots, hoff, halign⟩ := Placement.add_ok hp'
      have hnat := sizeOf_natural hv
      obtain ⟨rfl, -⟩ := alignSize_ok hnat.isPowerOfTwo ho
      obtain ⟨slots, stop, hfields, hpacked, hsize, hnames⟩ :=
        placeAll_packed (by rw [halign]; exact hal.max hnat) hr
      refine ⟨⟨p.slots.length, f.name, f.type, alignUp p.offset v.align⟩ :: slots, stop, ?_, ?_,
        hsize, ?_⟩
      · rw [hfields, hslots, List.append_assoc]
        rfl
      · exact .cons (value_eq_ok_iff.mpr hv) (isLeast_alignUp hnat.pos _) (hoff ▸ hpacked)
      · rw [List.map_cons, hnames, hslots, List.mapIdx_cons]
        simp only [List.length_append, List.length_singleton, Nat.add_zero, Nat.add_assoc,
          Nat.add_comm 1]

/-- The alignment of a record is the greatest of those it started with and its fields'. -/
theorem placeAll_align {size : TypeId → Option ValueLayout} :
    ∀ {fs : List FieldDef} {p : Placement} {r : RecordLayout}, placeAll size fs p = some r →
      IsGreatest (insert p.align {a | ∃ f ∈ fs, ∃ v, size f.type = some v ∧ a = v.align}) r.align
  | [], p, r, h => by
      rw [placeAll] at h
      cases hfin : p.finish with
      | error a => simp [hfin, Except.toOption] at h
      | ok r' =>
          simp only [hfin, Except.toOption, Option.some.injEq] at h
          subst h
          obtain ⟨n, -, rfl⟩ := Placement.finish_ok hfin
          simp
  | f :: fs, p, r, h => by
      obtain ⟨v, p', hv, hp', hr⟩ := placeAll_cons_some h
      obtain ⟨hmem, hup⟩ := placeAll_align hr
      obtain ⟨o, -, -, -, halign⟩ := Placement.add_ok hp'
      rw [halign] at hmem hup
      have hmax := hup (Set.mem_insert _ _)
      constructor
      · rcases hmem with hmem | ⟨g, hg, w, hw, hmem⟩
        · rcases Nat.le_total v.align p.align with hle | hle
          · exact Or.inl (hmem.trans (Nat.max_eq_left hle))
          · exact Or.inr ⟨f, List.mem_cons_self, v, hv, hmem.trans (Nat.max_eq_right hle)⟩
        · exact Or.inr ⟨g, List.mem_cons_of_mem _ hg, w, hw, hmem⟩
      · rintro a (rfl | ⟨g, hg, w, hw, rfl⟩)
        · exact (Nat.le_max_left _ _).trans hmax
        · rcases List.mem_cons.mp hg with rfl | hg
          · obtain rfl := Option.some.inj (hv.symm.trans hw)
            exact (Nat.le_max_right _ _).trans hmax
          · exact hup (Or.inr ⟨g, hg, w, hw, rfl⟩)

theorem Packed.head {L : Layouts} {slots : List FieldSlot} {stop : Nat}
    (h : L.Packed 0 slots stop) : ∀ s ∈ slots.head?, s.offset = 0 := by
  intro s hs
  cases h with
  | nil => cases hs
  | cons _ hleast _ =>
      cases hs
      exact Nat.le_zero.mp (hleast.2 ⟨Nat.dvd_zero _, Nat.le_refl 0⟩)

theorem Packed.aligned {L : Layouts} {start stop : Nat} {slots : List FieldSlot}
    (h : L.Packed start slots stop) :
    ∀ s ∈ slots, ∀ v, L.sizeOf s.type = some v → v.align ∣ s.offset := by
  induction h with
  | nil => intro s hs; cases hs
  | cons hv hleast _ ih =>
      intro s hs w hw
      rcases List.mem_cons.mp hs with rfl | hs
      · obtain rfl := Option.some.inj ((value_eq_ok_iff.mp hv).symm.trans hw)
        exact hleast.1.1
      · exact ih s hs w hw

/-- A placed record is arranged as its fields demand. -/
theorem arranged_of_placed {L : Layouts} {ty : TypeId} {r : RecordLayout}
    (h : L.placed ty = some r) : L.Arranged (L.pool.fields ty) r := by
  have hnat : Natural r.align := placeAll_natural (fun _ _ => sizeOf_natural) (Or.inl rfl) h
  obtain ⟨slots, stop, hfields, hpacked, hsize, hnames⟩ := placeAll_packed (Or.inl rfl) h
  rw [Placement.start, List.nil_append] at hfields
  subst hfields
  refine ⟨?_, ⟨stop, hpacked, hsize ▸ isLeast_alignUp hnat.pos stop⟩, hpacked.head, ?_, hnat⟩
  · simpa [Placement.start] using hnames
  · simp only [value_eq_ok_iff]
    exact placeAll_align h

/-! ## Records inside records -/

/-- The scalars and references inside a value of a type, looking into at most `depth` levels of
records. -/
def flattenWithin (L : Layouts) : (depth : Nat) → TypeId → List Leaf
  | 0, _ => []
  | depth + 1, ty =>
    match L.pool.tag ty, L.record ty with
    | .record, .ok r =>
      r.fields.flatMap fun slot => (L.flattenWithin depth slot.type).map (Leaf.shift slot.offset)
    | .record, .error _ => []
    | _, _ => [⟨0, ty⟩]

/-- The scalars and references inside a value of a type, in order. -/
def flatten (L : Layouts) (ty : TypeId) : List Leaf := L.flattenWithin L.depth ty

theorem flattenWithin_plain {L : Layouts} {ty : TypeId} (h : L.pool.tag ty ≠ .record) (d : Nat) :
    L.flattenWithin (d + 1) ty = [⟨0, ty⟩] := by
  rw [flattenWithin]
  split
  · next htag _ => exact absurd htag h
  · next htag _ => exact absurd htag h
  · rfl

theorem flattenWithin_record {L : Layouts} {ty : TypeId} {r : RecordLayout}
    (h : L.pool.tag ty = .record) (hr : L.placed ty = some r) (d : Nat) :
    L.flattenWithin (d + 1) ty =
      r.fields.flatMap fun s => (L.flattenWithin d s.type).map (Leaf.shift s.offset) := by
  simp only [flattenWithin, h, record_eq_ok_iff.mpr hr]

/-- Looking deeper than a type goes finds no more. -/
theorem flattenWithin_succ {L : Layouts} : ∀ {d : Nat} {ty : TypeId} {v : ValueLayout},
    L.measure d ty = some v → L.flattenWithin (d + 1) ty = L.flattenWithin d ty
  | d + 1, ty, v, h => by
      by_cases htag : L.pool.tag ty = .record
      · obtain ⟨r, hr, -⟩ := exists_placed htag (measure_depth h)
        rw [flattenWithin_record htag hr, flattenWithin_record htag hr]
        refine List.flatMap_congr fun s hs => ?_
        obtain ⟨w, hw⟩ := measure_slot h hr hs
        rw [flattenWithin_succ hw]
      · rw [flattenWithin_plain htag, flattenWithin_plain htag]

theorem flatten_plain {L : Layouts} {ty : TypeId} (h : L.pool.tag ty ≠ .record) :
    L.flatten ty = [⟨0, ty⟩] := flattenWithin_plain h _

/-- A record flattens to what its fields flatten to, each from the offset of the field. -/
theorem flatten_record {L : Layouts} {ty : TypeId} {r : RecordLayout}
    (h : L.pool.tag ty = .record) (hr : L.placed ty = some r) :
    L.flatten ty = r.fields.flatMap fun s => (L.flatten s.type).map (Leaf.shift s.offset) := by
  have hsize := sizeOf_of_placed h hr
  rw [flatten, depth, flattenWithin_record h hr]
  refine List.flatMap_congr fun s hs => ?_
  obtain ⟨w, hw⟩ := measure_slot hsize hr hs
  rw [flatten, depth, flattenWithin_succ hw]

/-- The parts `parts` of a value with the layout `v` lie one behind another, each at a multiple of
its alignment. -/
structure Tiled (L : Layouts) (v : ValueLayout) (parts : List Leaf) : Prop where
  inside : ∀ l ∈ parts, ∃ w, L.value l.type = .ok w ∧ l.offset + w.size ≤ v.size
    ∧ w.align ∣ l.offset ∧ w.align ∣ v.align
  apart : parts.Pairwise fun l l' => ∀ w, L.value l.type = .ok w → l.offset + w.size ≤ l'.offset

theorem Natural.dvd_of_le {a b : Nat} (ha : Natural a) (hb : Natural b) (h : a ≤ b) : a ∣ b := by
  rcases ha with rfl | rfl | rfl <;> rcases hb with rfl | rfl | rfl <;> first | decide | omega

theorem tiled_plain {L : Layouts} {ty : TypeId} {v : ValueLayout} (h : L.sizeOf ty = some v) :
    L.Tiled v [⟨0, ty⟩] := by
  refine ⟨fun l hl => ?_, List.pairwise_singleton _ _⟩
  obtain rfl := List.mem_singleton.mp hl
  exact ⟨v, value_eq_ok_iff.mpr h, by simp, Nat.dvd_zero _, Nat.dvd_refl _⟩

/-- The alignment of a field divides that of its record, and the offset of the field. -/
theorem align_dvd_of_slot {L : Layouts} {ty : TypeId} {r : RecordLayout} {s : FieldSlot}
    {w : ValueLayout} (hr : L.placed ty = some r) (hs : s ∈ r.fields)
    (hw : L.sizeOf s.type = some w) : w.align ∣ r.align ∧ w.align ∣ s.offset := by
  have harranged := arranged_of_placed hr
  obtain ⟨stop, hpacked, -⟩ := harranged.packed
  obtain ⟨f, hf, hft⟩ := type_mem_of_slot hr hs
  refine ⟨(sizeOf_natural hw).dvd_of_le harranged.natural (harranged.align.2 (Or.inr ?_)),
    hpacked.aligned s hs w hw⟩
  exact ⟨f, hf, w, value_eq_ok_iff.mpr (hft ▸ hw), rfl⟩

/-- A record is tiled if its fields are. -/
theorem tiled_record {L : Layouts} {ty : TypeId} {r : RecordLayout} {inner : TypeId → List Leaf}
    (hr : L.placed ty = some r)
    (hinner : ∀ s ∈ r.fields, ∀ w, L.sizeOf s.type = some w → L.Tiled w (inner s.type)) :
    L.Tiled r.value (r.fields.flatMap fun s => (inner s.type).map (Leaf.shift s.offset)) := by
  have hlined := (placed_shape hr).1
  constructor
  · intro l' hl'
    obtain ⟨s, hs, hl'⟩ := List.mem_flatMap.mp hl'
    obtain ⟨l, hl, rfl⟩ := List.mem_map.mp hl'
    obtain ⟨w, hw, hend⟩ := hlined.ends s hs
    obtain ⟨u, hu, hin, hoff, hal⟩ := (hinner s hs w hw).inside l hl
    obtain ⟨hdvd, haligned⟩ := align_dvd_of_slot hr hs hw
    refine ⟨u, hu, ?_, ?_, Nat.dvd_trans hal hdvd⟩
    · simp only [Leaf.shift, RecordLayout.value]
      omega
    · exact Nat.dvd_add (Nat.dvd_trans hal haligned) hoff
  · rw [List.pairwise_flatMap]
    constructor
    · intro s hs
      obtain ⟨w, hw, -⟩ := hlined.ends s hs
      refine List.pairwise_map.mpr ((hinner s hs w hw).apart.imp fun h u hu => ?_)
      have := h u hu
      simp only [Leaf.shift]
      omega
    · refine hlined.apart.imp_of_mem fun {s t} hs ht hst => ?_
      intro a' ha' b' hb' u hu
      obtain ⟨a, ha, rfl⟩ := List.mem_map.mp ha'
      obtain ⟨b, -, rfl⟩ := List.mem_map.mp hb'
      obtain ⟨w, hw, -⟩ := hlined.ends s hs
      obtain ⟨u', hu', hin, -⟩ := (hinner s hs w hw).inside a ha
      obtain rfl := Except.ok.inj (hu'.symm.trans hu)
      have := hst w hw
      simp only [Leaf.shift]
      omega

theorem tiled_flatten {L : Layouts} : ∀ {d : Nat} {ty : TypeId} {v : ValueLayout},
    L.measure d ty = some v → L.Tiled v (L.flatten ty)
  | d + 1, ty, v, h => by
      by_cases htag : L.pool.tag ty = .record
      · obtain ⟨r, hr, rfl⟩ := exists_placed htag (measure_depth h)
        rw [flatten_record htag hr]
        refine tiled_record hr fun s hs w hw => ?_
        obtain ⟨w', hw'⟩ := measure_slot h hr hs
        obtain rfl := measure_unique hw hw'
        exact tiled_flatten hw'
      · rw [flatten_plain htag]
        exact tiled_plain (measure_depth h)

/-- What is left of a value are scalars and references. -/
theorem tag_of_flattenWithin {L : Layouts} : ∀ {d : Nat} {ty : TypeId},
    ∀ l ∈ L.flattenWithin d ty, L.pool.tag l.type ≠ .record
  | 0, _, _, hl => by cases hl
  | d + 1, ty, l, hl => by
      by_cases htag : L.pool.tag ty = .record
      · cases hr : L.record ty with
        | error e =>
            simp only [flattenWithin, htag, hr] at hl
            cases hl
        | ok r =>
            rw [flattenWithin_record htag (record_eq_ok_iff.mp hr)] at hl
            obtain ⟨s, -, hl⟩ := List.mem_flatMap.mp hl
            obtain ⟨l', hl', rfl⟩ := List.mem_map.mp hl
            exact tag_of_flattenWithin l' hl'
      · rw [flattenWithin_plain htag] at hl
        obtain rfl := List.mem_singleton.mp hl
        exact htag

/-! ## Counters -/

/-- The header in front of a counted pointee is the least that holds a word and suits the
pointee. -/
theorem isLeast_header {L : Layouts} {ty : TypeId} {v : ValueLayout} {n : Nat}
    (hv : L.sizeOf ty = some v) (h : L.header .counted v = .ok n) :
    IsLeast (multiplesFrom v.align L.word) n := by
  obtain ⟨rfl, -⟩ := alignSize_ok (sizeOf_natural hv).isPowerOfTwo h
  exact isLeast_alignUp (sizeOf_natural hv).pos _

end Layouts

/-- Every record lies as its fields demand, its scalars and references are aligned and do not
overlap, and a counter does not overlap its pointee. -/
theorem record_geometry (L : Layouts) :
    (∀ {ty : TypeId} {defn : RecordDef} {r : RecordLayout},
      L.pool.record? ty = some defn → L.record ty = .ok r →
      L.Arranged defn.fields r
        ∧ L.flatten ty = r.fields.flatMap (fun s => (L.flatten s.type).map (Leaf.shift s.offset))
        ∧ (∀ l ∈ L.flatten ty, L.pool.tag l.type ≠ .record)
        ∧ L.Tiled r.value (L.flatten ty))
    ∧ ∀ {ty pointee : TypeId} {v : ValueLayout},
      L.pool.reference? ty = some (.counted, pointee) → L.value pointee = .ok v →
      ∃ layout, L.ref ty = .ok layout ∧ layout.value = v
        ∧ IsLeast (multiplesFrom v.align L.word) layout.header
        ∧ layout.payloadOffset + layout.countOffset = 0
        ∧ L.word ≤ layout.payloadOffset := by
  constructor
  · intro ty defn r hdef hr
    have htag := Layouts.tag_of_record? hdef
    have hplaced := Layouts.record_eq_ok_iff.mp hr
    have hsize := Layouts.sizeOf_of_placed htag hplaced
    have hfields : L.pool.fields ty = defn.fields := by simp only [Pool.fields, hdef]
    exact ⟨hfields ▸ Layouts.arranged_of_placed hplaced, Layouts.flatten_record htag hplaced,
      fun l hl => Layouts.tag_of_flattenWithin l hl, Layouts.tiled_flatten hsize⟩
  · intro ty pointee v hp hv
    have hsize := Layouts.value_eq_ok_iff.mp hv
    obtain ⟨layout, hlayout, hregion, hpointee⟩ := Layouts.exists_ref hp hsize
    obtain ⟨-, hvalue, hheader⟩ := Layouts.ref_eq_ok_iff.mp hlayout
    rw [hpointee, hsize, Option.some.injEq] at hvalue
    rw [hregion, ← hvalue] at hheader
    have hleast := Layouts.isLeast_header hsize hheader
    refine ⟨layout, hlayout, hvalue.symm, hleast, ?_, hleast.1.2⟩
    exact Int.add_right_neg _

namespace Mixed

/-- A record of a condition and an integer; one of a byte, a unit, the first record and a counted
reference to itself; and that reference. -/
def pool : Pool :=
  .ofItems .new [.record ⟨⟨0⟩, [⟨⟨1⟩, .bool, none⟩, ⟨⟨2⟩, .int, none⟩]⟩,
    .record ⟨⟨3⟩, [⟨⟨4⟩, .byte, none⟩, ⟨⟨5⟩, .unit, none⟩, ⟨⟨6⟩, ⟨16⟩, none⟩, ⟨⟨7⟩, ⟨18⟩, none⟩]⟩,
    .reference .counted ⟨17⟩]

def layouts : Layouts := ⟨pool, .w32⟩

def record : RecordLayout :=
  ⟨[⟨0, ⟨4⟩, .byte, 0⟩, ⟨1, ⟨5⟩, .unit, 1⟩, ⟨2, ⟨6⟩, ⟨16⟩, 8⟩, ⟨3, ⟨7⟩, ⟨18⟩, 24⟩], 32, 8⟩

end Mixed

/-- The record that holds another one flattens to five parts, one of them empty, and the counter in
front of it takes eight bytes of which it needs four. -/
theorem record_geometry_mixed :
    (∃ defn, Mixed.layouts.pool.record? ⟨17⟩ = some defn
      ∧ Mixed.layouts.record ⟨17⟩ = .ok Mixed.record
      ∧ Mixed.layouts.Arranged defn.fields Mixed.record)
    ∧ Mixed.layouts.flatten ⟨17⟩ =
        [⟨0, .byte⟩, ⟨1, .unit⟩, ⟨8, .bool⟩, ⟨16, .int⟩, ⟨24, ⟨18⟩⟩]
    ∧ Mixed.layouts.Tiled ⟨32, 8⟩ (Mixed.layouts.flatten ⟨17⟩)
    ∧ ∃ layout, Mixed.layouts.ref ⟨18⟩ = .ok layout
      ∧ IsLeast (multiplesFrom 8 4) layout.header := by
  have hdef : Mixed.layouts.pool.record? ⟨17⟩ = some _ := rfl
  have hrecord : Mixed.layouts.record ⟨17⟩ = .ok Mixed.record := by decide +kernel
  have href : Mixed.layouts.pool.reference? ⟨18⟩ = some (.counted, ⟨17⟩) := rfl
  have hvalue : Mixed.layouts.value ⟨17⟩ = .ok ⟨32, 8⟩ := by decide +kernel
  obtain ⟨harranged, -, -, htiled⟩ := (record_geometry Mixed.layouts).1 hdef hrecord
  obtain ⟨layout, hlayout, -, hleast, -⟩ := (record_geometry Mixed.layouts).2 href hvalue
  exact ⟨⟨_, hdef, hrecord, harranged⟩, by decide +kernel, htiled, layout, hlayout, hleast⟩

end Ownership
