import Mathlib.Data.List.Nodup
import Mathlib.Data.List.Perm.Subperm
import Ownership.Layout.Table

/-!
# Layouts without a cache

`Layouts.measure` sizes a type by plain recursion: no cache, and no set
of records that are being sized. A type that can be measured at all can
be measured within the depth of the pool (`measure_depth`), because the
records on a path of containment are all different. `sizeOf` and `placed`
are the measures at that depth, and satisfy the equations one expects
(`sizeOf_record`).
-/

namespace Ownership

namespace Layouts

/-! ## Measuring -/

/-- Places fields whose layouts `size` knows. -/
def placeAll (size : TypeId → Option ValueLayout) :
    List FieldDef → Placement → Option RecordLayout
  | [], p => p.finish.toOption
  | field :: fields, p =>
    match size field.type with
    | none => none
    | some layout =>
      match p.add field layout with
      | .error _ => none
      | .ok p => placeAll size fields p

/-- Size and alignment of a type, looking into at most `depth` levels of records. -/
def measure (L : Layouts) : (depth : Nat) → TypeId → Option ValueLayout
  | 0, _ => none
  | depth + 1, ty =>
    match L.pool.tag ty with
    | .primitive p => some (L.primitiveLayout p)
    | .reference => some L.wordLayout
    | .record =>
      (placeAll (L.measure depth) (L.pool.fields ty) .start).map RecordLayout.value

/-- Size and alignment of a type that has them. -/
def sizeOf (L : Layouts) (ty : TypeId) : Option ValueLayout := L.measure L.depth ty

/-- The layout of a record whose fields can be placed. -/
def placed (L : Layouts) (ty : TypeId) : Option RecordLayout :=
  placeAll L.sizeOf (L.pool.fields ty) .start

theorem placeAll_cons_some {size : TypeId → Option ValueLayout} {f : FieldDef}
    {fs : List FieldDef} {p : Placement} {r : RecordLayout}
    (h : placeAll size (f :: fs) p = some r) :
    ∃ v p', size f.type = some v ∧ p.add f v = .ok p' ∧ placeAll size fs p' = some r := by
  rw [placeAll] at h
  split at h
  · cases h
  · next v hv =>
      split at h
      · cases h
      · next p' hp => exact ⟨v, p', hv, hp, h⟩

theorem placeAll_cons_of {size : TypeId → Option ValueLayout} {f : FieldDef}
    {fs : List FieldDef} {p p' : Placement} {v : ValueLayout}
    (hv : size f.type = some v) (hp : p.add f v = .ok p') :
    placeAll size (f :: fs) p = placeAll size fs p' := by
  simp only [placeAll, hv, hp]

/-- Placing depends on the sizes of the fields alone. -/
theorem placeAll_congr {size size' : TypeId → Option ValueLayout} :
    ∀ {fs : List FieldDef} {p : Placement} {r : RecordLayout},
      (∀ f ∈ fs, ∀ v, size f.type = some v → size' f.type = some v) →
      placeAll size fs p = some r → placeAll size' fs p = some r
  | [], _, _, _, h => h
  | f :: fs, p, r, hs, h => by
      obtain ⟨v, p', hv, hp, hr⟩ := placeAll_cons_some h
      rw [placeAll_cons_of (hs f (by simp) v hv) hp]
      exact placeAll_congr (fun g hg => hs g (List.mem_cons_of_mem _ hg)) hr

theorem placeAll_field {size : TypeId → Option ValueLayout} :
    ∀ {fs : List FieldDef} {p : Placement} {r : RecordLayout},
      placeAll size fs p = some r → ∀ f ∈ fs, ∃ v, size f.type = some v
  | f :: fs, p, r, h, g, hg => by
      obtain ⟨v, p', hv, -, hr⟩ := placeAll_cons_some h
      rcases List.mem_cons.mp hg with rfl | hg
      · exact ⟨v, hv⟩
      · exact placeAll_field hr g hg

theorem measure_record {L : Layouts} {ty : TypeId} (htag : L.pool.tag ty = .record)
    (depth : Nat) :
    L.measure (depth + 1) ty =
      (placeAll (L.measure depth) (L.pool.fields ty) .start).map RecordLayout.value := by
  simp only [measure, htag]

theorem measure_pos {L : Layouts} {d : Nat} {ty : TypeId} {v : ValueLayout}
    (h : L.measure d ty = some v) : 0 < d := by
  cases d with
  | zero => cases h
  | succ d => exact Nat.succ_pos d

theorem measure_succ {L : Layouts} {depth : Nat} :
    ∀ {ty : TypeId} {v : ValueLayout}, L.measure depth ty = some v →
      L.measure (depth + 1) ty = some v := by
  induction depth with
  | zero => intro ty v h; cases h
  | succ depth ih =>
      intro ty v h
      cases htag : L.pool.tag ty with
      | primitive p => simpa only [measure, htag] using h
      | reference => simpa only [measure, htag] using h
      | record =>
          rw [measure_record htag, Option.map_eq_some_iff] at h ⊢
          obtain ⟨r, hr, rfl⟩ := h
          exact ⟨r, placeAll_congr (fun f _ v hv => ih hv) hr, rfl⟩

theorem measure_mono {L : Layouts} {d d' : Nat} {ty : TypeId} {v : ValueLayout}
    (hd : d ≤ d') (h : L.measure d ty = some v) : L.measure d' ty = some v := by
  induction hd with
  | refl => exact h
  | step _ ih => exact measure_succ ih

theorem measure_unique {L : Layouts} {d d' : Nat} {ty : TypeId} {v v' : ValueLayout}
    (h : L.measure d ty = some v) (h' : L.measure d' ty = some v') : v = v' := by
  have h1 := measure_mono (Nat.le_max_left d d') h
  have h2 := measure_mono (Nat.le_max_right d d') h'
  exact Option.some.inj (h1.symm.trans h2)

/-! ## The depth of containment -/

theorem item_of_tag_record {pool : Pool} {ty : TypeId} (h : pool.tag ty = .record) :
    ∃ defn, pool.item? ty = some (.record defn) := by
  unfold Pool.tag at h
  split at h
  · cases h
  · split at h
    · next defn hi => exact ⟨defn, hi⟩
    · cases h
    · cases h

theorem index_of_item {pool : Pool} {ty : TypeId} {item : TypeItem}
    (h : pool.item? ty = some item) :
    TypeId.firstDynamic ≤ ty.raw ∧ ty.raw - TypeId.firstDynamic < pool.size := by
  unfold Pool.item? at h
  split at h
  · cases h
  · next hlow =>
      simp only [Bool.or_eq_true, decide_eq_true_eq, not_or, Nat.not_lt] at hlow
      exact ⟨hlow.2, (List.getElem?_eq_some_iff.mp h).1⟩

theorem primitive?_of_item {pool : Pool} {ty : TypeId} {item : TypeItem}
    (h : pool.item? ty = some item) : ty.primitive? = none := by
  have hlow := (index_of_item h).1
  simp only [TypeId.firstDynamic] at hlow
  refine List.getElem?_eq_none ?_
  simp only [Primitive.all, List.length_cons, List.length_nil]
  omega

theorem tag_of_record? {pool : Pool} {ty : TypeId} {defn : RecordDef}
    (h : pool.record? ty = some defn) : pool.tag ty = .record := by
  have hitem : pool.item? ty = some (.record defn) := by
    unfold Pool.record? at h
    split at h
    · next d hd => rw [hd, Option.some.inj h]
    · cases h
  simp only [Pool.tag, primitive?_of_item hitem, hitem]

/-- A type that needs more than `d` levels sits on top of `d` different records. -/
theorem exists_records_of_measure {L : Layouts} :
    ∀ {d : Nat} {ty : TypeId} {v : ValueLayout}, L.measure (d + 1) ty = some v →
      L.measure d ty = none →
      ∃ l : List TypeId, l.length = d ∧ l.Nodup
        ∧ ∀ x ∈ l, L.pool.tag x = .record ∧ L.measure (d + 1) x ≠ none
  | 0, _, _, _, _ => ⟨[], rfl, .nil, by simp⟩
  | d + 1, ty, v, hsome, hnone => by
      have htag : L.pool.tag ty = .record := by
        cases htag : L.pool.tag ty with
        | primitive p => simp [measure, htag] at hnone
        | reference => simp [measure, htag] at hnone
        | record => rfl
      have hsome' := hsome
      rw [measure_record htag, Option.map_eq_some_iff] at hsome'
      obtain ⟨r, hr, -⟩ := hsome'
      -- some field is as deep as `ty` allows, otherwise `ty` itself were less deep
      obtain ⟨f, hf, hdeep⟩ : ∃ f ∈ L.pool.fields ty, L.measure d f.type = none := by
        by_contra hall
        push Not at hall
        have hplace : placeAll (L.measure d) (L.pool.fields ty) .start = some r :=
          placeAll_congr (fun f hf w hw => by
            obtain ⟨w', hw'⟩ := Option.ne_none_iff_exists'.mp (hall f hf)
            rw [hw', measure_unique hw' hw]) hr
        rw [measure_record htag, hplace] at hnone
        cases hnone
      obtain ⟨w, hw⟩ := placeAll_field hr f hf
      obtain ⟨l, hlen, hnodup, hl⟩ := exists_records_of_measure hw hdeep
      refine ⟨ty :: l, by simp [hlen], List.nodup_cons.mpr ⟨?_, hnodup⟩, ?_⟩
      · intro hmem
        exact (hl ty hmem).2 hnone
      · intro x hx
        rcases List.mem_cons.mp hx with rfl | hx
        · exact ⟨htag, by rw [hsome]; simp⟩
        · obtain ⟨hxt, hxm⟩ := hl x hx
          obtain ⟨w', hw'⟩ := Option.ne_none_iff_exists'.mp hxm
          exact ⟨hxt, by rw [measure_succ hw']; simp⟩

theorem length_le_of_records {pool : Pool} {l : List TypeId} (hnodup : l.Nodup)
    (hl : ∀ x ∈ l, pool.tag x = .record) : l.length ≤ pool.size := by
  have hidx : ∀ x ∈ l, TypeId.firstDynamic ≤ x.raw ∧ x.raw - TypeId.firstDynamic < pool.size := by
    intro x hx
    obtain ⟨defn, hitem⟩ := item_of_tag_record (hl x hx)
    exact index_of_item hitem
  have hmap : (l.map fun x => x.raw - TypeId.firstDynamic).Nodup := by
    refine List.Nodup.map_on ?_ hnodup
    intro x hx y hy hxy
    obtain ⟨hx', -⟩ := hidx x hx
    obtain ⟨hy', -⟩ := hidx y hy
    cases x; cases y
    simp only [TypeId.mk.injEq] at *
    omega
  have hsub : (l.map fun x => x.raw - TypeId.firstDynamic) ⊆ List.range pool.size := by
    intro i hi
    obtain ⟨x, hx, rfl⟩ := List.mem_map.mp hi
    exact List.mem_range.mpr (hidx x hx).2
  simpa using (List.subperm_of_subset hmap hsub).length_le

/-- A type that can be measured can be measured within the depth of the pool. -/
theorem measure_depth {L : Layouts} : ∀ {d : Nat} {ty : TypeId} {v : ValueLayout},
    L.measure d ty = some v → L.sizeOf ty = some v
  | 0, _, _, h => by cases h
  | d + 1, ty, v, h => by
      cases hd : L.measure d ty with
      | some w => rw [measure_depth hd, measure_unique hd h]
      | none =>
          obtain ⟨l, hlen, hnodup, hl⟩ := exists_records_of_measure h hd
          have := length_le_of_records hnodup fun x hx => (hl x hx).1
          exact measure_mono (by unfold depth; omega) h

/-! ## The equations of `sizeOf` -/

theorem sizeOf_primitive {L : Layouts} {ty : TypeId} {p : Primitive}
    (h : L.pool.tag ty = .primitive p) : L.sizeOf ty = some (L.primitiveLayout p) := by
  simp only [sizeOf, depth, measure, h]

theorem sizeOf_reference {L : Layouts} {ty : TypeId} (h : L.pool.tag ty = .reference) :
    L.sizeOf ty = some L.wordLayout := by
  simp only [sizeOf, depth, measure, h]

theorem sizeOf_record {L : Layouts} {ty : TypeId} (h : L.pool.tag ty = .record) :
    L.sizeOf ty = (L.placed ty).map RecordLayout.value := by
  apply Option.ext
  intro v
  constructor
  · intro hv
    have hv' := hv
    rw [sizeOf, depth, measure_record h, Option.map_eq_some_iff] at hv'
    obtain ⟨r, hr, rfl⟩ := hv'
    refine Option.map_eq_some_iff.mpr ⟨r, ?_, rfl⟩
    exact placeAll_congr (fun f _ w hw => measure_depth hw) hr
  · intro hv
    refine measure_depth (d := L.depth + 1) ?_
    rw [measure_record h]
    exact hv

theorem sizeOf_of_placed {L : Layouts} {ty : TypeId} {r : RecordLayout}
    (htag : L.pool.tag ty = .record) (hr : L.placed ty = some r) : L.sizeOf ty = some r.value := by
  rw [sizeOf_record htag, hr, Option.map_some]

/-- A record that has a size has its fields placed. -/
theorem exists_placed {L : Layouts} {ty : TypeId} {v : ValueLayout}
    (htag : L.pool.tag ty = .record) (h : L.sizeOf ty = some v) :
    ∃ r, L.placed ty = some r ∧ r.value = v := by
  rw [sizeOf_record htag] at h
  exact Option.map_eq_some_iff.mp h

end Layouts

end Ownership
