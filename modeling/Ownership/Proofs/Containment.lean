import Mathlib.Logic.Relation
import Ownership.Proofs.Measure
import Ownership.Proofs.Stops

/-!
# Containment

A record contains the types of its fields. A type has a size only if no
chain of containment leads from it into a circle
(`sizeOf_eq_none_of_cycle`).

`Layouts.sizeAlong` sizes a type without a cache, with nothing but the
path of records on which it was met; a record that is met on its own path
is what it fails for. Along a path of containment it finds the size of
every type that has one (`toOption_sizeAlong`), and where it fails, a size
does not fit or the record that it names lies on a circle
(`sizeAlong_error`). The records on the path are all different, so the
depth of the pool is enough.
-/

namespace Ownership

open Relation

/-- A value of type `a` has a field of type `b` in it. Only records have
fields, so containment goes on through records alone and ends at references. -/
def Pool.Contains (pool : Pool) (a b : TypeId) : Prop := ∃ f ∈ pool.fields a, f.type = b

namespace Layouts

variable {L : Layouts} {a b ty : TypeId}

theorem tag_of_contains {pool : Pool} (h : pool.Contains a b) : pool.tag a = .record := by
  obtain ⟨f, hf, -⟩ := h
  unfold Pool.fields at hf
  split at hf
  · next defn hdefn => exact tag_of_record? hdefn
  · cases hf

theorem tag_of_transGen {pool : Pool} (h : TransGen pool.Contains a b) : pool.tag a = .record := by
  obtain ⟨c, hc, -⟩ := TransGen.head'_iff.mp h
  exact tag_of_contains hc

/-! ## Types on a circle have no size -/

theorem measure_contains {d : Nat} {v : ValueLayout} (h : L.measure (d + 1) a = some v)
    (hc : L.pool.Contains a b) : ∃ w, L.measure d b = some w := by
  have htag := tag_of_contains hc
  obtain ⟨f, hf, rfl⟩ := hc
  rw [measure_record htag, Option.map_eq_some_iff] at h
  obtain ⟨r, hr, -⟩ := h
  exact placeAll_field hr f hf

theorem measure_transGen (h : TransGen L.pool.Contains a b) {d : Nat} {v : ValueLayout}
    (hd : L.measure d a = some v) : ∃ d' < d, ∃ w, L.measure d' b = some w := by
  induction h with
  | single hc =>
      cases d with
      | zero => cases hd
      | succ d => exact ⟨d, Nat.lt_succ_self d, measure_contains hd hc⟩
  | tail _ hc ih =>
      obtain ⟨d', hlt, w, hw⟩ := ih
      cases d' with
      | zero => cases hw
      | succ d' => exact ⟨d', Nat.lt_of_succ_lt hlt, measure_contains hw hc⟩

/-- Around a circle, a measure would go down for ever. -/
theorem measure_eq_none_of_cycle (h : TransGen L.pool.Contains a a) (d : Nat) :
    L.measure d a = none := by
  induction d using Nat.strongRecOn with
  | ind d ih =>
      cases hd : L.measure d a with
      | none => rfl
      | some v =>
          obtain ⟨d', hlt, w, hw⟩ := measure_transGen h hd
          rw [ih d' hlt] at hw
          cases hw

theorem sizeOf_eq_none_of_cycle (hreach : ReflTransGen L.pool.Contains a b)
    (hcycle : TransGen L.pool.Contains b b) : L.sizeOf a = none := by
  cases ha : L.sizeOf a with
  | none => rfl
  | some v =>
      have hb : ∃ d w, L.measure d b = some w := by
        rcases reflTransGen_iff_eq_or_transGen.mp hreach with rfl | h
        · exact ⟨L.depth, v, ha⟩
        · obtain ⟨d, -, hd⟩ := measure_transGen h ha
          exact ⟨d, hd⟩
      obtain ⟨d, w, hd⟩ := hb
      rw [measure_eq_none_of_cycle hcycle] at hd
      cases hd

theorem placed_eq_none_of_cycle (h : TransGen L.pool.Contains a a) : L.placed a = none := by
  have hsize := sizeOf_eq_none_of_cycle .refl h
  rw [sizeOf_record (tag_of_transGen h), Option.map_eq_none_iff] at hsize
  exact hsize

/-! ## Sizing along a path -/

/-- Places fields whose layouts `size` finds. -/
def placeEach (size : TypeId → Except (Stop LayoutError) ValueLayout) :
    List FieldDef → Placement → Except (Stop LayoutError) RecordLayout
  | [], p => p.finish.mapError .abort
  | field :: fields, p => do
    let layout ← size field.type
    let p ← (p.add field layout).mapError .abort
    placeEach size fields p

/-- The layout of a record that was met at the end of a path. -/
def recordAlong (L : Layouts) (size : List TypeId → TypeId → Except (Stop LayoutError) ValueLayout)
    (path : List TypeId) (ty : TypeId) : Except (Stop LayoutError) RecordLayout :=
  if ty ∈ path then .error (.error (.infiniteSize ty))
  else placeEach (size (ty :: path)) (L.pool.fields ty) .start

/-- Size and alignment of a type that was met at the end of a path, looking
into at most `depth` levels of records. -/
def sizeAlong (L : Layouts) :
    (depth : Nat) → (path : List TypeId) → TypeId → Except (Stop LayoutError) ValueLayout
  | 0, _, _ => .error (.abort .endless)
  | depth + 1, path, ty =>
    match L.pool.tag ty with
    | .primitive p => .ok (L.primitiveLayout p)
    | .reference => .ok L.wordLayout
    | .record => (L.recordAlong (L.sizeAlong depth) path ty).map RecordLayout.value

/-- Different records that all contain `ty`, and a depth that is enough for the rest of them. -/
structure Path (L : Layouts) (depth : Nat) (path : List TypeId) (ty : TypeId) : Prop where
  nodup : path.Nodup
  leads : ∀ x ∈ path, TransGen L.pool.Contains x ty
  room : L.pool.size < depth + path.length

theorem path_nil (L : Layouts) (ty : TypeId) : L.Path L.depth [] ty :=
  ⟨.nil, nofun, Nat.lt_succ_self _⟩

theorem path_singleton (h : L.pool.Contains a b) : L.Path L.depth [a] b where
  nodup := List.nodup_singleton a
  leads := fun x hx => List.mem_singleton.mp hx ▸ .single h
  room := by simp only [depth, List.length_singleton]; omega

theorem not_path_zero {path : List TypeId} : ¬ L.Path 0 path ty := by
  intro h
  have hrecords := length_le_of_records h.nodup fun x hx => tag_of_transGen (h.leads x hx)
  have hroom := h.room
  omega

theorem Path.cons {depth : Nat} {path : List TypeId} (h : L.Path (depth + 1) path a)
    (hnot : a ∉ path) (hc : L.pool.Contains a b) : L.Path depth (a :: path) b where
  nodup := List.nodup_cons.mpr ⟨hnot, h.nodup⟩
  leads := by
    intro x hx
    rcases List.mem_cons.mp hx with rfl | hx
    · exact .single hc
    · exact (h.leads x hx).tail hc
  room := by
    have hroom := h.room
    simp only [List.length_cons]
    omega

/-! ## What is found -/

theorem toOption_placeEach {size : TypeId → Except (Stop LayoutError) ValueLayout}
    {size' : TypeId → Option ValueLayout} : ∀ {fs : List FieldDef} {p : Placement},
      (∀ f ∈ fs, (size f.type).toOption = size' f.type) →
      (placeEach size fs p).toOption = placeAll size' fs p
  | [], p, _ => by
      rw [placeEach, placeAll]
      cases p.finish <;> rfl
  | f :: fs, p, h => by
      have hf := h f List.mem_cons_self
      rw [placeEach, placeAll]
      cases hsize : size f.type with
      | error r =>
          rw [hsize] at hf
          rw [← hf]
          rfl
      | ok v =>
          rw [hsize] at hf
          rw [← hf]
          cases hp : p.add f v with
          | error e => simp [hp, Except.toOption, Except.mapError, bind, Except.bind]
          | ok p' =>
              have hrest := toOption_placeEach (p := p') fun g hg => h g (List.mem_cons_of_mem _ hg)
              simpa [hp, Except.toOption, Except.mapError, bind, Except.bind] using hrest

/-- A record is placed if the sizes of its fields are found, and it is not on its own path. -/
theorem toOption_recordAlong {size : List TypeId → TypeId → Except (Stop LayoutError) ValueLayout}
    {path : List TypeId} (hpath : ty ∈ path → TransGen L.pool.Contains ty ty)
    (hsize : ty ∉ path → ∀ b, L.pool.Contains ty b → (size (ty :: path) b).toOption = L.sizeOf b) :
    (L.recordAlong size path ty).toOption = L.placed ty := by
  rw [recordAlong]
  split
  · next hmem => rw [placed_eq_none_of_cycle (hpath hmem)]; rfl
  · next hnot => exact toOption_placeEach fun f hf => hsize hnot f.type ⟨f, hf, rfl⟩

theorem toOption_sizeAlong : ∀ {depth : Nat} {path : List TypeId} {ty : TypeId},
    L.Path depth path ty → (L.sizeAlong depth path ty).toOption = L.sizeOf ty
  | 0, _, _, h => absurd h not_path_zero
  | depth + 1, path, ty, h => by
      rw [sizeAlong]
      split
      · next p htag => rw [sizeOf_primitive htag]; rfl
      · next htag => rw [sizeOf_reference htag]; rfl
      · next htag =>
          have hrecord : (L.recordAlong (L.sizeAlong depth) path ty).toOption = L.placed ty :=
            toOption_recordAlong (h.leads ty) fun hnot b hb => toOption_sizeAlong (h.cons hnot hb)
          rw [sizeOf_record htag, ← hrecord]
          cases L.recordAlong (L.sizeAlong depth) path ty <;> rfl

/-! ## What is wrong where nothing is found -/

/-- Why `ty` has no size: one does not fit, or there is a circle that is
reached from `ty`, and a record on it is named. -/
def Explains (L : Layouts) (ty : TypeId) (r : Stop LayoutError) : Prop :=
  r = .abort .overflow ∨ ∃ x, r = .error (.infiniteSize x)
    ∧ ReflTransGen L.pool.Contains ty x ∧ TransGen L.pool.Contains x x

theorem Explains.head {r : Stop LayoutError} (h : L.Explains b r) (hc : L.pool.Contains a b) :
    L.Explains a r := by
  rcases h with rfl | ⟨x, rfl, hreach, hcycle⟩
  · exact Or.inl rfl
  · exact Or.inr ⟨x, rfl, .head hc hreach, hcycle⟩

theorem placeEach_error {size : TypeId → Except (Stop LayoutError) ValueLayout}
    {r : Stop LayoutError} : ∀ {fs : List FieldDef} {p : Placement},
      placeEach size fs p = .error r → r = .abort .overflow ∨ ∃ f ∈ fs, size f.type = .error r
  | [], p, h => by
      rw [placeEach] at h
      cases hp : p.finish with
      | ok r' => simp [hp, Except.mapError] at h
      | error e =>
          simp only [hp, Except.mapError, Except.error.injEq] at h
          exact Or.inl (Placement.finish_error hp ▸ h.symm)
  | f :: fs, p, h => by
      rw [placeEach] at h
      cases hsize : size f.type with
      | error r' =>
          simp only [hsize, bind, Except.bind, Except.error.injEq] at h
          exact Or.inr ⟨f, List.mem_cons_self, h ▸ hsize⟩
      | ok v =>
          cases hp : p.add f v with
          | error e =>
              simp only [hsize, hp, bind, Except.bind, Except.mapError, Except.error.injEq] at h
              exact Or.inl (Placement.add_error hp ▸ h.symm)
          | ok p' =>
              simp only [hsize, hp, bind, Except.bind, Except.mapError] at h
              exact (placeEach_error h).imp_right fun ⟨g, hg, hr⟩ =>
                ⟨g, List.mem_cons_of_mem _ hg, hr⟩

theorem recordAlong_error {size : List TypeId → TypeId → Except (Stop LayoutError) ValueLayout}
    {path : List TypeId} {r : Stop LayoutError}
    (hpath : ty ∈ path → TransGen L.pool.Contains ty ty)
    (hsize : ty ∉ path → ∀ b, L.pool.Contains ty b → size (ty :: path) b = .error r →
      L.Explains b r)
    (h : L.recordAlong size path ty = .error r) : L.Explains ty r := by
  rw [recordAlong] at h
  split at h
  · next hmem => exact Or.inr ⟨ty, (Except.error.inj h).symm, .refl, hpath hmem⟩
  · next hnot =>
      rcases placeEach_error h with hr | ⟨f, hf, hr⟩
      · exact Or.inl hr
      · have hc : L.pool.Contains ty f.type := ⟨f, hf, rfl⟩
        exact (hsize hnot _ hc hr).head hc

theorem sizeAlong_error : ∀ {depth : Nat} {path : List TypeId} {ty : TypeId}
    {r : Stop LayoutError}, L.Path depth path ty → L.sizeAlong depth path ty = .error r →
    L.Explains ty r
  | 0, _, _, _, h, _ => absurd h not_path_zero
  | depth + 1, path, ty, r, h, herr => by
      rw [sizeAlong] at herr
      split at herr
      · cases herr
      · cases herr
      · exact recordAlong_error (h.leads ty) (fun hnot b hb => sizeAlong_error (h.cons hnot hb))
          (eq_error_of_map herr)

end Layouts

end Ownership
