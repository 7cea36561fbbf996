import Ownership.Proofs.Containment

/-!
# What layout queries answer

A table is *right* if every layout in its cache is the one of its type. A
query on a right table gives the answer that sizing along a path gives
without any table, and leaves a right table again; the records that are
being sized are the path (`answers_valueWithin`). An empty table is right,
so a table that is in use answers as an empty one does
(`answers_queryValue`, `answers_queryRecord`, `answers_queryRef`).
-/

namespace Ownership

namespace Layouts

open Step

/-- Every layout on the table is the one of its type, `sizing` is being
sized, and the plans are `plans`. -/
structure Right (L : Layouts) (sizing : List TypeId) (plans : List (TypeId × ReleasePlan))
    (c : LayoutCache) : Prop where
  values : ∀ {ty v}, c.values.lookup ty = some v → L.sizeOf ty = some v
  records : ∀ {ty r}, c.records.lookup ty = some r → L.placed ty = some r
  sizing : c.sizing = sizing
  plans : c.plans = plans

variable {L : Layouts} {ty : TypeId} {sizing : List TypeId}
  {plans : List (TypeId × ReleasePlan)} {c : LayoutCache}

theorem right_empty (L : Layouts) : L.Right [] [] {} := ⟨nofun, nofun, rfl, rfl⟩

theorem Right.cons_value (h : L.Right sizing plans c) {v : ValueLayout}
    (hv : L.sizeOf ty = some v) :
    L.Right sizing plans { c with values := (ty, v) :: c.values } := by
  refine ⟨fun {ty' v'} h' => ?_, h.records, h.sizing, h.plans⟩
  rw [List.lookup_cons] at h'
  split at h'
  · next heq =>
      cases h'
      rw [beq_iff_eq.mp heq, hv]
  · exact h.values h'

theorem Right.cons_record (h : L.Right sizing plans c) {r : RecordLayout}
    (hr : L.placed ty = some r) :
    L.Right sizing plans { c with records := (ty, r) :: c.records } := by
  refine ⟨h.values, fun {ty' r'} h' => ?_, h.sizing, h.plans⟩
  rw [List.lookup_cons] at h'
  split at h'
  · next heq =>
      cases h'
      rw [beq_iff_eq.mp heq, hr]
  · exact h.records h'

/-! ## Records -/

theorem answers_whileSizing {α : Type} {x : LayoutQuery α} {r : Except (Stop LayoutError) α}
    (h : Answers (L.Right (ty :: sizing) plans) x r) :
    Answers (L.Right sizing plans) (whileSizing ty x) r := by
  intro c hc
  obtain ⟨c₁, hc₁, hrun⟩ := h { c with sizing := ty :: c.sizing }
    ⟨hc.values, hc.records, by rw [hc.sizing], hc.plans⟩
  refine ⟨{ c₁ with sizing := c₁.sizing.erase ty },
    ⟨hc₁.values, hc₁.records, by simp [hc₁.sizing], hc₁.plans⟩, ?_⟩
  change whileSizing ty x c = _
  rw [whileSizing, hrun]
  cases r <;> rfl

theorem answers_placeFields {I : LayoutCache → Prop} {measure : TypeId → LayoutQuery ValueLayout}
    {size : TypeId → Except (Stop LayoutError) ValueLayout} :
    ∀ {fs : List FieldDef} {p : Placement},
      (∀ f ∈ fs, Answers I (measure f.type) (size f.type)) →
      Answers I (placeFields measure fs p) (placeEach size fs p)
  | [], p, _ => answers_ofAbort p.finish
  | f :: _, p, h => (h f List.mem_cons_self).bind fun v _ => (answers_ofAbort (p.add f v)).bind
      fun _ _ => answers_placeFields fun g hg => h g (List.mem_cons_of_mem _ hg)

/-- A record that is on the table already has been placed as it would be now. -/
theorem answers_recordWith {measure : TypeId → LayoutQuery ValueLayout}
    {size : List TypeId → TypeId → Except (Stop LayoutError) ValueLayout}
    (hplaced : (L.recordAlong size sizing ty).toOption = L.placed ty)
    (hfields : ty ∉ sizing → ∀ f ∈ L.pool.fields ty,
      Answers (L.Right (ty :: sizing) plans) (measure f.type) (size (ty :: sizing) f.type)) :
    Answers (L.Right sizing plans) (L.recordWith measure ty) (L.recordAlong size sizing ty) := by
  intro c hc
  rw [recordWith, EStateM.run_bind, EStateM.run_get]
  cases hl : c.records.lookup ty with
  | some layout =>
      rw [hc.records hl] at hplaced
      rw [eq_ok_of_toOption hplaced]
      exact ⟨c, hc, by simp only [hl]; rfl⟩
  | none =>
      by_cases hmem : ty ∈ sizing
      · refine ⟨c, hc, ?_⟩
        have hcont : c.sizing.contains ty = true := by simpa [hc.sizing] using hmem
        simp only [hl, hcont, if_true, recordAlong, if_pos hmem]
        rfl
      · have hcont : c.sizing.contains ty = false := by simpa [hc.sizing] using hmem
        have hplace := answers_whileSizing (answers_placeFields (p := .start) (hfields hmem))
        rw [recordAlong, if_neg hmem] at hplaced ⊢
        obtain ⟨c₁, hc₁, hrun⟩ := hplace c hc
        simp only [hl, hcont, Bool.false_eq_true, if_false, EStateM.run_bind, hrun]
        cases hr : placeEach (size (ty :: sizing)) (L.pool.fields ty) .start with
        | error e => exact ⟨c₁, hc₁, rfl⟩
        | ok layout =>
            rw [hr] at hplaced
            exact ⟨_, hc₁.cons_record hplaced.symm, rfl⟩

/-! ## Values -/

/-- On a right table, a query answers what sizing along the path answers. -/
theorem answers_valueWithin : ∀ {depth : Nat} {sizing : List TypeId} {ty : TypeId},
    L.Path depth sizing ty →
    Answers (L.Right sizing plans) (L.valueWithin depth ty) (L.sizeAlong depth sizing ty)
  | 0, _, _, h => absurd h not_path_zero
  | depth + 1, sizing, ty, h => by
      have hsize := toOption_sizeAlong h
      rw [valueWithin]
      split
      · next p hp =>
          have htag : L.pool.tag ty = .primitive p := by simp only [Pool.tag, hp]
          simp only [sizeAlong, htag]
          exact answers_pure _
      · intro c hc
        rw [EStateM.run_bind, EStateM.run_get]
        cases hl : c.values.lookup ty with
        | some layout =>
            rw [hc.values hl] at hsize
            rw [eq_ok_of_toOption hsize]
            exact ⟨c, hc, by simp only [hl]; rfl⟩
        | none =>
            cases htag : L.pool.tag ty with
            | primitive p =>
                simp only [sizeAlong, htag, hl]
                exact ⟨_, hc.cons_value (sizeOf_primitive htag), rfl⟩
            | reference =>
                simp only [sizeAlong, htag, hl]
                exact ⟨_, hc.cons_value (sizeOf_reference htag), rfl⟩
            | record =>
                have hrecord : Answers (L.Right sizing plans)
                    (L.recordWith (L.valueWithin depth) ty)
                    (L.recordAlong (L.sizeAlong depth) sizing ty) :=
                  answers_recordWith
                    (toOption_recordAlong (h.leads ty) fun hnot b hb =>
                      toOption_sizeAlong (h.cons hnot hb))
                    fun hnot f hf => answers_valueWithin (h.cons hnot ⟨f, hf, rfl⟩)
                obtain ⟨c₁, hc₁, hrun⟩ := hrecord c hc
                simp only [sizeAlong, htag] at hsize ⊢
                simp only [hl, EStateM.run_bind, hrun]
                cases hr : L.recordAlong (L.sizeAlong depth) sizing ty with
                | error e => exact ⟨c₁, hc₁, rfl⟩
                | ok layout =>
                    rw [hr] at hsize
                    exact ⟨_, hc₁.cons_value hsize.symm, rfl⟩

/-! ## Answers on an empty table -/

theorem value_eq (L : Layouts) (ty : TypeId) : L.value ty = L.sizeAlong L.depth [] ty :=
  (answers_valueWithin (L.path_nil ty)).answer L.right_empty

/-- A right table on which nothing is being sized answers as an empty one does. -/
theorem answers_queryValue (L : Layouts) (plans : List (TypeId × ReleasePlan)) (ty : TypeId) :
    Answers (L.Right [] plans) (L.queryValue ty) (L.value ty) :=
  L.value_eq ty ▸ answers_valueWithin (L.path_nil ty)

theorem toOption_value (L : Layouts) (ty : TypeId) : (L.value ty).toOption = L.sizeOf ty := by
  rw [value_eq]
  exact toOption_sizeAlong (L.path_nil ty)

theorem toOption_recordAlong_nil (L : Layouts) (ty : TypeId) :
    (L.recordAlong (L.sizeAlong L.depth) [] ty).toOption = L.placed ty :=
  toOption_recordAlong nofun fun _ _ hb => toOption_sizeAlong (path_singleton hb)

theorem answers_recordAlong (L : Layouts) (plans : List (TypeId × ReleasePlan)) (ty : TypeId) :
    Answers (L.Right [] plans) (L.queryRecord ty) (L.recordAlong (L.sizeAlong L.depth) [] ty) :=
  answers_recordWith (L.toOption_recordAlong_nil ty) fun _ f hf =>
    answers_valueWithin (path_singleton ⟨f, hf, rfl⟩)

theorem record_eq (L : Layouts) (ty : TypeId) :
    L.record ty = L.recordAlong (L.sizeAlong L.depth) [] ty :=
  (L.answers_recordAlong [] ty).answer L.right_empty

theorem answers_queryRecord (L : Layouts) (plans : List (TypeId × ReleasePlan)) (ty : TypeId) :
    Answers (L.Right [] plans) (L.queryRecord ty) (L.record ty) :=
  L.record_eq ty ▸ L.answers_recordAlong plans ty

theorem toOption_record (L : Layouts) (ty : TypeId) : (L.record ty).toOption = L.placed ty := by
  rw [record_eq]
  exact L.toOption_recordAlong_nil ty

theorem value_eq_ok_iff {v : ValueLayout} : L.value ty = .ok v ↔ L.sizeOf ty = some v := by
  rw [← toOption_value, toOption_eq_some_iff]

theorem record_eq_ok_iff {r : RecordLayout} : L.record ty = .ok r ↔ L.placed ty = some r := by
  rw [← toOption_record, toOption_eq_some_iff]

/-- The block behind a reference, from the size of its pointee. -/
def refFrom (L : Layouts) (ty : TypeId) : Except (Stop LayoutError) RefLayout :=
  match L.pool.reference? ty with
  | none => .error (.error (.notReference ty))
  | some (region, pointee) => do
    let value ← L.value pointee
    let header ← (L.header region value).mapError .abort
    return ⟨region, pointee, value, header⟩

theorem answers_refFrom (L : Layouts) (plans : List (TypeId × ReleasePlan)) (ty : TypeId) :
    Answers (L.Right [] plans) (L.queryRef ty) (L.refFrom ty) := by
  unfold queryRef refFrom
  cases L.pool.reference? ty with
  | none => exact answers_throw _
  | some p =>
      exact (L.answers_queryValue plans p.2).bind fun v _ =>
        (answers_ofAbort (L.header p.1 v)).bind fun n _ => answers_pure _

theorem ref_eq (L : Layouts) (ty : TypeId) : L.ref ty = L.refFrom ty :=
  (L.answers_refFrom [] ty).answer L.right_empty

theorem answers_queryRef (L : Layouts) (plans : List (TypeId × ReleasePlan)) (ty : TypeId) :
    Answers (L.Right [] plans) (L.queryRef ty) (L.ref ty) :=
  L.ref_eq ty ▸ L.answers_refFrom plans ty

/-- The block behind a reference, said without queries. -/
theorem ref_eq_ok_iff {r : RefLayout} :
    L.ref ty = .ok r ↔
      L.pool.reference? ty = some (r.region, r.pointee) ∧ L.sizeOf r.pointee = some r.value
        ∧ L.header r.region r.value = .ok r.header := by
  rw [ref_eq, refFrom, ← value_eq_ok_iff]
  cases L.pool.reference? ty with
  | none => simp
  | some p =>
      constructor
      · intro h
        cases hv : L.value p.2 with
        | error e => simp [hv, bind, Except.bind] at h
        | ok v =>
            cases hh : L.header p.1 v with
            | error a => simp [hv, hh, bind, Except.bind, Except.mapError] at h
            | ok n =>
                simp only [hv, hh, bind, Except.bind, Except.mapError, pure, Except.pure,
                  Except.ok.injEq] at h
                subst h
                exact ⟨rfl, hv, hh⟩
      · rintro ⟨hp, hv, hh⟩
        cases hp
        simp only [hv, hh, bind, Except.bind, Except.mapError, pure, Except.pure]

/-! ## Why there is no answer -/

theorem value_explained {r : Stop LayoutError} (h : L.value ty = .error r) : L.Explains ty r :=
  sizeAlong_error (L.path_nil ty) (L.value_eq ty ▸ h)

theorem record_explained {r : Stop LayoutError} (h : L.record ty = .error r) : L.Explains ty r := by
  rw [record_eq] at h
  exact recordAlong_error (by nofun) (fun _ _ hb => sizeAlong_error (path_singleton hb)) h

theorem Explains.sized {r : Stop LayoutError} (h : L.Explains ty r) : r.Sized := by
  rcases h with rfl | ⟨x, rfl, -, -⟩
  · exact rfl
  · exact trivial

theorem value_error {r : Stop LayoutError} (h : L.value ty = .error r) : r.Sized :=
  (value_explained h).sized

theorem record_error {r : Stop LayoutError} (h : L.record ty = .error r) : r.Sized :=
  (record_explained h).sized

theorem ref_error {r : Stop LayoutError} (h : L.ref ty = .error r) : r.Sized := by
  rw [ref_eq, refFrom] at h
  cases hp : L.pool.reference? ty with
  | none =>
      rw [hp] at h
      cases h
      exact trivial
  | some p =>
      cases hv : L.value p.2 with
      | error e =>
          simp only [hp, hv, bind, Except.bind, Except.error.injEq] at h
          exact h ▸ value_error hv
      | ok v =>
          cases hh : L.header p.1 v with
          | error a =>
              simp only [hp, hv, hh, bind, Except.bind, Except.mapError, Except.error.injEq] at h
              exact h ▸ header_error hh
          | ok n => simp [hp, hv, hh, bind, Except.bind, Except.mapError, pure, Except.pure] at h

end Layouts

end Ownership
