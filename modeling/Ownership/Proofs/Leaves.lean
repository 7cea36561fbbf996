import Ownership.Proofs.Geometry

/-!
# Leaves and release plans

The *leaves* of a type are the owning and counted references inside its
values: those among the fields of a record, and those of the records that
it holds by value. Any other type has none. `Layouts.leaves` lists them
in order of declaration, each with its offset from the start of the
value; it looks at fields only and knows nothing of plans.

A release plan is the list of leaves cut at the first level: it has an
entry for every field with a leaf (`plan_ok`), and replacing each record
field by its own leaves gives the leaves of the whole (`leaves_eq_plan`).
-/

namespace Ownership

/-- A scalar or reference inside a value. -/
structure Leaf where
  offset : Nat
  type : TypeId
  deriving DecidableEq

/-- The leaf as seen from `n` bytes before. -/
def Leaf.shift (n : Nat) (l : Leaf) : Leaf := ⟨n + l.offset, l.type⟩

namespace Layouts

/-- The leaves of the field in a slot; `inner` lists those of a record. -/
def slotLeaves (pool : Pool) (inner : TypeId → List Leaf) (slot : FieldSlot) : List Leaf :=
  match pool.item? slot.type with
  | some (.reference .borrowed _) | none => []
  | some (.reference _ _) => [⟨slot.offset, slot.type⟩]
  | some (.record _) => (inner slot.type).map (Leaf.shift slot.offset)

/-- The leaves of a type, looking into at most `depth` levels of records. -/
def leavesWithin (L : Layouts) : (depth : Nat) → TypeId → List Leaf
  | 0, _ => []
  | depth + 1, ty =>
    match L.pool.record? ty, L.record ty with
    | some _, .ok layout => layout.fields.flatMap (slotLeaves L.pool (L.leavesWithin depth))
    | _, _ => []

/-- The owning and counted references inside a value of a type. -/
def leaves (L : Layouts) (ty : TypeId) : List Leaf := L.leavesWithin L.depth ty

/-! ## The equations of `leaves` -/

theorem leavesWithin_plain {L : Layouts} {ty : TypeId} (h : L.pool.record? ty = none) :
    ∀ d, L.leavesWithin d ty = []
  | 0 => rfl
  | d + 1 => by simp only [leavesWithin, h]

theorem leavesWithin_record {L : Layouts} {ty : TypeId} {defn : RecordDef} {r : RecordLayout}
    (h : L.pool.record? ty = some defn) (hr : L.placed ty = some r) (d : Nat) :
    L.leavesWithin (d + 1) ty = r.fields.flatMap (slotLeaves L.pool (L.leavesWithin d)) := by
  simp only [leavesWithin, h, record_eq_ok_iff.mpr hr]

theorem flatMap_slotLeaves_congr {pool : Pool} {inner inner' : TypeId → List Leaf}
    {slots : List FieldSlot} (h : ∀ s ∈ slots, inner s.type = inner' s.type) :
    slots.flatMap (slotLeaves pool inner) = slots.flatMap (slotLeaves pool inner') := by
  refine List.flatMap_congr fun s hs => ?_
  simp only [slotLeaves, h s hs]

theorem type_mem_of_slot {L : Layouts} {ty : TypeId} {r : RecordLayout}
    (h : L.placed ty = some r) {s : FieldSlot} (hs : s ∈ r.fields) :
    ∃ f ∈ L.pool.fields ty, f.type = s.type := by
  have htypes := (placed_shape h).2.2
  have hmem : s.type ∈ r.fields.map FieldSlot.type := List.mem_map_of_mem hs
  rw [htypes] at hmem
  exact List.mem_map.mp hmem

/-- The fields of a record are one level less deep. -/
theorem measure_slot {L : Layouts} {d : Nat} {ty : TypeId} {v : ValueLayout} {r : RecordLayout}
    (hd : L.measure (d + 1) ty = some v) (h : L.placed ty = some r) {s : FieldSlot}
    (hs : s ∈ r.fields) : ∃ w, L.measure d s.type = some w :=
  measure_contains hd (type_mem_of_slot h hs)

/-- Looking deeper than a type goes finds no more leaves. -/
theorem leavesWithin_succ {L : Layouts} : ∀ {d : Nat} {ty : TypeId} {v : ValueLayout},
    L.measure d ty = some v → L.leavesWithin (d + 1) ty = L.leavesWithin d ty
  | d + 1, ty, v, h => by
      cases hrec : L.pool.record? ty with
      | none => rw [leavesWithin_plain hrec, leavesWithin_plain hrec]
      | some defn =>
          obtain ⟨r, hr, -⟩ := exists_placed (tag_of_record? hrec) (measure_depth h)
          rw [leavesWithin_record hrec hr, leavesWithin_record hrec hr]
          refine flatMap_slotLeaves_congr fun s hs => ?_
          obtain ⟨w, hw⟩ := measure_slot h hr hs
          exact leavesWithin_succ hw

theorem leaves_plain {L : Layouts} {ty : TypeId} (h : L.pool.record? ty = none) :
    L.leaves ty = [] := leavesWithin_plain h _

theorem leaves_record {L : Layouts} {ty : TypeId} {defn : RecordDef} {r : RecordLayout}
    (h : L.pool.record? ty = some defn) (hr : L.placed ty = some r) :
    L.leaves ty = r.fields.flatMap (slotLeaves L.pool L.leaves) := by
  have hsize := sizeOf_of_placed (tag_of_record? h) hr
  rw [leaves, depth, leavesWithin_record h hr]
  refine flatMap_slotLeaves_congr fun s hs => ?_
  obtain ⟨w, hw⟩ := measure_slot hsize hr hs
  exact (leavesWithin_succ hw).symm

/-! ## Plans -/

/-- The release of the field in a slot, if it has any leaf. -/
def slotRelease (L : Layouts) (slot : FieldSlot) : Option FieldRelease :=
  match L.pool.item? slot.type with
  | some (.reference .borrowed _) | none => none
  | some (.reference region _) => some ⟨slot, .release region⟩
  | some (.record _) => if (L.leaves slot.type).isEmpty then none else some ⟨slot, .descend⟩

/-- The plan of a type that has a layout: one entry for each field with a leaf. -/
def IsPlan (L : Layouts) (ty : TypeId) (plan : ReleasePlan) : Prop :=
  (L.pool.record? ty = none ∧ plan = []) ∨
    ∃ defn r, L.pool.record? ty = some defn ∧ L.placed ty = some r
      ∧ plan = r.fields.filterMap L.slotRelease

/-- The leaves that an entry of a plan stands for. -/
def releaseLeaves (L : Layouts) (r : FieldRelease) : List Leaf :=
  match r.action with
  | .release _ => [⟨r.slot.offset, r.slot.type⟩]
  | .descend => (L.leaves r.slot.type).map (Leaf.shift r.slot.offset)

theorem slotLeaves_eq {L : Layouts} (slot : FieldSlot) :
    slotLeaves L.pool L.leaves slot = (L.slotRelease slot).toList.flatMap L.releaseLeaves := by
  unfold slotLeaves slotRelease
  split
  · simp
  · simp
  · simp [releaseLeaves]
  · split
    · next h =>
        rw [List.isEmpty_iff.mp h]
        rfl
    · simp [releaseLeaves]

theorem flatMap_filterMap {α β γ : Type} (f : α → Option β) (g : β → List γ) :
    ∀ l : List α, (l.filterMap f).flatMap g = l.flatMap fun a => (f a).toList.flatMap g
  | [] => rfl
  | a :: l => by
      rw [List.flatMap_cons, ← flatMap_filterMap f g l]
      cases h : f a with
      | none => simp [h]
      | some b => simp [h]

/-- A plan with its record fields replaced by their leaves is the list of leaves. -/
theorem leaves_eq_plan {L : Layouts} {ty : TypeId} {plan : ReleasePlan} (h : L.IsPlan ty plan) :
    L.leaves ty = plan.flatMap L.releaseLeaves := by
  rcases h with ⟨hrec, rfl⟩ | ⟨defn, r, hrec, hr, rfl⟩
  · rw [leaves_plain hrec]
    rfl
  · rw [leaves_record hrec hr, flatMap_filterMap]
    exact List.flatMap_congr fun s _ => slotLeaves_eq s

theorem releaseLeaves_ne_nil {L : Layouts} {slot : FieldSlot} {r : FieldRelease}
    (h : L.slotRelease slot = some r) : L.releaseLeaves r ≠ [] := by
  unfold slotRelease at h
  split at h
  · cases h
  · cases h
  · cases h
    simp [releaseLeaves]
  · split at h
    · cases h
    · next hne =>
        cases h
        simpa [releaseLeaves] using hne

/-- A plan is trivial exactly where there are no leaves. -/
theorem IsPlan.isTrivial_iff {L : Layouts} {ty : TypeId} {plan : ReleasePlan}
    (h : L.IsPlan ty plan) : plan.isTrivial = (L.leaves ty).isEmpty := by
  rw [leaves_eq_plan h]
  cases plan with
  | nil => rfl
  | cons r rest =>
      obtain ⟨s, hs⟩ : ∃ s, L.slotRelease s = some r := by
        rcases h with ⟨-, hnil⟩ | ⟨defn, rl, -, -, hplan⟩
        · cases hnil
        · have : r ∈ rl.fields.filterMap L.slotRelease := by rw [← hplan]; simp
          obtain ⟨s, -, hs⟩ := List.mem_filterMap.mp this
          exact ⟨s, hs⟩
      have hne := releaseLeaves_ne_nil hs
      have : (L.releaseLeaves r ++ rest.flatMap L.releaseLeaves).isEmpty = false := by
        cases hl : L.releaseLeaves r with
        | nil => exact absurd hl hne
        | cons a l => rfl
      rw [List.flatMap_cons, this]
      rfl

/-! ## What plan queries answer -/

/-- The plan of a type, from the layout of its record. -/
def planFrom (L : Layouts) (ty : TypeId) : Except (Stop LayoutError) ReleasePlan :=
  match L.pool.record? ty with
  | none => .ok []
  | some _ => (L.record ty).map fun layout => layout.fields.filterMap L.slotRelease

theorem planFrom_plain {L : Layouts} {ty : TypeId} (h : L.pool.record? ty = none) :
    L.planFrom ty = .ok [] := by
  simp only [planFrom, h]

theorem planFrom_record {L : Layouts} {ty : TypeId} {defn : RecordDef}
    (h : L.pool.record? ty = some defn) :
    L.planFrom ty = (L.record ty).map fun layout => layout.fields.filterMap L.slotRelease := by
  simp only [planFrom, h]

theorem isPlan_of_planFrom {L : Layouts} {ty : TypeId} {plan : ReleasePlan}
    (h : L.planFrom ty = .ok plan) : L.IsPlan ty plan := by
  cases hrec : L.pool.record? ty with
  | none =>
      rw [planFrom_plain hrec] at h
      exact Or.inl ⟨hrec, (Except.ok.inj h).symm⟩
  | some defn =>
      rw [planFrom_record hrec] at h
      cases hr : L.record ty with
      | error e => rw [hr] at h; cases h
      | ok r =>
          rw [hr] at h
          exact Or.inr ⟨defn, r, hrec, record_eq_ok_iff.mp hr, (Except.ok.inj h).symm⟩

theorem exists_planFrom {L : Layouts} {ty : TypeId} {v : ValueLayout} (h : L.sizeOf ty = some v) :
    ∃ plan, L.planFrom ty = .ok plan := by
  cases hrec : L.pool.record? ty with
  | none => exact ⟨[], planFrom_plain hrec⟩
  | some defn =>
      obtain ⟨r, hr, -⟩ := exists_placed (tag_of_record? hrec) h
      rw [planFrom_record hrec, record_eq_ok_iff.mpr hr]
      exact ⟨_, rfl⟩

/-- A table between two queries: its layouts and plans are right, and nothing is being sized. -/
structure Settled (L : Layouts) (c : LayoutCache) : Prop where
  right : L.Right [] c.plans c
  plans : ∀ {ty plan}, c.plans.lookup ty = some plan → L.planFrom ty = .ok plan

theorem settled_empty (L : Layouts) : L.Settled {} := ⟨L.right_empty, nofun⟩

theorem Settled.cons_plan {L : Layouts} {c : LayoutCache} (h : L.Settled c) {ty : TypeId}
    {plan : ReleasePlan} (hp : L.planFrom ty = .ok plan) :
    L.Settled { c with plans := (ty, plan) :: c.plans } := by
  refine ⟨⟨h.right.values, h.right.records, h.right.sizing, rfl⟩, fun {ty' plan'} h' => ?_⟩
  rw [List.lookup_cons] at h'
  split at h'
  · next heq =>
      cases h'
      rw [beq_iff_eq.mp heq]
      exact hp
  · exact h.plans h'

/-- A query that leaves the plans alone keeps a table settled. -/
theorem answers_settled {L : Layouts} {α : Type} {x : LayoutQuery α}
    {r : Except (Stop LayoutError) α} (h : ∀ plans, Step.Answers (L.Right [] plans) x r) :
    Step.Answers L.Settled x r := by
  intro c hc
  obtain ⟨c', hc', hrun⟩ := h c.plans c hc.right
  exact ⟨c', ⟨hc'.plans ▸ hc', fun h' => hc.plans (hc'.plans ▸ h')⟩, hrun⟩

theorem answers_slotAction {L : Layouts} {I : LayoutCache → Prop}
    {inner : TypeId → LayoutQuery ReleasePlan} {slot : FieldSlot}
    (hinner : ∀ defn, L.pool.item? slot.type = some (.record defn) →
      ∃ plan, L.IsPlan slot.type plan ∧ Step.Answers I (inner slot.type) (.ok plan)) :
    ∃ action, L.slotRelease slot = Option.map (FieldRelease.mk slot) action
      ∧ Step.Answers I (L.slotAction inner slot) (.ok action) := by
  cases hitem : L.pool.item? slot.type with
  | none =>
      simp only [slotAction, slotRelease, hitem]
      exact ⟨none, rfl, Step.answers_pure _⟩
  | some item =>
      cases item with
      | reference region pointee =>
          cases region with
          | borrowed =>
              simp only [slotAction, slotRelease, hitem]
              exact ⟨none, rfl, Step.answers_pure _⟩
          | owning =>
              simp only [slotAction, slotRelease, hitem]
              exact ⟨some (.release .owning), rfl, Step.answers_pure _⟩
          | counted =>
              simp only [slotAction, slotRelease, hitem]
              exact ⟨some (.release .counted), rfl, Step.answers_pure _⟩
      | record defn =>
          obtain ⟨plan, hplan, hanswers⟩ := hinner defn hitem
          simp only [slotAction, slotRelease, hitem, ← hplan.isTrivial_iff]
          refine ⟨if plan.isTrivial then none else some .descend, by split <;> rfl, ?_⟩
          intro c hc
          obtain ⟨c', hc', hrun⟩ := hanswers c hc
          exact ⟨c', hc', by rw [EStateM.run_bind, hrun]; rfl⟩

theorem answers_planSlots {L : Layouts} {I : LayoutCache → Prop}
    {inner : TypeId → LayoutQuery ReleasePlan} : ∀ {slots : List FieldSlot},
      (∀ s ∈ slots, ∀ defn, L.pool.item? s.type = some (.record defn) →
        ∃ plan, L.IsPlan s.type plan ∧ Step.Answers I (inner s.type) (.ok plan)) →
      Step.Answers I (L.planSlots inner slots) (.ok (slots.filterMap L.slotRelease))
  | [], _ => Step.answers_pure _
  | slot :: slots, h => by
      obtain ⟨action, hrelease, haction⟩ := answers_slotAction (h slot List.mem_cons_self)
      have hrest := answers_planSlots fun s hs => h s (List.mem_cons_of_mem _ hs)
      rw [List.filterMap_cons, hrelease]
      intro c hc
      obtain ⟨c₁, hc₁, hrun₁⟩ := haction c hc
      obtain ⟨c₂, hc₂, hrun₂⟩ := hrest c₁ hc₁
      refine ⟨c₂, hc₂, ?_⟩
      simp only [planSlots, EStateM.run_bind, hrun₁, Step.ending, hrun₂]
      cases action <;> rfl

theorem answers_planWithin {L : Layouts} : ∀ {d : Nat} {ty : TypeId}, 0 < d →
    (∀ v, L.sizeOf ty = some v → L.measure d ty = some v) →
    Step.Answers L.Settled (L.planWithin d ty) (L.planFrom ty)
  | d + 1, ty, _, hdepth => by
      intro c hc
      rw [planWithin, EStateM.run_bind, EStateM.run_get]
      cases hl : c.plans.lookup ty with
      | some plan =>
          rw [hc.plans hl]
          exact ⟨c, hc, by simp only [hl]; rfl⟩
      | none =>
          cases hrec : L.pool.record? ty with
          | none =>
              have hplan := planFrom_plain hrec
              rw [hplan]
              exact ⟨_, hc.cons_plan hplan, by simp only [hl]; rfl⟩
          | some defn =>
              have hrecord : Step.Answers L.Settled (L.queryRecord ty) (L.record ty) :=
                answers_settled fun plans => L.answers_queryRecord plans ty
              obtain ⟨c₁, hc₁, hrun₁⟩ := hrecord c hc
              simp only [hl, EStateM.run_bind, hrun₁]
              cases hr : L.record ty with
              | error e =>
                  rw [planFrom_record hrec, hr]
                  exact ⟨c₁, hc₁, rfl⟩
              | ok r =>
                  have hplaced := record_eq_ok_iff.mp hr
                  have hsize := sizeOf_of_placed (tag_of_record? hrec) hplaced
                  have hslots : ∀ s ∈ r.fields, ∀ defn, L.pool.item? s.type = some (.record defn) →
                      ∃ plan, L.IsPlan s.type plan
                        ∧ Step.Answers L.Settled (L.planWithin d s.type) (.ok plan) := by
                    intro s hs _ _
                    obtain ⟨w, hw⟩ := measure_slot (hdepth _ hsize) hplaced hs
                    obtain ⟨plan, hplan⟩ := exists_planFrom (measure_depth hw)
                    refine ⟨plan, isPlan_of_planFrom hplan,
                      hplan ▸ answers_planWithin (measure_pos hw) fun w' hw' => ?_⟩
                    rw [hw, ← hw', measure_depth hw]
                  have hplan : L.planFrom ty = .ok (r.fields.filterMap L.slotRelease) := by
                    rw [planFrom_record hrec, hr]
                    rfl
                  obtain ⟨c₂, hc₂, hrun₂⟩ := answers_planSlots hslots c₁ hc₁
                  rw [hplan]
                  exact ⟨_, hc₂.cons_plan hplan, by simp only [Step.ending, hrun₂]; rfl⟩

theorem plan_eq (L : Layouts) (ty : TypeId) : L.plan ty = L.planFrom ty :=
  (answers_planWithin (Nat.succ_pos _) fun _ h => h).answer L.settled_empty

theorem answers_queryPlan (L : Layouts) (ty : TypeId) :
    Step.Answers L.Settled (L.queryPlan ty) (L.plan ty) :=
  L.plan_eq ty ▸ answers_planWithin (Nat.succ_pos _) fun _ h => h

/-- The plan of a type, said without queries. -/
theorem plan_ok {L : Layouts} {ty : TypeId} {plan : ReleasePlan} (h : L.plan ty = .ok plan) :
    L.IsPlan ty plan :=
  isPlan_of_planFrom (L.plan_eq ty ▸ h)

theorem plan_error {L : Layouts} {ty : TypeId} {r : Stop LayoutError}
    (h : L.plan ty = .error r) : r.Sized := by
  rw [plan_eq] at h
  cases hrec : L.pool.record? ty with
  | none => rw [planFrom_plain hrec] at h; cases h
  | some defn =>
      rw [planFrom_record hrec] at h
      exact record_error (eq_error_of_map h)

/-! ## Where leaves lie -/

theorem tag_of_reference? {pool : Pool} {ty : TypeId} {region : Region} {pointee : TypeId}
    (h : pool.item? ty = some (.reference region pointee)) : pool.tag ty = .reference := by
  simp only [Pool.tag, primitive?_of_item h, h]

/-- A leaf is an owning or counted reference, and lies inside the value. -/
theorem leaf_bounds {L : Layouts} : ∀ {d : Nat} {ty : TypeId} {v : ValueLayout},
    L.measure d ty = some v → ∀ l ∈ L.leaves ty,
      l.offset + L.word ≤ v.size
        ∧ ∃ region pointee, L.pool.item? l.type = some (.reference region pointee)
          ∧ region ≠ .borrowed
  | d + 1, ty, v, h, l, hl => by
      cases hrec : L.pool.record? ty with
      | none => rw [leaves_plain hrec] at hl; cases hl
      | some defn =>
          obtain ⟨r, hr, rfl⟩ := exists_placed (tag_of_record? hrec) (measure_depth h)
          rw [leaves_record hrec hr, List.mem_flatMap] at hl
          obtain ⟨s, hs, hl⟩ := hl
          obtain ⟨w, hw, hend⟩ := (placed_shape hr).1.ends s hs
          change l.offset + L.word ≤ r.size ∧ _
          unfold slotLeaves at hl
          split at hl
          · cases hl
          · cases hl
          · next region p hborrow hitem =>
              rw [List.mem_singleton] at hl
              subst hl
              rw [sizeOf_reference (tag_of_reference? hitem)] at hw
              obtain rfl := Option.some.inj hw
              refine ⟨hend, region, p, hitem, ?_⟩
              rintro rfl
              exact hborrow rfl
          · obtain ⟨l', hl', rfl⟩ := List.mem_map.mp hl
            obtain ⟨w', hw'⟩ := measure_slot h hr hs
            obtain rfl := Option.some.inj ((measure_depth hw').symm.trans hw)
            obtain ⟨hin, href⟩ := leaf_bounds hw' l' hl'
            exact ⟨by simp only [Leaf.shift]; omega, href⟩

end Layouts

end Ownership
