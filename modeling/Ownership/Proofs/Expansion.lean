import Ownership.Proofs.Flattening
import Ownership.Proofs.Tables
import Ownership.Proofs.Values
import Ownership.Proofs.Worklist

/-!
# What release plans expand to

A plan stops at the records inside a value: such a record is one entry,
and what it holds is said by its own plan. Replacing every such entry by
the plan of its record, seen from the offset of the field, until none is
left gives the expansion of the plan (`Layouts.Expands`). It is the list
of the owning and counted references in the flattened value
(`Layouts.ownedParts`), in order and each once
(`plan_expansion_exact`). The flattening knows nothing of plans: it goes
into every record, also into those that plans leave out because they hold
no reference.
-/

namespace Ownership

theorem Pool.item?_of_reference? {pool : Pool} {ty : TypeId} {p : Region × TypeId}
    (h : pool.reference? ty = some p) : pool.item? ty = some (.reference p.1 p.2) := by
  unfold reference? at h
  cases hitem : pool.item? ty with
  | none => simp [hitem] at h
  | some item =>
      cases item with
      | record defn => simp [hitem] at h
      | reference region pointee =>
          simp only [hitem, Option.some.injEq] at h
          rw [← h]

namespace Layouts

/-- The owning and counted references among the scalars and references of a value. -/
def ownedParts (L : Layouts) (ty : TypeId) : List Leaf :=
  (L.flatten ty).filter fun l => L.pool.isHolder l.type

/-- The list `l` is the plan with all its records replaced by what their own plans expand to. -/
inductive Expands (L : Layouts) : ReleasePlan → (l : List Leaf) → Prop
  | nil : Expands L [] []
  | release {slot : FieldSlot} {region : Region} {plan : ReleasePlan} {l : List Leaf} :
      Expands L plan l →
      Expands L (⟨slot, .release region⟩ :: plan) (⟨slot.offset, slot.type⟩ :: l)
  | descend {slot : FieldSlot} {plan inner : ReleasePlan} {l parts : List Leaf} :
      L.plan slot.type = .ok inner → Expands L inner parts → Expands L plan l →
      Expands L (⟨slot, .descend⟩ :: plan) (parts.map (Leaf.shift slot.offset) ++ l)

variable {L : Layouts} {ty : TypeId} {plan : ReleasePlan}

theorem Expands.unique {l l' : List Leaf} (h : L.Expands plan l) (h' : L.Expands plan l') :
    l' = l := by
  induction h generalizing l' with
  | nil =>
      cases h'
      rfl
  | release _ ih =>
      cases h' with
      | release hrest => rw [ih hrest]
  | descend hinner _ _ ihparts ih =>
      cases h' with
      | descend hinner' hparts hrest =>
          obtain rfl := Except.ok.inj (hinner.symm.trans hinner')
          rw [ihparts hparts, ih hrest]

/-! ## Leaves are the references of the flattening -/

theorem ownedParts_plain (h : L.pool.tag ty ≠ .record) :
    L.ownedParts ty = if L.pool.isHolder ty then [⟨0, ty⟩] else [] := by
  rw [ownedParts, flatten_plain h, List.filter_singleton, cond_eq_ite]

theorem ownedParts_record {r : RecordLayout} (h : L.pool.tag ty = .record)
    (hr : L.placed ty = some r) :
    L.ownedParts ty
      = r.fields.flatMap fun s => (L.ownedParts s.type).map (Leaf.shift s.offset) := by
  rw [ownedParts, flatten_record h hr, List.filter_flatMap]
  refine List.flatMap_congr fun s _ => ?_
  rw [ownedParts, List.filter_map]
  rfl

/-- The leaves of a field, if those of the records are as they should be. -/
theorem slotLeaves_eq_ownedParts {slot : FieldSlot} {inner : TypeId → List Leaf}
    (hinner : L.pool.tag slot.type = .record → inner slot.type = L.ownedParts slot.type) :
    slotLeaves L.pool inner slot = (L.ownedParts slot.type).map (Leaf.shift slot.offset) := by
  cases hitem : L.pool.item? slot.type with
  | none =>
      have hplain : L.pool.tag slot.type ≠ .record := fun htag => by
        obtain ⟨defn, hdefn⟩ := item_of_tag_record htag
        rw [hitem] at hdefn
        cases hdefn
      rw [ownedParts_plain hplain]
      simp only [slotLeaves, hitem, Pool.isHolder, Pool.reference?]
      rfl
  | some item =>
      cases item with
      | record defn =>
          have htag : L.pool.tag slot.type = .record :=
            tag_of_record? (show L.pool.record? slot.type = some defn by simp [Pool.record?, hitem])
          simp only [slotLeaves, hitem, hinner htag]
      | reference region pointee =>
          have hplain : L.pool.tag slot.type ≠ .record := by
            rw [tag_of_reference? hitem]
            intro h
            cases h
          rw [ownedParts_plain hplain]
          cases region <;> simp only [slotLeaves, hitem, Pool.isHolder, Pool.reference?] <;> rfl

theorem leaves_eq_ownedParts : ∀ {d : Nat} {ty : TypeId} {v : ValueLayout},
    L.measure d ty = some v → L.pool.tag ty = .record → L.leaves ty = L.ownedParts ty
  | d + 1, ty, v, h, htag => by
      obtain ⟨defn, hitem⟩ := item_of_tag_record htag
      have hdef : L.pool.record? ty = some defn := by simp only [Pool.record?, hitem]
      obtain ⟨r, hr, -⟩ := exists_placed htag (measure_depth h)
      rw [leaves_record hdef hr, ownedParts_record htag hr]
      refine List.flatMap_congr fun s hs => slotLeaves_eq_ownedParts fun hrecord => ?_
      obtain ⟨w, hw⟩ := measure_slot h hr hs
      exact leaves_eq_ownedParts hw hrecord

/-- The references of a value have increasing offsets: each takes up a word. -/
theorem ownedParts_increasing {v : ValueLayout} (h : L.sizeOf ty = some v) :
    (L.ownedParts ty).Pairwise fun l l' => l.offset < l'.offset := by
  refine ((tiled_flatten h).apart.filter _).imp_of_mem fun {l l'} hl _ hapart => ?_
  have hholder : L.pool.isHolder l.type = true := (List.mem_filter.mp hl).2
  obtain ⟨p, hitem⟩ : ∃ p : Region × TypeId, L.pool.item? l.type = some (.reference p.1 p.2) := by
    unfold Pool.isHolder at hholder
    cases href : L.pool.reference? l.type with
    | none => simp [href] at hholder
    | some p => exact ⟨p, Pool.item?_of_reference? href⟩
  have hsize := value_eq_ok_iff.mpr (sizeOf_reference (tag_of_reference? hitem))
  have hend : l.offset + L.word ≤ l'.offset := hapart _ hsize
  have hword := (natural_word L).pos
  omega

/-! ## Plans expand to the leaves -/

theorem slot_of_slotRelease {slot : FieldSlot} {x : FieldRelease}
    (h : L.slotRelease slot = some x) : x.slot = slot := by
  unfold slotRelease at h
  split at h
  · cases h
  · cases h
  · cases h
    rfl
  · split at h
    · cases h
    · cases h
      rfl

/-- The entries of a plan are for fields of the record, in their order. -/
theorem slots_sublist (slots : List FieldSlot) :
    ((slots.filterMap L.slotRelease).map FieldRelease.slot).Sublist slots := by
  have hslots : (fun s => (L.slotRelease s).map FieldRelease.slot)
      = Option.guard fun s => (L.slotRelease s).isSome := by
    funext s
    cases hs : L.slotRelease s with
    | none => simp [Option.guard, hs]
    | some x => simp [Option.guard, hs, slot_of_slotRelease hs]
  rw [List.map_filterMap, hslots, List.filterMap_eq_filter]
  exact List.filter_sublist

theorem expands_flatMap : ∀ {plan : ReleasePlan},
    (∀ x ∈ plan, x.action = .descend →
      ∃ inner, L.plan x.slot.type = .ok inner ∧ L.Expands inner (L.leaves x.slot.type)) →
    L.Expands plan (plan.flatMap L.releaseLeaves)
  | [], _ => .nil
  | ⟨slot, action⟩ :: plan, h => by
      have hrest := expands_flatMap fun x hx => h x (List.mem_cons_of_mem _ hx)
      rw [List.flatMap_cons]
      cases action with
      | release region => exact .release hrest
      | descend =>
          obtain ⟨inner, hinner, hparts⟩ := h _ List.mem_cons_self rfl
          exact .descend hinner hparts hrest

/-- A type with a layout has a plan, and it expands to the leaves of the type. -/
theorem exists_plan_expands : ∀ {d : Nat} {ty : TypeId} {v : ValueLayout},
    L.measure d ty = some v → ∃ plan, L.plan ty = .ok plan ∧ L.Expands plan (L.leaves ty)
  | d + 1, ty, v, h => by
      obtain ⟨plan, hplan⟩ := exists_planFrom (measure_depth h)
      rw [← plan_eq] at hplan
      refine ⟨plan, hplan, ?_⟩
      rw [leaves_eq_plan (plan_ok hplan)]
      refine expands_flatMap fun x hx _ => ?_
      rcases plan_ok hplan with ⟨-, rfl⟩ | ⟨defn, r, -, hr, rfl⟩
      · cases hx
      · obtain ⟨s, hs, hrelease⟩ := List.mem_filterMap.mp hx
        obtain ⟨w, hw⟩ := measure_slot h hr hs
        rw [slot_of_slotRelease hrelease]
        exact exists_plan_expands hw

end Layouts

open Layouts in
/-- The plan of a record with a layout, whatever was asked before, expands to the owning and counted
references of the flattened record: each once, at increasing offsets. It is trivial exactly if there
are none. Its entries are for fields of the record in their order, an entry for a reference has the
region of its field, and an entry for a record has something to expand to. -/
theorem plan_expansion_exact (L : Layouts) {ty : TypeId} {defn : RecordDef} {r : RecordLayout}
    (hdef : L.pool.record? ty = some defn) (hr : L.record ty = .ok r) :
    ∃ plan, L.plan ty = .ok plan
      ∧ (∀ qs, ∃ c, (L.queryPlan ty).run (L.interview qs {}).2 = .ok plan c)
      ∧ (∀ l, L.Expands plan l ↔ l = L.ownedParts ty)
      ∧ (L.ownedParts ty).Pairwise (fun l l' => l.offset < l'.offset)
      ∧ (plan.isTrivial = true ↔ L.ownedParts ty = [])
      ∧ (plan.map FieldRelease.slot).Sublist r.fields
      ∧ ∀ x ∈ plan,
        (∃ region pointee, x.action = .release region ∧ region ≠ .borrowed
          ∧ L.pool.reference? x.slot.type = some (region, pointee))
        ∨ (x.action = .descend ∧ ∃ inner l, L.plan x.slot.type = .ok inner ∧ L.Expands inner l
          ∧ l ≠ []) := by
  have htag := tag_of_record? hdef
  have hplaced := record_eq_ok_iff.mp hr
  have hsize : L.measure L.depth ty = some r.value := sizeOf_of_placed htag hplaced
  have howned := leaves_eq_ownedParts hsize htag
  obtain ⟨plan, hplan, hexpands⟩ := exists_plan_expands hsize
  rw [howned] at hexpands
  have hslots : plan = r.fields.filterMap L.slotRelease := by
    rcases plan_ok hplan with ⟨hnone, -⟩ | ⟨-, r', -, hr', rfl⟩
    · rw [hdef] at hnone
      cases hnone
    · rw [Option.some.inj (hplaced.symm.trans hr')]
  refine ⟨plan, hplan, fun qs => ?_, fun l => ⟨hexpands.unique, fun hl => hl ▸ hexpands⟩,
    ownedParts_increasing hsize, ?_, hslots ▸ slots_sublist r.fields, fun x hx => ?_⟩
  · obtain ⟨c, -, hrun⟩ := L.answers_queryPlan ty _ (L.interview_spec qs L.settled_empty).1
    rw [hplan] at hrun
    exact ⟨c, hrun⟩
  · rw [(plan_ok hplan).isTrivial_iff, howned, List.isEmpty_iff]
  · rcases entry_of_plan hplan hx with
      ⟨haction, hleaves⟩ | ⟨region, pointee, haction, href, hregion⟩
    · obtain ⟨s, hs, hrelease⟩ := List.mem_filterMap.mp (hslots ▸ hx)
      obtain ⟨w, hw, -⟩ := (placed_shape hplaced).1.ends s hs
      rw [← slot_of_slotRelease hrelease] at hw
      obtain ⟨inner, hinner, hparts⟩ := exists_plan_expands hw
      refine Or.inr ⟨haction, inner, _, hinner, hparts, fun hnil => ?_⟩
      rw [hnil] at hleaves
      cases hleaves
    · exact Or.inl ⟨region, pointee, haction, hregion, href⟩

namespace Boxes

/-- A label without references; a box of a label, an owned number and a view of it; and a crate of
a mark, two boxes with a label between them and a counted reference to a crate. -/
def pool : Pool :=
  .ofItems .new [.record ⟨⟨0⟩, [⟨⟨1⟩, .int, none⟩]⟩, .reference .owning .int,
    .reference .borrowed .int,
    .record ⟨⟨2⟩, [⟨⟨3⟩, ⟨16⟩, none⟩, ⟨⟨4⟩, ⟨17⟩, none⟩, ⟨⟨5⟩, ⟨18⟩, none⟩]⟩,
    .record ⟨⟨6⟩, [⟨⟨7⟩, .byte, none⟩, ⟨⟨8⟩, ⟨19⟩, none⟩, ⟨⟨9⟩, ⟨16⟩, none⟩, ⟨⟨10⟩, ⟨19⟩, none⟩,
      ⟨⟨11⟩, ⟨21⟩, none⟩]⟩,
    .reference .counted ⟨20⟩]

def layouts : Layouts := ⟨pool, .w32⟩

end Boxes

/-- The crate has three references, two of them in boxes; its plan leaves out the label. -/
theorem plan_expansion_exact_crate :
    ∃ plan, Boxes.layouts.plan ⟨20⟩ = .ok plan ∧ plan.map (fun x => x.slot.index) = [1, 3, 4]
      ∧ ∀ l, Boxes.layouts.Expands plan l ↔ l = [⟨16, ⟨17⟩⟩, ⟨40, ⟨17⟩⟩, ⟨48, ⟨21⟩⟩] := by
  have hdef : Boxes.layouts.pool.record? ⟨20⟩ = some _ := rfl
  have hparts : Boxes.layouts.ownedParts ⟨20⟩ = [⟨16, ⟨17⟩⟩, ⟨40, ⟨17⟩⟩, ⟨48, ⟨21⟩⟩] := by
    decide +kernel
  obtain ⟨r, hr⟩ : ∃ r, Boxes.layouts.record ⟨20⟩ = .ok r := ⟨_, rfl⟩
  obtain ⟨plan, hplan, -, hexpands, -⟩ := plan_expansion_exact Boxes.layouts hdef hr
  have hindex : (Boxes.layouts.plan ⟨20⟩).map (List.map fun x => x.slot.index) = .ok [1, 3, 4] := by
    decide +kernel
  rw [hplan] at hindex
  exact ⟨plan, hplan, Except.ok.inj hindex, hparts ▸ hexpands⟩

end Ownership
