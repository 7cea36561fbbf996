import Ownership.Proofs.Operations
import Ownership.Proofs.Owned

/-!
# The worklist of glue functions

Writing the bodies of the glue functions that wait requests further ones.
The work comes to an end, because there are only as many types as the pool
has, and each is requested once (`Emitter.drainGlue_enough`). What it ends
with is a closure: glue for the types that were asked for and for what the
plans of such types demand (`Layouts.GlueClosure`), and for no others.

`Emitter.Drains` lists the requests that are worked off, one step after
the other, and `Emitter.History` all that were since the unit was new;
every glue function is in that list once (`CodeUnit.Logs`).
-/

namespace Ownership

/-! ## What a plan demands -/

namespace Layouts

/-- The glue that letting go of a field needs. -/
inductive Demands (L : Layouts) (r : FieldRelease) : TypeId → Prop where
  | descend : r.action = .descend → Demands L r r.slot.type
  | release {region region' : Region} {pointee : TypeId} : r.action = .release region →
      L.pool.reference? r.slot.type = some (region', pointee) → L.HasContents pointee →
      Demands L r pointee

/-- The least set of types with all that are `asked` and all that the plan of a member demands. -/
inductive GlueClosure (L : Layouts) (asked : TypeId → Prop) : TypeId → Prop where
  | asked {ty : TypeId} : asked ty → GlueClosure L asked ty
  | demanded {ty ty' : TypeId} {plan : ReleasePlan} {r : FieldRelease} : GlueClosure L asked ty →
      L.plan ty = .ok plan → r ∈ plan → L.Demands r ty' → GlueClosure L asked ty'

variable {L : Layouts} {ty ty' : TypeId} {plan : ReleasePlan} {r : FieldRelease}

/-- Whoever asks for no more than a closure has asks for no more than its closure has. -/
theorem GlueClosure.trans {asked asked' : TypeId → Prop} (h : L.GlueClosure asked' ty)
    (hasked : ∀ ty, asked' ty → L.GlueClosure asked ty) : L.GlueClosure asked ty := by
  induction h with
  | asked hty => exact hasked _ hty
  | demanded _ hplan hr hty ih => exact .demanded ih hplan hr hty

theorem HasContents.placed (h : L.HasContents ty) :
    ∃ defn r, L.pool.record? ty = some defn ∧ L.placed ty = some r := by
  obtain ⟨plan, hplan, htrivial⟩ := h
  rcases plan_ok hplan with ⟨-, rfl⟩ | ⟨defn, r, hrec, hr, -⟩
  · cases htrivial
  · exact ⟨defn, r, hrec, hr⟩

theorem HasContents.leaves (h : L.HasContents ty) : (L.leaves ty).isEmpty = false := by
  obtain ⟨plan, hplan, htrivial⟩ := h
  rw [← (plan_ok hplan).isTrivial_iff]
  exact htrivial

theorem HasContents.sizeOf (h : L.HasContents ty) : ∃ v, L.sizeOf ty = some v := by
  obtain ⟨defn, r, hrec, hr⟩ := h.placed
  exact ⟨r.value, sizeOf_of_placed (tag_of_record? hrec) hr⟩

theorem HasContents.typeAt (h : L.HasContents ty) : ∃ i < L.pool.size, ty = Pool.typeAt i := by
  obtain ⟨defn, r, hrec, -⟩ := h.placed
  obtain ⟨defn, hitem⟩ := item_of_tag_record (tag_of_record? hrec)
  obtain ⟨hlow, hsize⟩ := index_of_item hitem
  refine ⟨ty.raw - TypeId.firstDynamic, hsize, ?_⟩
  cases ty
  simp only [Pool.typeAt, TypeId.mk.injEq] at hlow ⊢
  omega

/-- What an entry of a plan says about its field. -/
theorem entry_of_plan (hplan : L.plan ty = .ok plan) (hr : r ∈ plan) :
    (r.action = .descend ∧ (L.leaves r.slot.type).isEmpty = false) ∨
      ∃ region pointee, r.action = .release region
        ∧ L.pool.reference? r.slot.type = some (region, pointee) ∧ region ≠ .borrowed := by
  rcases plan_ok hplan with ⟨-, rfl⟩ | ⟨defn, record, -, -, rfl⟩
  · cases hr
  · obtain ⟨slot, -, hslot⟩ := List.mem_filterMap.mp hr
    unfold slotRelease at hslot
    split at hslot
    · cases hslot
    · cases hslot
    · next region pointee hregion hitem =>
        obtain rfl := Option.some.inj hslot
        refine Or.inr ⟨region, pointee, rfl, ?_, hregion⟩
        simp only [Pool.reference?, hitem]
    · split at hslot
      · cases hslot
      · next hleaves =>
          obtain rfl := Option.some.inj hslot
          exact Or.inl ⟨rfl, Bool.eq_false_iff.mpr hleaves⟩

/-- A unit that serves the fields of a plan has all the glue that the plan demands. -/
theorem Demands.served {u : CodeUnit} (h : L.Demands r ty') (hplan : L.plan ty = .ok plan)
    (hr : r ∈ plan) (hserves : u.ServesField L r) : ∃ id, u.glueFor? ty' = some id := by
  have hentry := entry_of_plan hplan hr
  unfold CodeUnit.ServesField at hserves
  cases h with
  | descend haction =>
      simp only [haction] at hserves
      rcases hentry with ⟨-, hleaves⟩ | ⟨region, pointee, hrelease, -, -⟩
      · exact hserves hleaves
      · rw [haction] at hrelease
        cases hrelease
  | release haction hpool hcontents =>
      simp only [haction] at hserves
      rcases hentry with ⟨hdescend, -⟩ | ⟨region, pointee, -, hpool', hregion⟩
      · rw [haction] at hdescend
        cases hdescend
      · obtain ⟨rfl, rfl⟩ := Prod.mk.inj (Option.some.inj (hpool.symm.trans hpool'))
        obtain ⟨v, hv⟩ := hcontents.sizeOf
        obtain ⟨layout, hl, rfl, rfl⟩ := exists_ref hpool hv
        exact hserves layout hl hregion hcontents.leaves

end Layouts

/-! ## Bodies -/

namespace Emitter

open Emit

variable {e : Emitter}

/-- The glue that a body asks for is what the entries of the plan demand. -/
theorem asksOnly_releaseField (base : Operand) (record : TypeId) (r : FieldRelease) :
    AsksOnly e (fun ty => e.layouts.HasContents ty ∧ e.layouts.Demands r ty) (fun _ => False)
      (e.releaseField base record r) := by
  refine (asksOnly_build _).bind fun addr => ?_
  split
  · next haction =>
      refine (asksOnly_build _).bind fun held => asksOnly_release _ fun layout hl hcontents => ?_
      obtain ⟨hpool, -⟩ := Layouts.ref_eq_ok_iff.mp hl
      exact ⟨hcontents, .release haction hpool hcontents⟩
  · next haction =>
      exact asksOnly_releaseContents _ fun hcontents => ⟨hcontents, .descend haction⟩

theorem asksOnly_glueBody (ty : TypeId) (plan : ReleasePlan) :
    AsksOnly e (fun ty' => e.layouts.HasContents ty' ∧ ∃ r ∈ plan, e.layouts.Demands r ty')
      (fun _ => False) (e.glueBody ty plan) := by
  refine asksOnly_get.bind fun d => AsksOnly.bind ?_ fun _ => asksOnly_edit _
  refine asksOnly_forM fun r hr => ?_
  have hfield := e.asksOnly_releaseField (.value (d.builder.param 0)) ty r
  exact ⟨fun d => (hfield.asks d).mono fun ty' h => ⟨h.1, r, hr, h.2⟩, hfield.ends⟩

end Emitter

/-! ## Requests that were taken up -/

namespace CodeUnit

/-- The function has a body. -/
def HasBody (u : CodeUnit) (id : FuncId) : Prop :=
  ∃ f, u.function? id = some f ∧ f.isDeclaration = false

/-- There is a glue function for the type. -/
def Asked (u : CodeUnit) (ty : TypeId) : Prop := ∃ id, u.glueFor? ty = some id

/-- The glue functions are those of the requests in `log`, which were taken up, and those that
wait; all are different, and those that wait have no body. -/
structure Logs (u : CodeUnit) (log : List (TypeId × FuncId)) : Prop where
  exact : ∀ {ty id}, (ty, id) ∈ log ++ u.pending ↔ u.glueFor? ty = some id
  nodup : ((log ++ u.pending).map Prod.snd).Nodup
  bodiless : ∀ {ty id}, (ty, id) ∈ u.pending → ¬ u.HasBody id

/-- The glue functions are among the functions. -/
def Bounded (u : CodeUnit) : Prop :=
  ∀ ty id, u.glueFor? ty = some id → id.index < u.functions.length

variable {e : Emitter} {busy : Option FuncId} {u u' : CodeUnit} {log : List (TypeId × FuncId)}

theorem Tidy.bounded (h : u.Tidy e busy) : u.Bounded := fun _ _ hid => h.bound hid

theorem Bounded.of_eq (h : u.Bounded) (hf : u'.functions.length = u.functions.length)
    (hg : u'.glue = u.glue) : u'.Bounded := by
  intro ty id hid
  rw [glueFor?, hg] at hid
  rw [hf]
  exact h ty id hid

theorem Bounded.addFunction (h : u.Bounded) (f : Function) : (u.addFunction f).2.Bounded := by
  intro ty id hid
  have hlt := h ty id hid
  simp only [CodeUnit.addFunction, List.length_append, List.length_singleton]
  omega

theorem Bounded.requestGlue (h : u.Bounded) (ty : TypeId) (name : String) :
    (u.requestGlue ty name).2.Bounded := by
  cases hglue : u.glueFor? ty with
  | some id =>
      rw [requestGlue_old name hglue]
      exact h
  | none =>
      rw [requestGlue_new name hglue]
      intro ty' id hid
      rw [glueFor?_cons] at hid
      simp only [List.length_append, List.length_singleton]
      split at hid
      · obtain rfl := Option.some.inj hid
        exact Nat.lt_succ_self _
      · exact Nat.lt_succ_of_lt (h ty' id hid)

theorem Bounded.asks (h : u.Bounded) (ha : e.Asks u u') : u'.Bounded := by
  induction ha with
  | refl => exact h
  | heap _ hu ih =>
      obtain ⟨-, hf, hg, -, -⟩ := requireHeap?_spec hu
      exact ih.of_eq (congrArg List.length hf) hg
  | glue ty name _ ih => exact ih.requestGlue ty name

theorem HasBody.of_function {id : FuncId} (h : u'.HasBody id)
    (heq : u'.function? id = u.function? id) : u.HasBody id := by
  obtain ⟨f, hf, hbody⟩ := h
  exact ⟨f, heq.symm.trans hf, hbody⟩

theorem Logs.requests (h : u.Logs log) {ty : TypeId} {id : FuncId} (hmem : (ty, id) ∈ u.pending) :
    u.glueFor? ty = some id := h.exact.mp (List.mem_append_right log hmem)

theorem Logs.of_eq (h : u.Logs log) (hg : u'.glue = u.glue) (hp : u'.pending = u.pending)
    (hf : ∀ {ty id}, (ty, id) ∈ u.pending → u'.function? id = u.function? id) : u'.Logs log := by
  refine ⟨fun {ty id} => ?_, ?_, fun hmem hbody => ?_⟩
  · rw [hp, glueFor?, hg]
    exact h.exact
  · rw [hp]
    exact h.nodup
  · rw [hp] at hmem
    exact h.bodiless hmem (hbody.of_function (hf hmem))

/-- Functions that are there stay when one is added. -/
theorem function?_append {id : FuncId} (f : Function) (hlt : id.index < u.functions.length) :
    (u.functions ++ [f])[id.index]? = u.function? id := List.getElem?_append_left hlt

theorem Logs.requestGlue (h : u.Logs log) (hbound : u.Bounded) (ty : TypeId) (name : String) :
    (u.requestGlue ty name).2.Logs log := by
  cases hglue : u.glueFor? ty with
  | some id =>
      rw [requestGlue_old name hglue]
      exact h
  | none =>
      have hfresh : ∀ {ty' id}, u.glueFor? ty' = some id → id ≠ ⟨u.functions.length⟩ := by
        rintro ty' id hid rfl
        exact Nat.lt_irrefl _ (hbound _ _ hid)
      rw [requestGlue_new name hglue]
      refine ⟨fun {ty' id} => ?_, ?_, fun {ty' id} hmem => ?_⟩
      · rw [glueFor?_cons]
        change (ty', id) ∈ log ++ (ty, ⟨u.functions.length⟩) :: u.pending ↔ _
        rw [List.perm_middle.mem_iff, List.mem_cons, h.exact, Prod.mk.injEq]
        split
        · next heq => simp [heq, hglue, eq_comm]
        · next hne => simp [hne]
      · change ((log ++ (ty, ⟨u.functions.length⟩) :: u.pending).map Prod.snd).Nodup
        rw [(List.perm_middle.map Prod.snd).nodup_iff, List.map_cons, List.nodup_cons]
        refine ⟨fun hmem => ?_, h.nodup⟩
        obtain ⟨⟨ty', id⟩, hmem, hid⟩ := List.mem_map.mp hmem
        exact hfresh (h.exact.mp hmem) hid
      · rintro ⟨f, hf, hbody⟩
        rcases List.mem_cons.mp hmem with heq | hmem
        · obtain ⟨-, rfl⟩ := Prod.mk.inj heq
          change (u.functions ++ [_])[u.functions.length]? = some f at hf
          rw [List.getElem?_concat_length] at hf
          obtain rfl := Option.some.inj hf
          cases hbody
        · exact h.bodiless hmem
            ⟨f, (function?_append _ (hbound _ _ (h.requests hmem))).symm.trans hf, hbody⟩

theorem Logs.asks (h : u.Logs log) (hbound : u.Bounded) (ha : e.Asks u u') : u'.Logs log := by
  induction ha with
  | refl => exact h
  | heap _ hu ih =>
      obtain ⟨-, hf, hg, hp, -⟩ := requireHeap?_spec hu
      exact ih.of_eq hg hp fun {_ id} _ => by rw [function?, hf]; rfl
  | glue ty name ha ih => exact ih.requestGlue (hbound.asks ha) ty name

theorem Logs.addFunction (h : u.Logs log) (hbound : u.Bounded) (f : Function) :
    (u.addFunction f).2.Logs log :=
  h.of_eq rfl rfl fun hmem => function?_append f (hbound _ _ (h.requests hmem))

/-- A request is taken up. -/
theorem Logs.pop {q : TypeId × FuncId} {rest : List (TypeId × FuncId)} (h : u.Logs log)
    (hp : u.pending = q :: rest) : Logs { u with pending := rest } (log ++ [q]) := by
  have hsame : log ++ [q] ++ rest = log ++ u.pending := by
    rw [hp, List.append_assoc, List.singleton_append]
  refine ⟨fun {ty id} => ?_, ?_, fun {ty id} hmem => ?_⟩
  · change _ ∈ log ++ [q] ++ rest ↔ _
    rw [hsame]
    exact h.exact
  · change ((log ++ [q] ++ rest).map Prod.snd).Nodup
    rw [hsame]
    exact h.nodup
  · exact h.bodiless (hp ▸ List.mem_cons_of_mem q hmem)

/-- What was taken up does not wait. -/
theorem Logs.not_pending (h : u.Logs log) {id : FuncId} (hid : id ∈ log.map Prod.snd)
    (ty : TypeId) :
    (ty, id) ∉ u.pending := by
  have hnodup := h.nodup
  rw [List.map_append, List.nodup_append'] at hnodup
  intro hmem
  exact hnodup.2.2 hid (List.mem_map_of_mem hmem)

theorem Logs.setFunction {id : FuncId} {f : Function} (h : u.Logs log)
    (hid : id ∈ log.map Prod.snd) (hset : u.setFunction? id f = some u') : u'.Logs log := by
  obtain ⟨-, hg, hp, -, hothers⟩ := setFunction?_spec hset
  refine h.of_eq hg hp fun {ty id'} hmem => hothers id' ?_
  rintro rfl
  exact h.not_pending hid ty hmem

/-! ## How a unit grows -/

/-- Functions stay, and new glue functions are new functions. -/
structure Extends (u u' : CodeUnit) : Prop where
  length : u.functions.length ≤ u'.functions.length
  glue : ∀ {ty id}, u'.glueFor? ty = some id →
    u.glueFor? ty = some id ∨ u.functions.length ≤ id.index

theorem Extends.refl (u : CodeUnit) : u.Extends u := ⟨Nat.le_refl _, Or.inl⟩

theorem Extends.trans {u₁ u₂ u₃ : CodeUnit} (h : u₁.Extends u₂) (h' : u₂.Extends u₃) :
    u₁.Extends u₃ := by
  refine ⟨h.length.trans h'.length, fun hid => ?_⟩
  rcases h'.glue hid with hid | hle
  · exact h.glue hid
  · exact Or.inr (h.length.trans hle)

theorem extends_of_eq (hf : u'.functions.length = u.functions.length) (hg : u'.glue = u.glue) :
    u.Extends u' := by
  refine ⟨hf.ge, fun hid => Or.inl ?_⟩
  rw [glueFor?, hg] at hid
  exact hid

theorem extends_setFunction {id : FuncId} {f : Function} (hset : u.setFunction? id f = some u') :
    u.Extends u' := by
  obtain ⟨hlen, hg, -⟩ := setFunction?_spec hset
  exact extends_of_eq hlen hg

theorem extends_requestGlue (u : CodeUnit) (ty : TypeId) (name : String) :
    u.Extends (u.requestGlue ty name).2 := by
  cases hglue : u.glueFor? ty with
  | some id =>
      rw [requestGlue_old name hglue]
      exact .refl u
  | none =>
      rw [requestGlue_new name hglue]
      refine ⟨by simp, fun {ty' id} hid => ?_⟩
      rw [glueFor?_cons] at hid
      split at hid
      · exact Or.inr (Option.some.inj hid ▸ Nat.le_refl _)
      · exact Or.inl hid

end CodeUnit

namespace Emitter

variable {e : Emitter} {u u' : CodeUnit} {allowed : TypeId → Prop}

theorem extends_asks (h : e.Asks u u') : u.Extends u' := by
  induction h with
  | refl => exact .refl u
  | heap _ hu ih =>
      obtain ⟨-, hf, hg, -, -⟩ := CodeUnit.requireHeap?_spec hu
      exact ih.trans (CodeUnit.extends_of_eq (congrArg List.length hf) hg)
  | glue ty name _ ih => exact ih.trans (CodeUnit.extends_requestGlue _ ty name)

/-- Glue that is new was allowed. -/
theorem AsksFor.asked (h : e.AsksFor allowed u u') {ty : TypeId} (hty : u'.Asked ty) :
    u.Asked ty ∨ allowed ty := by
  induction h with
  | refl => exact Or.inl hty
  | heap _ hu ih =>
      obtain ⟨-, -, hg, -, -⟩ := CodeUnit.requireHeap?_spec hu
      refine ih ?_
      rw [CodeUnit.Asked, CodeUnit.glueFor?, hg] at hty
      exact hty
  | @glue u₁ ty' name _ hallowed ih =>
      cases hglue : u₁.glueFor? ty' with
      | some id =>
          rw [CodeUnit.requestGlue_old name hglue] at hty
          exact ih hty
      | none =>
          rw [CodeUnit.requestGlue_new name hglue, CodeUnit.Asked, CodeUnit.glueFor?_cons] at hty
          split at hty
          · next heq => exact Or.inr (heq ▸ hallowed)
          · exact ih hty

end Emitter

/-! ## How much work there can be -/

/-- Requests that wait, and types of the pool that can still be requested. -/
def CodeUnit.room (pool : Pool) (u : CodeUnit) : Nat :=
  u.pending.length + ((Finset.range pool.size).filter fun i =>
    u.glueFor? (Pool.typeAt i) = none).card

namespace Emitter

variable {e : Emitter} {u u' : CodeUnit} {allowed : TypeId → Prop}

theorem room_le (u : CodeUnit) : u.room e.pool ≤ u.pending.length + e.pool.size := by
  have hcard := Finset.card_filter_le (Finset.range e.pool.size) fun i =>
    u.glueFor? (Pool.typeAt i) = none
  rw [Finset.card_range] at hcard
  exact Nat.add_le_add_left hcard _

theorem room_requestGlue {ty : TypeId} (hty : e.layouts.HasContents ty) (name : String) :
    (u.requestGlue ty name).2.room e.pool ≤ u.room e.pool := by
  cases hglue : u.glueFor? ty with
  | some id => rw [CodeUnit.requestGlue_old name hglue]
  | none =>
      obtain ⟨i, hi, rfl⟩ := hty.typeAt
      rw [CodeUnit.requestGlue_new name hglue]
      simp only [CodeUnit.room, CodeUnit.glueFor?_cons, List.length_cons]
      -- the type itself can no longer be requested
      have hfewer : (((Finset.range e.pool.size).filter fun j => (if Pool.typeAt j = Pool.typeAt i
          then some ⟨u.functions.length⟩ else u.glueFor? (Pool.typeAt j)) = none).card <
          ((Finset.range e.pool.size).filter fun j => u.glueFor? (Pool.typeAt j) = none).card) := by
        refine Finset.card_lt_card
          (Finset.ssubset_iff_subset_ne.mpr ⟨fun j hj => ?_, fun heq => ?_⟩)
        · rw [Finset.mem_filter] at hj ⊢
          refine ⟨hj.1, ?_⟩
          have hnone := hj.2
          split at hnone
          · cases hnone
          · exact hnone
        · have hmem : i ∈ (Finset.range e.pool.size).filter fun j =>
              u.glueFor? (Pool.typeAt j) = none :=
            Finset.mem_filter.mpr ⟨Finset.mem_range.mpr hi, hglue⟩
          rw [← heq, Finset.mem_filter, if_pos rfl] at hmem
          cases hmem.2
      omega

theorem room_asksFor (h : e.AsksFor allowed u u')
    (hallowed : ∀ ty, allowed ty → e.layouts.HasContents ty) :
    u'.room e.pool ≤ u.room e.pool := by
  induction h with
  | refl => exact Nat.le_refl _
  | heap _ hu ih =>
      obtain ⟨-, -, hg, hp, -⟩ := CodeUnit.requireHeap?_spec hu
      have hglue : ∀ ty, CodeUnit.glueFor? _ ty = CodeUnit.glueFor? _ ty := fun ty =>
        congrArg (List.lookup ty) hg
      simpa only [CodeUnit.room, hglue, hp] using ih
  | glue name _ hty ih => exact (room_requestGlue (hallowed _ hty) name).trans ih

theorem room_setFunction {id : FuncId} {f : Function} (hset : u.setFunction? id f = some u') :
    u'.room e.pool = u.room e.pool := by
  obtain ⟨-, hg, hp, -⟩ := CodeUnit.setFunction?_spec hset
  have hglue : ∀ ty, u'.glueFor? ty = u.glueFor? ty := fun ty => congrArg (List.lookup ty) hg
  simp only [CodeUnit.room, hglue, hp]

/-- What giving a glue function its body does to the unit. -/
theorem defineGlue_asks {ty : TypeId} {id : FuncId} (h : (e.defineGlue ty id).run u = .ok () u') :
    ∃ plan u₁ f, e.layouts.plan ty = .ok plan
      ∧ e.AsksFor (fun ty' => e.layouts.HasContents ty' ∧ ∃ r ∈ plan, e.layouts.Demands r ty') u u₁
      ∧ u₁.setFunction? id f = some u' := by
  obtain ⟨plan, name, d, hplan, hrun, hset⟩ := defineGlue_ok h
  refine ⟨plan, d.unit, _, hplan, ?_, hset⟩
  have hasks := (e.asksOnly_glueBody ty plan).asks ⟨u, .new name [.ptr] .unit⟩
  rw [hrun] at hasks
  exact hasks

/-- Taking up a request makes room. -/
theorem room_defineGlue {q : TypeId × FuncId} {rest : List (TypeId × FuncId)}
    (hp : u.pending = q :: rest)
    (h : (e.defineGlue q.1 q.2).run { u with pending := rest } = .ok () u') :
    u'.room e.pool < u.room e.pool := by
  obtain ⟨plan, u₁, f, -, hasks, hset⟩ := defineGlue_asks h
  have hroom := room_asksFor hasks fun ty hty => hty.1
  have hpop : CodeUnit.room e.pool { u with pending := rest } + 1 = u.room e.pool := by
    rw [CodeUnit.room, CodeUnit.room, hp, List.length_cons]
    exact Nat.add_right_comm _ _ _
  rw [room_setFunction hset]
  omega

theorem stops_inFunction {P : Stop EmitError → Prop} {x : Emit Unit} (h : Step.Stops P x)
    (b : Builder) : Step.Stops P (inFunction b x) := by
  intro u u' r hrun
  change inFunction b x u = _ at hrun
  unfold inFunction at hrun
  split at hrun
  · cases hrun
  · next s d hx =>
      obtain ⟨rfl, -⟩ := EStateM.Result.error.inj hrun
      exact h _ _ _ hx

theorem stops_defineGlue (ty : TypeId) (id : FuncId) :
    Step.Stops (· ≠ .abort .endless) (e.defineGlue ty id) := by
  have hdangling : ∀ {β : Type} (o : Option β),
      Step.Stops (· ≠ .abort .endless) (Step.ofOption .dangling o : UnitStep β) := by
    intro β o
    cases o with
    | some a => exact Step.stops_pure a
    | none => exact Step.stops_throw (by nofun)
  refine Step.stops_lift_bind ?_ fun plan _ => ?_
  · intro r hr
    have hsized := Layouts.plan_error hr
    cases r with
    | error err => nofun
    | abort a =>
        obtain rfl : a = .overflow := hsized
        nofun
  · exact Step.stops_get.bind fun _ => (hdangling _).bind fun declared =>
      (stops_inFunction ((e.asksOnly_glueBody ty plan).ends nofun) _).bind fun b =>
      Step.stops_get.bind fun _ => (hdangling _).bind fun _ => Step.stops_set _

/-! ## The loop -/

theorem drainGlue_nil (hp : u.pending = []) (limit : Nat) :
    (e.drainGlue limit).run u = .ok 0 u := by
  cases limit with
  | zero =>
      simp only [drainGlue, EStateM.run_bind, EStateM.run_get, hp, List.isEmpty_nil, if_true]
      rfl
  | succ limit =>
      simp only [drainGlue, EStateM.run_bind, EStateM.run_get, hp]
      rfl

theorem drainGlue_cons {q : TypeId × FuncId} {rest : List (TypeId × FuncId)}
    (hp : u.pending = q :: rest) (limit : Nat) :
    (e.drainGlue (limit + 1)).run u =
      (do
        e.defineGlue q.1 q.2
        let n ← e.drainGlue limit
        return n + 1).run { u with pending := rest } := by
  simp only [drainGlue, EStateM.run_bind, EStateM.run_get, hp]
  rfl

/-- A limit that leaves room for all requests is never reached: the work ends, and ends in the same
way whatever the limit is. -/
theorem drainGlue_enough : ∀ {limit : Nat} {u : CodeUnit}, u.room e.pool ≤ limit →
    (∀ r u', (e.drainGlue limit).run u = .error r u' → r ≠ .abort .endless)
      ∧ ∀ limit', limit ≤ limit' → (e.drainGlue limit').run u = (e.drainGlue limit).run u := by
  have hnil : ∀ {limit : Nat} {u : CodeUnit}, u.pending = [] →
      (∀ r u', (e.drainGlue limit).run u = .error r u' → r ≠ .abort .endless)
        ∧ ∀ limit', limit ≤ limit' → (e.drainGlue limit').run u = (e.drainGlue limit).run u := by
    intro limit u hp
    refine ⟨fun r u' hrun => ?_, fun limit' _ => ?_⟩
    · rw [drainGlue_nil hp] at hrun
      cases hrun
    · rw [drainGlue_nil hp, drainGlue_nil hp]
  intro limit
  induction limit with
  | zero =>
      intro u hroom
      unfold CodeUnit.room at hroom
      exact hnil (List.length_eq_zero_iff.mp (by omega))
  | succ limit ih =>
      intro u hroom
      cases hp : u.pending with
      | nil => exact hnil hp
      | cons q rest =>
          cases hdefine : (e.defineGlue q.1 q.2).run { u with pending := rest } with
          | error r u₁ =>
              have hstop : ∀ n, (e.drainGlue (n + 1)).run u = .error r u₁ := fun n => by
                rw [drainGlue_cons hp, EStateM.run_bind, hdefine]
              refine ⟨fun r' u' hrun => ?_, fun limit' hle => ?_⟩
              · rw [hstop] at hrun
                obtain ⟨rfl, -⟩ := EStateM.Result.error.inj hrun
                exact stops_defineGlue _ _ _ _ _ hdefine
              · obtain ⟨n, rfl⟩ := Nat.exists_eq_add_of_le' (Nat.le_of_add_left_le hle)
                rw [hstop, hstop]
          | ok a u₁ =>
              have hless := room_defineGlue hp hdefine
              obtain ⟨hends, hsame⟩ := ih (u := u₁) (by omega)
              have hgo : ∀ n, (e.drainGlue (n + 1)).run u =
                  (e.drainGlue n >>= fun k => pure (k + 1)).run u₁ := fun n => by
                rw [drainGlue_cons hp, EStateM.run_bind, hdefine]
              refine ⟨fun r u' hrun => ?_, fun limit' hle => ?_⟩
              · rw [hgo, EStateM.run_bind] at hrun
                split at hrun
                · cases hrun
                · next hrest =>
                    obtain ⟨rfl, -⟩ := EStateM.Result.error.inj hrun
                    exact hends _ _ hrest
              · obtain ⟨n, rfl⟩ := Nat.exists_eq_add_of_le' (Nat.le_of_add_left_le hle)
                rw [hgo, hgo, EStateM.run_bind, EStateM.run_bind, hsame n (by omega)]

/-- The requests that are worked off on the way from one unit to another, in order. -/
inductive Drains (e : Emitter) : CodeUnit → List (TypeId × FuncId) → CodeUnit → Prop where
  | done {u : CodeUnit} : u.pending = [] → Drains e u [] u
  | next {u u₁ u' : CodeUnit} {q : TypeId × FuncId} {rest l : List (TypeId × FuncId)} :
      u.pending = q :: rest →
      (e.defineGlue q.1 q.2).run { u with pending := rest } = .ok () u₁ → Drains e u₁ l u' →
      Drains e u (q :: l) u'

theorem drains_drainGlue : ∀ {limit n : Nat} {u u' : CodeUnit},
    (e.drainGlue limit).run u = .ok n u' → ∃ l, e.Drains u l u' ∧ n = l.length := by
  intro limit
  induction limit with
  | zero =>
      intro n u u' h
      cases hp : u.pending with
      | nil =>
          rw [drainGlue_nil hp] at h
          obtain ⟨rfl, rfl⟩ := EStateM.Result.ok.inj h
          exact ⟨[], .done hp, rfl⟩
      | cons q rest =>
          simp [drainGlue, EStateM.run_bind, EStateM.run_get, hp] at h
  | succ limit ih =>
      intro n u u' h
      cases hp : u.pending with
      | nil =>
          rw [drainGlue_nil hp] at h
          obtain ⟨rfl, rfl⟩ := EStateM.Result.ok.inj h
          exact ⟨[], .done hp, rfl⟩
      | cons q rest =>
          rw [drainGlue_cons hp] at h
          obtain ⟨⟨⟩, u₁, h₁, k₁⟩ := Step.bind_ok h
          obtain ⟨n', u₂, h₂, k₂⟩ := Step.bind_ok k₁
          obtain ⟨rfl, rfl⟩ := EStateM.Result.ok.inj k₂
          obtain ⟨l, hdrains, rfl⟩ := ih h₂
          exact ⟨q :: l, .next hp h₁ hdrains, rfl⟩

/-- What working off the requests `l` has done to a unit. -/
structure Settles (e : Emitter) (u : CodeUnit) (log l : List (TypeId × FuncId)) (u' : CodeUnit) :
    Prop where
  advances : e.Advances u u'
  logs : u'.Logs (log ++ l)
  widens : u.Extends u'
  demanded : ∀ ty, u'.Asked ty → e.layouts.GlueClosure u.Asked ty

variable {log l : List (TypeId × FuncId)}

theorem settles_defineGlue {q : TypeId × FuncId} {rest : List (TypeId × FuncId)}
    (htidy : u.Tidy e none) (hlogs : u.Logs log) (hp : u.pending = q :: rest)
    (h : (e.defineGlue q.1 q.2).run { u with pending := rest } = .ok () u') :
    e.Settles u log [q] u' := by
  obtain ⟨plan, u₁, f, hplan, hasks, hset⟩ := defineGlue_asks h
  have hq : u.glueFor? q.1 = some q.2 := htidy.requests (by rw [hp]; exact List.mem_cons_self)
  have hlogs₁ := (hlogs.pop hp).asks (htidy.pop hp).bounded hasks.asks
  have hwidens₁ : u.Extends { u with pending := rest } := CodeUnit.extends_of_eq rfl rfl
  refine ⟨advances_defineGlue htidy hp h, hlogs₁.setFunction (by simp) hset,
    (hwidens₁.trans (extends_asks hasks.asks)).trans (CodeUnit.extends_setFunction hset),
    fun ty hty => ?_⟩
  have hty₁ : u₁.Asked ty := by
    obtain ⟨-, hg, -⟩ := CodeUnit.setFunction?_spec hset
    rw [CodeUnit.Asked, CodeUnit.glueFor?, hg] at hty
    exact hty
  rcases hasks.asked hty₁ with hold | ⟨-, r, hr, hdemands⟩
  · exact .asked hold
  · exact .demanded (.asked ⟨q.2, hq⟩) hplan hr hdemands

theorem settles_drains (h : e.Drains u l u') : ∀ {log}, u.Tidy e none → u.Logs log →
    e.Settles u log l u' ∧ u'.pending = [] := by
  induction h with
  | done hp =>
      intro log htidy hlogs
      refine ⟨⟨⟨htidy, .refl _, fun hf => hf⟩, ?_, .refl _, fun ty hty => .asked hty⟩, hp⟩
      rw [List.append_nil]
      exact hlogs
  | next hp hdefine _ ih =>
      intro log htidy hlogs
      have hfirst := settles_defineGlue htidy hlogs hp hdefine
      obtain ⟨hrest, hdone⟩ := ih hfirst.advances.tidy hfirst.logs
      refine ⟨⟨hfirst.advances.trans hrest.advances, ?_, hfirst.widens.trans hrest.widens,
        fun ty hty => (hrest.demanded ty hty).trans hfirst.demanded⟩, hdone⟩
      have hlogs' := hrest.logs
      rw [List.append_assoc] at hlogs'
      exact hlogs'

/-! ## The outcome -/

theorem HasGlue.hasBody {ty : TypeId} {id : FuncId} (h : e.HasGlue u ty id) : u.HasBody id := by
  obtain ⟨plan, u₀, name, d, hplan, hrun, hf, -⟩ := h
  obtain ⟨d₁, rfl, -, hemits⟩ := emits_glueBody hrun
  exact ⟨_, hf.function, isDeclaration_emitted (hemits .unit)⟩

/-- When nothing waits, every glue function has the body of its type. -/
theorem hasGlue_of_done (htidy : u.Tidy e none) (hdone : u.pending = []) {ty : TypeId} {id : FuncId}
    (h : u.glueFor? ty = some id) : e.HasGlue u ty id := by
  rcases htidy.bodies h with hb | hb | hb
  · cases hb
  · rw [hdone] at hb
    cases hb
  · exact hb

/-- When nothing waits, the glue functions are closed under what their plans demand. -/
theorem asked_of_demands (htidy : u.Tidy e none) (hdone : u.pending = []) {ty ty' : TypeId}
    {plan : ReleasePlan} {r : FieldRelease} (h : u.Asked ty) (hplan : e.layouts.plan ty = .ok plan)
    (hr : r ∈ plan) (hdemands : e.layouts.Demands r ty') : u.Asked ty' := by
  obtain ⟨id, hid⟩ := h
  obtain ⟨plan', u₀, name, d, hplan', hrun, -, hkeeps⟩ := hasGlue_of_done htidy hdone hid
  obtain rfl := Except.ok.inj (hplan.symm.trans hplan')
  obtain ⟨d₁, rfl, hserves, -⟩ := emits_glueBody hrun
  exact hdemands.served hplan hr ((hserves r hr).mono hkeeps)

theorem asked_of_closure (htidy : u'.Tidy e none) (hdone : u'.pending = []) (hkeeps : u.Keeps u')
    {ty : TypeId} (h : e.layouts.GlueClosure u.Asked ty) : u'.Asked ty := by
  induction h with
  | asked hty =>
      obtain ⟨id, hid⟩ := hty
      exact ⟨id, hkeeps.glue hid⟩
  | demanded _ hplan hr hdemands ih => exact asked_of_demands htidy hdone ih hplan hr hdemands

/-- The requests that were worked off are those of the functions that have a body since then. -/
theorem mem_drained_iff (htidy : u.Tidy e none) (hlogs : u.Logs log) (h : e.Settles u log l u')
    (hdone : u'.pending = []) {id : FuncId} : id ∈ l.map Prod.snd ↔
      (∃ ty, u'.glueFor? ty = some id) ∧ u'.HasBody id ∧ ¬ u.HasBody id := by
  have hmem : ∀ {ty}, (ty, id) ∈ log ++ l ↔ u'.glueFor? ty = some id := fun {ty} => by
    rw [← h.logs.exact, hdone, List.append_nil]
  have hnodup := h.logs.nodup
  rw [hdone, List.append_nil, List.map_append, List.nodup_append'] at hnodup
  constructor
  · intro hid
    obtain ⟨⟨ty, id'⟩, hq, rfl⟩ := List.mem_map.mp hid
    have hglue := hmem.mp (List.mem_append_right log hq)
    refine ⟨⟨ty, hglue⟩, (hasGlue_of_done h.advances.tidy hdone hglue).hasBody, fun hbody => ?_⟩
    rcases h.widens.glue hglue with hold | hnew
    · rcases List.mem_append.mp (hlogs.exact.mpr hold) with hlog | hpending
      · exact hnodup.2.2 (List.mem_map_of_mem hlog) hid
      · exact hlogs.bodiless hpending hbody
    · obtain ⟨f, hf, -⟩ := hbody
      exact absurd (List.getElem?_eq_some_iff.mp hf).1 (Nat.not_lt.mpr hnew)
  · rintro ⟨⟨ty, hglue⟩, -, hbodiless⟩
    rcases List.mem_append.mp (hmem.mpr hglue) with hlog | hl
    · -- what was in the log before had its body before
      have hold := hlogs.exact.mp (List.mem_append_left u.pending hlog)
      rcases htidy.bodies hold with hb | hb | hb
      · cases hb
      · exact absurd hb (hlogs.not_pending (List.mem_map_of_mem hlog) ty)
      · exact absurd hb.hasBody hbodiless
    · exact List.mem_map_of_mem hl

/-! ## Histories -/

/-- The states of a unit that an emitter works on, each with the requests that were worked off so
far. Calls of the emitter may fail, but not the one that writes the bodies of glue functions. -/
inductive History (e : Emitter) (name : String) : CodeUnit → List (TypeId × FuncId) → Prop where
  | new : History e name (.new name) []
  | external {u : CodeUnit} {log : List (TypeId × FuncId)} (symbol : String)
      (params : List TypeId) (ret : TypeId) : History e name u log →
      History e name (u.declareExternal symbol params ret).2 log
  | function {u : CodeUnit} {log : List (TypeId × FuncId)} (f : Function) :
      History e name u log → History e name (u.addFunction f).2 log
  | call {u : CodeUnit} {log : List (TypeId × FuncId)} (op : Operation) (b : Builder) :
      History e name u log → History e name (Draft.unitAfter ((op.emit e).run ⟨u, b⟩)) log
  | drain {u u' : CodeUnit} {log l : List (TypeId × FuncId)} {n : Nat} : History e name u log →
      e.emitPendingGlue.run u = .ok n u' → e.Drains u l u' → History e name u' (log ++ l)

theorem History.logs {name : String} (h : e.History name u log) : u.Tidy e none ∧ u.Logs log := by
  induction h with
  | new => exact ⟨CodeUnit.tidy_new e name, ⟨by simp [CodeUnit.new, CodeUnit.glueFor?],
      List.nodup_nil, nofun⟩⟩
  | @external u log symbol params ret _ ih =>
      obtain ⟨hf, -, hg, hp⟩ := CodeUnit.declareExternal_spec u symbol params ret
      refine ⟨((Builds.external symbol params ret .refl).advances ih.1).tidy,
        ih.2.of_eq hg hp fun {_ id} _ => ?_⟩
      rw [CodeUnit.function?, hf]
      rfl
  | function f _ ih => exact ⟨ih.1.addFunction f, ih.2.addFunction ih.1.bounded f⟩
  | @call u log op b _ ih =>
      have hasks := ((op.asksOnly e).asks ⟨u, b⟩).asks
      exact ⟨ih.1.asks hasks, ih.2.asks ih.1.bounded hasks⟩
  | drain _ _ hdrains ih =>
      have hsettles := (settles_drains hdrains ih.1 ih.2).1
      exact ⟨hsettles.advances.tidy, hsettles.logs⟩

end Emitter

/-- Writing the bodies of all glue functions that wait comes to an end, which no limit brings about.
If it succeeds, no request is left; every glue function has a body, which was written once since the
unit was new, and different types have different ones; there is glue for the types of the closure
and for no others; and the result is the number of glue functions that have a body since then. -/
theorem glue_worklist {e : Emitter} {name : String} {u : CodeUnit} {log : List (TypeId × FuncId)}
    (h : e.History name u log) :
    (∀ r u', e.emitPendingGlue.run u = .error r u' → r ≠ .abort .endless)
      ∧ (∀ limit, u.pending.length + e.pool.size ≤ limit →
        (e.drainGlue limit).run u = e.emitPendingGlue.run u)
      ∧ ∀ n u', e.emitPendingGlue.run u = .ok n u' →
        u'.pending = []
          ∧ (∃ l, e.Drains u l u' ∧ ∀ ty id, u'.glueFor? ty = some id →
            u'.HasBody id ∧ ((log ++ l).map Prod.snd).count id = 1)
          ∧ (∀ ty ty' id, u'.glueFor? ty = some id → u'.glueFor? ty' = some id → ty = ty')
          ∧ (∀ ty, u'.Asked ty ↔ e.layouts.GlueClosure u.Asked ty)
          ∧ n = {id | (∃ ty, u'.glueFor? ty = some id) ∧ u'.HasBody id ∧ ¬ u.HasBody id}.ncard := by
  obtain ⟨htidy, hlogs⟩ := h.logs
  have hrun : e.emitPendingGlue.run u = (e.drainGlue (u.pending.length + e.pool.size)).run u := rfl
  obtain ⟨hends, hsame⟩ := Emitter.drainGlue_enough (Emitter.room_le (e := e) u)
  rw [hrun]
  refine ⟨hends, hsame, fun n u' hok => ?_⟩
  obtain ⟨l, hdrains, rfl⟩ := Emitter.drains_drainGlue hok
  obtain ⟨hsettles, hdone⟩ := Emitter.settles_drains hdrains htidy hlogs
  have hnodup := hsettles.logs.nodup
  rw [hdone, List.append_nil] at hnodup
  refine ⟨hdone, ⟨l, hdrains, fun ty id hid => ⟨?_, ?_⟩⟩, fun ty ty' id => ?_, fun ty => ?_, ?_⟩
  · exact (Emitter.hasGlue_of_done hsettles.advances.tidy hdone hid).hasBody
  · have hmem := hsettles.logs.exact.mpr hid
    rw [hdone, List.append_nil] at hmem
    exact List.count_eq_one_of_mem hnodup (List.mem_map_of_mem hmem)
  · exact hsettles.advances.tidy.injective
  · exact ⟨hsettles.demanded ty,
      Emitter.asked_of_closure hsettles.advances.tidy hdone hsettles.advances.keeps⟩
  · have hset : {id | (∃ ty, u'.glueFor? ty = some id) ∧ u'.HasBody id ∧ ¬ u.HasBody id} =
        ((l.map Prod.snd).toFinset : Set FuncId) := by
      ext id
      rw [Finset.mem_coe, List.mem_toFinset]
      exact (Emitter.mem_drained_iff htidy hlogs hsettles hdone).symm
    rw [List.map_append, List.nodup_append'] at hnodup
    rw [hset, Set.ncard_coe_finset, List.toFinset_card_of_nodup hnodup.2.1, List.length_map]

/-! ## Records that reach each other -/

namespace Ring

/-- A record owns a second one and holds a third by value; both of these share the first. -/
def pool : Pool :=
  .ofItems .new [.record ⟨⟨0⟩, [⟨⟨1⟩, ⟨18⟩, none⟩, ⟨⟨2⟩, ⟨20⟩, none⟩]⟩,
    .record ⟨⟨3⟩, [⟨⟨4⟩, ⟨19⟩, none⟩]⟩,
    .reference .owning ⟨17⟩, .reference .counted ⟨16⟩, .record ⟨⟨5⟩, [⟨⟨6⟩, ⟨19⟩, none⟩]⟩]

def emitter : Emitter := ⟨⟨pool, .w32⟩, {}⟩

/-- The unit after code that lets go of the contents of the first record. -/
def draft : CodeUnit := Draft.unitAfter
  (((Operation.releaseContents (.const (.usize 0)) ⟨16⟩).emit emitter).run
    ⟨.new "ring", .new "f" [] .unit⟩)

def unit : CodeUnit := Step.after emitter.emitPendingGlue draft

theorem history : emitter.History "ring" draft [] :=
  .call (.releaseContents (.const (.usize 0)) ⟨16⟩) (.new "f" [] .unit) .new

theorem run_draft : emitter.emitPendingGlue.run draft = .ok 3 unit :=
  Step.run_of_result? (by decide +kernel)

end Ring

theorem glue_worklist_ring : Ring.emitter.History "ring" Ring.draft []
    ∧ Ring.emitter.emitPendingGlue.run Ring.draft = .ok 3 Ring.unit ∧ Ring.unit.pending = []
    ∧ (∀ ty, Ring.unit.Asked ty ↔ Ring.emitter.layouts.GlueClosure Ring.draft.Asked ty)
    ∧ 3 = {id | (∃ ty, Ring.unit.glueFor? ty = some id) ∧ Ring.unit.HasBody id
      ∧ ¬ Ring.draft.HasBody id}.ncard := by
  have hworklist := (glue_worklist Ring.history).2.2 3 Ring.unit Ring.run_draft
  exact ⟨Ring.history, Ring.run_draft, hworklist.1, hworklist.2.2.2.1, hworklist.2.2.2.2⟩

end Ownership
