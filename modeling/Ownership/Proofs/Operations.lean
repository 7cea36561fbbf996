import Ownership.Emit.Scope
import Ownership.Proofs.Literals
import Ownership.Proofs.Requests

/-!
# Operations of an emitter

An `Operation` is a call that a client makes while it builds a function.
Whatever the operands are, and whether it succeeds or not, all that it may
have done to the unit is to ask for the symbols of the heap and for glue
functions of types with references inside; and it comes to an end if the
types that its errors show have a text (`Operation.asksOnly`).
-/

namespace Ownership

/-- A call of an emitter. -/
inductive Operation where
  | allocate (ty : TypeId) (init : Initial)
  | adjustCount (reference : Operand) (delta : Int64) (ty : TypeId)
  | release (reference : Operand) (ty : TypeId)
  | releaseContents (base : Operand) (ty : TypeId)
  | declareLocal (scope : Scope) (name : Name) (ty : TypeId) (init : Option Operand)
  | closeScope (scope : Scope)
  | closeScopes (stack : ScopeStack) (depth : Nat)

/-- The stack slots of the variables of a scope. -/
def Scope.slots (s : Scope) : List ValueId := s.vars.map Variable.slot

/-- What the call emits; the result are the values that it hands out. -/
def Operation.emit (e : Emitter) : Operation → Emit (List ValueId)
  | .allocate ty init => do
    let reference ← e.allocate ty init
    return [reference]
  | .adjustCount reference delta ty => do
    e.adjustCount reference delta ty
    return []
  | .release reference ty => do
    e.release reference ty
    return []
  | .releaseContents base ty => do
    e.releaseContents base ty
    return []
  | .declareLocal scope name ty init => do
    let declared ← e.declareLocal scope name ty init
    return declared.2.slots
  | .closeScope scope => do
    e.closeScope scope
    return []
  | .closeScopes stack depth => do
    e.closeScopes stack depth
    return []

/-- Values of the type have references inside that are let go of with them. -/
def Layouts.HasContents (L : Layouts) (ty : TypeId) : Prop :=
  ∃ plan, L.plan ty = .ok plan ∧ plan.isTrivial = false

/-! ## What an emission asks for -/

/-- What code may have asked a unit for, if it asks for glue of `allowed` types only. -/
inductive Emitter.AsksFor (e : Emitter) (allowed : TypeId → Prop) (u₀ : CodeUnit) :
    CodeUnit → Prop where
  | refl : AsksFor e allowed u₀ u₀
  | heap {u u' : CodeUnit} {heap : HeapPrimitives} : AsksFor e allowed u₀ u →
      u.requireHeap? e.config.target = some (heap, u') → AsksFor e allowed u₀ u'
  | glue {u : CodeUnit} {ty : TypeId} (name : String) : AsksFor e allowed u₀ u → allowed ty →
      AsksFor e allowed u₀ (u.requestGlue ty name).2

namespace Emitter.AsksFor

variable {e : Emitter} {allowed allowed' : TypeId → Prop} {u₀ u₁ u₂ : CodeUnit}

theorem trans (h : e.AsksFor allowed u₀ u₁) (h' : e.AsksFor allowed u₁ u₂) :
    e.AsksFor allowed u₀ u₂ := by
  induction h' with
  | refl => exact h
  | heap _ hu ih => exact ih.heap hu
  | glue name _ hty ih => exact ih.glue name hty

theorem mono (h : e.AsksFor allowed u₀ u₁) (hallowed : ∀ ty, allowed ty → allowed' ty) :
    e.AsksFor allowed' u₀ u₁ := by
  induction h with
  | refl => exact .refl
  | heap _ hu ih => exact ih.heap hu
  | glue name _ hty ih => exact ih.glue name (hallowed _ hty)

theorem asks (h : e.AsksFor allowed u₀ u₁) : e.Asks u₀ u₁ := by
  induction h with
  | refl => exact .refl
  | heap _ hu ih => exact ih.heap hu
  | glue name _ _ ih => exact ih.glue _ name

end Emitter.AsksFor

/-- The unit that an emission leaves behind, however it ends. -/
def Draft.unitAfter {α : Type} : EStateM.Result (Stop EmitError) Draft α → CodeUnit
  | .ok _ d => d.unit
  | .error _ d => d.unit

namespace Emit

variable {α β : Type} {e : Emitter} {allowed shown : TypeId → Prop} {x : Emit α} {f : α → Emit β}

/-- However the emission ends, it has asked its unit for the heap and for glue of `allowed` types
only; and it does end, as only types that are `shown` are in its errors. -/
structure AsksOnly (e : Emitter) (allowed shown : TypeId → Prop) (x : Emit α) : Prop where
  asks : ∀ d, e.AsksFor allowed d.unit (Draft.unitAfter (x.run d))
  ends : (∀ ty, shown ty → e.pool.Ends ty) → Step.Stops (· ≠ .abort .endless) x

theorem AsksOnly.bind (hx : AsksOnly e allowed shown x) (hf : ∀ a, AsksOnly e allowed shown (f a)) :
    AsksOnly e allowed shown (x >>= f) := by
  refine ⟨fun d => ?_, fun hshown => (hx.ends hshown).bind fun a => (hf a).ends hshown⟩
  have hfirst := hx.asks d
  rw [EStateM.run_bind]
  split
  · next a d₁ hrun =>
      rw [hrun] at hfirst
      exact hfirst.trans ((hf a).asks d₁)
  · next s d₁ hrun =>
      rw [hrun] at hfirst
      exact hfirst

/-- An emission that leaves the unit alone. -/
theorem asksOnly_of_unit (hunit : ∀ d, Draft.unitAfter (x.run d) = d.unit)
    (hends : Step.Stops (· ≠ .abort .endless) x) : AsksOnly e allowed shown x :=
  ⟨fun d => hunit d ▸ .refl, fun _ => hends⟩

theorem asksOnly_pure (a : α) : AsksOnly e allowed shown (pure a : Emit α) :=
  asksOnly_of_unit (fun _ => rfl) (Step.stops_pure a)

theorem asksOnly_get : AsksOnly e allowed shown (get : Emit Draft) :=
  asksOnly_of_unit (fun _ => rfl) Step.stops_get

theorem asksOnly_fail (err : EmitError) : AsksOnly e allowed shown (Step.fail err : Emit α) :=
  asksOnly_of_unit (fun _ => rfl) (Step.stops_throw (by nofun))

theorem asksOnly_require (ok : Bool) (err : EmitError) :
    AsksOnly e allowed shown (Step.require ok err : Emit Unit) := by
  unfold Step.require
  split
  · exact asksOnly_pure ()
  · exact asksOnly_fail err

theorem asksOnly_build (g : Builder → α × Builder) : AsksOnly e allowed shown (build g) :=
  asksOnly_of_unit (fun _ => rfl) (Step.stops_of_ok fun d => ⟨_, _, run_build g d⟩)

theorem asksOnly_edit (g : Builder → Builder) : AsksOnly e allowed shown (edit g) :=
  asksOnly_of_unit (fun _ => rfl) (Step.stops_of_ok fun d => ⟨_, _, run_edit g d⟩)

theorem asksOnly_moveTo (id : BlockId) : AsksOnly e allowed shown (moveTo id) := by
  refine asksOnly_of_unit (fun d => ?_) fun d d' r hrun => ?_
  · rw [run_moveTo]
    split <;> rfl
  · rw [run_moveTo] at hrun
    split at hrun
    · cases hrun
    · obtain ⟨rfl, -⟩ := EStateM.Result.error.inj hrun
      decide

/-- The answer of a layout query, and what is done with it. -/
theorem asksOnly_layout_bind {y : Except (Stop LayoutError) α} (hy : ∀ r, y = .error r → r.Sized)
    (hf : ∀ a, y = .ok a → AsksOnly e allowed shown (f a)) :
    AsksOnly e allowed shown (layout y >>= f) := by
  cases y with
  | ok a => exact hf a rfl
  | error r =>
      refine asksOnly_of_unit (fun _ => rfl) fun d d' r' hrun => ?_
      obtain ⟨rfl, -⟩ := EStateM.Result.error.inj hrun
      have hr := hy r rfl
      cases r with
      | error err => nofun
      | abort a =>
          obtain rfl : a = .overflow := hr
          nofun

theorem asksOnly_ofAbort {y : Except Abort α} (hy : y ≠ .error .endless) :
    AsksOnly e allowed shown (Step.ofAbort y : Emit α) := by
  refine asksOnly_of_unit (fun _ => ?_) (Step.stops_ofAbort fun a ha => ?_)
  · cases y <;> rfl
  · rintro ⟨⟩
    exact hy ha

theorem asksOnly_forM {g : α → Emit Unit} {as : List α}
    (h : ∀ a ∈ as, AsksOnly e allowed shown (g a)) : AsksOnly e allowed shown (as.forM g) := by
  induction as with
  | nil => exact asksOnly_pure ()
  | cons a as ih =>
      exact (h a List.mem_cons_self).bind fun _ => ih fun b hb => h b (List.mem_cons_of_mem a hb)

theorem asksOnly_requirePoint : AsksOnly e allowed shown requirePoint :=
  asksOnly_get.bind fun _ => asksOnly_require _ _

theorem asksOnly_trapIf (cond : Operand) (cause : TrapCause) (label : String) :
    AsksOnly e allowed shown (trapIf cond cause label) :=
  (asksOnly_build _).bind fun _ => (asksOnly_build _).bind fun _ => (asksOnly_edit _).bind fun _ =>
    (asksOnly_moveTo _).bind fun _ => (asksOnly_edit _).bind fun _ => asksOnly_moveTo _

end Emit

/-! ## The operations of references -/

namespace Emitter

open Emit

variable {e : Emitter} {allowed shown : TypeId → Prop}

/-- An error that shows a type ends the emission, if the type can be shown. -/
theorem asksOnly_failShowing_bind {α β : Type} {ty : TypeId} {err : String → EmitError}
    {f : α → Emit β} (hty : shown ty) : AsksOnly e allowed shown (e.failShowing ty err >>= f) := by
  unfold failShowing
  cases htext : e.pool.display ty with
  | ok text =>
      refine asksOnly_of_unit (fun _ => rfl) fun d d' r hrun => ?_
      exact (EStateM.Result.error.inj hrun).1 ▸ by nofun
  | error a =>
      exact ⟨fun _ => .refl, fun hshown =>
        absurd (hshown ty hty) (Pool.display_eq_error_iff.mp htext).2⟩

theorem asksOnly_requireShowing {ty : TypeId} {err : String → EmitError} (ok : Bool)
    (hty : shown ty) : AsksOnly e allowed shown (e.requireShowing ok ty err) := by
  unfold requireShowing
  split
  · exact asksOnly_pure ()
  · rw [← bind_pure (e.failShowing ty err)]
    exact asksOnly_failShowing_bind hty

theorem asksOnly_requireHeap : AsksOnly e allowed shown e.requireHeap := by
  refine ⟨fun d => ?_, fun _ => ?_⟩
  · unfold requireHeap
    rw [EStateM.run_bind, EStateM.run_get]
    cases hu : d.unit.requireHeap? e.config.target with
    | none =>
        simp only [hu]
        exact .refl
    | some p =>
        simp only [hu]
        exact .heap .refl hu
  · refine Step.stops_get.bind fun d => ?_
    split
    · exact (Step.stops_set _).bind fun _ => Step.stops_pure _
    · exact Step.stops_throw (by nofun)

theorem asksOnly_releaseContents {ty : TypeId} (base : Operand)
    (hty : e.layouts.HasContents ty → allowed ty) :
    AsksOnly e allowed shown (e.releaseContents base ty) := by
  refine asksOnly_layout_bind (fun _ h => Layouts.plan_error h) fun plan hplan => ?_
  split
  · exact asksOnly_pure ()
  · next htrivial =>
      refine asksOnly_requirePoint.bind fun _ => ⟨fun d => ?_, fun _ => ?_⟩
      · have hallowed : allowed ty := hty ⟨plan, hplan, Bool.eq_false_iff.mpr htrivial⟩
        exact .glue (e.glueName ty) .refl hallowed
      · exact Step.stops_get.bind fun d => (Step.stops_set _).bind fun _ =>
          Step.stops_of_ok fun d => ⟨_, _, run_edit _ d⟩

theorem asksOnly_loadCounter (layout : RefLayout) (reference : Operand) :
    AsksOnly e allowed shown (loadCounter layout reference) :=
  (asksOnly_build _).bind fun _ => (asksOnly_build _).bind fun _ => asksOnly_pure _

/-- A comparison and a trap behind it, where counts are checked, and what follows. -/
theorem asksOnly_checked {β : Type} {lhs rhs : Operand} {cause : TrapCause} {label : String}
    {k : Unit → Emit β} (hk : AsksOnly e allowed shown (k ())) :
    AsksOnly e allowed shown (if e.config.checks = .trap then do
        let bad ← Emit.build (·.cmp .lt .usize lhs rhs)
        let r ← Emit.trapIf (.value bad) cause label
        k r
      else k ()) := by
  split
  · exact (asksOnly_build _).bind fun _ => (asksOnly_trapIf _ _ _).bind fun _ => hk
  · exact hk

theorem asksOnly_decreaseCount {layout : RefLayout} (reference : Operand) (delta : Int64)
    (hty : e.layouts.HasContents layout.pointee → allowed layout.pointee) :
    AsksOnly e allowed shown (e.decreaseCount layout reference delta) := by
  refine asksOnly_requireHeap.bind fun heap => (asksOnly_loadCounter _ _).bind fun ids => ?_
  refine asksOnly_checked ((asksOnly_build _).bind fun new => (asksOnly_edit _).bind fun _ => ?_)
  refine (asksOnly_build _).bind fun _ => (asksOnly_build _).bind fun _ =>
    (asksOnly_build _).bind fun _ => (asksOnly_edit _).bind fun _ =>
    (asksOnly_moveTo _).bind fun _ => (asksOnly_releaseContents reference hty).bind fun _ => ?_
  exact (asksOnly_edit _).bind fun _ => (asksOnly_edit _).bind fun _ => asksOnly_moveTo _

theorem asksOnly_increaseCount (layout : RefLayout) (reference : Operand) (delta : Int64) :
    AsksOnly e allowed shown (e.increaseCount layout reference delta) :=
  (asksOnly_loadCounter _ _).bind fun _ => (asksOnly_build _).bind fun _ =>
    asksOnly_checked (asksOnly_edit _)

theorem asksOnly_adjustCount {ty : TypeId} (reference : Operand) (delta : Int64)
    (hty : ∀ layout, e.layouts.ref ty = .ok layout → e.layouts.HasContents layout.pointee →
      allowed layout.pointee)
    (hshown : ∀ layout, e.layouts.ref ty = .ok layout → layout.region ≠ .counted → shown ty) :
    AsksOnly e allowed shown (e.adjustCount reference delta ty) := by
  unfold adjustCount countedLayout
  refine (asksOnly_require _ _).bind fun _ => ?_
  -- what is found out about the type is needed behind the check of its region
  rw [bind_assoc]
  refine asksOnly_layout_bind (fun _ h => Layouts.ref_error h) fun layout hl => ?_
  split
  · rw [pure_bind]
    refine asksOnly_requirePoint.bind fun _ => ?_
    split
    · exact asksOnly_decreaseCount reference delta (hty layout hl)
    · exact asksOnly_increaseCount layout reference delta
  · next hregion => exact asksOnly_failShowing_bind (hshown layout hl (by simp [hregion]))
  · next hregion => exact asksOnly_failShowing_bind (hshown layout hl (by simp [hregion]))

theorem asksOnly_release {ty : TypeId} (reference : Operand)
    (hty : ∀ layout, e.layouts.ref ty = .ok layout → e.layouts.HasContents layout.pointee →
      allowed layout.pointee) :
    AsksOnly e allowed shown (e.release reference ty) := by
  refine asksOnly_layout_bind (fun _ h => Layouts.ref_error h) fun layout hl => ?_
  split
  · exact asksOnly_requirePoint.bind fun _ => asksOnly_requireHeap.bind fun heap =>
      (asksOnly_releaseContents reference (hty layout hl)).bind fun _ => asksOnly_edit _
  · next hregion =>
      -- a counted reference is adjusted without an error about its region
      refine asksOnly_adjustCount reference (-1) hty fun layout' hl' hne => absurd ?_ hne
      rw [← Except.ok.inj (hl.symm.trans hl')]
      exact hregion
  · exact asksOnly_pure ()

theorem asksOnly_checkLiteral (record : TypeId) (given : List TypeId) (hshown : ∀ ty, shown ty) :
    AsksOnly e allowed shown (Step.lift .literal (e.pool.checkLiteral record given) :
      Emit (List FieldSource)) := by
  cases hcheck : e.pool.checkLiteral record given with
  | ok sources => exact asksOnly_pure sources
  | error s =>
      refine ⟨fun _ => .refl, fun hends => Step.stops_throw ?_⟩
      cases s with
      | error err => nofun
      | abort a =>
          obtain ⟨-, flaw, -, ty, -, hloop⟩ := Pool.checkLiteral_abort_iff.mp hcheck
          exact absurd (hends ty (hshown ty)) hloop

theorem asksOnly_storeLiteral (base : ValueId) (record : TypeId) (vs : List Operand)
    (hshown : ∀ ty, shown ty) : AsksOnly e allowed shown (e.storeLiteral base record vs) := by
  refine asksOnly_get.bind fun d => (asksOnly_checkLiteral _ _ hshown).bind fun sources => ?_
  refine asksOnly_layout_bind (fun _ h => Layouts.record_error h) fun layout _ => ?_
  refine asksOnly_forM fun entry _ => ?_
  refine (asksOnly_ofAbort ?_).bind fun v => (asksOnly_build _).bind fun _ => asksOnly_edit _
  unfold fieldOperand
  split
  · split <;> nofun
  · nofun

theorem asksOnly_allocate (ty : TypeId) (init : Initial) (hshown : ∀ ty, shown ty) :
    AsksOnly e allowed shown (e.allocate ty init) := by
  refine asksOnly_layout_bind (fun _ h => Layouts.ref_error h) fun layout _ => ?_
  refine (asksOnly_requireShowing _ (hshown ty)).bind fun _ => asksOnly_requirePoint.bind fun _ =>
    asksOnly_requireHeap.bind fun heap => (asksOnly_ofAbort ?_).bind fun size =>
    (asksOnly_build _).bind fun block => ?_
  · intro hendless
    cases addSize_error hendless
  · have hstart : AsksOnly e allowed shown (e.startCounter layout block) := by
      unfold startCounter
      split
      · exact (asksOnly_edit _).bind fun _ => asksOnly_build _
      · exact asksOnly_pure _
    refine hstart.bind fun payload => (asksOnly_build _).bind fun reference => ?_
    cases init with
    | value v => exact (asksOnly_edit _).bind fun _ => asksOnly_pure _
    | fields vs => exact (asksOnly_storeLiteral _ _ vs hshown).bind fun _ => asksOnly_pure _

/-! ## The operations of scopes -/

theorem asksOnly_declareLocal (scope : Scope) (name : Name) (ty : TypeId) (init : Option Operand) :
    AsksOnly e allowed shown (e.declareLocal scope name ty init) := by
  have hcustody : AsksOnly e allowed shown (e.custody ty) := by
    unfold custody
    split
    · exact asksOnly_pure _
    · exact asksOnly_layout_bind (fun _ h => Layouts.plan_error h) fun plan _ => asksOnly_pure _
    · exact asksOnly_pure _
  refine asksOnly_requirePoint.bind fun _ => hcustody.bind fun custody =>
    (asksOnly_build _).bind fun slot => ?_
  cases init with
  | some v => exact (asksOnly_edit _).bind fun _ => asksOnly_pure _
  | none => exact asksOnly_pure _

theorem asksOnly_closeScope (scope : Scope) :
    AsksOnly e e.layouts.HasContents shown (e.closeScope scope) := by
  refine asksOnly_forM fun v _ => ?_
  unfold releaseVariable
  split
  · exact asksOnly_releaseContents _ id
  · exact (asksOnly_build _).bind fun held => asksOnly_release _ fun _ _ h => h

end Emitter

/-- Whatever an operation is called with, and however it ends, all that it did to the unit is to ask
for the heap and for glue of types with references inside; and it does end. -/
theorem Operation.asksOnly (e : Emitter) (op : Operation) :
    Emit.AsksOnly e e.layouts.HasContents (fun _ => True) (op.emit e) := by
  cases op with
  | allocate ty init => exact (Emitter.asksOnly_allocate ty init fun _ => trivial).bind fun _ =>
      Emit.asksOnly_pure _
  | adjustCount reference delta ty =>
      refine (Emitter.asksOnly_adjustCount reference delta ?_ fun _ _ _ => trivial).bind fun _ =>
        Emit.asksOnly_pure _
      exact fun _ _ h => h
  | release reference ty =>
      exact (Emitter.asksOnly_release reference fun _ _ h => h).bind fun _ => Emit.asksOnly_pure _
  | releaseContents base ty =>
      exact (Emitter.asksOnly_releaseContents base id).bind fun _ => Emit.asksOnly_pure _
  | declareLocal scope name ty init =>
      exact (Emitter.asksOnly_declareLocal scope name ty init).bind fun _ => Emit.asksOnly_pure _
  | closeScope scope =>
      exact (Emitter.asksOnly_closeScope scope).bind fun _ => Emit.asksOnly_pure _
  | closeScopes stack depth =>
      exact (Emit.asksOnly_forM fun scope _ => Emitter.asksOnly_closeScope scope).bind fun _ =>
        Emit.asksOnly_pure _

end Ownership
