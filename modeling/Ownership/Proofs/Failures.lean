import Ownership.Emit.Scope
import Ownership.Proofs.Progress

/-!
# Calls that fail

A call of the emitter that fails has emitted nothing and asked for
nothing: the function under construction, the unit and the scope are what
they were (`failed_call_traceless`). What can go wrong is found out first.
A call asks for the layout of its type, looks for an open block, and
declares the symbols of the heap, in this order; behind the last of these
there is no way to fail. In particular the contents of a pointee that has
a layout have a release plan, so a release that has started to emit code
comes to its end.
-/

namespace Ownership

/-! ## Emissions that fail before they change anything -/

namespace Emit

variable {α β : Type} {x : Emit α} {f : α → Emit β} {d : Draft}

/-- Started in the draft `d`, an emission that fails with an error has left it as it was. -/
def TracelessAt (x : Emit α) (d : Draft) : Prop :=
  ∀ err d', x.run d = .error (.error err) d' → d' = d

/-- Where a block is open, the emission does not fail with an error. -/
def Certain (x : Emit α) : Prop :=
  ∀ d : Draft, d.builder.IsOpen → ∀ err d', x.run d ≠ .error (.error err) d'

theorem Succeeds.certain (h : Succeeds x) : Certain x := by
  intro d hopen err d' hrun
  obtain ⟨a, d₁, hok, -⟩ := h d hopen
  rw [hok] at hrun
  cases hrun

theorem Certain.tracelessAt (h : Certain x) (hopen : d.builder.IsOpen) : TracelessAt x d :=
  fun err d' hrun => absurd hrun (h d hopen err d')

theorem certain_ofAbort_bind {y : Except Abort α} (hf : ∀ a, Certain (f a)) :
    Certain (Step.ofAbort y >>= f) := by
  cases y with
  | ok a => exact hf a
  | error a =>
      intro d _ err d' hrun
      cases hrun

theorem tracelessAt_pure (a : α) : TracelessAt (pure a) d := by
  intro err d' hrun
  cases hrun

theorem tracelessAt_fail_bind (err : EmitError) :
    TracelessAt ((Step.fail err : Emit α) >>= f) d := by
  intro err' d' hrun
  exact (EStateM.Result.error.inj hrun).2.symm

theorem tracelessAt_layout_bind {y : Except (Stop LayoutError) α}
    (hf : ∀ a, y = .ok a → TracelessAt (f a) d) : TracelessAt (layout y >>= f) d := by
  cases y with
  | ok a => exact hf a rfl
  | error r =>
      intro err d' hrun
      exact (EStateM.Result.error.inj hrun).2.symm

theorem tracelessAt_require_bind {ok : Bool} {err : EmitError} {f : Unit → Emit β}
    (hf : TracelessAt (f ()) d) : TracelessAt (Step.require ok err >>= f) d := by
  cases ok with
  | true => exact hf
  | false => exact tracelessAt_fail_bind err

/-- Behind the look for an open block there is one. -/
theorem tracelessAt_requirePoint_bind {f : Unit → Emit β}
    (hf : d.builder.IsOpen → TracelessAt (f ()) d) : TracelessAt (requirePoint >>= f) d := by
  cases hpoint : d.builder.insertionBlock? with
  | none =>
      have hfail : requirePoint.run d = .error (.error .noInsertionPoint) d := by
        change (Step.require d.builder.insertionBlock?.isSome _ : Emit Unit).run d = _
        rw [hpoint]
        rfl
      intro err d' hrun
      rw [Step.run_bind_error hfail] at hrun
      exact (EStateM.Result.error.inj hrun).2.symm
  | some id =>
      have hok : requirePoint.run d = .ok () d := by
        change (Step.require d.builder.insertionBlock?.isSome _ : Emit Unit).run d = _
        rw [hpoint]
        rfl
      obtain ⟨n, hopen⟩ := Builder.open_of_insertionBlock? hpoint
      intro err d' hrun
      rw [Step.run_bind_ok hok] at hrun
      exact hf hopen.isOpen err d' hrun

end Emit

namespace Emitter

open Emit

variable {e : Emitter} {d : Draft} {β : Type}

theorem tracelessAt_failShowing_bind {α : Type} {ty : TypeId} {err : String → EmitError}
    {f : α → Emit β} : TracelessAt (e.failShowing ty err >>= f) d := by
  unfold failShowing
  cases e.pool.display ty with
  | ok text =>
      intro err' d' hrun
      exact (EStateM.Result.error.inj hrun).2.symm
  | error a =>
      intro err' d' hrun
      cases hrun

theorem tracelessAt_requireShowing_bind {ok : Bool} {ty : TypeId} {err : String → EmitError}
    {f : Unit → Emit β} (hf : TracelessAt (f ()) d) :
    TracelessAt (e.requireShowing ok ty err >>= f) d := by
  cases ok with
  | true => exact hf
  | false => exact tracelessAt_failShowing_bind

/-- The symbols of the heap are declared only where nothing can fail any more. -/
theorem tracelessAt_requireHeap_bind {f : HeapPrimitives → Emit β} (hopen : d.builder.IsOpen)
    (hf : ∀ heap, Certain (f heap)) : TracelessAt (e.requireHeap >>= f) d := by
  cases hu : d.unit.requireHeap? e.config.target with
  | none =>
      have hfail : e.requireHeap.run d = .error (.error .heapUnavailable) d := by
        simp only [requireHeap, EStateM.run_bind, EStateM.run_get, hu]
        rfl
      intro err d' hrun
      rw [Step.run_bind_error hfail] at hrun
      exact (EStateM.Result.error.inj hrun).2.symm
  | some p =>
      have hok : e.requireHeap.run d = .ok p.1 { d with unit := p.2 } := by
        simp only [requireHeap, EStateM.run_bind, EStateM.run_get, hu]
        rfl
      intro err d' hrun
      rw [Step.run_bind_ok hok] at hrun
      exact absurd hrun (hf p.1 { d with unit := p.2 } hopen err d')

/-! ## The calls -/

theorem tracelessAt_releaseContents (base : Operand) (ty : TypeId) :
    TracelessAt (e.releaseContents base ty) d := by
  refine tracelessAt_layout_bind fun plan _ => ?_
  cases plan.isTrivial with
  | true => exact tracelessAt_pure ()
  | false =>
      refine tracelessAt_requirePoint_bind fun _ err d' hrun => ?_
      cases hrun

theorem succeeds_increaseCount (layout : RefLayout) (reference : Operand) (delta : Int64) :
    Succeeds (e.increaseCount layout reference delta) := by
  refine (succeeds_loadCounter layout reference).bind fun ids => ?_
  refine (succeeds_define fun _ => rfl).bind fun new => ?_
  exact succeeds_checked (succeeds_push fun _ => rfl)

theorem tracelessAt_adjustCount (reference : Operand) (delta : Int64) (ty : TypeId) :
    TracelessAt (e.adjustCount reference delta ty) d := by
  refine tracelessAt_require_bind ?_
  rw [countedLayout, bind_assoc]
  refine tracelessAt_layout_bind fun layout hl => ?_
  obtain ⟨-, hsize, -⟩ := Layouts.ref_eq_ok_iff.mp hl
  split
  · rw [pure_bind]
    refine tracelessAt_requirePoint_bind fun hopen => ?_
    split
    · exact tracelessAt_requireHeap_bind hopen fun heap =>
        (succeeds_decreaseWith hsize heap reference delta).certain
    · exact (succeeds_increaseCount layout reference delta).certain.tracelessAt hopen
  · exact tracelessAt_failShowing_bind
  · exact tracelessAt_failShowing_bind

theorem tracelessAt_release (reference : Operand) (ty : TypeId) :
    TracelessAt (e.release reference ty) d := by
  refine tracelessAt_layout_bind fun layout hl => ?_
  obtain ⟨-, hsize, -⟩ := Layouts.ref_eq_ok_iff.mp hl
  split
  · refine tracelessAt_requirePoint_bind fun hopen => ?_
    refine tracelessAt_requireHeap_bind hopen fun heap => Succeeds.certain ?_
    exact (succeeds_releaseContents hsize reference).bind fun _ => succeeds_push fun _ => rfl
  · exact tracelessAt_adjustCount reference (-1) ty
  · exact tracelessAt_pure ()

theorem succeeds_startCounter (layout : RefLayout) (block : ValueId) :
    Succeeds (e.startCounter layout block) := by
  unfold startCounter
  split
  · exact (succeeds_push fun _ => rfl).bind fun _ => succeeds_define fun _ => rfl
  · exact succeeds_pure block

theorem tracelessAt_allocate (ty : TypeId) (v : Operand) :
    TracelessAt (e.allocate ty (.value v)) d := by
  refine tracelessAt_layout_bind fun layout _ => tracelessAt_requireShowing_bind ?_
  refine tracelessAt_requirePoint_bind fun hopen => ?_
  refine tracelessAt_requireHeap_bind hopen fun heap => certain_ofAbort_bind fun size => ?_
  refine Succeeds.certain ?_
  refine (succeeds_define fun _ => rfl).bind fun block => ?_
  refine (succeeds_startCounter layout block).bind fun payload => ?_
  refine (succeeds_define fun _ => rfl).bind fun reference => ?_
  exact (succeeds_push fun _ => rfl).bind fun _ => succeeds_pure reference

/-- Where a block is open, only the question how a variable is held can fail. -/
theorem tracelessAt_custody_bind {β : Type} {k : Custody → Emit β} (ty : TypeId)
    (hopen : d.builder.IsOpen) (hk : ∀ custody, Succeeds (k custody)) :
    TracelessAt (e.custody ty >>= k) d := by
  unfold custody
  split
  · exact (hk _).certain.tracelessAt hopen
  · rw [bind_assoc]
    exact tracelessAt_layout_bind fun plan _ => (hk _).certain.tracelessAt hopen
  · exact (hk _).certain.tracelessAt hopen

theorem tracelessAt_declareLocal (scope : Scope) (name : Name) (ty : TypeId)
    (init : Option Operand) : TracelessAt (e.declareLocal scope name ty init) d := by
  refine tracelessAt_requirePoint_bind fun hopen => ?_
  refine tracelessAt_custody_bind ty hopen fun custody => ?_
  refine (succeeds_define fun _ => rfl).bind fun slot => ?_
  cases init with
  | some v => exact (succeeds_push fun _ => rfl).bind fun _ => succeeds_pure _
  | none => exact succeeds_pure _

end Emitter

/-! ## A client's desk -/

/-- What a client works on: a draft, and the scope in which it declares variables. -/
structure Desk where
  draft : Draft
  scope : Scope
  deriving DecidableEq

/-- A call of the emitter with one value or reference. -/
inductive Call where
  | allocate (ty : TypeId) (value : Operand)
  | adjustCount (reference : Operand) (delta : Int64) (ty : TypeId)
  | release (reference : Operand) (ty : TypeId)
  | releaseContents (base : Operand) (ty : TypeId)
  | declareLocal (name : Name) (ty : TypeId) (init : Option Operand)

namespace Call

/-- What the call emits; the result is the scope behind it. -/
def emit (e : Emitter) (scope : Scope) : Call → Emit Scope
  | .allocate ty v => do
    let _ ← e.allocate ty (.value v)
    return scope
  | .adjustCount reference delta ty => do
    e.adjustCount reference delta ty
    return scope
  | .release reference ty => do
    e.release reference ty
    return scope
  | .releaseContents base ty => do
    e.releaseContents base ty
    return scope
  | .declareLocal name ty init => do
    let declared ← e.declareLocal scope name ty init
    return declared.2

/-- The call on a desk. The scope is another one only if the call succeeds. -/
def perform (e : Emitter) (c : Call) : Step EmitError Desk Unit := fun desk =>
  match (c.emit e desk.scope).run desk.draft with
  | .ok scope draft => .ok () ⟨draft, scope⟩
  | .error s draft => .error s ⟨draft, desk.scope⟩

/-- A call that fails with an error leaves the draft as it was. -/
theorem tracelessAt_emit (e : Emitter) (scope : Scope) (c : Call) (d : Draft) :
    Emit.TracelessAt (c.emit e scope) d := by
  have hdone : ∀ {α : Type} {x : Emit α} {g : α → Scope}, Emit.TracelessAt x d →
      Emit.TracelessAt (x >>= fun a => pure (g a)) d := by
    intro α x g hx err d' hrun
    cases hfirst : x.run d with
    | ok a d₁ =>
        rw [Step.run_bind_ok hfirst] at hrun
        cases hrun
    | error r d₁ =>
        rw [Step.run_bind_error hfirst] at hrun
        cases hrun
        exact hx err d' hfirst
  cases c with
  | allocate ty v => exact hdone (Emitter.tracelessAt_allocate ty v)
  | adjustCount reference delta ty =>
      exact hdone (Emitter.tracelessAt_adjustCount reference delta ty)
  | release reference ty => exact hdone (Emitter.tracelessAt_release reference ty)
  | releaseContents base ty => exact hdone (Emitter.tracelessAt_releaseContents base ty)
  | declareLocal name ty init => exact hdone (Emitter.tracelessAt_declareLocal scope name ty init)

end Call

/-- A call that fails with an error leaves the desk as it was: the blocks, instructions and values
of the function, the place at which it grows and the count of what was dropped, the symbols,
functions and requests of the unit, and the scope. -/
theorem failed_call_traceless (e : Emitter) (c : Call) (desk desk' : Desk) (err : EmitError)
    (h : (c.perform e).run desk = .error (.error err) desk') : desk' = desk := by
  change c.perform e desk = _ at h
  unfold Call.perform at h
  cases hrun : (c.emit e desk.scope).run desk.draft with
  | ok scope draft =>
      rw [hrun] at h
      cases h
  | error s draft =>
      rw [hrun] at h
      obtain ⟨rfl, rfl⟩ := EStateM.Result.error.inj h
      rw [c.tracelessAt_emit e desk.scope desk.draft err draft hrun]

namespace Refusal

/-- A record with a shared reference to its own kind, and a record that contains itself. -/
def pool : Pool :=
  .ofItems .new [.record ⟨⟨0⟩, [⟨⟨1⟩, ⟨17⟩, none⟩]⟩, .reference .counted ⟨16⟩,
    .record ⟨⟨2⟩, [⟨⟨3⟩, .int, none⟩, ⟨⟨4⟩, ⟨18⟩, none⟩]⟩]

/-- There is no heap. -/
def emitter : Emitter := ⟨⟨pool, .w64⟩, { target := .freestanding }⟩

/-- A function with one instruction in it. -/
def desk : Desk where
  draft := ⟨.new "unit", ((Builder.new "f" [⟨17⟩] .unit).alloca .int ⟨5⟩).2⟩
  scope := .empty

end Refusal

/-- The release needs a heap, and there is none; the variable has no size. -/
theorem failed_call_traceless_refused :
    (∃ desk', ((Call.release (.value ⟨0⟩) ⟨17⟩).perform Refusal.emitter).run Refusal.desk
        = .error (.error .heapUnavailable) desk' ∧ desk' = Refusal.desk)
    ∧ ∃ desk', ((Call.declareLocal ⟨6⟩ ⟨18⟩ none).perform Refusal.emitter).run Refusal.desk
        = .error (.error (.layout (.infiniteSize ⟨18⟩))) desk' ∧ desk' = Refusal.desk := by
  have hrelease : ((Call.release (.value ⟨0⟩) ⟨17⟩).perform Refusal.emitter).run Refusal.desk
      = .error (.error .heapUnavailable) _ := rfl
  have hlocal : ((Call.declareLocal ⟨6⟩ ⟨18⟩ none).perform Refusal.emitter).run Refusal.desk
      = .error (.error (.layout (.infiniteSize ⟨18⟩))) _ := rfl
  exact ⟨⟨_, hrelease, failed_call_traceless _ _ _ _ _ hrelease⟩,
    ⟨_, hlocal, failed_call_traceless _ _ _ _ _ hlocal⟩⟩

end Ownership
