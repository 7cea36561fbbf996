import Ownership.Proofs.Actions
import Ownership.Proofs.Geometry

/-!
# Where code can be emitted

With a block to write to, a target that has a heap and types that have
layouts, code that lets go of references can always be emitted, and
afterwards there is again a block to write to (`Emitter.succeeds_release`,
`Emitter.succeeds_releaseContents`).
-/

namespace Ownership

namespace Emit

variable {α β : Type}

/-- Where a block is open, `x` is emitted and leaves a block open. -/
def Succeeds (x : Emit α) : Prop :=
  ∀ d : Draft, d.builder.IsOpen → ∃ a d', x.run d = .ok a d' ∧ d'.builder.IsOpen

theorem succeeds_pure (a : α) : Succeeds (pure a) := fun d hopen => ⟨a, d, rfl, hopen⟩

theorem Succeeds.bind {x : Emit α} {k : α → Emit β} (hx : Succeeds x) (hk : ∀ a, Succeeds (k a)) :
    Succeeds (x >>= k) := by
  intro d hopen
  obtain ⟨a, d₁, hrun, hopen₁⟩ := hx d hopen
  obtain ⟨b, d', hrun', hopen'⟩ := hk a d₁ hopen₁
  exact ⟨b, d', (Step.run_bind_ok hrun).trans hrun', hopen'⟩

theorem succeeds_forM {f : α → Emit Unit} : ∀ {l : List α}, (∀ a ∈ l, Succeeds (f a)) →
    Succeeds (l.forM f)
  | [], _ => succeeds_pure ()
  | a :: l, h => by
      obtain ⟨ha, hl⟩ := List.forall_mem_cons.mp h
      exact ha.bind fun _ => succeeds_forM hl

theorem succeeds_layout {x : Except (Stop LayoutError) α} {a : α} {k : α → Emit β} (hx : x = .ok a)
    (hk : Succeeds (k a)) : Succeeds (layout x >>= k) := by
  rw [hx]
  exact hk

theorem succeeds_require {p : Prop} [Decidable p] (hp : p) (err : EmitError) :
    Succeeds (Step.require p err) := by
  intro d hopen
  exact ⟨(), d, by rw [Step.run_require, if_pos (decide_eq_true hp)], hopen⟩

theorem succeeds_define {f : Builder → ValueId × Builder} {ty : TypeId} {instr : ValueId → Instr}
    (hf : ∀ b, f b = b.define ty instr) : Succeeds (build f) := by
  intro d hopen
  refine ⟨_, _, run_build f d, ?_⟩
  rw [hf]
  exact (Builder.Open.define hopen ty instr).1.isOpen

theorem succeeds_push {f : Builder → Builder} {i : Instr} (hf : ∀ b, f b = b.push i) :
    Succeeds (edit f) := by
  intro d hopen
  refine ⟨_, _, run_edit f d, ?_⟩
  rw [hf]
  exact (Builder.Open.push hopen i).1.isOpen

theorem succeeds_requirePoint : Succeeds requirePoint := by
  intro d hopen
  have hpoint : d.builder.insertionBlock?.isSome = true := by
    rw [hopen.insertionBlock?, Option.isSome_some]
  refine ⟨(), d, ?_, hopen⟩
  change (Step.require d.builder.insertionBlock?.isSome .noInsertionPoint : Emit Unit).run d = _
  rw [Step.run_require, if_pos hpoint]

theorem succeeds_trapIf (e : Emitter) (cond : Operand) (cause : TrapCause) (label : String) :
    Succeeds (trapIf cond cause label) := by
  intro d hopen
  obtain ⟨-, -, hno, -, -⟩ := Builder.fork_spec hopen cond cause.keyword label
  have hne : d.builder.yesBlock.index ≠ d.builder.noBlock.index := by
    simp [Builder.yesBlock, Builder.noBlock]
  have hopenYes := Builder.Open.forked hopen cond cause.keyword label
  have hno₂ := Builder.Reserved.terminate (b := d.builder.forked ..) hno hopenYes hne (.trap cause)
  have hmove := run_moveTo_ok
    (d := { d with builder := (d.builder.forked cond cause.keyword label).trap cause })
    hno₂.lt_length
  have hrun := (Emits.run_fork d cond cause.keyword label fun _ no => do
    edit (·.trap cause)
    moveTo no).trans hmove
  have htrap := Emits.trapIf (e := e) (c := true) hopen hrun (List.mem_singleton_self _)
  exact ⟨(), _, hrun, htrap.opened⟩

end Emit

namespace Emitter

open Emit

variable {e : Emitter}

theorem succeeds_requireHeap (hheap : e.config.target.heap.isSome) : Succeeds e.requireHeap := by
  obtain ⟨symbols, hsymbols⟩ := Option.isSome_iff_exists.mp hheap
  intro d hopen
  have hrequire : ∃ p, d.unit.requireHeap? e.config.target = some p := by
    unfold CodeUnit.requireHeap?
    rw [hsymbols]
    cases d.unit.heap with
    | some heap => exact ⟨_, rfl⟩
    | none => exact ⟨_, rfl⟩
  obtain ⟨⟨heap, u⟩, hu⟩ := hrequire
  refine ⟨heap, { d with unit := u }, ?_, hopen⟩
  have hget : (get : Emit Draft).run d = .ok d d := rfl
  rw [requireHeap, Step.run_bind_ok hget, hu]
  exact Eq.refl _

theorem succeeds_releaseContents {ty : TypeId} {v : ValueLayout} (h : e.layouts.sizeOf ty = some v)
    (op : Operand) : Succeeds (e.releaseContents op ty) := by
  obtain ⟨plan, hplan⟩ := Layouts.exists_planFrom h
  refine succeeds_layout ((Layouts.plan_eq _ _).trans hplan) ?_
  cases plan.isTrivial with
  | true => exact succeeds_pure ()
  | false =>
      refine succeeds_requirePoint.bind fun _ d hopen => ?_
      exact succeeds_push (fun _ => rfl) { d with unit := _ } hopen

theorem succeeds_loadCounter (layout : RefLayout) (op : Operand) :
    Succeeds (loadCounter layout op) := by
  refine (succeeds_define fun _ => rfl).bind fun counter => ?_
  exact (succeeds_define fun _ => rfl).bind fun old => succeeds_pure _

theorem succeeds_freeAtZero {layout : RefLayout} {v : ValueLayout}
    (h : e.layouts.sizeOf layout.pointee = some v) (heap : HeapPrimitives) (op : Operand)
    (counter new : ValueId) : Succeeds (e.freeAtZero heap layout op counter new) := by
  refine (succeeds_define fun _ => rfl).bind fun isZero d hopen => ?_
  obtain ⟨-, -, hno, -, -⟩ := Builder.fork_spec hopen (.value isZero) "rc.free" "rc.live"
  let d₁ : Draft := { d with
    builder := d.builder.forked (.value isZero) "rc.free" "rc.live" }
  have hforked : d₁.builder.Open ⟨d.builder.yesBlock, 0⟩ := Builder.Open.forked hopen ..
  have hopen₁ : d₁.builder.IsOpen := hforked.isOpen
  obtain ⟨⟨⟩, d₂, hrun, hopen₂⟩ := succeeds_releaseContents h op d₁ hopen₁
  obtain ⟨hblock, hwait⟩ := Emits.block_releaseContents hopen₁ hrun
  have hhere₁ : d₁.builder.here.block = d.builder.yesBlock := by rw [hforked.here]
  have hne : d.builder.yesBlock.index ≠ d.builder.noBlock.index := by
    simp [Builder.yesBlock, Builder.noBlock]
  have hno₂ : d₂.builder.Reserved d.builder.noBlock :=
    hwait _ (by rw [hhere₁]; exact hne) hno
  have hne₂ : d₂.builder.here.block.index ≠ d.builder.noBlock.index := by
    rw [hblock, hhere₁]
    exact hne
  obtain ⟨hopen₃, -⟩ := Builder.Open.push hopen₂ (.callExternal none heap.free [.value counter])
  have hno₃ := (hno₂.push hopen₂ hne₂ _).terminate hopen₃ hne₂ (.jump d.builder.noBlock)
  have hmove := run_moveTo_ok (d := { d₂ with builder :=
    (d₂.builder.callExternalVoid heap.free [.value counter]).jump d.builder.noBlock })
    hno₃.lt_length
  refine ⟨(), _, (Emits.run_fork d _ _ _ _).trans ((Step.run_bind_ok hrun).trans hmove), ?_⟩
  exact hno₃.moveTo.isOpen

/-- A comparison and a trap behind it, where counts are checked, and what follows. -/
theorem succeeds_checked {β : Type} {lhs rhs : Operand} {cause : TrapCause} {label : String}
    {k : Unit → Emit β} (hk : Succeeds (k ())) :
    Succeeds (if e.config.checks = .trap then do
        let bad ← Emit.build (·.cmp .lt .usize lhs rhs)
        let r ← Emit.trapIf (.value bad) cause label
        k r
      else k ()) := by
  split
  · refine (succeeds_define fun _ => rfl).bind fun bad => ?_
    exact (succeeds_trapIf e _ _ _).bind fun _ => hk
  · exact hk

/-- With the symbols of the heap at hand, code that takes holders away can be emitted. -/
theorem succeeds_decreaseWith {layout : RefLayout} {v : ValueLayout}
    (h : e.layouts.sizeOf layout.pointee = some v) (heap : HeapPrimitives) (op : Operand)
    (delta : Int64) : Succeeds (do
      let (counter, old) ← loadCounter layout op
      if e.config.checks = .trap then
        let amount := e.wordConst (negateCapped delta)
        let tooFew ← Emit.build (·.cmp .lt .usize (.value old) amount)
        Emit.trapIf (.value tooFew) .countUnderflow "rc.dec"
      let new ← Emit.build (·.add .usize (.value old) (e.wordConst delta))
      Emit.edit (·.store .usize (.value new) (.value counter))
      e.freeAtZero heap layout op counter new) := by
  refine (succeeds_loadCounter layout op).bind fun ids => succeeds_checked ?_
  refine (succeeds_define fun _ => rfl).bind fun new => ?_
  exact (succeeds_push fun _ => rfl).bind fun _ => succeeds_freeAtZero h heap op ids.1 new

theorem succeeds_decreaseCount (hheap : e.config.target.heap.isSome) {layout : RefLayout}
    {v : ValueLayout} (h : e.layouts.sizeOf layout.pointee = some v) (op : Operand)
    (delta : Int64) :
    Succeeds (e.decreaseCount layout op delta) :=
  (succeeds_requireHeap hheap).bind fun heap => succeeds_decreaseWith h heap op delta

theorem countedLayout_eq {ty : TypeId} {layout : RefLayout} (h : e.layouts.ref ty = .ok layout)
    (hregion : layout.region = .counted) : e.countedLayout ty = pure layout := by
  have hlayout : Emit.layout (e.layouts.ref ty) = pure layout := by
    rw [h]
    exact Eq.refl _
  rw [countedLayout, hlayout, pure_bind, hregion]

/-- Code that lets go of a reference can be emitted. -/
theorem succeeds_release (hheap : e.config.target.heap.isSome) {ty : TypeId} {layout : RefLayout}
    (h : e.layouts.ref ty = .ok layout) (op : Operand) : Succeeds (e.release op ty) := by
  obtain ⟨-, hsize, -⟩ := Layouts.ref_eq_ok_iff.mp h
  refine succeeds_layout h ?_
  cases hregion : layout.region with
  | owning =>
      refine succeeds_requirePoint.bind fun _ => ?_
      refine (succeeds_requireHeap hheap).bind fun heap => ?_
      exact (succeeds_releaseContents hsize op).bind fun _ => succeeds_push fun _ => rfl
  | counted =>
      refine (succeeds_require (by decide) _).bind fun _ => ?_
      rw [countedLayout_eq h hregion, pure_bind]
      exact succeeds_requirePoint.bind fun _ => succeeds_decreaseCount hheap hsize op (-1)
  | borrowed => exact succeeds_pure ()

end Emitter

end Ownership
