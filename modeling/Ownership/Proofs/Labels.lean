import Ownership.Emit.Glue
import Ownership.Proofs.Operations
import Ownership.Proofs.Segment

/-!
# Labels of blocks

A block gets its label when it is appended and keeps it. So the labels of
a function only grow at the end while it is built, whether the builder is
used directly or by an emitter, and however a call of the emitter ends
(`Operation.addsLabels`). Every function that is made this way starts
with the block `entry` (`Builder.Made.entry`). All other labels are free,
and an emitter uses the same ones again and again.
-/

namespace Ownership

/-- The labels of the blocks, in order. -/
def Function.labels (f : Function) : List String := f.blocks.map BasicBlock.label

/-! ## The builder -/

namespace Builder

/-- Blocks may have been appended; those that were there have their labels. -/
def AddsLabels (b b' : Builder) : Prop := b.function.labels <+: b'.function.labels

theorem addsLabels_appendBlock (b : Builder) (label : String) :
    b.AddsLabels (b.appendBlock label).2 := ⟨[label], by simp [appendBlock, Function.labels]⟩

theorem addsLabels_moveTo (b : Builder) {id : BlockId} (h : id.index < b.function.blocks.length) :
    b.AddsLabels (b.moveTo id h) := List.prefix_rfl

theorem addsLabels_extend (b : Builder) {change : BasicBlock → BasicBlock}
    (hchange : ∀ B, (change B).label = B.label) : b.AddsLabels (b.extend change) := by
  have hlabels : (b.extend change).function.labels = b.function.labels := by
    unfold extend
    split
    · refine List.ext_getElem? fun i => ?_
      simp only [Function.labels, List.getElem?_map, getElem?_modifyBlock]
      split
      · simp [Function.comp_def, hchange]
      · rfl
    · rfl
  rw [AddsLabels, hlabels]

theorem addsLabels_push (b : Builder) (instr : Instr) : b.AddsLabels (b.push instr) :=
  b.addsLabels_extend fun _ => rfl

theorem addsLabels_terminate (b : Builder) (t : Terminator) : b.AddsLabels (b.terminate t) :=
  b.addsLabels_extend fun _ => rfl

theorem addsLabels_define (b : Builder) (ty : TypeId) (instr : ValueId → Instr) :
    b.AddsLabels (b.define ty instr).2 := (b.fresh ty).2.addsLabels_push _

end Builder

/-! ## Emissions -/

/-- The function under construction that an emission leaves behind, however it ends. -/
def Draft.builderAfter {α : Type} : EStateM.Result (Stop EmitError) Draft α → Builder
  | .ok _ d => d.builder
  | .error _ d => d.builder

namespace Emit

variable {α β : Type} {x : Emit α} {f : α → Emit β}

/-- However the emission ends, all that it did to labels is to append some. -/
def AddsLabels (x : Emit α) : Prop :=
  ∀ d : Draft, d.builder.AddsLabels (Draft.builderAfter (x.run d))

theorem AddsLabels.bind (hx : AddsLabels x) (hf : ∀ a, AddsLabels (f a)) :
    AddsLabels (x >>= f) := by
  intro d
  have hfirst := hx d
  cases hrun : x.run d with
  | ok a d₁ =>
      rw [hrun] at hfirst
      rw [Step.run_bind_ok hrun]
      exact hfirst.trans (hf a d₁)
  | error r d₁ =>
      rw [hrun] at hfirst
      rw [Step.run_bind_error hrun]
      exact hfirst

/-- An emission that leaves the function alone. -/
theorem addsLabels_of_builder (h : ∀ d : Draft, Draft.builderAfter (x.run d) = d.builder) :
    AddsLabels x := by
  intro d
  rw [h]
  exact List.prefix_rfl

theorem addsLabels_pure (a : α) : AddsLabels (pure a : Emit α) :=
  addsLabels_of_builder fun _ => rfl

theorem addsLabels_get : AddsLabels (get : Emit Draft) := addsLabels_of_builder fun _ => rfl

theorem addsLabels_fail (err : EmitError) : AddsLabels (Step.fail err : Emit α) :=
  addsLabels_of_builder fun _ => rfl

theorem addsLabels_require (ok : Bool) (err : EmitError) :
    AddsLabels (Step.require ok err : Emit Unit) := by
  cases ok with
  | true => exact addsLabels_pure ()
  | false => exact addsLabels_fail err

theorem addsLabels_lift {ε : Type} (g : ε → EmitError) (y : Except (Stop ε) α) :
    AddsLabels (Step.lift g y : Emit α) := by
  cases y <;> exact addsLabels_of_builder fun _ => rfl

theorem addsLabels_layout (y : Except (Stop LayoutError) α) : AddsLabels (layout y) :=
  addsLabels_lift _ y

theorem addsLabels_ofAbort (y : Except Abort α) : AddsLabels (Step.ofAbort y : Emit α) := by
  cases y <;> exact addsLabels_of_builder fun _ => rfl

theorem addsLabels_build {g : Builder → α × Builder} (h : ∀ b : Builder, b.AddsLabels (g b).2) :
    AddsLabels (build g) := fun d => h d.builder

theorem addsLabels_edit {g : Builder → Builder} (h : ∀ b : Builder, b.AddsLabels (g b)) :
    AddsLabels (edit g) := fun d => h d.builder

theorem addsLabels_append (label : String) : AddsLabels (build (·.appendBlock label)) :=
  addsLabels_build fun b => b.addsLabels_appendBlock label

theorem addsLabels_moveTo (id : BlockId) : AddsLabels (moveTo id) := by
  intro d
  rw [run_moveTo]
  split
  · next h => exact d.builder.addsLabels_moveTo h
  · exact List.prefix_rfl

/-- An instruction that defines a value. -/
theorem addsLabels_define {g : Builder → ValueId × Builder} {ty : TypeId}
    {instr : ValueId → Instr} (hg : ∀ b, g b = b.define ty instr) : AddsLabels (build g) := by
  refine addsLabels_build fun b => ?_
  rw [hg]
  exact b.addsLabels_define ty instr

/-- An instruction that defines nothing. -/
theorem addsLabels_push {g : Builder → Builder} {instr : Instr} (hg : ∀ b, g b = b.push instr) :
    AddsLabels (edit g) := by
  refine addsLabels_edit fun b => ?_
  rw [hg]
  exact b.addsLabels_push instr

theorem addsLabels_terminate {g : Builder → Builder} {t : Terminator}
    (hg : ∀ b, g b = b.terminate t) : AddsLabels (edit g) := by
  refine addsLabels_edit fun b => ?_
  rw [hg]
  exact b.addsLabels_terminate t

theorem addsLabels_forM {g : α → Emit Unit} {as : List α} (h : ∀ a ∈ as, AddsLabels (g a)) :
    AddsLabels (as.forM g) := by
  induction as with
  | nil => exact addsLabels_pure ()
  | cons a as ih =>
      exact (h a List.mem_cons_self).bind fun _ => ih fun b hb => h b (List.mem_cons_of_mem a hb)

theorem addsLabels_requirePoint : AddsLabels requirePoint :=
  addsLabels_get.bind fun _ => addsLabels_require _ _

theorem addsLabels_trapIf (cond : Operand) (cause : TrapCause) (label : String) :
    AddsLabels (trapIf cond cause label) :=
  (addsLabels_append _).bind fun _ => (addsLabels_append _).bind fun _ =>
    (addsLabels_terminate fun _ => rfl).bind fun _ => (addsLabels_moveTo _).bind fun _ =>
    (addsLabels_terminate fun _ => rfl).bind fun _ => addsLabels_moveTo _

end Emit

/-! ## The operations of an emitter -/

namespace Emitter

open Emit

variable (e : Emitter)

theorem addsLabels_failShowing {α : Type} (ty : TypeId) (err : String → EmitError) :
    AddsLabels (e.failShowing ty err : Emit α) :=
  (addsLabels_ofAbort _).bind fun _ => addsLabels_fail _

theorem addsLabels_requireShowing (ok : Bool) (ty : TypeId) (err : String → EmitError) :
    AddsLabels (e.requireShowing ok ty err) := by
  cases ok with
  | true => exact addsLabels_pure ()
  | false => exact e.addsLabels_failShowing ty err

theorem addsLabels_requireHeap : AddsLabels e.requireHeap := by
  refine addsLabels_of_builder fun d => ?_
  unfold requireHeap
  rw [EStateM.run_bind, EStateM.run_get]
  cases hu : d.unit.requireHeap? e.config.target with
  | none =>
      simp only [hu]
      rfl
  | some p =>
      simp only [hu]
      rfl

theorem addsLabels_releaseContents (base : Operand) (ty : TypeId) :
    AddsLabels (e.releaseContents base ty) := by
  refine (addsLabels_layout _).bind fun plan => ?_
  cases plan.isTrivial with
  | true => exact addsLabels_pure ()
  | false =>
      refine addsLabels_requirePoint.bind fun _ d => ?_
      exact d.builder.addsLabels_push _

theorem addsLabels_loadCounter (layout : RefLayout) (reference : Operand) :
    AddsLabels (loadCounter layout reference) :=
  (addsLabels_define fun _ => rfl).bind fun _ => (addsLabels_define fun _ => rfl).bind fun _ =>
    addsLabels_pure _

/-- A comparison and a trap behind it, where counts are checked, and what follows. -/
theorem addsLabels_checked {β : Type} {lhs rhs : Operand} {cause : TrapCause} {label : String}
    {k : Unit → Emit β} (hk : AddsLabels (k ())) :
    AddsLabels (if e.config.checks = .trap then do
        let bad ← Emit.build (·.cmp .lt .usize lhs rhs)
        let r ← Emit.trapIf (.value bad) cause label
        k r
      else k ()) := by
  split
  · exact (addsLabels_define fun _ => rfl).bind fun _ => (addsLabels_trapIf _ _ _).bind fun _ => hk
  · exact hk

theorem addsLabels_freeAtZero (heap : HeapPrimitives) (layout : RefLayout) (reference : Operand)
    (counter new : ValueId) : AddsLabels (e.freeAtZero heap layout reference counter new) := by
  refine (addsLabels_define fun _ => rfl).bind fun isZero => (addsLabels_append _).bind fun _ =>
    (addsLabels_append _).bind fun _ => (addsLabels_terminate fun _ => rfl).bind fun _ =>
    (addsLabels_moveTo _).bind fun _ => (e.addsLabels_releaseContents _ _).bind fun _ => ?_
  exact (addsLabels_push fun _ => rfl).bind fun _ =>
    (addsLabels_terminate fun _ => rfl).bind fun _ => addsLabels_moveTo _

theorem addsLabels_decreaseCount (layout : RefLayout) (reference : Operand) (delta : Int64) :
    AddsLabels (e.decreaseCount layout reference delta) := by
  refine e.addsLabels_requireHeap.bind fun heap => (addsLabels_loadCounter _ _).bind fun ids => ?_
  refine e.addsLabels_checked ?_
  exact (addsLabels_define fun _ => rfl).bind fun new =>
    (addsLabels_push fun _ => rfl).bind fun _ => e.addsLabels_freeAtZero _ _ _ _ _

theorem addsLabels_increaseCount (layout : RefLayout) (reference : Operand) (delta : Int64) :
    AddsLabels (e.increaseCount layout reference delta) := by
  refine (addsLabels_loadCounter _ _).bind fun ids =>
    (addsLabels_define fun _ => rfl).bind fun _ => ?_
  exact e.addsLabels_checked (addsLabels_push fun _ => rfl)

theorem addsLabels_adjustCount (reference : Operand) (delta : Int64) (ty : TypeId) :
    AddsLabels (e.adjustCount reference delta ty) := by
  have hcounted : AddsLabels (e.countedLayout ty) := by
    refine (addsLabels_layout _).bind fun layout => ?_
    split
    · exact addsLabels_pure _
    · exact e.addsLabels_failShowing _ _
    · exact e.addsLabels_failShowing _ _
  refine (addsLabels_require _ _).bind fun _ => hcounted.bind fun layout =>
    addsLabels_requirePoint.bind fun _ => ?_
  split
  · exact e.addsLabels_decreaseCount layout reference delta
  · exact e.addsLabels_increaseCount layout reference delta

theorem addsLabels_release (reference : Operand) (ty : TypeId) :
    AddsLabels (e.release reference ty) := by
  refine (addsLabels_layout _).bind fun layout => ?_
  split
  · exact addsLabels_requirePoint.bind fun _ => e.addsLabels_requireHeap.bind fun heap =>
      (e.addsLabels_releaseContents _ _).bind fun _ => addsLabels_push fun _ => rfl
  · exact e.addsLabels_adjustCount reference (-1) ty
  · exact addsLabels_pure ()

theorem addsLabels_storeLiteral (base : ValueId) (record : TypeId) (vs : List Operand) :
    AddsLabels (e.storeLiteral base record vs) := by
  refine addsLabels_get.bind fun d => (addsLabels_lift _ _).bind fun sources =>
    (addsLabels_layout _).bind fun layout => addsLabels_forM fun entry _ => ?_
  exact (addsLabels_ofAbort _).bind fun v => (addsLabels_define fun _ => rfl).bind fun _ =>
    addsLabels_push fun _ => rfl

theorem addsLabels_startCounter (layout : RefLayout) (block : ValueId) :
    AddsLabels (e.startCounter layout block) := by
  unfold startCounter
  split
  · exact (addsLabels_push fun _ => rfl).bind fun _ => addsLabels_define fun _ => rfl
  · exact addsLabels_pure block

theorem addsLabels_allocate (ty : TypeId) (init : Initial) : AddsLabels (e.allocate ty init) := by
  refine (addsLabels_layout _).bind fun layout => (e.addsLabels_requireShowing _ _ _).bind fun _ =>
    addsLabels_requirePoint.bind fun _ => e.addsLabels_requireHeap.bind fun heap =>
    (addsLabels_ofAbort _).bind fun size => (addsLabels_define fun _ => rfl).bind fun block =>
    (e.addsLabels_startCounter layout block).bind fun payload =>
    (addsLabels_define fun _ => rfl).bind fun reference => ?_
  cases init with
  | value v => exact (addsLabels_push fun _ => rfl).bind fun _ => addsLabels_pure _
  | fields vs => exact (e.addsLabels_storeLiteral _ _ vs).bind fun _ => addsLabels_pure _

theorem addsLabels_declareLocal (scope : Scope) (name : Name) (ty : TypeId)
    (init : Option Operand) : AddsLabels (e.declareLocal scope name ty init) := by
  have hcustody : AddsLabels (e.custody ty) := by
    unfold custody
    split
    · exact addsLabels_pure _
    · exact (addsLabels_layout _).bind fun plan => addsLabels_pure _
    · exact addsLabels_pure _
  refine addsLabels_requirePoint.bind fun _ => hcustody.bind fun custody =>
    (addsLabels_define fun _ => rfl).bind fun slot => ?_
  cases init with
  | some v => exact (addsLabels_push fun _ => rfl).bind fun _ => addsLabels_pure _
  | none => exact addsLabels_pure _

theorem addsLabels_closeScope (scope : Scope) : AddsLabels (e.closeScope scope) := by
  refine addsLabels_forM fun v _ => ?_
  unfold releaseVariable
  split
  · exact e.addsLabels_releaseContents _ _
  · exact (addsLabels_define fun _ => rfl).bind fun held => e.addsLabels_release _ _

theorem addsLabels_glueBody (ty : TypeId) (plan : ReleasePlan) :
    AddsLabels (e.glueBody ty plan) := by
  refine addsLabels_get.bind fun d => (addsLabels_forM fun r _ => ?_).bind fun _ =>
    addsLabels_terminate fun _ => rfl
  refine (addsLabels_define fun _ => rfl).bind fun addr => ?_
  split
  · exact (addsLabels_define fun _ => rfl).bind fun v => e.addsLabels_release _ _
  · exact e.addsLabels_releaseContents _ _

end Emitter

/-- Whatever an operation is called with, and however it ends, it leaves the labels that were
there. -/
theorem Operation.addsLabels (e : Emitter) (op : Operation) : Emit.AddsLabels (op.emit e) := by
  cases op with
  | allocate ty init => exact (e.addsLabels_allocate ty init).bind fun _ => Emit.addsLabels_pure _
  | adjustCount reference delta ty =>
      exact (e.addsLabels_adjustCount reference delta ty).bind fun _ => Emit.addsLabels_pure _
  | release reference ty =>
      exact (e.addsLabels_release reference ty).bind fun _ => Emit.addsLabels_pure _
  | releaseContents base ty =>
      exact (e.addsLabels_releaseContents base ty).bind fun _ => Emit.addsLabels_pure _
  | declareLocal scope name ty init =>
      exact (e.addsLabels_declareLocal scope name ty init).bind fun _ => Emit.addsLabels_pure _
  | closeScope scope => exact (e.addsLabels_closeScope scope).bind fun _ => Emit.addsLabels_pure _
  | closeScopes stack depth =>
      exact (Emit.addsLabels_forM fun scope _ => e.addsLabels_closeScope scope).bind fun _ =>
        Emit.addsLabels_pure _

/-! ## Functions that are made -/

/-- Functions under construction: a new one, and what becomes of it by the steps of the builder, of
which every instruction and terminator is one, by the calls of emitters, of which some may fail, and
by writing the body of a glue function. -/
inductive Builder.Made : Builder → Prop where
  | new (name : String) (params : List TypeId) (ret : TypeId) : Made (.new name params ret)
  | appendBlock {b : Builder} (label : String) : Made b → Made (b.appendBlock label).2
  | moveTo {b : Builder} (id : BlockId) (h : id.index < b.function.blocks.length) : Made b →
      Made (b.moveTo id h)
  | define {b : Builder} (ty : TypeId) (instr : ValueId → Instr) : Made b →
      Made (b.define ty instr).2
  | push {b : Builder} (instr : Instr) : Made b → Made (b.push instr)
  | terminate {b : Builder} (t : Terminator) : Made b → Made (b.terminate t)
  | emit {b : Builder} (e : Emitter) (op : Operation) (u : CodeUnit) : Made b →
      Made (Draft.builderAfter ((op.emit e).run ⟨u, b⟩))
  | glue {b : Builder} (e : Emitter) (ty : TypeId) (plan : ReleasePlan) (u : CodeUnit) : Made b →
      Made (Draft.builderAfter ((e.glueBody ty plan).run ⟨u, b⟩))

/-- The first block is `entry`. -/
theorem Builder.Made.entry {b : Builder} (h : b.Made) : ["entry"] <+: b.function.labels := by
  induction h with
  | new name params ret => exact List.prefix_rfl
  | appendBlock label _ ih => exact ih.trans (addsLabels_appendBlock _ label)
  | moveTo id h _ ih => exact ih
  | define ty instr _ ih => exact ih.trans (addsLabels_define _ ty instr)
  | push instr _ ih => exact ih.trans (addsLabels_push _ instr)
  | terminate t _ ih => exact ih.trans (addsLabels_terminate _ t)
  | emit e op u _ ih => exact ih.trans (op.addsLabels e ⟨u, _⟩)
  | glue e ty plan u _ ih => exact ih.trans (e.addsLabels_glueBody ty plan ⟨u, _⟩)

/-- So it has a body. -/
theorem Builder.Made.isDeclaration_eq {b : Builder} (h : b.Made) :
    b.function.isDeclaration = false := by
  obtain ⟨rest, hlabels⟩ := h.entry
  cases hblocks : b.function.blocks with
  | nil => simp [Function.labels, hblocks] at hlabels
  | cons B Bs => simp [Function.isDeclaration, hblocks]

end Ownership
