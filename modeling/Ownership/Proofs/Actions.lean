import Ownership.Proofs.Emits
import Ownership.Proofs.Leaves
import Ownership.Proofs.Memory

/-!
# What the emitted code does

For each operation of the emitter there is an action: a program on the
machine that says in a few lines what the emitted code does, with no
blocks, frames or value numbers in it. Letting go of contents is a call
of the glue function, so an action depends on the unit and on how its
functions are called (`Runtime`). The theorems say that the code emitted
by an operation performs its action, wherever it stands.
-/

namespace Ownership

namespace Exec

/-- A value as an address. -/
def address (v : Value) : Exec UInt64 := outcome (Outcome.ofKind v.asAddr)

/-- The address some bytes behind the one in a value. -/
def displaced (v : Value) (bytes : UInt64) : Exec UInt64 := do
  tick
  let a ← address v
  return a + bytes

/-- The block at the address in a value is freed. -/
def freeAt (v : Value) : Exec Unit := do
  tick
  let a ← address v
  free a

/-- What freeing does where its symbol is the one that allocates: so many bytes are allocated. -/
def mallocAt (v : Value) : Exec Unit := do
  tick
  let a ← address v
  let _ ← malloc a

/-- A comparison whose outcome is already known, and the trap behind it. -/
def guardTrap (cause : TrapCause) (bad : Bool) : Exec Unit := do
  tick
  if bad then Step.fail (.trap cause) else pure ()

end Exec

namespace Layouts

/-- Loads a word. -/
def fetch (L : Layouts) (addr : UInt64) : Exec UInt64 := do
  Exec.tick
  let m ← get
  Exec.outcome (L.loadWord m.heap addr)

/-- Stores a word. -/
def put (L : Layouts) (addr w : UInt64) : Exec Unit := do
  Exec.tick
  Exec.withHeap fun h => L.storeWord h addr w

/-- The address of the counter behind a reference, and the count in it. -/
def counter (L : Layouts) (layout : RefLayout) (v : Value) : Exec (UInt64 × UInt64) := do
  let a ← Exec.displaced v (Int64.ofInt layout.countOffset).toUInt64
  let old ← L.fetch a
  return (a, old)

/-- Loads a value through an address. -/
def fetchValue (L : Layouts) (ty : TypeId) (v : Value) : Exec Value := do
  Exec.tick
  let addr ← Exec.address v
  let m ← get
  Exec.outcome (L.load m.heap ty addr)

end Layouts

/-- A number as a word of the target. -/
def Emitter.word (e : Emitter) (n : Int64) : UInt64 := e.config.target.width.truncate n.toUInt64

namespace Runtime

variable {e : Emitter} (R : Runtime e)

/-! ## Actions -/

/-- Lets go of the references inside the value of type `ty` at `v`. -/
def letGo (ty : TypeId) (v : Value) : Exec Unit :=
  if (e.layouts.leaves ty).isEmpty then pure ()
  else do
    Exec.tick
    let glue ← Step.ofOption .dangling (R.unit.glueFor? ty)
    let _ ← R.call glue [v]

/-- Calls the symbol that frees. -/
def freeAt (_ : Runtime e) (v : Value) : Exec Unit :=
  if e.SymbolsApart then Exec.freeAt v else Exec.mallocAt v

/-- The sum of a count and a change, as a word. -/
def changed (_ : Runtime e) (old : UInt64) (delta : Int64) : Exec UInt64 := do
  Exec.tick
  return e.layouts.width.truncate (old + e.word delta)

/-- Frees the block of a reference if no holder is left. -/
def freeAtZero (layout : RefLayout) (v : Value) (counter new : UInt64) : Exec Unit := do
  Exec.tick
  if new = 0 then do
    R.letGo layout.pointee v
    R.freeAt (.ptr counter)
  else pure ()

/-- Stops where fewer holders are left than let go, if that is checked. -/
def requireHolders (_ : Runtime e) (old : UInt64) (delta : Int64) : Exec Unit :=
  if e.config.checks = .trap then
    Exec.guardTrap .countUnderflow (old < e.word (Emitter.negateCapped delta))
  else pure ()

/-- Stops where the counter wraps, if that is checked. -/
def requireRoom (_ : Runtime e) (old new : UInt64) : Exec Unit :=
  if e.config.checks = .trap then Exec.guardTrap .countOverflow (new < old) else pure ()

/-- Takes holders away. -/
def decrease (layout : RefLayout) (v : Value) (delta : Int64) : Exec Unit := do
  let (counter, old) ← e.layouts.counter layout v
  R.requireHolders old delta
  let new ← R.changed old delta
  e.layouts.put counter new
  R.freeAtZero layout v counter new

/-- Adds holders. -/
def increase (layout : RefLayout) (v : Value) (delta : Int64) : Exec Unit := do
  let (counter, old) ← e.layouts.counter layout v
  let new ← R.changed old delta
  R.requireRoom old new
  e.layouts.put counter new

/-- Changes the number of holders. -/
def adjust (layout : RefLayout) (v : Value) (delta : Int64) : Exec Unit :=
  if delta < 0 then R.decrease layout v delta else R.increase layout v delta

/-- Lets go of a reference. -/
def release (ty : TypeId) (v : Value) : Exec Unit :=
  match e.layouts.ref ty with
  | .ok layout =>
    match layout.region with
    | .owning => do
      R.letGo layout.pointee v
      R.freeAt v
    | .counted => R.decrease layout v (-1)
    | .borrowed => pure ()
  | .error s => throw (s.map .layout)

/-- Lets go of a field of the record at `v`. -/
def releaseField (v : Value) (r : FieldRelease) : Exec Unit := do
  let addr ← Exec.displaced v (UInt64.ofNat r.slot.offset)
  match r.action with
  | .release _ => do
    let held ← e.layouts.fetchValue r.slot.type (.ptr addr)
    R.release r.slot.type held
  | .descend => R.letGo r.slot.type (.ptr addr)

/-- Lets go of the fields of the record at `v`. -/
def releaseFields (v : Value) (plan : ReleasePlan) : Exec Unit := plan.forM (R.releaseField v)

theorem freeAt_eq (h : e.SymbolsApart) (v : Value) : R.freeAt v = Exec.freeAt v := if_pos h

end Runtime

/-! ## Single instructions -/

namespace Emits

variable {e : Emitter} {d d' : Draft} {known : Facts} {id : ValueId} {op op' : Operand} {v : Value}

/-- What the builder has after it made a value. -/
theorem build_ok {f : Builder → ValueId × Builder} {ty : TypeId} {instr : ValueId → Instr}
    (hf : f d.builder = d.builder.define ty instr) (h : (Emit.build f).run d = .ok id d') :
    id = ⟨d.values⟩ ∧ d' = { d with builder := (d.builder.define ty instr).2 } := by
  rw [Emit.run_build, hf] at h
  obtain ⟨rfl, rfl⟩ := EStateM.Result.ok.inj h
  exact ⟨rfl, rfl⟩

theorem offset {bytes : Int64} (hopen : d.builder.IsOpen)
    (h : (Emit.build (·.offset op bytes)).run d = .ok id d') (hv : (op, v) ∈ known) :
    Emits d d' known (fun _ : Runtime e => Exec.displaced v bytes.toUInt64)
      fun a => [(.value id, .ptr a)] := by
  obtain ⟨rfl, rfl⟩ := build_ok rfl h
  refine define hopen fun R frame _ hg => ?_
  simp only [Program.runInstr, Frame.evalAddr_eq (hg _ hv), Exec.address, bind_assoc, pure_bind]

theorem fieldAddr {record : TypeId} {index : Nat} {bytes : UInt64} (hopen : d.builder.IsOpen)
    (h : (Emit.build (·.fieldAddr op record index bytes)).run d = .ok id d')
    (hv : (op, v) ∈ known) :
    Emits d d' known (fun _ : Runtime e => Exec.displaced v bytes)
      fun a => [(.value id, .ptr a)] := by
  obtain ⟨rfl, rfl⟩ := build_ok rfl h
  refine define hopen fun R frame _ hg => ?_
  simp only [Program.runInstr, Frame.evalAddr_eq (hg _ hv), Exec.address, bind_assoc, pure_bind]

theorem fetchValue {ty : TypeId} (hopen : d.builder.IsOpen)
    (h : (Emit.build (·.load ty op)).run d = .ok id d') (hv : (op, v) ∈ known) :
    Emits d d' known (fun _ : Runtime e => e.layouts.fetchValue ty v)
      fun x => [(.value id, x)] := by
  obtain ⟨rfl, rfl⟩ := build_ok rfl h
  refine define hopen fun R frame _ hg => ?_
  simp only [Program.runInstr, Frame.evalAddr_eq (hg _ hv), Exec.address, bind_assoc]
  rfl

theorem outcome_ptr (addr : UInt64) :
    Exec.outcome (Outcome.ofKind (Value.ptr addr).asAddr) = Pure.pure addr := rfl

theorem fetch {addr : UInt64} (hopen : d.builder.IsOpen)
    (h : (Emit.build (·.load .usize op)).run d = .ok id d') (hv : (op, .ptr addr) ∈ known) :
    Emits d d' known (fun _ : Runtime e => e.layouts.fetch addr)
      fun w => [(.value id, .usize w)] := by
  obtain ⟨rfl, rfl⟩ := build_ok rfl h
  refine define hopen fun R frame _ hg => ?_
  have hload : ∀ h, Exec.outcome (R.program.layouts.load h .usize addr) =
      (Exec.outcome (e.layouts.loadWord h addr) >>= fun w => Pure.pure (.usize w)) := by
    intro h
    change Exec.outcome (e.layouts.load h .usize addr) = _
    rw [Layouts.load_usize]
    cases e.layouts.loadWord h addr <;> rfl
  simp only [Program.runInstr, Frame.evalAddr_eq (hg _ hv), outcome_ptr, bind_assoc, hload,
    pure_bind]

theorem put {addr w : UInt64} (hopen : d.builder.IsOpen)
    (h : (Emit.edit (·.store .usize op op')).run d = .ok () d')
    (hw : (op, .usize w) ∈ known) (hv : (op', .ptr addr) ∈ known) :
    Emits d d' known (fun _ : Runtime e => e.layouts.put addr w) fun _ => [] := by
  obtain ⟨-, rfl⟩ := EStateM.Result.ok.inj h
  refine push hopen fun R frame _ hg => ?_
  have hval : Exec.outcome (.ok (Value.usize w)) = Pure.pure (Value.usize w) := rfl
  simp only [Program.runInstr, Frame.evalAddr_eq (hg _ hv), hg _ hw, outcome_ptr, hval,
    pure_bind]
  change (Exec.withHeap (fun h => e.layouts.store h .usize addr (.usize w)) >>= _) = _
  simp only [Layouts.store_usize]

/-- The sum of a count and a constant. -/
theorem changed {old : UInt64} {delta : Int64} (hopen : d.builder.IsOpen)
    (h : (Emit.build (·.add .usize op (e.wordConst delta))).run d = .ok id d')
    (hv : (op, .usize old) ∈ known) :
    Emits d d' known (fun R : Runtime e => R.changed old delta)
      fun w => [(.value id, .usize w)] := by
  obtain ⟨rfl, rfl⟩ := build_ok rfl h
  refine define hopen fun R frame _ hg => ?_
  have hconst : frame.eval (e.wordConst delta) = .ok (.usize (e.word delta)) := rfl
  simp only [Program.runInstr, hg _ hv, hconst]
  rfl

/-- A comparison of words. -/
theorem compared {how : Comparison} {x y : UInt64} (hopen : d.builder.IsOpen)
    (h : (Emit.build (·.cmp how .usize op op')).run d = .ok id d')
    (hx : (op, .usize x) ∈ known) (hy : ∀ frame : Frame, frame.Gives known →
      frame.eval op' = .ok (.usize y)) :
    Emits d d' known (fun _ : Runtime e => Exec.tick)
      fun _ => [(.value id, .bool (how.holds x y))] := by
  obtain ⟨rfl, rfl⟩ := build_ok rfl h
  have hdefine : Emits d
      { d with builder := (d.builder.define .bool fun dst => .cmp dst how .usize op op').2 } known
      (fun _ : Runtime e => Exec.tick >>= fun _ => Pure.pure ())
      fun _ => [(.value ⟨d.values⟩, .bool (how.holds x y))] := by
    refine define hopen fun R frame _ hg => ?_
    simp only [Program.runInstr, Program.compare, hg _ hx, hy frame hg]
    rfl
  exact hdefine.congr fun _ => bind_pure _

theorem mapM_eval {frame : Frame} (h : frame.eval op = .ok v) :
    [op].mapM frame.eval = .ok [v] := by
  simp only [List.mapM_cons, List.mapM_nil, h]
  rfl

/-- A call of the symbol that frees. -/
theorem freeAt {heap : HeapPrimitives} (hopen : d.builder.IsOpen)
    (hheap : d.unit.heap = some heap)
    (h : (Emit.edit (·.callExternalVoid heap.free [op])).run d = .ok () d')
    (hv : (op, v) ∈ known) :
    Emits d d' known (fun R : Runtime e => R.freeAt v) fun _ => [] := by
  obtain ⟨-, rfl⟩ := EStateM.Result.ok.inj h
  by_cases hsymbols : e.SymbolsApart
  · have hpush : Emits d { d with builder := d.builder.callExternalVoid heap.free [op] } known
        (fun _ : Runtime e => Exec.freeAt v) fun _ => [] := by
      refine push hopen fun R frame hkeeps hg => ?_
      have hR : R.program.unit.heap = some heap := hkeeps.heap hheap
      have hapart : heap.alloc ≠ heap.free := (R.apart hR).mpr hsymbols
      simp only [Program.runInstr, mapM_eval (hg _ hv)]
      change (Program.callExternal R.program heap.free [v] >>= fun _ => Pure.pure frame) = _
      simp only [Program.callExternal, hR, if_neg hapart, if_true, bind_assoc, pure_bind,
        Exec.address]
    exact hpush.congr fun R => (if_pos hsymbols).symm
  · have hpush : Emits d { d with builder := d.builder.callExternalVoid heap.free [op] } known
        (fun _ : Runtime e => Exec.mallocAt v) fun _ => [] := by
      refine push hopen fun R frame hkeeps hg => ?_
      have hR : R.program.unit.heap = some heap := hkeeps.heap hheap
      have hsame : heap.alloc = heap.free := not_not.mp fun hne => hsymbols ((R.apart hR).mp hne)
      simp only [Program.runInstr, mapM_eval (hg _ hv)]
      change (Program.callExternal R.program heap.free [v] >>= fun _ => Pure.pure frame) = _
      simp only [Program.callExternal, hR, if_pos hsame, bind_assoc, pure_bind, Exec.address]
    exact hpush.congr fun R => (if_neg hsymbols).symm

/-- A call of a glue function. -/
theorem callGlue {ty : TypeId} {glue : FuncId} (hopen : d.builder.IsOpen)
    (hglue : d.unit.glueFor? ty = some glue)
    (h : (Emit.edit (·.callVoid glue [op])).run d = .ok () d') (hv : (op, v) ∈ known) :
    Emits d d' known
      (fun R : Runtime e => do
        Exec.tick
        let glue ← Step.ofOption .dangling (R.unit.glueFor? ty)
        let _ ← R.call glue [v])
      fun _ => [] := by
  obtain ⟨-, rfl⟩ := EStateM.Result.ok.inj h
  refine push hopen fun R frame hkeeps hg => ?_
  simp only [Program.runInstr, mapM_eval (hg _ hv), hkeeps.glue hglue]
  change (R.call glue [v] >>= fun _ => Pure.pure frame) =
    ((R.call glue [v] >>= fun _ => Pure.pure ()) >>= fun _ => Pure.pure frame)
  simp only [bind_assoc, pure_bind]

end Emits

/-! ## Emitted operations -/

namespace Emits

variable {e : Emitter} {d d' : Draft} {known : Facts} {op : Operand} {v : Value}

theorem requirePoint_ok (h : Emit.requirePoint.run d = .ok () d') : d' = d := by
  unfold Emit.requirePoint at h
  obtain ⟨d₁, d₂, h₁, h⟩ := Step.bind_ok h
  obtain ⟨rfl, rfl⟩ := EStateM.Result.ok.inj h₁
  rw [Step.run_require] at h
  split at h
  · exact (EStateM.Result.ok.inj h).2.symm
  · cases h

theorem requireHeap_ok {heap : HeapPrimitives} (h : e.requireHeap.run d = .ok heap d') :
    ∃ u, d' = { d with unit := u } ∧ u.heap = some heap ∧ e.Asks d.unit u := by
  unfold Emitter.requireHeap at h
  obtain ⟨d₁, d₂, h₁, h⟩ := Step.bind_ok h
  obtain ⟨rfl, rfl⟩ := EStateM.Result.ok.inj h₁
  split at h
  · next heap' u hu =>
      obtain ⟨rfl, rfl⟩ := EStateM.Result.ok.inj h
      exact ⟨u, rfl, (CodeUnit.requireHeap?_spec hu).1, .heap .refl hu⟩
  · cases h

theorem lift_ok {ε α : Type} {f : ε → EmitError} {x : Except (Stop ε) α} {a : α}
    (h : (Step.lift f x : Emit α).run d = .ok a d') : x = .ok a ∧ d' = d := by
  cases x with
  | ok b =>
      obtain ⟨rfl, rfl⟩ := EStateM.Result.ok.inj h
      exact ⟨rfl, rfl⟩
  | error s => cases h

theorem layout_ok {α : Type} {x : Except (Stop LayoutError) α} {a : α}
    (h : (Emit.layout x).run d = .ok a d') : x = .ok a ∧ d' = d :=
  lift_ok h

theorem require_ok {p : Prop} [Decidable p] {err : EmitError}
    (h : (Step.require p err : Emit Unit).run d = .ok () d') : p ∧ d' = d := by
  rw [Step.run_require] at h
  split at h
  · next hp => exact ⟨of_decide_eq_true hp, (EStateM.Result.ok.inj h).2.symm⟩
  · cases h

theorem ofAbort_ok {α : Type} {x : Except Abort α} {a : α}
    (h : (Step.ofAbort x : Emit α).run d = .ok a d') : x = .ok a ∧ d' = d := by
  cases x with
  | error s => cases h
  | ok b =>
      obtain ⟨rfl, rfl⟩ := EStateM.Result.ok.inj h
      exact ⟨rfl, rfl⟩

theorem failShowing_ne_ok {α : Type} {ty : TypeId} {err : String → EmitError} {a : α} :
    (e.failShowing ty err).run d ≠ .ok a d' := by
  intro h
  obtain ⟨text, d₁, -, h⟩ := Step.bind_ok h
  cases h

theorem requireShowing_ok {p : Prop} [Decidable p] {ty : TypeId} {err : String → EmitError}
    (h : (e.requireShowing p ty err).run d = .ok () d') : p ∧ d' = d := by
  unfold Emitter.requireShowing at h
  split at h
  · next hp => exact ⟨of_decide_eq_true hp, (EStateM.Result.ok.inj h).2.symm⟩
  · exact absurd h failShowing_ne_ok

/-- Code that lets go of contents is nothing, or one instruction. -/
theorem builder_releaseContents {ty : TypeId} (h : (e.releaseContents op ty).run d = .ok () d') :
    d'.builder = d.builder ∨ ∃ i, d'.builder = d.builder.push i := by
  unfold Emitter.releaseContents at h
  obtain ⟨plan, d₁, h₁, k₁⟩ := Step.bind_ok h
  obtain ⟨-, rfl⟩ := layout_ok h₁
  split at k₁
  · obtain ⟨-, rfl⟩ := EStateM.Result.ok.inj k₁
    exact Or.inl rfl
  · obtain ⟨⟨⟩, d₂, h₂, k₂⟩ := Step.bind_ok k₁
    obtain rfl := requirePoint_ok h₂
    obtain ⟨-, rfl⟩ := EStateM.Result.ok.inj k₂
    exact Or.inr ⟨_, rfl⟩

theorem letGo {ty : TypeId} (hopen : d.builder.IsOpen)
    (h : (e.releaseContents op ty).run d = .ok () d') (hv : (op, v) ∈ known) :
    Emits d d' known (fun R : Runtime e => R.letGo ty v) fun _ => [] := by
  unfold Emitter.releaseContents at h
  obtain ⟨plan, d₁, h₁, k₁⟩ := Step.bind_ok h
  obtain ⟨hplan, rfl⟩ := layout_ok h₁
  have htrivial := (Layouts.plan_ok hplan).isTrivial_iff
  cases hempty : (e.layouts.leaves ty).isEmpty with
  | true =>
      rw [hempty] at htrivial
      simp only [htrivial, if_true] at k₁
      obtain ⟨-, rfl⟩ := EStateM.Result.ok.inj k₁
      refine (skip hopen).congr fun R => ?_
      rw [Runtime.letGo, hempty, if_pos rfl]
  | false =>
      rw [hempty] at htrivial
      simp only [htrivial, Bool.false_eq_true, if_false] at k₁
      obtain ⟨⟨⟩, d₂, h₂, k₂⟩ := Step.bind_ok k₁
      obtain rfl := requirePoint_ok h₂
      have hglue := CodeUnit.glueFor?_requestGlue d₂.unit ty (e.glueName ty)
      have hasks : e.Asks d₂.unit _ := .glue ty (e.glueName ty) .refl
      have hcall := callGlue (e := e)
        (d := { d₂ with unit := (d₂.unit.requestGlue ty (e.glueName ty)).2 }) hopen hglue k₂ hv
      refine (after_unit hasks hcall).congr fun R => ?_
      rw [Runtime.letGo, hempty, if_neg Bool.false_ne_true]

theorem checked_ok {lhs rhs : Operand} {cause : TrapCause} {label : String} {k : Unit → Emit Unit}
    (h : (if e.config.checks = .trap then do
        let bad ← Emit.build (·.cmp .lt .usize lhs rhs)
        let r ← Emit.trapIf (.value bad) cause label
        k r
      else k ()).run d = .ok () d') : ∃ d₁, (k ()).run d₁ = .ok () d' := by
  split at h
  · obtain ⟨bad, d₁, -, k₁⟩ := Step.bind_ok h
    obtain ⟨⟨⟩, d₂, -, k₂⟩ := Step.bind_ok k₁
    exact ⟨d₂, k₂⟩
  · exact ⟨d, h⟩

/-- A comparison and a trap behind it, where counts are checked. -/
theorem checked {lhs rhs : Operand} {cause : TrapCause} {label : String} {k : Unit → Emit Unit}
    (hopen : d.builder.IsOpen)
    (h : (if e.config.checks = .trap then do
        let bad ← Emit.build (·.cmp .lt .usize lhs rhs)
        let r ← Emit.trapIf (.value bad) cause label
        k r
      else k ()).run d = .ok () d') :
    ∃ d₁, (k ()).run d₁ = .ok () d' ∧ ∀ (known : Facts) (x y : UInt64), d.Uses known →
      (lhs, .usize x) ∈ known →
      (∀ frame : Frame, frame.Gives known → frame.eval rhs = .ok (.usize y)) →
      Emits d d₁ known
        (fun _ : Runtime e =>
          if e.config.checks = .trap then Exec.guardTrap cause (x < y) else Pure.pure ())
        fun _ => [] := by
  by_cases hc : e.config.checks = .trap
  · simp only [if_pos hc] at h
    obtain ⟨bad, d₁, h₁, k₁⟩ := Step.bind_ok h
    obtain ⟨⟨⟩, d₂, h₂, k₂⟩ := Step.bind_ok k₁
    refine ⟨d₂, k₂, fun known x y huses hx hy => ?_⟩
    have hcmp := compared (e := e) hopen h₁ hx hy
    refine (hcmp.bind huses fun _ _ => ?_).congr fun R => (if_pos hc).symm
    exact trapIf hcmp.opened h₂ (List.mem_append_left _ (List.mem_singleton.mpr rfl))
  · simp only [if_neg hc] at h
    exact ⟨d, h, fun _ _ _ _ _ _ => (skip hopen).congr fun R => (if_neg hc).symm⟩

/-- Letting go of contents leaves the block that it is written in, and those that wait. -/
theorem block_releaseContents {ty : TypeId} (hopen : d.builder.IsOpen)
    (h : (e.releaseContents op ty).run d = .ok () d') :
    d'.builder.here.block = d.builder.here.block
      ∧ ∀ id, d.builder.here.block.index ≠ id.index → d.builder.Reserved id →
        d'.builder.Reserved id := by
  rcases builder_releaseContents h with hb | ⟨i, hb⟩
  · rw [hb]
    exact ⟨rfl, fun _ _ hr => hr⟩
  · rw [hb, (Builder.Open.push hopen i).1.here]
    exact ⟨rfl, fun id hne hr => hr.push hopen hne i⟩

/-- To free a block is to let go of its contents first. The code for that stays in the block that
it is written in, too. -/
theorem freeing {d₁ : Draft} {heap : HeapPrimitives} {ty : TypeId} {start : Operand} {w : Value}
    (hopen : d.builder.IsOpen) (huses : d.Uses known) (hheap : d.unit.heap = some heap)
    (hcontents : (e.releaseContents op ty).run d = .ok () d₁)
    (hfree : (Emit.edit (·.callExternalVoid heap.free [start])).run d₁ = .ok () d')
    (hv : (op, v) ∈ known) (hw : (start, w) ∈ known) :
    Emits d d' known (fun R : Runtime e => R.letGo ty v >>= fun _ => R.freeAt w)
        (fun _ => [])
      ∧ d'.builder.here.block = d.builder.here.block
      ∧ ∀ id, d.builder.here.block.index ≠ id.index → d.builder.Reserved id →
        d'.builder.Reserved id := by
  have hletGo : Emits d d₁ known (fun R : Runtime e => R.letGo ty v) fun _ => [] :=
    letGo hopen hcontents hv
  obtain ⟨hblock, hwait⟩ := block_releaseContents hopen hcontents
  have hd' : d'.builder = d₁.builder.push (.callExternal none heap.free [start]) := by
    rw [← (EStateM.Result.ok.inj hfree).2]
    rfl
  refine ⟨hletGo.bind huses fun _ _ => ?_, ?_, fun id hne hid => ?_⟩
  · exact freeAt hletGo.opened (hletGo.leads.unit.keeps.heap hheap) hfree
      (List.mem_append_right _ hw)
  · rw [hd', (Builder.Open.push hletGo.opened _).1.here, hblock]
  · rw [hd']
    exact (hwait id hne hid).push hletGo.opened (hblock ▸ hne) _

theorem freeAtZero {heap : HeapPrimitives} {layout : RefLayout} {counter new : ValueId}
    {a n : UInt64} (hopen : d.builder.IsOpen) (huses : d.Uses known)
    (hheap : d.unit.heap = some heap)
    (h : (e.freeAtZero heap layout op counter new).run d = .ok () d')
    (hv : (op, v) ∈ known) (ha : (.value counter, .ptr a) ∈ known)
    (hn : (.value new, .usize n) ∈ known) :
    Emits d d' known (fun R : Runtime e => R.freeAtZero layout v a n) fun _ => [] := by
  unfold Emitter.freeAtZero at h
  obtain ⟨isZero, d₁, h₁, k₁⟩ := Step.bind_ok h
  obtain ⟨⟨⟩, d₃, h₃, k₃⟩ := Step.bind_ok (fork_ok k₁)
  obtain ⟨⟨⟩, d₄, h₄, k₄⟩ := Step.bind_ok k₃
  obtain ⟨hid, rfl⟩ := moveTo_ok
    (d := { d₄ with builder := d₄.builder.jump d₁.builder.noBlock }) k₄
  have hcmp := compared (e := e) (y := 0) hopen h₁ hn fun _ _ => rfl
  let known₁ : Facts := [(.value isZero, .bool (Comparison.eq.holds n 0))] ++ known
  have huses₁ : d₁.Uses known₁ := (hcmp.uses ()).append (huses.leads hcmp.leads)
  -- the draft at the start of the block that frees
  let d₂ : Draft := { d₁ with
    builder := d₁.builder.forked (.value isZero) "rc.free" "rc.live" }
  obtain ⟨hleads, -, hno, -, -⟩ :=
    Builder.fork_spec hcmp.opened (.value isZero) "rc.free" "rc.live"
  have hforked : d₂.builder.Open ⟨d₁.builder.yesBlock, 0⟩ := Builder.Open.forked hcmp.opened ..
  have hblock₂ : d₂.builder.here.block = d₁.builder.yesBlock := by rw [hforked.here]
  have hne : d₂.builder.here.block.index ≠ d₁.builder.noBlock.index := by
    rw [hblock₂]
    simp [Builder.yesBlock, Builder.noBlock]
  have huses₂ : d₂.Uses known₁ :=
    huses₁.leads (e := e) ⟨hleads.trans (Builder.leads_forked ..), .refl⟩
  obtain ⟨hfree, hblock₄, hwait₄⟩ := freeing hforked.isOpen huses₂
    (hcmp.leads.unit.keeps.heap hheap) h₃ h₄ (List.mem_append_right _ hv)
    (List.mem_append_right _ ha)
  have hwhen := when hcmp.opened (List.mem_append_left _ (List.mem_singleton.mpr rfl)) hfree
    (hwait₄ _ hne hno) (hblock₄.trans hblock₂) hid
  refine (hcmp.bind huses fun _ _ => hwhen).congr fun R => ?_
  simp only [Runtime.freeAtZero, Comparison.holds, decide_eq_true_eq]

theorem loadCounter {layout : RefLayout} {ids : ValueId × ValueId} (hopen : d.builder.IsOpen)
    (huses : d.Uses known) (h : (Emitter.loadCounter layout op).run d = .ok ids d')
    (hv : (op, v) ∈ known) :
    Emits d d' known (fun _ : Runtime e => e.layouts.counter layout v)
      fun p => [(.value ids.1, .ptr p.1), (.value ids.2, .usize p.2)] := by
  unfold Emitter.loadCounter at h
  obtain ⟨counter, d₁, h₁, k₁⟩ := Step.bind_ok h
  obtain ⟨old, d₂, h₂, k₂⟩ := Step.bind_ok k₁
  obtain ⟨rfl, rfl⟩ := EStateM.Result.ok.inj k₂
  have hoffset := offset (e := e) hopen h₁ hv
  refine hoffset.bind huses fun a huses₁ => ?_
  have hfetch : Emits d₁ d₂ ([(.value counter, .ptr a)] ++ known)
      (fun _ : Runtime e => e.layouts.fetch a) fun w => [(.value old, .usize w)] :=
    fetch hoffset.opened h₂ (List.mem_append_left _ (List.mem_singleton.mpr rfl))
  refine hfetch.bind huses₁ fun w huses₂ => ?_
  have hcounter : (Operand.value counter).Below d₂.values := huses₂ (_, .ptr a) (by simp)
  have hold : (Operand.value old).Below d₂.values := huses₂ (_, .usize w) (by simp)
  refine Emits.pure hfetch.opened (fun p q hq => ?_) fun q hq => ?_
  · rcases List.mem_cons.mp hq with rfl | hq
    · exact hcounter
    · rw [List.mem_singleton.mp hq]
      exact hold
  · rcases List.mem_cons.mp hq with rfl | hq
    · simp
    · rw [List.mem_singleton.mp hq]
      simp

/-- Code that takes holders away. -/
theorem decrease {layout : RefLayout} {delta : Int64} (hopen : d.builder.IsOpen)
    (huses : d.Uses known) (h : (e.decreaseCount layout op delta).run d = .ok () d')
    (hv : (op, v) ∈ known) :
    Emits d d' known (fun R : Runtime e => R.decrease layout v delta) fun _ => [] := by
  unfold Emitter.decreaseCount at h
  obtain ⟨heap, d₁, h₁, k₁⟩ := Step.bind_ok h
  obtain ⟨u, rfl, hheap, hu⟩ := requireHeap_ok h₁
  obtain ⟨ids, d₂, h₂, k₂⟩ := Step.bind_ok k₁
  have hload := loadCounter (e := e) (d := { d with unit := u }) hopen huses h₂ hv
  obtain ⟨d₃, k₃, hcheck⟩ := checked hload.opened k₂
  obtain ⟨new, d₄, h₄, k₄⟩ := Step.bind_ok k₃
  obtain ⟨⟨⟩, d₅, h₅, k₅⟩ := Step.bind_ok k₄
  refine after_unit hu (hload.bind huses fun p huses₂ => ?_)
  let known₂ : Facts := [(.value ids.1, .ptr p.1), (.value ids.2, .usize p.2)] ++ known
  have hcheck' := hcheck known₂ p.2 (e.word (Emitter.negateCapped delta)) huses₂
    (by simp [known₂]) fun _ _ => rfl
  refine hcheck'.bind huses₂ fun _ huses₃ => ?_
  have hchanged : Emits d₃ d₄ ([] ++ known₂) (fun R : Runtime e => R.changed p.2 delta)
      fun w => [(.value new, .usize w)] := changed hcheck'.opened h₄ (by simp [known₂])
  refine hchanged.bind huses₃ fun n huses₄ => ?_
  have hput : Emits d₄ d₅ ([(.value new, .usize n)] ++ ([] ++ known₂))
      (fun _ : Runtime e => e.layouts.put p.1 n) fun _ => [] :=
    put hchanged.opened h₅ (by simp) (by simp [known₂])
  refine hput.bind huses₄ fun _ huses₅ => ?_
  have hheap₅ : d₅.unit.heap = some heap :=
    hput.leads.unit.keeps.heap (hchanged.leads.unit.keeps.heap (hcheck'.leads.unit.keeps.heap
      (hload.leads.unit.keeps.heap hheap)))
  exact freeAtZero hput.opened huses₅ hheap₅ k₅ (by simp [known₂, hv]) (by simp [known₂]) (by simp)

/-- Code that adds holders. -/
theorem increase {layout : RefLayout} {delta : Int64} (hopen : d.builder.IsOpen)
    (huses : d.Uses known) (h : (e.increaseCount layout op delta).run d = .ok () d')
    (hv : (op, v) ∈ known) :
    Emits d d' known (fun R : Runtime e => R.increase layout v delta) fun _ => [] := by
  unfold Emitter.increaseCount at h
  obtain ⟨ids, d₁, h₁, k₁⟩ := Step.bind_ok h
  have hload := loadCounter (e := e) hopen huses h₁ hv
  obtain ⟨new, d₂, h₂, k₂⟩ := Step.bind_ok k₁
  refine hload.bind huses fun p huses₁ => ?_
  let known₁ : Facts := [(.value ids.1, .ptr p.1), (.value ids.2, .usize p.2)] ++ known
  have hchanged : Emits d₁ d₂ known₁ (fun R : Runtime e => R.changed p.2 delta)
      fun w => [(.value new, .usize w)] := changed hload.opened h₂ (by simp [known₁])
  obtain ⟨d₃, k₃, hcheck⟩ := checked hchanged.opened k₂
  refine hchanged.bind huses₁ fun n huses₂ => ?_
  let known₂ : Facts := [(.value new, .usize n)] ++ known₁
  have hold : (.value ids.2, .usize p.2) ∈ known₂ := by simp [known₂, known₁]
  have hcheck' := hcheck known₂ n p.2 huses₂ (by simp [known₂]) fun _ hg => hg _ hold
  refine hcheck'.bind huses₂ fun _ huses₃ => ?_
  exact put hcheck'.opened k₃ (by simp [known₂]) (by simp [known₂, known₁])

theorem adjustCount_ok {ty : TypeId} {delta : Int64}
    (h : (e.adjustCount op delta ty).run d = .ok () d') :
    ∃ layout, e.layouts.ref ty = .ok layout ∧ layout.region = .counted ∧ delta ≠ 0
      ∧ (if delta < 0 then e.decreaseCount layout op delta
          else e.increaseCount layout op delta).run d = .ok () d' := by
  unfold Emitter.adjustCount at h
  obtain ⟨⟨⟩, d₁, h₁, k₁⟩ := Step.bind_ok h
  obtain ⟨hdelta, rfl⟩ := require_ok h₁
  obtain ⟨layout, d₂, h₂, k₂⟩ := Step.bind_ok k₁
  have hlayout : e.layouts.ref ty = .ok layout ∧ layout.region = .counted ∧ d₂ = d₁ := by
    unfold Emitter.countedLayout at h₂
    obtain ⟨layout', d₃, h₃, k₃⟩ := Step.bind_ok h₂
    obtain ⟨href, rfl⟩ := layout_ok h₃
    split at k₃
    · next hregion =>
        obtain ⟨rfl, rfl⟩ := EStateM.Result.ok.inj k₃
        exact ⟨href, hregion, rfl⟩
    · exact absurd k₃ failShowing_ne_ok
    · exact absurd k₃ failShowing_ne_ok
  obtain ⟨href, hregion, rfl⟩ := hlayout
  obtain ⟨⟨⟩, d₃, h₃, k₃⟩ := Step.bind_ok k₂
  obtain rfl := requirePoint_ok h₃
  exact ⟨layout, href, hregion, hdelta, k₃⟩

/-- Code that changes the number of holders. -/
theorem adjust {ty : TypeId} {delta : Int64} (hopen : d.builder.IsOpen)
    (huses : d.Uses known) (h : (e.adjustCount op delta ty).run d = .ok () d')
    (hv : (op, v) ∈ known) :
    ∃ layout, e.layouts.ref ty = .ok layout ∧ layout.region = .counted ∧ delta ≠ 0
      ∧ Emits d d' known (fun R : Runtime e => R.adjust layout v delta) fun _ => [] := by
  obtain ⟨layout, href, hregion, hdelta, k⟩ := adjustCount_ok h
  refine ⟨layout, href, hregion, hdelta, ?_⟩
  by_cases hneg : delta < 0
  · simp only [if_pos hneg] at k
    exact (decrease hopen huses k hv).congr fun R => (if_pos hneg).symm
  · simp only [if_neg hneg] at k
    exact (increase hopen huses k hv).congr fun R => (if_neg hneg).symm

/-- Code that lets go of a reference. -/
theorem release {ty : TypeId} (hopen : d.builder.IsOpen) (huses : d.Uses known)
    (h : (e.release op ty).run d = .ok () d') (hv : (op, v) ∈ known) :
    Emits d d' known (fun R : Runtime e => R.release ty v) fun _ => [] := by
  unfold Emitter.release at h
  obtain ⟨layout, d₁, h₁, k₁⟩ := Step.bind_ok h
  obtain ⟨href, rfl⟩ := layout_ok h₁
  split at k₁
  · next hregion =>
      obtain ⟨⟨⟩, d₂, h₂, k₂⟩ := Step.bind_ok k₁
      obtain rfl := requirePoint_ok h₂
      obtain ⟨heap, d₃, h₃, k₃⟩ := Step.bind_ok k₂
      obtain ⟨u, rfl, hheap, hu⟩ := requireHeap_ok h₃
      obtain ⟨⟨⟩, d₄, h₄, k₄⟩ := Step.bind_ok k₃
      obtain ⟨hfree, -, -⟩ := freeing (d := { d₂ with unit := u }) hopen huses hheap h₄ k₄ hv hv
      refine (after_unit hu hfree).congr fun R => ?_
      simp only [Runtime.release, href, hregion]
  · next hregion =>
      obtain ⟨layout', href', hregion', -, hadjust⟩ := adjust hopen huses k₁ hv
      obtain rfl := Except.ok.inj (href.symm.trans href')
      refine hadjust.congr fun R => ?_
      simp only [Runtime.release, href, hregion]
      exact if_pos (by decide)
  · next hregion =>
      obtain ⟨-, rfl⟩ := EStateM.Result.ok.inj k₁
      refine (skip hopen).congr fun R => ?_
      simp only [Runtime.release, href, hregion]

/-- Code that lets go of one field. -/
theorem releaseField {record : TypeId} {r : FieldRelease} (hopen : d.builder.IsOpen)
    (huses : d.Uses known) (h : (e.releaseField op record r).run d = .ok () d')
    (hv : (op, v) ∈ known) :
    Emits d d' known (fun R : Runtime e => R.releaseField v r) fun _ => [] := by
  unfold Emitter.releaseField at h
  obtain ⟨addr, d₁, h₁, k₁⟩ := Step.bind_ok h
  have hfield := fieldAddr (e := e) hopen h₁ hv
  refine hfield.bind huses fun a huses₁ => ?_
  have haddr : (.value addr, .ptr a) ∈ ([(.value addr, .ptr a)] ++ known : Facts) := by simp
  cases haction : r.action with
  | release region =>
      simp only [haction] at k₁
      obtain ⟨held, d₂, h₂, k₂⟩ := Step.bind_ok k₁
      have hfetch := fetchValue (e := e) hfield.opened h₂ haddr
      refine hfetch.bind huses₁ fun x huses₂ => ?_
      exact release hfetch.opened huses₂ k₂ (by simp)
  | descend =>
      simp only [haction] at k₁
      exact letGo hfield.opened k₁ haddr

theorem releaseFields {record : TypeId} :
    ∀ {plan : ReleasePlan} {d : Draft} {known : Facts}, d.builder.IsOpen → d.Uses known →
      (plan.forM (e.releaseField op record)).run d = .ok () d' → (op, v) ∈ known →
      Emits d d' known (fun R : Runtime e => R.releaseFields v plan) fun _ => []
  | [], d, known, hopen, _, h, _ => by
      obtain ⟨-, rfl⟩ := EStateM.Result.ok.inj h
      exact skip hopen
  | r :: plan, d, known, hopen, huses, h, hv => by
      obtain ⟨⟨⟩, d₁, h₁, k₁⟩ := Step.bind_ok h
      have hfirst := releaseField hopen huses h₁ hv
      refine hfirst.bind huses fun _ huses₁ => ?_
      exact releaseFields hfirst.opened huses₁ k₁ (List.mem_append_right _ hv)

end Emits

end Ownership
