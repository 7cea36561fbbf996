import Ownership.Proofs.Blocks
import Ownership.Proofs.Ends
import Ownership.Proofs.Literals
import Ownership.Proofs.Units

/-!
# Allocation

The code that makes a reference allocates a block, starts the counter in
it if there is one, and fills the pointee with a value or field by field
(`Emitter.allocation`). Where the heap has room and what is put into the
block has bytes, the block is there afterwards, just behind the other
allocations: it is live, its count is 1 and the contents are in it
(`Filled`). Nothing else in memory has changed.
-/

namespace Ownership

/-! ## The action -/

/-- What a block is filled with: a value, or values for slots of a record. -/
inductive Contents where
  | value (v : Value)
  | fields (l : List (FieldSlot × Value))

namespace Layouts

/-- Stores a value. -/
def putValue (L : Layouts) (ty : TypeId) (addr : UInt64) (v : Value) : Exec Unit := do
  Exec.tick
  Exec.withHeap fun h => L.store h ty addr v

/-- Stores a value in a slot of the record at an address. -/
def putSlot (L : Layouts) (addr : UInt64) (p : FieldSlot × Value) : Exec Unit := do
  let a ← Exec.displaced (.ptr addr) (UInt64.ofNat p.1.offset)
  L.putValue p.1.type a p.2

/-- Fills the pointee of type `ty` at an address. -/
def putContents (L : Layouts) (ty : TypeId) (addr : UInt64) : Contents → Exec Unit
  | .value v => L.putValue ty addr v
  | .fields l => l.forM (L.putSlot addr)

end Layouts

namespace Emitter

/-- Starts the counter of a new block; the result is where the pointee starts. -/
def started (e : Emitter) (layout : RefLayout) (block : UInt64) : Exec UInt64 :=
  if layout.hasCounter then do
    e.layouts.put block (e.word 1)
    Exec.displaced (.ptr block) (Int64.ofInt (-layout.countOffset)).toUInt64
  else pure block

/-- Makes a reference to a block of `size` bytes. -/
def allocation (e : Emitter) (layout : RefLayout) (size : Nat) (c : Contents) : Exec UInt64 := do
  Exec.tick
  let block ← Exec.malloc (UInt64.ofNat size)
  let payload ← e.started layout block
  Exec.tick
  e.layouts.putContents layout.pointee payload c
  return payload

end Emitter

/-! ## The emitted code -/

/-- The value of an operand is fixed by what is known. -/
def Fixes (known : Facts) (op : Operand) (v : Value) : Prop :=
  ∀ frame : Frame, frame.Gives known → frame.eval op = .ok v

theorem Fixes.append {known : Facts} {op : Operand} {v : Value} (h : Fixes known op v)
    (l : Facts) : Fixes (l ++ known) op v :=
  fun frame hg => h frame fun p hp => hg p (List.mem_append_right _ hp)

/-- The value that a field of a literal with the values `vs` gets. -/
def FieldSource.value (vs : List Value) : FieldSource → Value
  | .provided index => vs.getD index .unit
  | .default value => .ofLiteral value

def Initial.operands : Initial → List Operand
  | .value v => [v]
  | .fields vs => vs

/-- What a block is filled with that is made from operands with types `typeOf` and values `vs`.
The fields that a literal does not mention get their default literals. -/
inductive Emitter.Makes (e : Emitter) (ty : TypeId) (typeOf : Operand → TypeId) :
    Initial → List Value → Contents → Prop where
  | value (op : Operand) (v : Value) : Makes e ty typeOf (.value op) [v] (.value v)
  | fields {ops : List Operand} {vs : List Value} {defaults : List Literal}
      {layout : RecordLayout} : e.pool.tag ty = .record → e.layouts.record ty = .ok layout →
      layout.fields.map FieldSlot.type = ops.map typeOf ++ defaults.map Literal.type →
      ((e.pool.fields ty).drop ops.length).map FieldDef.default = defaults.map some →
      Makes e ty typeOf (.fields ops) vs
        (.fields (layout.fields.zip (vs ++ defaults.map Value.ofLiteral)))

theorem Emitter.Makes.congr {e : Emitter} {ty : TypeId} {typeOf typeOf' : Operand → TypeId}
    {init : Initial} {vs : List Value} {c : Contents} (h : e.Makes ty typeOf init vs c)
    (heq : ∀ op ∈ init.operands, typeOf op = typeOf' op) : e.Makes ty typeOf' init vs c := by
  cases h with
  | value op v => exact .value op v
  | @fields ops _ _ _ htag hlayout hfields hdefaults =>
      have htypes : ops.map typeOf = ops.map typeOf' := List.map_congr_left heq
      exact .fields htag hlayout (htypes ▸ hfields) hdefaults

/-- The types of values stay what they are. -/
theorem Function.Grows.operandType {f g : Function} (h : f.Grows g) {op : Operand}
    (hop : op.Below f.valueTypes.length) : g.operandType op = f.operandType op := by
  cases op with
  | const c => rfl
  | value id =>
      have hlt : id.index < f.valueTypes.length := hop
      obtain ⟨l, hl⟩ := h.types
      simp only [Function.operandType, Function.valueType, ← hl, List.getElem?_append_left hlt]

theorem sources_of_checkLiteral {e : Emitter} {ty : TypeId} {given : List TypeId}
    {sources : List FieldSource} {vs : List Value}
    (h : e.pool.checkLiteral ty given = .ok sources) (hvs : vs.length = given.length) :
    e.pool.tag ty = .record ∧ ∃ defaults : List Literal,
      sources.map (FieldSource.value vs) = vs ++ defaults.map Value.ofLiteral
        ∧ (e.pool.fields ty).map FieldDef.type = given ++ defaults.map Literal.type
        ∧ ((e.pool.fields ty).drop given.length).map FieldDef.default = defaults.map some := by
  obtain ⟨hfits, defaults, hdefaults, htypes, rfl⟩ :=
    Pool.literalSources_ok (Pool.checkLiteral_eq_ok_iff.mp h)
  refine ⟨hfits.isRecord, defaults, ?_, htypes, hdefaults⟩
  have hgiven : (List.range given.length).map (fun i => vs.getD i .unit) = vs := by
    refine List.ext_getElem (by simp [hvs]) fun i _ hi => ?_
    rw [List.getElem_map, List.getElem_range, List.getD_eq_getElem _ _ hi]
  rw [List.map_append, List.map_map, List.map_map]
  exact congrArg₂ (· ++ ·) hgiven rfl

theorem Program.runInstr_malloc {p : Program} {call : Caller} {heap : HeapPrimitives}
    (hheap : p.unit.heap = some heap) (frame : Frame) (dst : ValueId) (size : UInt64) :
    p.runInstr call frame (.callExternal (some dst) heap.alloc [.const (.usize size)])
      = Exec.malloc size >>= fun a => pure (frame.define dst (.ptr a)) := by
  have hsize : [Operand.const (.usize size)].mapM frame.eval = .ok [.usize size] :=
    Emits.mapM_eval rfl
  simp only [runInstr, hsize]
  change (p.callExternal heap.alloc [.usize size] >>= fun v => pure (frame.define dst v)) = _
  simp only [callExternal, hheap, if_true]
  change ((Exec.malloc size >>= fun a => pure (Value.ptr a)) >>= _) = _
  simp only [bind_assoc, pure_bind]

namespace Emits

variable {e : Emitter} {d d' : Draft} {known : Facts} {id : ValueId} {op op' : Operand} {v : Value}

/-- A call of the symbol that allocates. -/
theorem malloc {heap : HeapPrimitives} {size : UInt64} (hopen : d.builder.IsOpen)
    (hheap : d.unit.heap = some heap)
    (h : (Emit.build (·.callExternal heap.alloc [.const (.usize size)] .ptr)).run d
      = .ok id d') :
    Emits d d' known (fun _ : Runtime e => Exec.tick >>= fun _ => Exec.malloc size)
      fun a => [(.value id, .ptr a)] := by
  obtain ⟨rfl, rfl⟩ := build_ok rfl h
  refine define hopen fun R frame hkeeps _ => ?_
  exact Program.runInstr_malloc (hkeeps.heap hheap) frame _ size

theorem cast {ty : TypeId} (hopen : d.builder.IsOpen)
    (h : (Emit.build (·.cast ty op)).run d = .ok id d') (hv : (op, v) ∈ known) :
    Emits d d' known (fun _ : Runtime e => Exec.tick) fun _ => [(.value id, v)] := by
  obtain ⟨rfl, rfl⟩ := build_ok rfl h
  have hdefine : Emits d
      { d with builder := (d.builder.define ty fun dst => .cast dst ty op).2 } known
      (fun _ : Runtime e => Exec.tick >>= fun _ => Pure.pure ())
      fun _ => [(.value ⟨d.values⟩, v)] := by
    refine define hopen fun R frame _ hg => ?_
    simp only [Program.runInstr, hg _ hv]
    rfl
  exact hdefine.congr fun _ => bind_pure _

theorem putValue {ty : TypeId} {addr : UInt64} (hopen : d.builder.IsOpen)
    (h : (Emit.edit (·.store ty op op')).run d = .ok () d') (hw : Fixes known op v)
    (hv : (op', .ptr addr) ∈ known) :
    Emits d d' known (fun _ : Runtime e => e.layouts.putValue ty addr v) fun _ => [] := by
  obtain ⟨-, rfl⟩ := EStateM.Result.ok.inj h
  refine push hopen fun R frame _ hg => ?_
  have hval : Exec.outcome (.ok v) = Pure.pure v := rfl
  simp only [Program.runInstr, Frame.evalAddr_eq (hg _ hv), hw frame hg, outcome_ptr, hval,
    pure_bind]
  rfl

theorem started {layout : RefLayout} {block : ValueId} {a : UInt64} (hopen : d.builder.IsOpen)
    (huses : d.Uses known) (h : (e.startCounter layout block).run d = .ok id d')
    (ha : (.value block, .ptr a) ∈ known) :
    Emits d d' known (fun _ : Runtime e => e.started layout a) fun p => [(.value id, .ptr p)] := by
  unfold Emitter.startCounter at h
  cases hc : layout.hasCounter with
  | true =>
      simp only [hc, if_true] at h
      obtain ⟨⟨⟩, d₁, h₁, k₁⟩ := Step.bind_ok h
      have hput : Emits d d₁ known (fun _ : Runtime e => e.layouts.put a (e.word 1))
          fun _ => [] := by
        refine (putValue (e := e) (v := .usize (e.word 1)) hopen h₁ (fun _ _ => rfl) ha).congr
          fun _ => ?_
        simp only [Layouts.putValue, Layouts.put, Layouts.store_usize]
      refine (hput.bind huses fun _ _ => ?_).congr fun R => (if_pos hc).symm
      exact offset hput.opened k₁ (List.mem_append_right _ ha)
  | false =>
      simp only [hc, Bool.false_eq_true, if_false] at h
      obtain ⟨rfl, rfl⟩ := EStateM.Result.ok.inj h
      have hbelow : (Operand.value block).Below d.values := huses (_, .ptr a) ha
      refine (Emits.pure (a := a) hopen (fun p q hq => ?_) fun q hq => ?_).congr fun R =>
        (if_neg (by simp [hc])).symm
      · rw [List.mem_singleton.mp hq]
        exact hbelow
      · rw [List.mem_singleton.mp hq]
        exact ha

/-- The operand that a field of a literal is filled from. -/
theorem fixes_fieldOperand {ops : List Operand} {vs : List Value} {source : FieldSource}
    (hvs : List.Forall₂ (Fixes known) ops vs) (h : Emitter.fieldOperand ops source = .ok op) :
    Fixes known op (source.value vs) := by
  cases source with
  | default value =>
      obtain rfl := Except.ok.inj h
      exact fun _ _ => rfl
  | provided index =>
      simp only [Emitter.fieldOperand] at h
      split at h
      · next op' hop =>
          obtain rfl := Except.ok.inj h
          obtain ⟨hlt, hget⟩ := List.getElem?_eq_some_iff.mp hop
          have hlt' : index < vs.length := hvs.length_eq ▸ hlt
          have hfix := hvs.get hlt hlt'
          simp only [List.get_eq_getElem, hget] at hfix
          rw [FieldSource.value, List.getD_eq_getElem _ _ hlt']
          exact hfix
      · cases h

theorem putSlot {base : ValueId} {record : TypeId} {a : UInt64} {ops : List Operand}
    {vs : List Value} {entry : FieldSlot × FieldSource} (hopen : d.builder.IsOpen)
    (huses : d.Uses known) (h : (Emitter.storeField base record ops entry).run d = .ok () d')
    (hvs : List.Forall₂ (Fixes known) ops vs) (ha : (.value base, .ptr a) ∈ known) :
    Emits d d' known (fun _ : Runtime e => e.layouts.putSlot a (entry.1, entry.2.value vs))
      fun _ => [] := by
  unfold Emitter.storeField at h
  obtain ⟨op, d₁, h₁, k₁⟩ := Step.bind_ok h
  obtain ⟨hop, rfl⟩ := ofAbort_ok h₁
  obtain ⟨addr, d₂, h₂, k₂⟩ := Step.bind_ok k₁
  have hfield := fieldAddr (e := e) hopen h₂ ha
  refine hfield.bind huses fun a' _ => ?_
  exact putValue hfield.opened k₂ ((fixes_fieldOperand hvs hop).append _) (by simp)

theorem putSlots {base : ValueId} {record : TypeId} {a : UInt64} {ops : List Operand}
    {vs : List Value} :
    ∀ {entries : List (FieldSlot × FieldSource)} {d : Draft} {known : Facts}, d.builder.IsOpen →
      d.Uses known → (entries.forM (Emitter.storeField base record ops)).run d = .ok () d' →
      List.Forall₂ (Fixes known) ops vs → (.value base, .ptr a) ∈ known →
      Emits d d' known
        (fun _ : Runtime e => (entries.map fun p => (p.1, p.2.value vs)).forM (e.layouts.putSlot a))
        fun _ => []
  | [], d, known, hopen, _, h, _, _ => by
      obtain ⟨-, rfl⟩ := EStateM.Result.ok.inj h
      exact skip hopen
  | entry :: entries, d, known, hopen, huses, h, hvs, ha => by
      obtain ⟨⟨⟩, d₁, h₁, k₁⟩ := Step.bind_ok h
      have hfirst := putSlot (e := e) hopen huses h₁ hvs ha
      refine hfirst.bind huses fun _ huses₁ => ?_
      exact putSlots hfirst.opened huses₁ k₁ (hvs.imp fun _ _ hfix => hfix.append _)
        (List.mem_append_right _ ha)

/-- The code that fills a block. -/
theorem putContents {ty : TypeId} {reference : ValueId} {init : Initial} {vs : List Value}
    (hopen : d.builder.IsOpen)
    (h : (match init with
      | .value v => Emit.edit (·.store ty v (.value reference)) >>= fun _ => Pure.pure reference
      | .fields ops => e.storeLiteral reference ty ops >>= fun _ => Pure.pure reference :
        Emit ValueId).run d = .ok id d') (hlen : vs.length = init.operands.length) :
    id = reference ∧ ∃ c, e.Makes ty d.builder.function.operandType init vs c
      ∧ ∀ {known : Facts} {a : UInt64}, d.Uses known →
        List.Forall₂ (Fixes known) init.operands vs → (.value reference, .ptr a) ∈ known →
        Emits d d' known (fun _ : Runtime e => e.layouts.putContents ty a c) fun _ => [] := by
  cases init with
  | value op =>
      obtain ⟨⟨⟩, d₁, h₁, k₁⟩ := Step.bind_ok h
      obtain ⟨rfl, rfl⟩ := EStateM.Result.ok.inj k₁
      obtain ⟨v, rfl⟩ := List.length_eq_one_iff.mp hlen
      refine ⟨rfl, _, .value op v, fun _ hvs ha => ?_⟩
      exact putValue hopen h₁ (List.forall₂_cons.mp hvs).1 ha
  | fields ops =>
      obtain ⟨⟨⟩, d₁, h₁, k₁⟩ := Step.bind_ok h
      obtain ⟨rfl, rfl⟩ := EStateM.Result.ok.inj k₁
      unfold Emitter.storeLiteral at h₁
      obtain ⟨d₂, d₃, h₂, k₂⟩ := Step.bind_ok h₁
      obtain ⟨rfl, rfl⟩ := EStateM.Result.ok.inj h₂
      have hgiven : vs.length = (ops.map d.builder.function.operandType).length := by
        rw [hlen, List.length_map]
        rfl
      obtain ⟨sources, d₃, h₃, k₃⟩ := Step.bind_ok k₂
      obtain ⟨hsources, rfl⟩ := lift_ok h₃
      obtain ⟨layout, d₄, h₄, k₄⟩ := Step.bind_ok k₃
      obtain ⟨hlayout, rfl⟩ := layout_ok h₄
      obtain ⟨htag, defaults, hvalues, htypes, hdefaults⟩ := sources_of_checkLiteral hsources hgiven
      rw [List.length_map] at hdefaults
      have hshape := (Layouts.placed_shape (Layouts.record_eq_ok_iff.mp hlayout)).2.2
      refine ⟨rfl, _, .fields htag hlayout (hshape.trans htypes) hdefaults,
        fun huses hvs ha => ?_⟩
      refine (putSlots hopen huses k₄ hvs ha).congr fun R => ?_
      rw [Layouts.putContents, ← hvalues, List.zip_map_right]
      rfl

/-- Code that makes a reference. -/
theorem allocation {ty : TypeId} {init : Initial} {vs : List Value} (hopen : d.builder.IsOpen)
    (huses : d.Uses known) (h : (e.allocate ty init).run d = .ok id d')
    (hvs : List.Forall₂ (Fixes known) init.operands vs)
    (hbelow : ∀ op ∈ init.operands, op.Below d.values) :
    ∃ layout size c, e.layouts.ref ty = .ok layout ∧ layout.region ≠ .borrowed
      ∧ layout.allocSize = .ok size
      ∧ e.Makes layout.pointee d.builder.function.operandType init vs c
      ∧ Emits d d' known (fun _ : Runtime e => e.allocation layout size c)
        fun a => [(.value id, .ptr a)] := by
  unfold Emitter.allocate at h
  obtain ⟨layout, d₁, h₁, k₁⟩ := Step.bind_ok h
  obtain ⟨hl, rfl⟩ := layout_ok h₁
  obtain ⟨⟨⟩, d₂, h₂, k₂⟩ := Step.bind_ok k₁
  obtain ⟨hregion, rfl⟩ := requireShowing_ok h₂
  obtain ⟨⟨⟩, d₃, h₃, k₃⟩ := Step.bind_ok k₂
  obtain rfl := requirePoint_ok h₃
  obtain ⟨heap, d₄, h₄, k₄⟩ := Step.bind_ok k₃
  obtain ⟨u, rfl, hheap, hu⟩ := requireHeap_ok h₄
  obtain ⟨size, d₅, h₅, k₅⟩ := Step.bind_ok k₄
  obtain ⟨hsize, rfl⟩ := ofAbort_ok h₅
  obtain ⟨block, d₆, h₆, k₆⟩ := Step.bind_ok k₅
  obtain ⟨payload, d₇, h₇, k₇⟩ := Step.bind_ok k₆
  obtain ⟨reference, d₈, h₈, k₈⟩ := Step.bind_ok k₇
  have huses' : Draft.Uses { d₃ with unit := u } known := huses
  have hmalloc : Emits { d₃ with unit := u } d₆ known
      (fun _ : Runtime e => Exec.tick >>= fun _ => Exec.malloc (.ofNat size))
      fun a => [(.value block, .ptr a)] := malloc hopen hheap h₆
  have huses₆ : ∀ a, d₆.Uses ([(.value block, .ptr a)] ++ known) := fun a =>
    (hmalloc.uses a).append (huses'.leads hmalloc.leads)
  have hstarted : ∀ a, Emits d₆ d₇ ([(.value block, .ptr a)] ++ known)
      (fun _ : Runtime e => e.started layout a) fun p => [(.value payload, .ptr p)] := fun a =>
    started hmalloc.opened (huses₆ a) h₇ (by simp)
  have hcast : ∀ p (l : Facts), Emits d₇ d₈ ([(.value payload, .ptr p)] ++ l)
      (fun _ : Runtime e => Exec.tick) fun _ => [(.value reference, .ptr p)] := fun p l =>
    cast (hstarted 0).opened h₈ (by simp)
  have hleads := hmalloc.leads.trans ((hstarted 0).leads.trans (hcast 0 []).leads)
  obtain ⟨rfl, c, hmakes, hcontents⟩ := putContents (hcast 0 []).opened k₈ hvs.length_eq.symm
  refine ⟨layout, size, c, hl, hregion, hsize, hmakes.congr fun op hop => ?_, ?_⟩
  · exact hleads.builder.grows.operandType (hbelow op hop)
  · refine after_unit hu ((hmalloc.bind huses' fun a huses₆ => ?_).congr fun R => bind_assoc ..)
    refine (hstarted a).bind huses₆ fun p huses₇ => ?_
    refine (hcast p _).bind huses₇ fun _ huses₈ => ?_
    have hfill := hcontents (a := p) huses₈
      (hvs.imp fun _ _ hfix => ((hfix.append _).append _).append _) (by simp)
    refine hfill.bind huses₈ fun _ huses₉ => ?_
    have hbelow' : (Operand.value id).Below d'.values := huses₉ (_, .ptr p) (by simp)
    refine Emits.pure hfill.opened (fun q f hf => ?_) fun f hf => ?_
    · rw [List.mem_singleton.mp hf]
      exact hbelow'
    · rw [List.mem_singleton.mp hf]
      simp

end Emits

/-! ## What is in memory then -/

/-- The block `b'` is `b` with other bytes, from `off` on. -/
structure Block.Rewrites (b : Block) (off : Nat) (b' : Block) : Prop where
  arena : b'.arena = b.arena
  live : b'.live = b.live
  size : b'.bytes.size = b.bytes.size
  kept : ∀ i < off, b'.bytes.get i = b.bytes.get i

theorem Block.Rewrites.trans {b b₁ b₂ : Block} {off off' : Nat} (h : b.Rewrites off b₁)
    (h' : b₁.Rewrites off' b₂) (hoff : off ≤ off') : b.Rewrites off b₂ where
  arena := h'.arena.trans h.arena
  live := h'.live.trans h.live
  size := h'.size.trans h.size
  kept := fun i hi => (h'.kept i (Nat.lt_of_lt_of_le hi hoff)).trans (h.kept i hi)

namespace Layouts

variable {L : Layouts} {m : Machine} {start off : Nat} {a : UInt64} {b : Block} {ty : TypeId}
  {v : Value}

/-- A value has bytes, as many as its type asks for. -/
def Encodes (L : Layouts) (ty : TypeId) (v : Value) : Prop :=
  ∃ layout data, L.value ty = .ok layout ∧ layout.size < capacityLimit
    ∧ L.encode ty v = .ok data ∧ data.length = layout.size

/-- The bytes of a value are in a buffer, from `off` on. -/
def Carries (L : Layouts) (bytes : Bytes) (off : Nat) (ty : TypeId) (v : Value) : Prop :=
  ∃ data, L.encode ty v = .ok data ∧ bytes.slice off data.length = data

def EncodesAll (L : Layouts) (ty : TypeId) : Contents → Prop
  | .value v => L.Encodes ty v
  | .fields l => ∀ p ∈ l, L.Encodes p.1.type p.2

def CarriesAll (L : Layouts) (bytes : Bytes) (off : Nat) (ty : TypeId) : Contents → Prop
  | .value v => L.Carries bytes off ty v
  | .fields l => ∀ p ∈ l, L.Carries bytes (off + p.1.offset) p.1.type p.2

theorem yields_putValue (hc : m.heap.Clear start b)
    (hlive : b.live = true) (ha : a.toNat = start + off) {layout : ValueLayout}
    (hv : L.value ty = .ok layout) (hin : off + layout.size ≤ b.bytes.size)
    (henc : L.Encodes ty v) :
    (L.putValue ty a v).Yields m fun _ m' => m.Becomes m'.heap m' ∧ ∃ b',
      m.heap.Puts start b' m'.heap ∧ b.Rewrites off b' ∧ L.Carries b'.bytes off ty v := by
  obtain ⟨layout', data, hv', hcapacity, hdata, hlen⟩ := henc
  obtain rfl := Except.ok.inj (hv.symm.trans hv')
  refine Exec.ends_tick fun m₁ hm₁ _ => ?_
  have hwrite : m.heap.write (start + off) data = _ :=
    (hc.judges (Nat.le_add_right start off) (by omega)).write_eq hlive
  have hstore : L.store m₁.heap ty a v
      = .ok (m.heap.putBlock start { b with bytes := b.bytes.put off data }) := by
    rw [hm₁.heap, store, hv]
    change (if layout.size < capacityLimit then _ else _) = _
    rw [if_pos hcapacity, hdata]
    change (if data.length = layout.size then _ else _) = _
    rw [if_pos hlen, ha, hwrite, Nat.add_sub_cancel_left]
    rfl
  refine (Exec.yields_withHeap (f := fun h => L.store h ty a v) hstore).mono fun _ m₂ hm₂ => ?_
  refine ⟨(hm₁.trans hm₂).self, _, hm₂.heap ▸ Heap.puts_putBlock .., ?_, data, hdata, ?_⟩
  · exact ⟨rfl, rfl, rfl, fun i hi => Bytes.get_put_of_not_mem (Or.inl hi)⟩
  · exact Bytes.slice_put b.bytes off data

theorem Carries.rewrites {b' : Block} {off' : Nat} (h : L.Carries b.bytes off ty v)
    {layout : ValueLayout} (hv : L.value ty = .ok layout) (henc : L.Encodes ty v)
    (hr : b.Rewrites off' b') (hoff : off + layout.size ≤ off') :
    L.Carries b'.bytes off ty v := by
  obtain ⟨data, hdata, hslice⟩ := h
  obtain ⟨layout', data', hv', -, hdata', hlen⟩ := henc
  obtain rfl := Except.ok.inj (hv.symm.trans hv')
  obtain rfl := Except.ok.inj (hdata.symm.trans hdata')
  refine ⟨data, hdata, ?_⟩
  rw [Bytes.slice_congr fun i _ hi => hr.kept i (by omega), hslice]

/-- Slots that lie behind one another are filled one after the other. -/
theorem yields_putSlots (ha : a.toNat = start + off) {bound : Nat} :
    ∀ {l : List (FieldSlot × Value)} {m : Machine} {b : Block} {lo : Nat},
      m.heap.Clear start b → b.live = true → off + bound ≤ b.bytes.size →
      Lined L.sizeOf (l.map Prod.fst) bound → (∀ p ∈ l, lo ≤ p.1.offset) →
      (∀ p ∈ l, L.Encodes p.1.type p.2) →
      (l.forM (L.putSlot a)).Yields m fun _ m' => m.Becomes m'.heap m' ∧ ∃ b',
        m.heap.Puts start b' m'.heap ∧ b.Rewrites (off + lo) b'
          ∧ ∀ p ∈ l, L.Carries b'.bytes (off + p.1.offset) p.1.type p.2
  | [], m, b, lo, hc, hlive, hsize, hlined, hlo, henc =>
      Exec.yields_pure ⟨.refl m, b, Heap.puts_self hc.block, ⟨rfl, rfl, rfl, fun _ _ => rfl⟩, nofun⟩
  | p :: l, m, b, lo, hc, hlive, hsize, hlined, hlo, henc => by
      obtain ⟨layout, hlayout, hends⟩ := hlined.ends p.1 List.mem_cons_self
      have hbefore := (List.pairwise_cons.mp hlined.apart).1
      have hv := value_eq_ok_iff.mpr hlayout
      have hlimit := hc.limit
      have haddr : (a + UInt64.ofNat p.1.offset).toNat = start + (off + p.1.offset) := by
        rw [toNat_add_ofNat (by lia), ha, Nat.add_assoc]
      refine Exec.Yields.bind (P := fun _ m₁ => m.Becomes m₁.heap m₁ ∧ ∃ b₁,
        m.heap.Puts start b₁ m₁.heap ∧ b.Rewrites (off + p.1.offset) b₁
          ∧ L.Carries b₁.bytes (off + p.1.offset) p.1.type p.2) ?_ ?_
      · refine (Exec.yields_displaced a _ m).bind ?_
        rintro _ m₁ ⟨rfl, hm₁⟩
        have hput := yields_putValue (hm₁.heap ▸ hc) hlive haddr hv (by omega)
          (henc p List.mem_cons_self)
        refine hput.mono fun _ m₂ ⟨hm₂, hpost⟩ => ⟨hm₁.trans hm₂, hm₁.heap ▸ hpost⟩
      · rintro - m₁ ⟨hm₁, b₁, hputs₁, hrw₁, hcarries₁⟩
        have hlo' : ∀ q ∈ l, p.1.offset + layout.size ≤ q.1.offset := fun q hq =>
          hbefore q.1 (List.mem_map_of_mem hq) layout hlayout
        have hrest := yields_putSlots ha (hc.puts hputs₁ hrw₁.size) (hrw₁.live.trans hlive)
          (hrw₁.size ▸ hsize) hlined.tail hlo'
          fun q hq => henc q (List.mem_cons_of_mem _ hq)
        refine hrest.mono fun _ m₂ ⟨hm₂, b₂, hputs₂, hrw₂, hcarries₂⟩ => ?_
        refine ⟨hm₁.trans hm₂, b₂, hputs₁.trans hputs₂, ?_, fun q hq => ?_⟩
        · have hp := hlo p List.mem_cons_self
          refine (Block.Rewrites.trans ⟨hrw₁.arena, hrw₁.live, hrw₁.size, fun i hi => ?_⟩ hrw₂
            (by omega))
          exact hrw₁.kept i (by omega)
        · rcases List.mem_cons.mp hq with rfl | hq
          · exact hcarries₁.rewrites hv (henc q List.mem_cons_self) hrw₂ (by omega)
          · exact hcarries₂ q hq

end Layouts

/-- A new block of a layout, with contents in it. -/
structure Layouts.Fresh (L : Layouts) (layout : RefLayout) (c : Contents) (b : Block) : Prop where
  arena : b.arena = .heap
  live : b.live = true
  size : layout.allocSize = .ok b.bytes.size
  count : layout.region = .counted → ofLeBytes (b.bytes.slice 0 L.word) = 1
  contents : L.CarriesAll b.bytes layout.header layout.pointee c

namespace Exec

theorem yields_malloc {size : Nat} {m : Machine} {a : Address} {h' : Heap}
    (h : m.heap.malloc size = .ok (a, h')) (hsize : size < capacityLimit) :
    (malloc (UInt64.ofNat size)).Yields m fun r m' => r = UInt64.ofNat a ∧ m.Becomes h' m' := by
  refine ends_get ?_
  have hlimit : capacityLimit ≤ UInt64.size := by decide
  rw [UInt64.toNat_ofNat_of_lt' (by omega), h]
  exact ⟨_, rfl, rfl, rfl, rfl, Nat.le_refl _⟩

end Exec

namespace Emitter

variable {e : Emitter} {m : Machine} {start : Nat} {a : UInt64} {b : Block} {ty : TypeId}
  {layout : RefLayout}

theorem toNat_add_header {n : Nat} (h : a.toNat + n < sizeLimit) :
    (a + (Int64.ofInt (n : Int)).toUInt64).toNat = a.toNat + n := toNat_add_ofNat h

/-- The counter of a new block says that there is one holder. -/
theorem yields_started (hd : m.heap.Bounded) (hb : m.heap.blocks.get? start = some b)
    (hlive : b.live = true) (ha : a.toNat = start) (hl : e.layouts.ref ty = .ok layout)
    (hin : layout.header ≤ b.bytes.size) :
    (e.started layout a).Yields m fun p m' => m.Becomes m'.heap m'
      ∧ p.toNat = start + layout.header ∧ ∃ b', m.heap.Puts start b' m'.heap ∧ b.Rewrites 0 b'
        ∧ (layout.region = .counted → ofLeBytes (b'.bytes.slice 0 e.layouts.word) = 1) := by
  obtain ⟨-, hv, hh⟩ := Layouts.ref_eq_ok_iff.mp hl
  unfold started
  by_cases hreg : layout.region = .counted
  · rw [if_pos (show layout.hasCounter = true from decide_eq_true hreg)]
    rw [hreg] at hh
    obtain ⟨hword, -⟩ := Layouts.header_counted hv hh
    have hlimit := (hd.bounds hb).2
    have hj : m.heap.Judges (start + 0) e.layouts.word start b := hd.judges hb (by omega)
    have hstore : e.layouts.storeWord m.heap a (e.word 1) = _ := Layouts.storeWord_eq hj hlive ha
    refine (Layouts.yields_put hstore).bind fun _ m₁ hm₁ => ?_
    refine (Exec.yields_displaced a _ m₁).mono ?_
    rintro _ m₂ ⟨rfl, hm₂⟩
    have hheap : m₂.heap = _ := hm₂.heap.trans hm₁.heap
    refine ⟨(hm₁.trans hm₂).self, ?_, _, hheap ▸ Heap.puts_putBlock .., ?_, fun _ => ?_⟩
    · rw [RefLayout.countOffset, Int.neg_neg, toNat_add_header (by lia), ha]
    · exact ⟨rfl, rfl, rfl, fun _ hi => absurd hi (Nat.not_lt_zero _)⟩
    · have hone : (e.word 1).toNat = 1 := by
        cases hw : e.config.target.width <;> simp only [Emitter.word, hw] <;> decide
      rw [e.layouts.ofLeBytes_put b.bytes 0, hone]
      rw [hone]
      exact Nat.one_lt_two_pow (by cases e.layouts.width <;> decide)
  · rw [if_neg (by simpa [RefLayout.hasCounter] using hreg)]
    have hzero : layout.header = 0 := by
      cases hr : layout.region with
      | counted => exact absurd hr hreg
      | owning => exact Layouts.header_owning (hr ▸ hh)
      | borrowed => exact (Except.ok.inj (hr ▸ hh)).symm
    refine Exec.yields_pure ⟨.refl m, by rw [ha, hzero]; rfl, b, Heap.puts_self hb, ?_, ?_⟩
    · exact ⟨rfl, rfl, rfl, fun _ hi => absurd hi (Nat.not_lt_zero _)⟩
    · exact fun h => absurd h hreg

theorem Makes.lined {typeOf : Operand → TypeId} {init : Initial} {vs : List Value}
    {l : List (FieldSlot × Value)} (h : e.Makes ty typeOf init vs (.fields l))
    (hvs : vs.length = init.operands.length) :
    ∃ v, e.layouts.sizeOf ty = some v ∧ Layouts.Lined e.layouts.sizeOf (l.map Prod.fst) v.size := by
  cases h with
  | @fields ops _ defaults layout htag hlayout htypes =>
      have hplaced := Layouts.record_eq_ok_iff.mp hlayout
      have hlen : layout.fields.length ≤ (vs ++ defaults.map Value.ofLiteral).length := by
        have h := congrArg List.length htypes
        simp only [List.length_map, List.length_append] at h ⊢
        rw [hvs, h]
        exact Nat.le_refl _
      refine ⟨layout.value, Layouts.sizeOf_of_placed htag hplaced, ?_⟩
      rw [List.map_fst_zip hlen]
      exact (Layouts.placed_shape hplaced).1

theorem yields_putContents {off : Nat} {c : Contents} {typeOf : Operand → TypeId} {init : Initial}
    {vs : List Value} {v : ValueLayout} (hc : m.heap.Clear start b) (hlive : b.live = true)
    (ha : a.toNat = start + off)
    (hmakes : e.Makes ty typeOf init vs c) (hvs : vs.length = init.operands.length)
    (hv : e.layouts.sizeOf ty = some v) (hin : off + v.size ≤ b.bytes.size)
    (henc : e.layouts.EncodesAll ty c) :
    (e.layouts.putContents ty a c).Yields m fun _ m' => m.Becomes m'.heap m' ∧ ∃ b',
      m.heap.Puts start b' m'.heap ∧ b.Rewrites off b'
        ∧ e.layouts.CarriesAll b'.bytes off ty c := by
  cases c with
  | value x =>
      exact Layouts.yields_putValue hc hlive ha (Layouts.value_eq_ok_iff.mpr hv) hin henc
  | fields l =>
      obtain ⟨v', hv', hlined⟩ := hmakes.lined hvs
      obtain rfl := Option.some.inj (hv.symm.trans hv')
      exact Layouts.yields_putSlots ha hc hlive hin hlined (fun p _ => Nat.zero_le _) henc

/-- The code that makes a reference leaves a new block with the contents in it, where nothing is in
its way. -/
theorem yields_allocation {size : Nat} {c : Contents} {typeOf : Operand → TypeId} {init : Initial}
    {vs : List Value} (hd : m.heap.Bounded) (hvacant : m.heap.Vacant size)
    (hl : e.layouts.ref ty = .ok layout) (hsize : layout.allocSize = .ok size) {h₁ : Heap}
    (hmalloc : m.heap.malloc size = .ok (m.heap.nextHeap, h₁))
    (hmakes : e.Makes layout.pointee typeOf init vs c) (hvs : vs.length = init.operands.length)
    (henc : e.layouts.EncodesAll layout.pointee c) :
    (e.allocation layout size c).Yields m fun r m' => m.Becomes m'.heap m'
      ∧ r.toNat = m.heap.nextHeap + layout.header
      ∧ ∃ b, (m.heap.reserve size).Puts m.heap.nextHeap b m'.heap ∧ e.layouts.Fresh layout c b := by
  obtain ⟨-, hnext, -, hcapacity, hh₁⟩ := Heap.malloc_ok hmalloc
  obtain ⟨hblock, -⟩ := addSize_ok hsize
  obtain ⟨-, hv, -⟩ := Layouts.ref_eq_ok_iff.mp hl
  have hputs : (m.heap.reserve size).Puts m.heap.nextHeap ⟨.heap, true, .zeros size⟩ h₁ :=
    hh₁ ▸ Heap.puts_putBlock ..
  have hstride := Heap.add_guard_le_stride size
  have hc₁ := hvacant.clear hd hputs rfl (by lia)
  have hstart : (UInt64.ofNat m.heap.nextHeap).toNat = m.heap.nextHeap :=
    UInt64.toNat_ofNat_of_lt' (show m.heap.nextHeap < sizeLimit by lia)
  refine Exec.ends_tick fun m₁ hm₁ _ => ?_
  have hmalloc₁ : m₁.heap.malloc size = .ok (m.heap.nextHeap, h₁) := by
    rw [hm₁.heap]
    exact hmalloc
  refine (Exec.yields_malloc hmalloc₁ hcapacity).bind ?_
  rintro _ m₂ ⟨rfl, hm₂⟩
  have hc₂ : m₂.heap.Clear m.heap.nextHeap ⟨.heap, true, .zeros size⟩ := hm₂.heap ▸ hc₁
  have hstarted := yields_started (hm₂.heap ▸ hd.malloc hmalloc) hc₂.block rfl hstart hl
    (show layout.header ≤ size by omega)
  refine hstarted.bind ?_
  rintro payload m₃ ⟨hm₃, hpayload, b₃, hputs₃, hrw₃, hcount₃⟩
  have hc₃ : m₃.heap.Clear m.heap.nextHeap b₃ := hc₂.puts hputs₃ hrw₃.size
  refine Exec.ends_tick fun m₄ hm₄ _ => ?_
  have hsize₃ : layout.header + layout.value.size ≤ b₃.bytes.size := by
    rw [hrw₃.size, ← hblock]
    exact Nat.le_refl _
  have hcontents := yields_putContents (hm₄.heap ▸ hc₃) hrw₃.live hpayload hmakes hvs hv hsize₃ henc
  refine hcontents.bind ?_
  rintro - m₅ ⟨hm₅, b₅, hputs₅, hrw₅, hcarries⟩
  rw [hm₄.heap] at hputs₅
  rw [hm₂.heap] at hputs₃
  refine Exec.yields_pure ⟨(((hm₁.trans hm₂).trans hm₃).trans hm₄).trans hm₅, hpayload, b₅,
    (hputs.trans hputs₃).trans hputs₅, ?_⟩
  refine ⟨hrw₅.arena.trans hrw₃.arena, hrw₅.live.trans hrw₃.live, ?_, fun hreg => ?_, hcarries⟩
  · rw [hsize, hrw₅.size, hrw₃.size]
    rfl
  · -- the counter lies in front of the contents
    have hword : e.layouts.word ≤ layout.header := by
      obtain ⟨-, -, hh⟩ := Layouts.ref_eq_ok_iff.mp hl
      exact (Layouts.header_counted hv (hreg ▸ hh)).1
    rw [Bytes.slice_congr fun i _ hi => hrw₅.kept i (by omega)]
    exact hcount₃ hreg

end Emitter

/-! ## What a result shows -/

theorem Exec.outcome_ok {α : Type} {x : Outcome α} {a : α} {m m' : Machine}
    (h : (outcome x).run m = .ok a m') : x = .ok a ∧ m' = m := by
  cases x with
  | ok b =>
      obtain ⟨rfl, rfl⟩ := EStateM.Result.ok.inj h
      exact ⟨rfl, rfl⟩
  | error s => cases s <;> cases h

namespace Layouts

variable {L : Layouts} {m m' : Machine} {ty : TypeId} {a : UInt64} {v : Value}

/-- A store is a write of the bytes of a value. -/
theorem store_ok {h h' : Heap} (hst : L.store h ty a v = .ok h') :
    ∃ layout data, L.value ty = .ok layout ∧ layout.size < capacityLimit
      ∧ L.encode ty v = .ok data ∧ data.length = layout.size
      ∧ h.write a.toNat data = .ok h' := by
  unfold store at hst
  obtain ⟨layout, hlayout, hst⟩ := Outcome.bind_ok hst
  have hv : L.value ty = .ok layout := by
    cases hv : L.value ty with
    | ok layout' => rw [hv] at hlayout; exact congrArg Except.ok (Except.ok.inj hlayout)
    | error s => rw [hv] at hlayout; cases s <;> cases hlayout
  by_cases hsize : layout.size < capacityLimit
  · rw [if_pos hsize] at hst
    obtain ⟨data, hdata, hst⟩ := Outcome.bind_ok hst
    by_cases hlen : data.length = layout.size
    · rw [if_pos hlen] at hst
      refine ⟨layout, data, hv, hsize, hdata, hlen, ?_⟩
      cases hw : h.write a.toNat data with
      | ok h₁ =>
          rw [hw] at hst
          exact congrArg Except.ok (Except.ok.inj hst)
      | error r =>
          rw [hw] at hst
          cases hst
    · rw [if_neg hlen] at hst
      cases hst
  · rw [if_neg hsize] at hst
    cases hst

theorem encodes_of_store {h h' : Heap} (hst : L.store h ty a v = .ok h') : L.Encodes ty v := by
  obtain ⟨layout, data, hv, hsize, hdata, hlen, -⟩ := store_ok hst
  exact ⟨layout, data, hv, hsize, hdata, hlen⟩

theorem encodes_of_putValue (h : (L.putValue ty a v).run m = .ok () m') : L.Encodes ty v := by
  obtain ⟨⟨⟩, m₁, -, k₁⟩ := Step.bind_ok h
  obtain ⟨m₂, m₃, h₂, k₂⟩ := Step.bind_ok k₁
  obtain ⟨heap, m₄, h₃, -⟩ := Step.bind_ok k₂
  obtain ⟨rfl, rfl⟩ := EStateM.Result.ok.inj h₂
  exact encodes_of_store (Exec.outcome_ok h₃).1

theorem encodes_of_putSlots : ∀ {l : List (FieldSlot × Value)} {m : Machine},
    (l.forM (L.putSlot a)).run m = .ok () m' → ∀ p ∈ l, L.Encodes p.1.type p.2
  | q :: l, m, h, p, hp => by
      obtain ⟨⟨⟩, m₁, h₁, k₁⟩ := Step.bind_ok h
      rcases List.mem_cons.mp hp with rfl | hp
      · obtain ⟨a', m₂, -, k₂⟩ := Step.bind_ok h₁
        exact encodes_of_putValue k₂
      · exact encodes_of_putSlots k₁ p hp

theorem encodesAll_of_putContents {c : Contents} (h : (L.putContents ty a c).run m = .ok () m') :
    L.EncodesAll ty c := by
  cases c with
  | value v => exact encodes_of_putValue h
  | fields l => exact encodes_of_putSlots h

end Layouts

theorem Exec.malloc_ok {size : UInt64} {m m' : Machine} {a : UInt64}
    (h : (malloc size).run m = .ok a m') :
    ∃ h', m.heap.malloc size.toNat = .ok (m.heap.nextHeap, h')
      ∧ a = UInt64.ofNat m.heap.nextHeap := by
  cases hmalloc : m.heap.malloc size.toNat with
  | error s =>
      rw [run_malloc_error hmalloc] at h
      cases h
  | ok q =>
      obtain ⟨start, h'⟩ := q
      obtain ⟨rfl, -⟩ := Heap.malloc_ok hmalloc
      rw [run_malloc hmalloc] at h
      exact ⟨h', rfl, (EStateM.Result.ok.inj h).1.symm⟩

/-- An allocation with a result had room, and what it was given has bytes. -/
theorem Emitter.of_allocation_ok {e : Emitter} {layout : RefLayout} {size : Nat} {c : Contents}
    {m m' : Machine} {r : UInt64} (hsize : size < sizeLimit)
    (h : (e.allocation layout size c).run m = .ok r m') :
    (∃ h₁, m.heap.malloc size = .ok (m.heap.nextHeap, h₁))
      ∧ e.layouts.EncodesAll layout.pointee c := by
  obtain ⟨⟨⟩, m₁, h₁, k₁⟩ := Step.bind_ok h
  obtain ⟨block, m₂, h₂, k₂⟩ := Step.bind_ok k₁
  obtain ⟨payload, m₃, -, k₃⟩ := Step.bind_ok k₂
  obtain ⟨⟨⟩, m₄, -, k₄⟩ := Step.bind_ok k₃
  obtain ⟨⟨⟩, m₅, h₅, -⟩ := Step.bind_ok k₄
  refine ⟨?_, Layouts.encodesAll_of_putContents h₅⟩
  have hheap : m₁.heap = m.heap := ((Exec.yields_tick m).of_ok h₁).1.heap
  obtain ⟨h', hmalloc, -⟩ := Exec.malloc_ok h₂
  rw [UInt64.toNat_ofNat_of_lt' hsize, hheap] at hmalloc
  exact ⟨h', hmalloc⟩

/-! ## Functions that make a reference -/

/-- The value of an operand where the parameters have the values `args`. -/
def Operand.valueIn (args : List Value) : Operand → Value
  | .value id => args.getD id.index .unit
  | .const c => .ofConst c

theorem fixes_args {args : List Value} {op : Operand} (h : op.Below args.length) :
    Fixes (argFacts args) op (op.valueIn args) := by
  intro frame hg
  cases op with
  | const c => rfl
  | value id =>
      have hlt : id.index < args.length := h
      refine hg (.value id, _) (List.mem_map.mpr ⟨(args.getD id.index .unit, id.index), ?_, rfl⟩)
      rw [List.mem_zipIdx_iff_getElem?, List.getD_eq_getElem _ _ hlt]
      exact List.getElem?_eq_getElem hlt

/-- The body of a function that makes a reference from its parameters. -/
def Emitter.makeCode (e : Emitter) (ty : TypeId) (init : Initial) : Emit Unit := do
  let r ← e.allocate ty init
  Emit.edit (·.ret (some (.value r)))

namespace Emitter.Module

variable {e : Emitter} {M : e.Module} {name : String} {params : List TypeId} {ret ty : TypeId}
  {init : Initial} {args : List Value}

theorem emits_make {u : CodeUnit} {d : Draft} {id : ValueId} (hlen : args.length = params.length)
    (hbelow : ∀ op ∈ init.operands, op.Below params.length)
    (h : (e.allocate ty init).run ⟨u, .new name params ret⟩ = .ok id d) :
    ∃ layout size c, e.layouts.ref ty = .ok layout ∧ layout.region ≠ .borrowed
      ∧ layout.allocSize = .ok size
      ∧ e.Makes layout.pointee (Builder.new name params ret).function.operandType init
        (init.operands.map (Operand.valueIn args)) c
      ∧ Emits ⟨u, .new name params ret⟩ d (argFacts args)
        (fun _ : Runtime e => e.allocation layout size c) fun a => [(.value id, .ptr a)] := by
  refine Emits.allocation (Builder.open_new ..).isOpen (uses_argFacts hlen) h ?_ hbelow
  refine List.forall₂_map_right_iff.mpr (List.forall₂_same.mpr fun op hop => ?_)
  exact fixes_args (hlen ▸ hbelow op hop)

theorem builds_make {u u' : CodeUnit} {id : FuncId}
    (hbelow : ∀ op ∈ init.operands, op.Below params.length)
    (h : (addEmitted name params ret (e.makeCode ty init)).run u = .ok id u') :
    e.Builds u u' := by
  refine builds_addEmitted (fun hrun => ?_) h
  obtain ⟨layout, size, c, -, -, -, -, hemits⟩ :=
    emits_make (List.length_replicate (a := Value.unit)) hbelow hrun
  exact hemits.leads.unit

/-- A function that makes a reference allocates a block and fills it. -/
theorem run_make (hholds : M.Holds name params ret (e.makeCode ty init))
    (hlen : args.length = params.length)
    (hbelow : ∀ op ∈ init.operands, op.Below params.length) :
    ∃ layout size c, e.layouts.ref ty = .ok layout ∧ layout.region ≠ .borrowed
      ∧ layout.allocSize = .ok size
      ∧ e.Makes layout.pointee (Builder.new name params ret).function.operandType init
        (init.operands.map (Operand.valueIn args)) c
      ∧ ∀ m : Machine, (M.program.run name args).run m = (Exec.inCall
        (e.allocation layout size c >>= fun a => pure (some (.ptr a)))).run m := by
  have hreturns : ∀ (id : ValueId) (a : UInt64), Returns [(.value id, .ptr a)] (some (.value id))
      (some (.ptr a)) := fun _ _ => List.mem_singleton.mpr rfl
  have hperforms : ∃ y : Runtime e → Exec UInt64, (∃ layout size c, e.layouts.ref ty = .ok layout
      ∧ layout.region ≠ .borrowed ∧ layout.allocSize = .ok size
      ∧ e.Makes layout.pointee (Builder.new name params ret).function.operandType init
        (init.operands.map (Operand.valueIn args)) c
      ∧ y = fun _ => e.allocation layout size c) ∧ ∀ m : Machine,
        (M.program.run name args).run m = (Exec.inCall
          (y (M.runtime m.budget) >>= fun a => pure (some (.ptr a)))).run m := by
    refine hholds.performs hlen (fun h => ?_) hreturns
    obtain ⟨layout, size, c, hl, hregion, hsize, hmakes, hemits⟩ := emits_make hlen hbelow h
    exact ⟨_, ⟨layout, size, c, hl, hregion, hsize, hmakes, rfl⟩, hemits⟩
  obtain ⟨_, ⟨layout, size, c, hl, hregion, hsize, hmakes, rfl⟩, hrun⟩ := hperforms
  exact ⟨layout, size, c, hl, hregion, hsize, hmakes, hrun⟩

/-- Where there is room, and the arguments have bytes, the new block is there. -/
theorem yields_make {m : Machine} {layout : RefLayout} {size : Nat} {c : Contents}
    {typeOf : Operand → TypeId} {vs : List Value} (hd : m.heap.Bounded)
    (hvacant : m.heap.Vacant size) (hl : e.layouts.ref ty = .ok layout)
    (hsize : layout.allocSize = .ok size) {h₁ : Heap}
    (hmalloc : m.heap.malloc size = .ok (m.heap.nextHeap, h₁))
    (hmakes : e.Makes layout.pointee typeOf init vs c) (hvs : vs.length = init.operands.length)
    (henc : e.layouts.EncodesAll layout.pointee c)
    (hrun : (M.program.run name args).run m = (Exec.inCall
      (e.allocation layout size c >>= fun a => pure (some (.ptr a)))).run m) :
    (M.program.run name args).Yields m fun v m' => m.Becomes m'.heap m' ∧ ∃ r : UInt64,
      v = some (.ptr r) ∧ r.toNat = m.heap.nextHeap + layout.header
        ∧ ∃ b, (m.heap.reserve size).Puts m.heap.nextHeap b m'.heap
          ∧ e.layouts.Fresh layout c b := by
  refine Exec.Ends.of_run_eq ?_ hrun
  have hallocation := yields_allocation (m := { m with slots := [] }) hd hvacant hl hsize hmalloc
    hmakes hvs henc
  exact Exec.yields_inCall (Q := fun (r : UInt64) h => r.toNat = m.heap.nextHeap + layout.header
    ∧ ∃ b, (m.heap.reserve size).Puts m.heap.nextHeap b h ∧ e.layouts.Fresh layout c b) hallocation

end Emitter.Module

end Ownership
