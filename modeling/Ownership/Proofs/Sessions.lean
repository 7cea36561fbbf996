import Ownership.Proofs.Allocation
import Ownership.Proofs.LostRequests
import Ownership.Proofs.Paths

/-!
# Functions that are built in sessions

A session is what a client does to one function: it starts with an empty
block, makes calls of the emitter with operands that it has, each of
which succeeds, and returns. However the calls are chosen, the function
is well-formed then, and no instruction was lost on the way; and so is
every body that the emitter writes for a glue function, also where it
fails at a later one (`emitted_wellFormed`).

`Draft.Sound` is what holds between the calls. `Emit.Writes` says how a
step of the emitter changes what is known at the current point.
-/

namespace Ownership

/-! ## What is known at a point -/

/-- What an instruction calls is there: the glue functions and heap symbols of the unit, which take
one argument each. -/
def Instr.Linked (u : CodeUnit) : Instr → Prop
  | .callExternal _ callee args =>
    (∃ heap, u.heap = some heap ∧ (callee = heap.alloc ∨ callee = heap.free)) ∧ args.length = 1
  | .call _ callee args => (∃ ty, u.glueFor? ty = some callee) ∧ args.length = 1
  | _ => True

theorem Instr.Linked.mono {u u' : CodeUnit} (hkeeps : u.Keeps u') :
    ∀ {i : Instr}, i.Linked u → i.Linked u'
  | .callExternal _ _ _, ⟨⟨heap, hheap, hcallee⟩, hargs⟩ =>
    ⟨⟨heap, hkeeps.heap hheap, hcallee⟩, hargs⟩
  | .call _ _ _, ⟨⟨ty, hty⟩, hargs⟩ => ⟨⟨ty, hkeeps.glue hty⟩, hargs⟩
  | .alloca _ _ _, _ | .load _ _ _, _ | .store _ _ _, _ | .fieldAddr _ _ _ _ _, _
  | .offset _ _ _, _ | .cast _ _ _, _ | .add _ _ _ _, _ | .cmp _ _ _ _ _, _ => trivial

/-- The values that are defined, the blocks that wait, each with the values that it may rely on, and
the heap symbols, if the unit is known to have them. -/
structure Context where
  values : List ValueId
  waits : List (BlockId × List ValueId) := []
  heap : Option HeapPrimitives := none

namespace Context

/-- The context with one more value. -/
def add (c : Context) (id : ValueId) : Context := { c with values := id :: c.values }

/-- The first context knows no more than the second. -/
structure Le (c c' : Context) : Prop where
  values : c.values ⊆ c'.values
  waits : c.waits = c'.waits
  heap : ∀ heap, c.heap = some heap → c'.heap = some heap

theorem Le.refl (c : Context) : c.Le c := ⟨List.Subset.refl _, rfl, fun _ h => h⟩

theorem Le.add {c c' : Context} (h : c.Le c') (id : ValueId) : c.Le (c'.add id) :=
  ⟨List.subset_cons_of_subset id h.values, h.waits, h.heap⟩

theorem le_heap (vs : List ValueId) (heap : HeapPrimitives) :
    (⟨vs, [], none⟩ : Context).Le ⟨vs, [], some heap⟩ := ⟨List.Subset.refl _, rfl, nofun⟩

theorem among_add (c : Context) (id : ValueId) : (Operand.value id).Among (c.add id).values :=
  List.mem_cons_self

theorem among_of_add {c : Context} {op : Operand} (h : op.Among c.values) (id : ValueId) :
    op.Among (c.add id).values := h.cons id

end Context

/-- A draft of which the function is in order so far, and calls only what the unit has. -/
structure Draft.Sound (c : Context) (d : Draft) : Prop where
  builder : ∃ table, d.builder.SoundWith table c.values c.waits
  linked : ∀ i ∈ d.builder.function.instrs, i.Linked d.unit
  heap : ∀ heap, c.heap = some heap → d.unit.heap = some heap

namespace Draft.Sound

variable {c : Context} {d : Draft}

theorem mono {c' : Context} (h : d.Sound c) (hle : c'.Le c) : d.Sound c' := by
  obtain ⟨table, hb⟩ := h.builder
  rw [← hle.waits] at hb
  exact ⟨⟨table, hb.mono hle.values⟩, h.linked, fun heap hc => h.heap heap (hle.heap heap hc)⟩

theorem keeps (h : d.Sound c) {u : CodeUnit} (hkeeps : d.unit.Keeps u) :
    Sound c { d with unit := u } :=
  ⟨h.builder, fun i hi => (h.linked i hi).mono hkeeps, fun heap hc => hkeeps.heap (h.heap heap hc)⟩

theorem new (u : CodeUnit) (name : String) (params : List TypeId) (ret : TypeId) :
    Sound ⟨(Builder.new name params ret).function.params, [], none⟩
      ⟨u, .new name params ret⟩ :=
  ⟨⟨_, .new name params ret⟩, nofun, nofun⟩

theorem push (h : d.Sound c) {i : Instr} (hops : ∀ op ∈ i.operands, op.Among c.values)
    (hdst : i.dst? = none) (hlinked : i.Linked d.unit) :
    Sound c { d with builder := d.builder.push i } := by
  obtain ⟨table, hb⟩ := h.builder
  have hpush := hb.push hops fun v hv => by
    rw [hdst] at hv
    cases hv
  rw [hdst] at hpush
  refine ⟨⟨table, hpush⟩, fun i' hi' => ?_, h.heap⟩
  rcases List.mem_cons.mp ((hb.opened.instrs_push i).mem_iff.mp hi') with rfl | hi'
  · exact hlinked
  · exact h.linked i' hi'

theorem define (h : d.Sound c) {ty : TypeId} {instr : ValueId → Instr}
    (hops : ∀ op ∈ (instr ⟨d.values⟩).operands, op.Among c.values)
    (hdst : (instr ⟨d.values⟩).dst? = some ⟨d.values⟩)
    (hlinked : (instr ⟨d.values⟩).Linked d.unit) :
    Sound (c.add ⟨d.values⟩) { d with builder := (d.builder.define ty instr).2 } := by
  obtain ⟨table, hb⟩ := h.builder
  refine ⟨⟨table, hb.define hops hdst⟩, fun i hi => ?_, h.heap⟩
  have hopen := hb.opened.fresh ty
  rcases List.mem_cons.mp ((hopen.instrs_push _).mem_iff.mp hi) with rfl | hi
  · exact hlinked
  · exact h.linked i hi

/-- Two new blocks and a branch to them, of which the first one is filled next. -/
theorem fork (h : d.Sound c) (hwaits : c.waits = []) {cond : Operand} (hcond : cond.Among c.values)
    (yes no : String) :
    Sound { c with waits := [(d.builder.noBlock, c.values)] }
      { d with builder := d.builder.forked cond yes no } := by
  obtain ⟨table, hb⟩ := h.builder
  rw [hwaits] at hb
  have hb₂ := (hb.appendBlock yes c.values).appendBlock no c.values
  have hlen : (d.builder.appendBlock yes).2.function.blocks.length
      = d.builder.function.blocks.length + 1 := by simp [Builder.appendBlock]
  rw [hlen, List.nil_append, List.singleton_append] at hb₂
  let b₂ := ((d.builder.appendBlock yes).2.appendBlock no).2
  let t := Terminator.branch cond d.builder.yesBlock d.builder.noBlock
  have hfork : d.builder.fork cond yes no = b₂.terminate t := by
    simp only [b₂, t, Builder.fork, Builder.branch, Builder.yesBlock, Builder.noBlock,
      Builder.appendBlock, List.length_append, List.length_singleton]
  have hid : d.builder.yesBlock.index < (b₂.terminate t).function.blocks.length := by
    rw [← hfork, Builder.length_fork]
    exact Nat.lt_add_of_pos_right Nat.two_pos
  have hforked : d.builder.forked cond yes no = (b₂.terminate t).moveTo d.builder.yesBlock hid := by
    simp only [Builder.forked, hfork]
  rw [hforked]
  refine ⟨⟨_, hb₂.leave (t := t) (List.forall_mem_singleton.mpr hcond) (fun s hs => ?_)
    (List.forall_mem_singleton.mpr (Nat.lt_succ_self _)) hid⟩, fun i hi => ?_, h.heap⟩
  · refine ⟨c.values, ?_, List.Subset.refl _⟩
    rcases List.mem_cons.mp hs with rfl | hs
    · exact List.mem_cons_self
    · obtain rfl := List.mem_singleton.mp hs
      exact List.mem_cons_of_mem _ List.mem_cons_self
  · change i ∈ (b₂.terminate t).function.instrs at hi
    rw [hb₂.opened.instrs_terminate, Builder.instrs_appendBlock, Builder.instrs_appendBlock] at hi
    exact h.linked i hi

/-- The current block is closed, and the block that waits is filled next. -/
theorem leave {w : BlockId} {ws : List ValueId} (h : d.Sound { c with waits := [(w, ws)] })
    {t : Terminator} (hops : t.operands = []) (hsuccessors : ∀ s ∈ t.successors, s = w)
    (hws : ws ⊆ c.values) (hid : w.index < (d.builder.terminate t).function.blocks.length) :
    Sound { c with values := ws, waits := [] }
      { d with builder := (d.builder.terminate t).moveTo w hid } := by
  obtain ⟨table, hb⟩ := h.builder
  refine ⟨⟨table, hb.leave ?_ ?_ nofun hid⟩, fun i hi => ?_, h.heap⟩
  · rw [hops]
    nofun
  · intro s hs
    rw [hsuccessors s hs]
    exact ⟨ws, List.mem_cons_self, hws⟩
  · change i ∈ (d.builder.terminate t).function.instrs at hi
    rw [hb.opened.instrs_terminate] at hi
    exact h.linked i hi

theorem wellFormed_ret (h : d.Sound c) (hwaits : c.waits = []) {value : Option Operand}
    (hvalue : ∀ op ∈ value, op.Among c.values) : (d.builder.ret value).dropped = 0
      ∧ (d.builder.ret value).function.WellFormed
      ∧ ∀ i ∈ (d.builder.ret value).function.instrs, i.Linked d.unit := by
  obtain ⟨table, hb⟩ := h.builder
  rw [hwaits] at hb
  obtain ⟨hdropped, hwell⟩ := hb.wellFormed_ret hvalue
  refine ⟨hdropped, hwell, fun i hi => ?_⟩
  rw [Builder.ret, hb.opened.instrs_terminate] at hi
  exact h.linked i hi

end Draft.Sound

/-! ## How emissions change it -/

namespace Emit

variable {α β : Type} {c c' : Context} {x : Emit α} {f : α → Emit β} {Q : α → Context}
  {Q' : β → Context} {vs : List ValueId} {op : Operand}

/-- Where `x` succeeds on a sound draft, the draft is sound afterwards, with what is known then. -/
def Writes (c : Context) (x : Emit α) (Q : α → Context) : Prop :=
  ∀ (d d' : Draft) (a : α), d.Sound c → x.run d = .ok a d' → d'.Sound (Q a)

theorem Writes.bind (hx : Writes c x Q) (hf : ∀ a, Writes (Q a) (f a) Q') :
    Writes c (x >>= f) Q' := by
  intro d d' b hd hrun
  obtain ⟨a, d₁, h₁, k₁⟩ := Step.bind_ok hrun
  exact hf a d₁ d' b (hx d d₁ a hd h₁) k₁

/-- Part of what is known before is enough, and part of what is known afterwards. -/
theorem Writes.mono {R : α → Context} (hx : Writes c x Q) (hc : c.Le c')
    (hQ : ∀ a, (R a).Le (Q a)) : Writes c' x R :=
  fun d d' a hd hrun => (hx d d' a (hd.mono hc) hrun).mono (hQ a)

theorem writes_pure {a : α} (h : c = Q a) : Writes c (pure a) Q := by
  intro d d' b hd hrun
  obtain ⟨rfl, rfl⟩ := EStateM.Result.ok.inj hrun
  exact h ▸ hd

theorem writes_requirePoint : Writes c requirePoint fun _ => c := by
  intro d d' a hd hrun
  exact Emits.requirePoint_ok hrun ▸ hd

theorem writes_lift {ε : Type} (g : ε → EmitError) (y : Except (Stop ε) α) :
    Writes c (Step.lift g y : Emit α) fun _ => c := by
  intro d d' a hd hrun
  exact (Emits.lift_ok hrun).2 ▸ hd

theorem writes_layout (y : Except (Stop LayoutError) α) : Writes c (layout y) fun _ => c :=
  writes_lift _ y

theorem writes_requireShowing {e : Emitter} {ok : Bool} {ty : TypeId} {err : String → EmitError} :
    Writes c (e.requireShowing ok ty err) fun _ => c := by
  intro d d' a hd hrun
  have hrun' : (e.requireShowing (ok = true) ty err).run d = .ok () d' := by simpa using hrun
  exact (Emits.requireShowing_ok hrun').2 ▸ hd

/-- The answer of a computation that may abort, and what is done with it. -/
theorem writes_ofAbort_bind {y : Except Abort α} (hf : ∀ a, y = .ok a → Writes c (f a) Q') :
    Writes c ((Step.ofAbort y : Emit α) >>= f) Q' := by
  cases y with
  | ok a => exact hf a rfl
  | error r => nofun

theorem writes_requireHeap (e : Emitter) :
    Writes c e.requireHeap fun heap => { c with heap := some heap } := by
  intro d d' heap hd hrun
  obtain ⟨u, rfl, hheap, hasks⟩ := Emits.requireHeap_ok hrun
  have hkept := hd.keeps hasks.keeps
  exact ⟨hkept.builder, hkept.linked, fun heap' h => Option.some.inj h ▸ hheap⟩

theorem writes_forM {g : α → Emit Unit} {l : List α}
    (h : ∀ a ∈ l, Writes ⟨vs, [], none⟩ (g a) fun _ => ⟨vs, [], none⟩) :
    Writes ⟨vs, [], none⟩ (l.forM g) fun _ => ⟨vs, [], none⟩ := by
  induction l with
  | nil => exact writes_pure rfl
  | cons a l ih =>
      exact (h a List.mem_cons_self).bind fun _ => ih fun b hb => h b (List.mem_cons_of_mem a hb)

/-- An instruction that defines a value. -/
theorem writes_define {g : Builder → ValueId × Builder} {ty : TypeId} {instr : ValueId → Instr}
    (hg : ∀ b, g b = b.define ty instr) (hdst : ∀ id, (instr id).dst? = some id)
    (hops : ∀ id, ∀ op ∈ (instr id).operands, op.Among c.values)
    (hlinked : ∀ id (u : CodeUnit), (∀ heap, c.heap = some heap → u.heap = some heap) →
      (instr id).Linked u) : Writes c (build g) c.add := by
  intro d d' id hd hrun
  obtain ⟨rfl, rfl⟩ := Emits.build_ok (hg d.builder) hrun
  exact hd.define (hops _) (hdst _) (hlinked _ _ hd.heap)

/-- An instruction that defines nothing. -/
theorem writes_push {g : Builder → Builder} {i : Instr} (hg : ∀ b, g b = b.push i)
    (hdst : i.dst? = none) (hops : ∀ op ∈ i.operands, op.Among c.values)
    (hlinked : ∀ u : CodeUnit, (∀ heap, c.heap = some heap → u.heap = some heap) → i.Linked u) :
    Writes c (edit g) fun _ => c := by
  intro d d' a hd hrun
  obtain ⟨-, rfl⟩ := EStateM.Result.ok.inj hrun
  change Draft.Sound c { d with builder := g d.builder }
  rw [hg]
  exact hd.push hops hdst (hlinked _ hd.heap)

/-! ### Instructions -/

theorem writes_load {ptr : Operand} (ty : TypeId) (h : ptr.Among c.values) :
    Writes c (build (·.load ty ptr)) c.add :=
  writes_define (fun _ => rfl) (fun _ => rfl) (fun _ => List.forall_mem_singleton.mpr h)
    fun _ _ _ => trivial

theorem writes_alloca (ty : TypeId) (name : Name) : Writes c (build (·.alloca ty name)) c.add :=
  writes_define (fun _ => rfl) (fun _ => rfl) (fun _ => nofun) fun _ _ _ => trivial

theorem writes_fieldAddr {base : Operand} (record : TypeId) (index : Nat) (bytes : UInt64)
    (h : base.Among c.values) : Writes c (build (·.fieldAddr base record index bytes)) c.add :=
  writes_define (fun _ => rfl) (fun _ => rfl) (fun _ => List.forall_mem_singleton.mpr h)
    fun _ _ _ => trivial

theorem writes_offset {base : Operand} (bytes : Int64) (h : base.Among c.values) :
    Writes c (build (·.offset base bytes)) c.add :=
  writes_define (fun _ => rfl) (fun _ => rfl) (fun _ => List.forall_mem_singleton.mpr h)
    fun _ _ _ => trivial

theorem writes_cast {value : Operand} (ty : TypeId) (h : value.Among c.values) :
    Writes c (build (·.cast ty value)) c.add :=
  writes_define (fun _ => rfl) (fun _ => rfl) (fun _ => List.forall_mem_singleton.mpr h)
    fun _ _ _ => trivial

theorem forall_mem_pair {op op' : Operand} (h : op.Among vs) (h' : op'.Among vs) :
    ∀ o ∈ [op, op'], o.Among vs :=
  List.forall_mem_cons.mpr ⟨h, List.forall_mem_singleton.mpr h'⟩

theorem writes_add {lhs rhs : Operand} (ty : TypeId) (hl : lhs.Among c.values)
    (hr : rhs.Among c.values) : Writes c (build (·.add ty lhs rhs)) c.add :=
  writes_define (fun _ => rfl) (fun _ => rfl) (fun _ => forall_mem_pair hl hr) fun _ _ _ => trivial

theorem writes_cmp {lhs rhs : Operand} (how : Comparison) (ty : TypeId) (hl : lhs.Among c.values)
    (hr : rhs.Among c.values) : Writes c (build (·.cmp how ty lhs rhs)) c.add :=
  writes_define (fun _ => rfl) (fun _ => rfl) (fun _ => forall_mem_pair hl hr) fun _ _ _ => trivial

theorem writes_store {value ptr : Operand} (ty : TypeId) (hv : value.Among c.values)
    (hp : ptr.Among c.values) : Writes c (edit (·.store ty value ptr)) fun _ => c :=
  writes_push (fun _ => rfl) rfl (forall_mem_pair hv hp) fun _ _ => trivial

theorem writes_alloc {heap : HeapPrimitives} (n : Const) (hheap : c.heap = some heap) :
    Writes c (build (·.callExternal heap.alloc [.const n] .ptr)) c.add :=
  writes_define (fun _ => rfl) (fun _ => rfl) (fun _ => List.forall_mem_singleton.mpr trivial)
    fun _ _ hu => ⟨⟨heap, hu heap hheap, Or.inl rfl⟩, rfl⟩

theorem writes_free {heap : HeapPrimitives} (hheap : c.heap = some heap) (h : op.Among c.values) :
    Writes c (edit (·.callExternalVoid heap.free [op])) fun _ => c :=
  writes_push (fun _ => rfl) rfl (List.forall_mem_singleton.mpr h) fun _ hu =>
    ⟨⟨heap, hu heap hheap, Or.inr rfl⟩, rfl⟩

/-- A branch to a trap. -/
theorem writes_trapIf {cond : Operand} (hwaits : c.waits = []) (hcond : cond.Among c.values)
    (cause : TrapCause) (label : String) : Writes c (trapIf cond cause label) fun _ => c := by
  intro d d' a hd hrun
  obtain ⟨hid, rfl⟩ := Emits.moveTo_ok (d := { d with
    builder := (d.builder.forked cond cause.keyword label).trap cause }) (Emits.fork_ok hrun)
  have hforked := hd.fork hwaits hcond cause.keyword label
  have hleft := hforked.leave (t := .trap cause) rfl nofun (List.Subset.refl _) hid
  rw [← hwaits] at hleft
  exact hleft

end Emit

/-! ## The operations of an emitter -/

namespace Emitter

open Emit

variable {e : Emitter} {c : Context} {vs : List ValueId} {op : Operand}

theorem among_wordConst (e : Emitter) (n : Int64) : (e.wordConst n).Among vs := trivial

theorem writes_releaseContents (ty : TypeId) (h : op.Among c.values) :
    Writes c (e.releaseContents op ty) fun _ => c := by
  intro d d' a hd hrun
  unfold releaseContents at hrun
  obtain ⟨plan, d₁, h₁, k₁⟩ := Step.bind_ok hrun
  obtain ⟨-, rfl⟩ := Emits.layout_ok h₁
  split at k₁
  · obtain ⟨-, rfl⟩ := EStateM.Result.ok.inj k₁
    exact hd
  · obtain ⟨⟨⟩, d₂, h₂, k₂⟩ := Step.bind_ok k₁
    obtain rfl := Emits.requirePoint_ok h₂
    obtain ⟨-, rfl⟩ := EStateM.Result.ok.inj k₂
    have hkept := hd.keeps (keeps_requestGlue d₂.unit ty (e.glueName ty))
    refine hkept.push (i := .call none _ [op]) (List.forall_mem_singleton.mpr h) rfl ⟨⟨ty, ?_⟩, rfl⟩
    exact CodeUnit.glueFor?_requestGlue d₂.unit ty (e.glueName ty)

theorem writes_loadCounter (layout : RefLayout) (h : op.Among c.values) :
    Writes c (loadCounter layout op) fun ids => (c.add ids.1).add ids.2 :=
  (writes_offset _ h).bind fun counter => (writes_load _ (c.among_add counter)).bind fun _ =>
    writes_pure rfl

/-- A comparison and a trap behind it, where counts are checked, and what follows. -/
theorem writes_checked {β : Type} {lhs rhs : Operand} {cause : TrapCause} {label : String}
    {k : Unit → Emit β} {Q : β → Context} (hwaits : c.waits = []) (hl : lhs.Among c.values)
    (hr : rhs.Among c.values) (hk : Writes c (k ()) Q) :
    Writes c (if e.config.checks = .trap then do
        let bad ← Emit.build (·.cmp .lt .usize lhs rhs)
        let r ← Emit.trapIf (.value bad) cause label
        k r
      else k ()) Q := by
  split
  · refine (writes_cmp _ _ hl hr).bind fun bad =>
      (writes_trapIf (c := c.add bad) hwaits (c.among_add bad) cause label).bind fun _ => ?_
    exact hk.mono ((Context.Le.refl c).add bad) fun b => .refl _
  · exact hk

theorem writes_freeAtZero {heap : HeapPrimitives} {layout : RefLayout} {counter new : ValueId}
    (hwaits : c.waits = []) (hheap : c.heap = some heap) (h : op.Among c.values)
    (hcounter : counter ∈ c.values) (hnew : new ∈ c.values) :
    Writes c (e.freeAtZero heap layout op counter new) fun _ => c := by
  intro d d' a hd hrun
  unfold freeAtZero at hrun
  obtain ⟨isZero, d₁, h₁, k₁⟩ := Step.bind_ok hrun
  have hzero : (Operand.const (.usize 0)).Among c.values := trivial
  have hd₁ := writes_cmp .eq .usize (Operand.among_value hnew) hzero d d₁ isZero hd h₁
  obtain ⟨⟨⟩, d₃, h₃, k₃⟩ := Step.bind_ok (Emits.fork_ok k₁)
  obtain ⟨⟨⟩, d₄, h₄, k₄⟩ := Step.bind_ok k₃
  obtain ⟨hid, rfl⟩ := Emits.moveTo_ok
    (d := { d₄ with builder := d₄.builder.jump d₁.builder.noBlock }) k₄
  have hd₂ := hd₁.fork hwaits (c.among_add isZero) "rc.free" "rc.live"
  let c₂ : Context := { c.add isZero with waits := [(d₁.builder.noBlock, (c.add isZero).values)] }
  have hd₃ := writes_releaseContents (c := c₂) layout.pointee (h.cons isZero) _ _ _ hd₂ h₃
  have hcounter₂ : (Operand.value counter).Among c₂.values := List.mem_cons_of_mem isZero hcounter
  have hd₄ := writes_free (c := c₂) hheap hcounter₂ _ _ _ hd₃ h₄
  have hleft := hd₄.leave (c := c.add isZero) (t := .jump d₁.builder.noBlock) rfl
    (fun s hs => List.mem_singleton.mp hs) (List.Subset.refl _) hid
  exact hleft.mono ⟨List.subset_cons_self isZero c.values, hwaits, fun _ h => h⟩

variable {layout : RefLayout}

theorem writes_increaseCount (delta : Int64) (h : op.Among vs) :
    Writes ⟨vs, [], none⟩ (e.increaseCount layout op delta) fun _ => ⟨vs, [], none⟩ := by
  refine (writes_loadCounter layout h).bind fun ids => ?_
  refine (writes_add _ (Context.among_add _ ids.2) (e.among_wordConst delta)).bind fun new => ?_
  refine writes_checked rfl (Context.among_add _ new) ?_ ?_
  · exact Context.among_of_add (Context.among_add _ ids.2) new
  · refine (writes_store _ (Context.among_add _ new) ?_).mono (.refl _) fun _ => ?_
    · exact Context.among_of_add (Context.among_of_add (Context.among_add _ ids.1) ids.2) new
    · exact (((Context.Le.refl _).add ids.1).add ids.2).add new

theorem writes_decreaseCount (delta : Int64) (h : op.Among vs) :
    Writes ⟨vs, [], none⟩ (e.decreaseCount layout op delta) fun _ => ⟨vs, [], none⟩ := by
  refine (writes_requireHeap e).bind fun heap => (writes_loadCounter layout h).bind fun ids => ?_
  refine writes_checked rfl (Context.among_add _ ids.2) (e.among_wordConst _) ?_
  refine (writes_add _ (Context.among_add _ ids.2) (e.among_wordConst delta)).bind fun new => ?_
  have hcounter := Context.among_of_add (Context.among_of_add
    (Context.among_add ⟨vs, [], some heap⟩ ids.1) ids.2) new
  refine (writes_store _ (Context.among_add _ new) hcounter).bind fun _ => ?_
  refine (writes_freeAtZero rfl rfl (((h.cons ids.1).cons ids.2).cons new) hcounter
    (Context.among_add _ new)).mono (.refl _) fun _ => ?_
  exact (((Context.le_heap vs heap).add ids.1).add ids.2).add new

theorem writes_adjustCount (delta : Int64) (ty : TypeId) (h : op.Among vs) :
    Writes ⟨vs, [], none⟩ (e.adjustCount op delta ty) fun _ => ⟨vs, [], none⟩ := by
  intro d d' a hd hrun
  obtain ⟨layout, -, -, -, k⟩ := Emits.adjustCount_ok hrun
  split at k
  · exact writes_decreaseCount delta h d d' a hd k
  · exact writes_increaseCount delta h d d' a hd k

theorem writes_release (ty : TypeId) (h : op.Among vs) :
    Writes ⟨vs, [], none⟩ (e.release op ty) fun _ => ⟨vs, [], none⟩ := by
  refine (writes_layout _).bind fun layout => ?_
  split
  · refine writes_requirePoint.bind fun _ => (writes_requireHeap e).bind fun heap =>
      (writes_releaseContents layout.pointee h).bind fun _ => ?_
    exact (writes_free rfl h).mono (.refl _) fun _ => Context.le_heap vs heap
  · exact writes_adjustCount (-1) ty h
  · exact writes_pure rfl

theorem writes_storeLiteral {base : ValueId} {ops : List Operand} (record : TypeId)
    (hbase : base ∈ vs) (hops : ∀ op ∈ ops, op.Among vs) :
    Writes ⟨vs, [], none⟩ (e.storeLiteral base record ops) fun _ => ⟨vs, [], none⟩ := by
  have hget : Writes ⟨vs, [], none⟩ (get : Emit Draft) fun _ => ⟨vs, [], none⟩ :=
    fun d d' a hd hrun => (EStateM.Result.ok.inj hrun).2 ▸ hd
  refine hget.bind fun d => (writes_lift _ _).bind fun sources =>
    (writes_layout _).bind fun layout => writes_forM fun entry _ => ?_
  refine writes_ofAbort_bind fun v hv => ?_
  have hvalue : v.Among vs := by
    unfold fieldOperand at hv
    split at hv
    · split at hv
      · next hget =>
          obtain rfl := Except.ok.inj hv
          exact hops _ (List.mem_of_getElem? hget)
      · cases hv
    · obtain rfl := Except.ok.inj hv
      trivial
  refine (writes_fieldAddr _ _ _ (Operand.among_value hbase)).bind fun addr => ?_
  exact (writes_store _ (hvalue.cons addr) (Context.among_add _ addr)).mono (.refl _) fun _ =>
    (Context.Le.refl _).add addr

theorem writes_allocate {init : Initial} (ty : TypeId) (hinit : ∀ op ∈ init.operands, op.Among vs) :
    Writes ⟨vs, [], none⟩ (e.allocate ty init) fun reference => ⟨reference :: vs, [], none⟩ := by
  refine (writes_layout _).bind fun layout => writes_requireShowing.bind fun _ =>
    writes_requirePoint.bind fun _ => (writes_requireHeap e).bind fun heap =>
    writes_ofAbort_bind fun size _ => (writes_alloc _ rfl).bind fun block => ?_
  have hblock : (Operand.value block).Among (block :: vs) := List.mem_cons_self
  -- of the values on the way, only the reference is handed out
  have hstart : Writes ⟨block :: vs, [], none⟩ (e.startCounter layout block)
      fun payload => ⟨payload :: vs, [], none⟩ := by
    unfold startCounter
    split
    · refine (writes_store _ (e.among_wordConst 1) hblock).bind fun _ => ?_
      refine (writes_offset _ hblock).mono (.refl _) fun payload => ⟨?_, rfl, nofun⟩
      exact List.cons_subset_cons payload (List.subset_cons_self block vs)
    · exact writes_pure rfl
  have hcast : ∀ payload, Writes ⟨payload :: vs, [], none⟩ (Emit.build (·.cast ty (.value payload)))
      fun reference => ⟨reference :: vs, [], none⟩ := fun payload =>
    (writes_cast ty (Operand.among_value List.mem_cons_self)).mono (.refl _) fun reference =>
      ⟨List.cons_subset_cons reference (List.subset_cons_self payload vs), rfl, nofun⟩
  refine (hstart.mono (Context.le_heap (block :: vs) heap) fun _ => .refl _).bind fun payload =>
    (hcast payload).bind fun reference => ?_
  have hreference : (Operand.value reference).Among (reference :: vs) := List.mem_cons_self
  cases init with
  | value v =>
      exact (writes_store _ ((hinit v (List.mem_singleton.mpr rfl)).cons reference)
        hreference).bind fun _ => writes_pure rfl
  | fields ops =>
      exact (writes_storeLiteral _ List.mem_cons_self fun op hop =>
        (hinit op hop).cons reference).bind fun _ => writes_pure rfl

theorem writes_declareLocal {scope : Scope} {init : Option Operand} (name : Name) (ty : TypeId)
    (hscope : scope.slots ⊆ vs) (hinit : ∀ op ∈ init, op.Among vs) :
    Writes ⟨vs, [], none⟩ (e.declareLocal scope name ty init)
      fun declared => ⟨declared.2.slots ++ vs, [], none⟩ := by
  have hcustody : Writes ⟨vs, [], none⟩ (e.custody ty) fun _ => ⟨vs, [], none⟩ := by
    unfold custody
    split
    · exact writes_pure rfl
    · exact (writes_layout _).bind fun _ => writes_pure rfl
    · exact writes_pure rfl
  refine writes_requirePoint.bind fun _ => hcustody.bind fun custody =>
    (writes_alloca ty name).bind fun slot => ?_
  have hslots : (scope.declare ⟨name, ty, slot, custody, false⟩).2.slots ++ vs ⊆ slot :: vs := by
    simp only [Scope.declare, Scope.slots, List.map_append, List.map_cons, List.map_nil]
    refine List.append_subset.mpr ⟨List.append_subset.mpr ⟨?_, ?_⟩, List.subset_cons_self slot vs⟩
    · exact List.subset_cons_of_subset slot hscope
    · exact List.cons_subset_cons slot (List.nil_subset vs)
  have hdone : Writes ⟨slot :: vs, [], none⟩
      (pure (scope.declare ⟨name, ty, slot, custody, false⟩) : Emit (Nat × Scope))
      fun declared => ⟨declared.2.slots ++ vs, [], none⟩ :=
    Writes.mono (writes_pure rfl) ⟨hslots, rfl, fun _ h => h⟩ fun _ => .refl _
  cases init with
  | none => exact hdone
  | some v =>
      refine (writes_store ty ((hinit v rfl).cons slot) (Context.among_add _ slot)).bind ?_
      exact fun _ => hdone

theorem writes_closeScope {scope : Scope} (hscope : scope.slots ⊆ vs) :
    Writes ⟨vs, [], none⟩ (e.closeScope scope) fun _ => ⟨vs, [], none⟩ := by
  refine writes_forM fun v hv => ?_
  have hslot : (Operand.value v.slot).Among vs :=
    hscope (List.mem_map_of_mem (List.mem_filter.mp hv).1)
  unfold releaseVariable
  split
  · exact writes_releaseContents v.type hslot
  · refine (writes_load v.type hslot).bind fun held => ?_
    exact (writes_release v.type (Context.among_add _ held)).mono (.refl _) fun _ =>
      (Context.Le.refl _).add held

theorem writes_releaseField (record : TypeId) (r : FieldRelease) (h : op.Among vs) :
    Writes ⟨vs, [], none⟩ (e.releaseField op record r) fun _ => ⟨vs, [], none⟩ := by
  refine (writes_fieldAddr _ _ _ h).bind fun addr => ?_
  have hle := (Context.Le.refl ⟨vs, [], none⟩).add addr
  split
  · refine (writes_load _ (Context.among_add _ addr)).bind fun held => ?_
    refine (writes_release r.slot.type (Context.among_add _ held)).mono (.refl _) ?_
    exact fun _ => hle.add held
  · refine (writes_releaseContents r.slot.type (Context.among_add _ addr)).mono (.refl _) ?_
    exact fun _ => hle

end Emitter

/-- The operands of a call, and the slots of the scopes that it works on. -/
def Operation.operands : Operation → List Operand
  | .allocate _ init => init.operands
  | .adjustCount reference _ _ => [reference]
  | .release reference _ => [reference]
  | .releaseContents base _ => [base]
  | .declareLocal scope _ _ init => init.toList ++ scope.slots.map .value
  | .closeScope scope => scope.slots.map .value
  | .closeScopes stack _ => stack.scopes.flatMap fun scope => scope.slots.map .value

/-- A call with operands that are defined leaves the draft sound, and the values that it hands out
are defined then. -/
theorem Operation.writes {e : Emitter} {vs : List ValueId} {op : Operation}
    (h : ∀ o ∈ op.operands, o.Among vs) :
    Emit.Writes ⟨vs, [], none⟩ (op.emit e) fun new => ⟨new ++ vs, [], none⟩ := by
  have hslots : ∀ {scope : Scope}, (∀ o ∈ scope.slots.map Operand.value, o.Among vs) →
      scope.slots ⊆ vs := fun hscope v hv => hscope _ (List.mem_map_of_mem hv)
  cases op with
  | allocate ty init =>
      exact (Emitter.writes_allocate ty h).bind fun reference => Emit.writes_pure rfl
  | adjustCount reference delta ty =>
      exact (Emitter.writes_adjustCount delta ty (h _ List.mem_cons_self)).bind fun _ =>
        Emit.writes_pure rfl
  | release reference ty =>
      exact (Emitter.writes_release ty (h _ List.mem_cons_self)).bind fun _ => Emit.writes_pure rfl
  | releaseContents base ty =>
      exact (Emitter.writes_releaseContents ty (h _ List.mem_cons_self)).bind fun _ =>
        Emit.writes_pure rfl
  | declareLocal scope name ty init =>
      have hinit : ∀ o ∈ init, o.Among vs := fun o ho =>
        h o (List.mem_append_left _ (Option.mem_toList.mpr ho))
      have hscope : scope.slots ⊆ vs := hslots fun o ho => h o (List.mem_append_right _ ho)
      exact (Emitter.writes_declareLocal name ty hscope hinit).bind fun declared =>
        Emit.writes_pure rfl
  | closeScope scope =>
      exact (Emitter.writes_closeScope (hslots h)).bind fun _ => Emit.writes_pure rfl
  | closeScopes stack depth =>
      refine (Emit.writes_forM fun scope hscope => ?_).bind fun _ => Emit.writes_pure rfl
      refine Emitter.writes_closeScope
        (hslots fun o ho => h o (List.mem_flatMap.mpr ⟨scope, ?_, ho⟩))
      exact List.mem_of_mem_drop (List.mem_reverse.mp hscope)

/-! ## Sessions -/

/-- What a client makes of a function: a draft on the way, and the values that it has. In between,
the unit may have changed by other work. -/
inductive Emitter.Session (e : Emitter) (name : String) (params : List TypeId) (ret : TypeId) :
    Draft → List ValueId → Prop where
  | start (u : CodeUnit) :
      Session e name params ret ⟨u, .new name params ret⟩
        (Builder.new name params ret).function.params
  | call {d d' : Draft} {vs new : List ValueId} (op : Operation) : Session e name params ret d vs →
      (∀ o ∈ op.operands, o.Among vs) → (op.emit e).run d = .ok new d' →
      Session e name params ret d' (new ++ vs)
  | elsewhere {d : Draft} {vs : List ValueId} {u : CodeUnit} : Session e name params ret d vs →
      d.unit.Keeps u → Session e name params ret { d with unit := u } vs

theorem Emitter.Session.sound {e : Emitter} {name : String} {params : List TypeId} {ret : TypeId}
    {d : Draft} {vs : List ValueId} (h : e.Session name params ret d vs) :
    d.Sound ⟨vs, [], none⟩ := by
  induction h with
  | start u => exact .new u name params ret
  | call op _ hops hrun ih => exact Operation.writes hops _ _ _ ih hrun
  | elsewhere _ hkeeps ih => exact ih.keeps hkeeps

/-! ## Bodies of glue functions -/

namespace Emitter

variable {e : Emitter} {u u' : CodeUnit}

/-- The builder is what became of a new one when the body of the glue function of `ty` was written
into it. -/
def WroteGlue (e : Emitter) (ty : TypeId) (b : Builder) : Prop :=
  ∃ plan name u d, e.layouts.plan ty = .ok plan
    ∧ (e.glueBody ty plan).run ⟨u, .new name [.ptr] .unit⟩ = .ok () d ∧ d.builder = b

/-- The function is the body of the glue function of `ty`. No instruction was lost when it was
written, and it is well-formed. -/
def ProperGlue (e : Emitter) (ty : TypeId) (f : Function) : Prop :=
  ∃ b : Builder, e.WroteGlue ty b ∧ b.function = f ∧ b.dropped = 0 ∧ f.WellFormed

theorem sound_glueBody {ty : TypeId} {plan : ReleasePlan} {name : String} {d : Draft}
    (h : (e.glueBody ty plan).run ⟨u, .new name [.ptr] .unit⟩ = .ok () d) :
    d.builder.dropped = 0 ∧ d.builder.function.WellFormed
      ∧ ∀ i ∈ d.builder.function.instrs, i.Linked d.unit := by
  unfold glueBody at h
  obtain ⟨d₀, d₀', h₀, k₀⟩ := Step.bind_ok h
  obtain ⟨rfl, rfl⟩ := EStateM.Result.ok.inj h₀
  obtain ⟨⟨⟩, d₁, h₁, k₁⟩ := Step.bind_ok k₀
  obtain ⟨-, rfl⟩ := EStateM.Result.ok.inj k₁
  have hparam : (Operand.value ((Builder.new name [.ptr] .unit).param 0)).Among
      (Builder.new name [.ptr] .unit).function.params := List.mem_singleton.mpr rfl
  have hfields := Emit.writes_forM (l := plan) fun r _ => e.writes_releaseField ty r hparam
  exact (hfields _ _ _ (.new u name [.ptr] .unit) h₁).wellFormed_ret rfl nofun

/-- Functions that code has asked for have no body, and wait for it. -/
theorem Asks.function (h : e.Asks u u') : (∀ q ∈ u.pending, q ∈ u'.pending)
    ∧ ∀ {id f}, u'.function? id = some f → u.function? id = some f
      ∨ f.isDeclaration = true ∧ ∃ ty, (ty, id) ∈ u'.pending := by
  induction h with
  | refl => exact ⟨fun q hq => hq, Or.inl⟩
  | heap _ hu ih =>
      obtain ⟨-, hf, -, hp, -⟩ := CodeUnit.requireHeap?_spec hu
      rw [hp]
      refine ⟨ih.1, fun hid => ih.2 ?_⟩
      rwa [CodeUnit.function?, hf] at hid
  | @glue u₁ ty name _ ih =>
      cases hglue : u₁.glueFor? ty with
      | some id =>
          rw [CodeUnit.requestGlue_old name hglue]
          exact ih
      | none =>
          rw [CodeUnit.requestGlue_new name hglue]
          refine ⟨fun q hq => List.mem_cons_of_mem _ (ih.1 q hq), fun {id f} hid => ?_⟩
          change (u₁.functions ++ [_])[id.index]? = some f at hid
          rw [List.getElem?_append] at hid
          split at hid
          · refine (ih.2 hid).imp_right ?_
            rintro ⟨hf, ty', hty'⟩
            exact ⟨hf, ty', List.mem_cons_of_mem _ hty'⟩
          · have hf := List.mem_singleton.mp (List.mem_of_getElem? hid)
            obtain ⟨hlt, -⟩ := List.getElem?_eq_some_iff.mp hid
            rw [List.length_singleton] at hlt
            have hindex : id = ⟨u₁.functions.length⟩ := by
              obtain ⟨index⟩ := id
              dsimp only at *
              exact congrArg FuncId.mk (by omega)
            exact Or.inr ⟨hf ▸ rfl, ty, hindex ▸ List.mem_cons_self⟩

/-- One body is written; other functions are as they were, or new and wait. -/
theorem function_defineGlue {ty : TypeId} {id : FuncId}
    (h : (e.defineGlue ty id).run u = .ok () u') : (∀ q ∈ u.pending, q ∈ u'.pending)
      ∧ ∀ {id' f}, u'.function? id' = some f → (id' = id ∧ e.ProperGlue ty f)
        ∨ id' ≠ id ∧ (u.function? id' = some f
          ∨ f.isDeclaration = true ∧ ∃ ty', (ty', id') ∈ u'.pending) := by
  obtain ⟨plan, name, d, hplan, hrun, hset⟩ := defineGlue_ok h
  obtain ⟨hdropped, hwell, -⟩ := sound_glueBody hrun
  have hwrote : e.WroteGlue ty d.builder := ⟨plan, name, _, d, hplan, hrun, rfl⟩
  obtain ⟨d₁, rfl, -, hemits⟩ := emits_glueBody hrun
  obtain ⟨hkept, hold⟩ := (hemits .unit).leads.unit.function
  obtain ⟨-, -, hp, hself, hothers⟩ := CodeUnit.setFunction?_spec hset
  rw [hp]
  refine ⟨hkept, fun {id' f} hf => ?_⟩
  by_cases hid : id' = id
  · rw [hid, hself] at hf
    obtain rfl := Option.some.inj hf
    exact Or.inl ⟨hid, _, hwrote, rfl, hdropped, hwell⟩
  · rw [hothers id' hid] at hf
    exact Or.inr ⟨hid, hold hf⟩

/-- Functions that did not wait are as they were; all others got a body. -/
theorem Drains.function {l : List (TypeId × FuncId)} (h : e.Drains u l u') :
    ∀ {id f}, u'.function? id = some f →
      (u.function? id = some f ∧ ∀ ty, (ty, id) ∉ u.pending)
        ∨ ∃ ty, (ty, id) ∈ l ∧ e.ProperGlue ty f := by
  induction h with
  | done hp => exact fun hf => Or.inl ⟨hf, fun ty hty => by rw [hp] at hty; cases hty⟩
  | @next u u₁ u' q rest l hp hdefine _ ih =>
      intro id f hf
      obtain ⟨hkept, hstep⟩ := function_defineGlue hdefine
      rcases ih hf with ⟨hf₁, hdone⟩ | ⟨ty, hmem, hproper⟩
      · rcases hstep hf₁ with ⟨rfl, hproper⟩ | ⟨hne, hold | ⟨-, ty, hty⟩⟩
        · exact Or.inr ⟨q.1, List.mem_cons_self, hproper⟩
        · refine Or.inl ⟨hold, fun ty hty => ?_⟩
          rw [hp] at hty
          rcases List.mem_cons.mp hty with rfl | hty
          · exact hne rfl
          · exact hdone ty (hkept _ hty)
        · exact absurd hty (hdone ty)
      · exact Or.inr ⟨ty, List.mem_cons_of_mem _ hmem, hproper⟩

/-- The functions with a body are those that were there, and those that got one. -/
theorem Serves.function {l : List (TypeId × FuncId)} (h : e.Serves u l u') :
    ∀ {id f}, u'.function? id = some f →
      u.function? id = some f ∨ f.isDeclaration = true ∨ ∃ ty, e.ProperGlue ty f := by
  induction h with
  | refl => exact Or.inl
  | next hp hdefine _ ih =>
      intro id f hf
      obtain ⟨-, hstep⟩ := function_defineGlue hdefine
      rcases ih hf with hf₁ | hnew
      · rcases hstep hf₁ with ⟨-, hproper⟩ | ⟨-, hold | ⟨hdeclared, -⟩⟩
        · exact Or.inr (Or.inr ⟨_, hproper⟩)
        · exact Or.inl hold
        · exact Or.inr (Or.inl hdeclared)
      · exact Or.inr hnew

/-- The same where the work fails: at that point no body is written. -/
theorem function_of_stuck {r : Stop EmitError} (h : e.emitPendingGlue.run u = .error r u') :
    ∀ {id f}, u'.function? id = some f →
      u.function? id = some f ∨ f.isDeclaration = true ∨ ∃ ty, e.ProperGlue ty f := by
  intro id f hf
  have hends := (drainGlue_enough (room_le (e := e) u)).1 r u' h
  obtain ⟨l, u₁, q, rest, hserves, -, hfails⟩ := serves_of_error h hends
  rcases (failsAsking_defineGlue _ _ _ _ _ hfails).function.2 hf with hf₁ | ⟨hdeclared, -⟩
  · exact hserves.function hf₁
  · exact Or.inr (Or.inl hdeclared)

end Emitter

/-- A function that is built by calls of the emitter that succeed, with operands that the client
has, and that is closed by a return, is well-formed, and no instruction was lost on the way; and so
is every body that the emitter writes for the glue functions that wait, also if it fails at one of
them later. -/
theorem emitted_wellFormed (e : Emitter) :
    (∀ name params ret d vs, e.Session name params ret d vs → ∀ value : Option Operand,
      (∀ op ∈ value, op.Among vs) →
        (d.builder.ret value).dropped = 0 ∧ (d.builder.ret value).function.WellFormed)
    ∧ (∀ u n u', e.emitPendingGlue.run u = .ok n u' → ∀ id f, u'.function? id = some f →
      (u.function? id = some f ∧ ∀ ty, (ty, id) ∉ u.pending)
        ∨ ∃ ty b, e.WroteGlue ty b ∧ b.function = f ∧ b.dropped = 0 ∧ f.WellFormed)
    ∧ ∀ u r u', e.emitPendingGlue.run u = .error r u' → ∀ id f, u'.function? id = some f →
      u.function? id = some f ∨ f.isDeclaration = true
        ∨ ∃ ty b, e.WroteGlue ty b ∧ b.function = f ∧ b.dropped = 0 ∧ f.WellFormed := by
  refine ⟨fun name params ret d vs hsession value hvalue => ?_, fun u n u' hrun id f hf => ?_,
    fun u r u' hrun id f hf => Emitter.function_of_stuck hrun hf⟩
  · obtain ⟨hdropped, hwell, -⟩ := hsession.sound.wellFormed_ret rfl hvalue
    exact ⟨hdropped, hwell⟩
  · obtain ⟨l, hdrains, -⟩ := Emitter.drains_drainGlue (e := e) (u := u) hrun
    refine (hdrains.function hf).imp_right ?_
    rintro ⟨ty, -, b, hproper⟩
    exact ⟨ty, b, hproper⟩

namespace Shared

/-- A function that takes a cell, makes a pair of it and of a copy, and lets go of the pair. -/
def opened : Draft := ⟨.new "twice", .new "twice" [⟨17⟩] .unit⟩

def share : Operation := .adjustCount (.value ⟨0⟩) 1 ⟨17⟩

def pairUp : Operation := .allocate ⟨19⟩ (.fields [.value ⟨0⟩, .value ⟨0⟩])

def drop : Operation := .release (.value ⟨6⟩) ⟨19⟩

def copied : Draft := Step.after (share.emit emitter) opened

def paired : Draft := Step.after (pairUp.emit emitter) copied

def twice : Draft := Step.after (drop.emit emitter) paired

theorem run_share : (share.emit emitter).run opened = .ok [] copied :=
  Step.run_of_result? (by decide +kernel)

theorem run_pairUp : (pairUp.emit emitter).run copied = .ok [⟨6⟩] paired :=
  Step.run_of_result? (by decide +kernel)

theorem run_drop : (drop.emit emitter).run paired = .ok [] twice :=
  Step.run_of_result? (by decide +kernel)

theorem session_twice : emitter.Session "twice" [⟨17⟩] .unit twice [⟨6⟩, ⟨0⟩] := by
  have hopened : emitter.Session "twice" [⟨17⟩] .unit opened [⟨0⟩] := .start (.new "twice")
  have hshared := hopened.call share (by decide) run_share
  exact (hshared.call pairUp (by decide) run_pairUp).call drop (by decide) run_drop

def twiceUnit : CodeUnit := Step.after emitter.emitPendingGlue twice.unit

theorem run_twiceUnit : emitter.emitPendingGlue.run twice.unit = .ok 1 twiceUnit :=
  Step.run_of_result? (by decide +kernel)

end Shared

namespace Unfinished

/-- An owning reference in a record, which is in another record. -/
def pool : Pool :=
  .ofItems .new [.reference .owning .int, .record ⟨⟨0⟩, [⟨⟨1⟩, ⟨16⟩, none⟩]⟩,
    .record ⟨⟨2⟩, [⟨⟨3⟩, ⟨17⟩, none⟩]⟩]

/-- To let go of the outer record takes a call, to let go of the inner one takes a heap. -/
def bare : Emitter := ⟨⟨pool, .w64⟩, { target := .freestanding }⟩

def draft : CodeUnit := Draft.unitAfter
  (((Operation.releaseContents (.value ⟨0⟩) ⟨18⟩).emit bare).run
    ⟨.new "unit", .new "f" [.ptr] .unit⟩)

def stuck : CodeUnit := Step.after bare.emitPendingGlue draft

theorem run_draft : bare.emitPendingGlue.run draft = .error (.error .heapUnavailable) stuck := rfl

end Unfinished

/-- The glue functions are those of the pair, and of a record of which the work fails at a field. -/
theorem emitted_wellFormed_twice :
    ((Shared.twice.builder.ret none).dropped = 0
        ∧ (Shared.twice.builder.ret none).function.WellFormed)
      ∧ (∃ f, Shared.twiceUnit.function? ⟨0⟩ = some f ∧ f.WellFormed)
      ∧ ∃ f, Unfinished.stuck.function? ⟨0⟩ = some f ∧ f.WellFormed := by
  obtain ⟨hsessions, hglue, -⟩ := emitted_wellFormed Shared.emitter
  obtain ⟨-, -, hstuck⟩ := emitted_wellFormed Unfinished.bare
  obtain ⟨hdropped, hwell⟩ := hsessions _ _ _ _ _ Shared.session_twice none nofun
  have hsome : (Shared.twiceUnit.function? ⟨0⟩).isSome := by decide +kernel
  have hbodies : (Unfinished.draft.function? ⟨0⟩).map Function.isDeclaration = some true
      ∧ (Unfinished.stuck.function? ⟨0⟩).map Function.isDeclaration = some false := by
    decide +kernel
  obtain ⟨f, hf⟩ := Option.isSome_iff_exists.mp hsome
  obtain ⟨g, hg, hgbody⟩ := Option.map_eq_some_iff.mp hbodies.2
  refine ⟨⟨hdropped, hwell⟩, ⟨f, hf, ?_⟩, g, hg, ?_⟩
  · rcases hglue _ _ _ Shared.run_twiceUnit _ _ hf with ⟨-, hwaits⟩ | ⟨ty, b, -, -, -, hbody⟩
    · have hpending : ((⟨18⟩, ⟨0⟩) : TypeId × FuncId) ∈ Shared.twice.unit.pending := by
        decide +kernel
      exact absurd hpending (hwaits ⟨18⟩)
    · exact hbody
  · rcases hstuck _ _ _ Unfinished.run_draft _ _ hg with hold | hdeclared | ⟨ty, b, -, -, -, hbody⟩
    · rw [hold, Option.map_some, hgbody] at hbodies
      cases hbodies.1
    · rw [hgbody] at hdeclared
      cases hdeclared
    · exact hbody

end Ownership
