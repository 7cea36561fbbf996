import Ownership.Proofs.Accesses
import Ownership.Proofs.Guards
import Ownership.Proofs.RoundTrip
import Ownership.Proofs.Values

/-!
# New blocks

What a function that makes a reference leaves behind, read with the
queries of the machine: a block where there was none before, with its
count at 1, and the pointee is the value that it was to start with
(`Layouts.Allocates`). A record literal gives the leading fields, and the
others have their declared defaults (`Pool.initialValue`). The number of
steps is known in advance (`Exec.Takes`), so the reference is really
returned.
-/

namespace Ownership

/-! ## Steps -/

namespace Exec

variable {α β : Type} {x : Exec α} {n k : Nat}

/-- The computation takes at most `n` steps, however it ends. -/
def Takes (x : Exec α) (n : Nat) : Prop :=
  ∀ m : Machine, n ≤ m.budget → (∃ a m', x.run m = .ok a m' ∧ m.budget ≤ m'.budget + n)
    ∨ ∃ s m', x.run m = .error s m' ∧ s ≠ .error .stepLimit

theorem Takes.mono (h : x.Takes n) (hn : n ≤ k) : x.Takes k := by
  intro m hm
  rcases h m (Nat.le_trans hn hm) with ⟨a, m', hrun, hbudget⟩ | herror
  · exact Or.inl ⟨a, m', hrun, by omega⟩
  · exact Or.inr herror

theorem Takes.bind {f : α → Exec β} (hx : x.Takes n) (hf : ∀ a, (f a).Takes k) :
    (x >>= f).Takes (n + k) := by
  intro m hm
  rcases hx m (by omega) with ⟨a, m₁, hrun, hbudget⟩ | ⟨s, m₁, hrun, hs⟩
  · rw [Step.run_bind_ok hrun]
    rcases hf a m₁ (by omega) with ⟨b, m₂, hrun₂, hbudget₂⟩ | herror
    · exact Or.inl ⟨b, m₂, hrun₂, by omega⟩
    · exact Or.inr herror
  · exact Or.inr ⟨s, m₁, Step.run_bind_error hrun, hs⟩

/-- With enough steps, a computation that has a result unless it runs out of them has it. -/
theorem Takes.yields (hx : x.Takes n) {m : Machine} (hm : n ≤ m.budget) {Q : α → Machine → Prop}
    (h : x.Yields m Q) : ∃ a m', x.run m = .ok a m' ∧ Q a m' := by
  rcases h.cases with ⟨m', hrun⟩ | hok
  · rcases hx m hm with ⟨a, m₁, hrun₁, -⟩ | ⟨s, m₁, hrun₁, hs⟩
    · rw [hrun] at hrun₁
      cases hrun₁
    · rw [hrun] at hrun₁
      cases hrun₁
      exact absurd rfl hs
  · exact hok

theorem takes_pure (a : α) : (pure a : Exec α).Takes 0 :=
  fun m _ => Or.inl ⟨a, m, rfl, Nat.le_refl _⟩

theorem takes_tick : tick.Takes 1 := by
  intro m hm
  obtain ⟨k, hk⟩ := Nat.exists_eq_add_of_le' hm
  exact Or.inl ⟨(), _, run_tick hk, Nat.le_of_eq hk⟩

theorem takes_displaced (a bytes : UInt64) : (displaced (.ptr a) bytes).Takes 1 := by
  intro m hm
  obtain ⟨k, hk⟩ := Nat.exists_eq_add_of_le' hm
  exact Or.inl ⟨_, _, run_displaced hk a bytes, Nat.le_of_eq hk⟩

theorem takes_withHeap {f : Heap → Outcome Heap}
    (hf : ∀ h, f h ≠ .error (.error .stepLimit)) : (withHeap f).Takes 0 := by
  intro m _
  cases hm : f m.heap with
  | ok h' => exact Or.inl ⟨(), _, run_withHeap hm, Nat.le_refl _⟩
  | error s => exact Or.inr ⟨s, m, run_withHeap_error hm, fun hs => hf m.heap (hs ▸ hm)⟩

theorem takes_malloc (size : UInt64) : (malloc size).Takes 0 := by
  intro m _
  cases hm : m.heap.malloc size.toNat with
  | ok p => exact Or.inl ⟨_, _, run_malloc hm, Nat.le_refl _⟩
  | error a => exact Or.inr ⟨.abort a, m, run_malloc_error hm, nofun⟩

theorem takes_forM {γ : Type} {f : γ → Exec Unit} :
    ∀ {l : List γ}, (∀ c ∈ l, (f c).Takes n) → (l.forM f).Takes (l.length * n)
  | [], _ => (takes_pure ()).mono (Nat.zero_le _)
  | c :: l, h => by
      rw [List.length_cons, Nat.succ_mul, Nat.add_comm]
      exact (h c List.mem_cons_self).bind fun _ =>
        takes_forM fun c' hc' => h c' (List.mem_cons_of_mem _ hc')

theorem Takes.inCall (h : x.Takes n) : (inCall x).Takes n := by
  intro m hm
  rcases h { m with slots := [] } hm with ⟨a, m', hrun, hbudget⟩ | ⟨s, m', hrun, hs⟩
  · exact Or.inl ⟨a, _, run_inCall_ok hrun, hbudget⟩
  · exact Or.inr ⟨s, _, run_inCall_error hrun, hs⟩

end Exec

namespace Layouts

variable {L : Layouts}

theorem store_ne_stepLimit (h : Heap) (ty : TypeId) (a : UInt64) (v : Value) :
    L.store h ty a v ≠ .error (.error .stepLimit) := by
  unfold store
  cases hv : L.value ty with
  | error s => cases s <;> nofun
  | ok w =>
      change (if w.size < capacityLimit then _ else _) ≠ _
      split
      · obtain ⟨-, data, hdata, hlen⟩ | ⟨-, m, hrefused⟩ :=
          encode_cases (value_eq_ok_iff.mp hv) v
        · rw [hdata]
          change (if data.length = w.size then _ else _) ≠ _
          rw [if_pos hlen]
          cases h.write a.toNat data with
          | ok h' => nofun
          | error s => cases s <;> nofun
        · rw [hrefused]
          nofun
      · nofun

theorem takes_put (a w : UInt64) : (L.put a w).Takes 1 := by
  refine Exec.takes_tick.bind fun _ => Exec.takes_withHeap fun h => ?_
  unfold storeWord
  cases h.write a.toNat (L.wordBytes w) with
  | ok h' => nofun
  | error s => cases s <;> nofun

theorem takes_putValue (ty : TypeId) (a : UInt64) (v : Value) : (L.putValue ty a v).Takes 1 :=
  Exec.takes_tick.bind fun _ => Exec.takes_withHeap fun h => store_ne_stepLimit h ty a v

theorem takes_putSlot (a : UInt64) (p : FieldSlot × Value) : (L.putSlot a p).Takes 2 :=
  (Exec.takes_displaced _ _).bind fun _ => takes_putValue _ _ _

end Layouts

/-- The number of steps to fill a block. -/
def Contents.steps : Contents → Nat
  | .value _ => 1
  | .fields l => l.length * 2

theorem Emitter.takes_allocation {e : Emitter} (layout : RefLayout) (size : Nat) (c : Contents) :
    (e.allocation layout size c).Takes (4 + c.steps) := by
  have hstarted : ∀ a, (e.started layout a).Takes 2 := by
    intro a
    unfold started
    split
    · exact (Layouts.takes_put _ _).bind fun _ => Exec.takes_displaced _ _
    · exact (Exec.takes_pure a).mono (Nat.zero_le _)
  have hcontents : ∀ p, (e.layouts.putContents layout.pointee p c).Takes c.steps := by
    intro p
    cases c with
    | value v => exact Layouts.takes_putValue _ _ _
    | fields l => exact Exec.takes_forM fun q _ => Layouts.takes_putSlot _ _
  have hall := Exec.takes_tick.bind fun _ => (Exec.takes_malloc (.ofNat size)).bind fun block =>
    (hstarted block).bind fun p => Exec.takes_tick.bind fun _ =>
      (hcontents p).bind fun _ => Exec.takes_pure p
  exact hall.mono (by omega)

/-! ## The value that a block starts with -/

/-- The value of a field that a literal does not mention. -/
def FieldDef.initial (field : FieldDef) : Value := field.default.elim .unit .ofLiteral

namespace Pool

/-- The value of type `ty` that is made from operands where the parameters have the values
`args`. -/
def initialValue (pool : Pool) (ty : TypeId) (args : List Value) : Initial → Value
  | .value op => op.valueIn args
  | .fields ops =>
    .record (ops.map (Operand.valueIn args)
      ++ ((pool.fields ty).drop ops.length).map FieldDef.initial)

/-- A value of type `ty` can be made from the operands: the operand for the whole value has the
shape of `ty`, the operands for fields have the shapes of their own types. -/
def Admits (pool : Pool) (ty : TypeId) (params : List TypeId) (args : List Value) : Initial → Prop
  | .value op => pool.HasShape ty (op.valueIn args)
  | .fields ops => pool.HasShapes (ops.map (Operand.typeIn params)) (ops.map (Operand.valueIn args))

end Pool

/-- What a block is filled with, as one value. -/
def Contents.whole : Contents → Value
  | .value v => v
  | .fields l => .record (l.map Prod.snd)

namespace Emitter.Makes

variable {e : Emitter} {ty : TypeId} {params : List TypeId} {args : List Value} {init : Initial}
  {c : Contents} {typeOf : Operand → TypeId} {vs : List Value}

theorem steps_le (h : e.Makes ty typeOf init vs c) :
    c.steps ≤ 1 + 2 * (e.pool.fields ty).length := by
  cases h with
  | value op v => exact Nat.le_add_right _ _
  | @fields ops _ defaults layout htag hlayout =>
      have hslots := (Layouts.placed_shape (Layouts.record_eq_ok_iff.mp hlayout)).2.2
      have hlen : layout.fields.length = (e.pool.fields ty).length := by
        have h := congrArg List.length hslots
        rwa [List.length_map, List.length_map] at h
      simp only [Contents.steps, List.length_zip]
      omega

/-- The fields that are not given are the declared defaults. -/
theorem whole_eq (h : e.Makes ty typeOf init (init.operands.map (Operand.valueIn args)) c) :
    c.whole = e.pool.initialValue ty args init := by
  cases h with
  | value op v => rfl
  | @fields ops _ defaults layout htag hlayout htypes hdefaults =>
      have hlen : (ops.map (Operand.valueIn args) ++ defaults.map Value.ofLiteral).length
          ≤ layout.fields.length := by
        have h := congrArg List.length htypes
        simp only [List.length_map, List.length_append] at h ⊢
        omega
      have hinitial : ((e.pool.fields ty).drop ops.length).map FieldDef.initial
          = defaults.map Value.ofLiteral := by
        have h := congrArg (List.map fun l => l.elim Value.unit Value.ofLiteral) hdefaults
        rwa [List.map_map, List.map_map] at h
      rw [Contents.whole, Pool.initialValue, hinitial]
      exact congrArg Value.record (List.map_snd_zip hlen)

theorem hasShapes {ops : List Operand} {defaults : List Literal}
    (h : e.pool.Admits ty params args (.fields ops)) :
    e.pool.HasShapes (ops.map (Operand.typeIn params) ++ defaults.map Literal.type)
      (ops.map (Operand.valueIn args) ++ defaults.map Value.ofLiteral) := by
  have hdefaults : e.pool.HasTypes (defaults.map Literal.type) (defaults.map Value.ofLiteral) :=
    Pool.hasTypes_map fun l _ => e.pool.hasType_ofLiteral l
  rw [Pool.hasShapes_iff]
  exact List.rel_append (Pool.hasShapes_iff.mp h) (Pool.hasShapes_iff.mp (hdefaults.hasShapes _))

theorem suits
    (h : e.Makes ty (Operand.typeIn params) init (init.operands.map (Operand.valueIn args)) c)
    (hadmits : e.pool.Admits ty params args init) : e.pool.Suits ty c := by
  cases h with
  | value op v => exact hadmits
  | fields htag hlayout htypes hdefaults => exact Pool.suits_zip (htypes ▸ hasShapes hadmits)

end Emitter.Makes

/-! ## The value in the block -/

namespace Layouts

variable {L : Layouts} {bytes : Bytes} {off : Nat} {ty : TypeId}

theorem Carries.decode {v : Value} {w : ValueLayout} (h : L.Carries bytes off ty v)
    (hsize : L.sizeOf ty = some w) :
    L.decode ty (bytes.slice off w.size) = .ok (L.readBack ty v) := by
  obtain ⟨data, hdata, hslice⟩ := h
  obtain ⟨data', hdata', hlen⟩ := encode_ok hsize (hasShape_of_encode hsize hdata)
  obtain rfl := Except.ok.inj (hdata'.symm.trans hdata)
  rw [← hlen, hslice]
  exact decodeWithin_encode hsize hdata

/-- Values that are where their slots are come back one by one. -/
theorem decodeFields_of_carries {inner : TypeId → List UInt8 → Outcome Value} {bound : Nat} :
    ∀ {slots : List FieldSlot} {vs : List Value}, Lined L.sizeOf slots bound →
      slots.length = vs.length →
      (∀ p ∈ slots.zip vs, L.Carries bytes (off + p.1.offset) p.1.type p.2) →
      (∀ s ∈ slots, ∀ v part, L.encode s.type v = .ok part →
        inner s.type part = .ok (L.readBack s.type v)) →
      L.decodeFields inner (bytes.slice off bound) slots
        = .ok (L.readBackAll (slots.map FieldSlot.type) vs)
  | [], [], _, _, _, _ => by
      rw [decodeFields, List.map_nil]
      simp only [readBackAll]
  | slot :: slots, v :: vs, hlined, hlen, hcarries, hinner => by
      obtain ⟨w, hw, hend⟩ := hlined.ends slot List.mem_cons_self
      obtain ⟨part, hpart, hslice⟩ := hcarries (slot, v) List.mem_cons_self
      obtain ⟨part', hpart', hsize⟩ := encode_ok hw (hasShape_of_encode hw hpart)
      obtain rfl := Except.ok.inj (hpart'.symm.trans hpart)
      rw [List.map_cons, readBackAll_cons]
      refine decodeFields_cons hw (bytes.slice?_slice off hend) ?_ ?_
      · rw [← hsize, hslice]
        exact hinner slot List.mem_cons_self v part' hpart
      · exact decodeFields_of_carries hlined.tail (Nat.succ.inj hlen)
          (fun p hp => hcarries p (List.mem_cons_of_mem _ hp))
          fun s hs => hinner s (List.mem_cons_of_mem _ hs)

/-- A record whose fields are in a buffer is in it. -/
theorem decode_of_fields {r : RecordLayout} {vs : List Value} (htag : L.pool.tag ty = .record)
    (hr : L.placed ty = some r) (hlen : r.fields.length = vs.length)
    (hcarries : ∀ p ∈ r.fields.zip vs, L.Carries bytes (off + p.1.offset) p.1.type p.2) :
    L.decode ty (bytes.slice off r.size) = .ok (L.readBack ty (.record vs)) := by
  have hsize : L.measure L.depth ty = some r.value := sizeOf_of_placed htag hr
  obtain ⟨d, hd⟩ : ∃ d, L.depth = d + 1 := Nat.exists_eq_add_of_le' (measure_pos hsize)
  have hinner : ∀ s ∈ r.fields, ∀ v part, L.encode s.type v = .ok part →
      L.decodeWithin d s.type part = .ok (L.readBack s.type v) := by
    intro s hs v part hpart
    obtain ⟨w, hw⟩ := measure_slot (hd ▸ hsize) hr hs
    exact decodeWithin_encode hw hpart
  rw [decode, hd, decodeWithin_record htag hr,
    decodeFields_of_carries (placed_shape hr).1 hlen hcarries hinner, readBack, Pool.fieldTypes,
    ← (placed_shape hr).2.2]
  rfl

end Layouts

theorem Emitter.Makes.decode {e : Emitter} {ty : TypeId} {typeOf : Operand → TypeId}
    {init : Initial} {vs : List Value} {c : Contents} {w : ValueLayout} {bytes : Bytes} {off : Nat}
    (h : e.Makes ty typeOf init vs c) (hvs : vs.length = init.operands.length)
    (hsize : e.layouts.sizeOf ty = some w) (hc : e.layouts.CarriesAll bytes off ty c) :
    e.layouts.decode ty (bytes.slice off w.size) = .ok (e.layouts.readBack ty c.whole) := by
  cases h with
  | value op v => exact Layouts.Carries.decode hc hsize
  | @fields ops _ defaults r htag hlayout htypes hdefaults =>
      have hr := Layouts.record_eq_ok_iff.mp hlayout
      have hlen : r.fields.length = (vs ++ defaults.map Value.ofLiteral).length := by
        have h := congrArg List.length htypes
        simp only [List.length_map, List.length_append, Initial.operands] at h hvs ⊢
        omega
      obtain rfl := Option.some.inj (hsize.symm.trans (Layouts.sizeOf_of_placed htag hr))
      rw [Contents.whole, List.map_snd_zip (Nat.le_of_eq hlen.symm)]
      exact Layouts.decode_of_fields htag hr hlen hc

/-! ## New blocks -/

/-- The heap `h'` is `h` with a new block, in which a value of type `layout.pointee` starts as `v`;
`r` is the reference to it. -/
structure Layouts.Allocates (L : Layouts) (h : Heap) (ty : TypeId) (layout : RefLayout) (v : Value)
    (r : UInt64) (h' : Heap) : Prop where
  addr : r.toNat = h.nextHeap + layout.header
  blockOf : L.blockOf ty r = .ok (UInt64.ofNat h.nextHeap)
  block : ∃ b, h'.blocks.get? h.nextHeap = some b ∧ b.arena = .heap ∧ b.live = true
    ∧ b.bytes.size = layout.header + layout.value.size
  new : h.blocks.get? h.nextHeap = none
  /-- The block is none of those that were created before. -/
  unseen : ∀ created, Memory.Tracked ⟨h, created⟩ → ∀ x ∈ created, x.base ≠ h.nextHeap
  others : ∀ a, a ≠ h.nextHeap → h'.blocks.get? a = h.blocks.get? a
  count : layout.region = .counted → L.refCount h' ty r = .ok 1
  value : L.load h' layout.pointee r = .ok (L.readBack layout.pointee v)
  mallocs : h'.mallocs = h.mallocs + 1
  frees : h'.frees = h.frees ∧ h'.freed = h.freed
  /-- The blocks are still apart, unless the next one would lie in the arena of stack slots. -/
  sound : h'.nextHeap ≤ Heap.stackBase ∨ h'.nextStack = Heap.stackBase → h'.Sound

namespace Layouts

variable {L : Layouts} {h h' : Heap} {ty : TypeId} {layout : RefLayout} {b : Block} {a : UInt64}

theorem load_eq {w : ValueLayout} {start off : Nat} (hc : h.Clear start b) (hlive : b.live = true)
    (ha : a.toNat = start + off) (hsize : L.sizeOf ty = some w)
    (hin : off + w.size ≤ b.bytes.size) :
    L.load h ty a = L.decode ty (b.bytes.slice off w.size) := by
  have hjudges : h.Judges (start + off) w.size start b :=
    hc.judges (Nat.le_add_right _ _) (by omega)
  refine load_of_read (value_eq_ok_iff.mpr hsize) ?_
  rw [ha, hjudges.read_eq hlive, Nat.add_sub_cancel_left]

/-- What is seen of a block that was put where there was room. -/
theorem allocates_of_fresh {size : Nat} {c : Contents} {v : Value} {h₁ : Heap} (hs : h.Sound)
    (hvacant : h.Vacant size) (hmalloc : h.malloc size = .ok (h.nextHeap, h₁))
    (hl : L.ref ty = .ok layout) (hsize : layout.allocSize = .ok size)
    (haddr : a.toNat = h.nextHeap + layout.header)
    (hputs : (h.reserve size).Puts h.nextHeap b h') (hfresh : L.Fresh layout c b)
    (hdecode : L.decode layout.pointee (b.bytes.slice layout.header layout.value.size)
      = .ok (L.readBack layout.pointee v)) : L.Allocates h ty layout v a h' := by
  have hbytes : b.bytes.size = size := Except.ok.inj (hfresh.size.symm.trans hsize)
  obtain ⟨hsum, -⟩ := addSize_ok hsize
  obtain ⟨-, hv, hheader⟩ := ref_eq_ok_iff.mp hl
  have hnew := hvacant.get?_nextHeap
  have hbase : (a + (Int64.ofInt layout.countOffset).toUInt64).toNat = h.nextHeap := by
    rw [RefLayout.countOffset, toNat_add_neg (haddr ▸ Nat.le_add_left _ _), haddr,
      Nat.add_sub_cancel]
  have hclear : h'.Clear h.nextHeap b := by
    have hstride := Heap.add_guard_le_stride size
    obtain ⟨-, hnext, -⟩ := Heap.malloc_ok hmalloc
    exact hvacant.clear hs.bounded hputs hbytes (by lia)
  refine ⟨haddr, ?_, ⟨b, hputs.block, hfresh.arena, hfresh.live, hbytes.trans hsum⟩, hnew, ?_,
    hputs.elsewhere, ?_, ?_, hputs.mallocs, ⟨hputs.frees, hputs.freed⟩, fun hroom => ?_⟩
  · rw [blockOf, hl]
    refine congrArg Except.ok (UInt64.toNat_inj.mp ?_)
    rw [hbase, UInt64.toNat_ofNat_of_lt' hs.heapEnd]
  · intro created ht x hx hbase
    obtain ⟨b', hb', -⟩ := (ht.exact x).mp hx
    rw [hbase, hnew] at hb'
    cases hb'
  · intro hreg
    have hword := (header_counted hv (hreg ▸ hheader)).1
    have hcounter : (a + (Int64.ofInt layout.countOffset).toUInt64).toNat = h.nextHeap + 0 := hbase
    rw [refCount_eq hl, loadWord_eq (hclear.judges (Nat.le_add_right _ _) (by omega)) hfresh.live
      hcounter, hfresh.count hreg]
    rfl
  · rw [load_eq hclear hfresh.live haddr hv (by omega), hdecode]
  · rw [hputs.nextHeap, hputs.nextStack] at hroom
    exact hs.reserved hmalloc hroom hputs hfresh.arena hbytes

end Layouts

namespace Heap

theorem Reachable.bytesAllocated_le {h : Heap} (hr : h.Reachable) :
    h.bytesAllocated ≤ h.nextHeap := by
  induction hr with
  | initial => decide
  | @malloc h _ size _ _ hm ih =>
      obtain ⟨-, -, -, -, rfl⟩ := malloc_ok hm
      have hstride := add_guard_le_stride size
      exact Nat.add_le_add ih (by omega)
  | free _ hf ih =>
      rcases free_ok hf with rfl | ⟨b, -, rfl⟩
      · exact ih
      · exact ih
  | pushSlot _ hm ih =>
      obtain ⟨-, -, rfl⟩ := pushSlot_ok hm
      exact ih
  | dropSlot _ hb _ ih =>
      rw [kill_eq hb]
      exact ih
  | write _ hw ih =>
      obtain ⟨base, b, -, -, rfl⟩ := write_ok hw
      exact ih

/-- Nothing is in the way of an allocation from inside the arena. -/
theorem Reachable.malloc_eq {h : Heap} {size : Nat} (hr : h.Reachable)
    (hcursor : h.nextHeap ≤ stackBase) (hcapacity : size < capacityLimit) :
    h.malloc size = .ok (h.nextHeap,
      (h.reserve size).putBlock h.nextHeap ⟨.heap, true, .zeros size⟩) := by
  have htotal := hr.bytesAllocated_le
  have hstride : stride size < max size 1 + granule + guardSize :=
    Nat.add_lt_add_right (alignUp_lt_add (by decide) _) _
  have hlimits : stackBase + capacityLimit + 1 + granule + guardSize < sizeLimit := by decide
  refine Heap.malloc_eq ?_ ?_ hcapacity <;> lia

end Heap

/-- A function that makes a reference returns one to a block that was not there before, in which
the value is what the function was to start it with. The block has to end in front of the arena of
stack slots, if there ever was one: nothing keeps the allocations from growing into it. -/
theorem allocation_initialises {e : Emitter} (M : e.Module) {name : String} {params : List TypeId}
    {ty : TypeId} {init : Initial} (hholds : M.Holds name params ty (e.makeCode ty init))
    (hbelow : ∀ op ∈ init.operands, op.Below params.length) {args : List Value}
    (hlen : args.length = params.length) {layout : RefLayout} (hl : e.layouts.ref ty = .ok layout)
    (hadmits : e.pool.Admits layout.pointee params args init) {m : Machine}
    (hreach : m.heap.Reachable) (hcursor : m.heap.nextHeap ≤ Heap.stackBase)
    (hcapacity : layout.header + layout.value.size < capacityLimit)
    (hroom : m.heap.nextHeap + (layout.header + layout.value.size) < Heap.stackBase
      ∨ m.heap.nextStack = Heap.stackBase)
    (hbudget : 5 + 2 * (e.pool.fields layout.pointee).length ≤ m.budget) :
    layout.region ≠ .borrowed ∧ ∃ r m', (M.program.run name args).run m = .ok (some (.ptr r)) m'
      ∧ m'.slots = m.slots
      ∧ e.layouts.Allocates m.heap ty layout (e.pool.initialValue layout.pointee args init) r
        m'.heap := by
  obtain ⟨layout', size, c, hl', hregion, hsize, hmakes, hrun⟩ :=
    Emitter.Module.run_make hholds hlen hbelow
  obtain rfl := Except.ok.inj (hl.symm.trans hl')
  rw [operandType_new] at hmakes
  obtain ⟨-, hv, -⟩ := Layouts.ref_eq_ok_iff.mp hl
  obtain ⟨hsum, -⟩ := addSize_ok hsize
  rw [← hsum] at hroom hcapacity
  have hs : m.heap.Sound := hreach.sound (Or.inl hcursor)
  have hvacant : m.heap.Vacant size := hs.vacant hroom
  have hmalloc := hreach.malloc_eq hcursor hcapacity
  have hvs : (init.operands.map (Operand.valueIn args)).length = init.operands.length :=
    List.length_map _
  have henc := hmakes.encodesAll_of_suits hvs (hmakes.suits hadmits) hv (by omega)
  have hyields := Emitter.Module.yields_make hs.bounded hvacant hl hsize hmalloc hmakes hvs henc
    (hrun m)
  have htakes : (Exec.inCall (e.allocation layout size c >>= fun a =>
      pure (some (Value.ptr a)))).Takes (5 + 2 * (e.pool.fields layout.pointee).length) := by
    have hsteps := hmakes.steps_le
    exact ((Emitter.takes_allocation layout size c).bind fun a => Exec.takes_pure _).inCall.mono
      (by omega)
  obtain ⟨v, m', hok, hm', r, rfl, haddr, b, hputs, hfresh⟩ :=
    htakes.yields hbudget (hyields.of_run_eq (hrun m).symm)
  refine ⟨hregion, r, m', (hrun m).trans hok, hm'.slots, ?_⟩
  refine Layouts.allocates_of_fresh hs hvacant hmalloc hl hsize haddr hputs hfresh ?_
  rw [← hmakes.whole_eq]
  exact hmakes.decode hvs hv hfresh.contents

namespace Marked

/-- A counted reference to a record of a size and a mark, which is set unless it is given, on a
target with words of 32 bits. -/
def emitter : Emitter where
  layouts := ⟨.ofItems .new [.record ⟨⟨0⟩, [⟨⟨1⟩, .usize, none⟩, ⟨⟨2⟩, .bool, some (.bool true)⟩]⟩,
    .reference .counted ⟨16⟩], .w32⟩
  config := { target := ⟨.w32, some {}⟩ }

def init : Initial := .fields [.value ⟨0⟩]

/-- A function that makes a record from a size. -/
def draft : CodeUnit :=
  Step.after (Emitter.addEmitted "make" [.usize] ⟨17⟩ (emitter.makeCode ⟨17⟩ init)) (.new "marked")

theorem run_draft : (Emitter.addEmitted "make" [.usize] ⟨17⟩
    (emitter.makeCode ⟨17⟩ init)).run (.new "marked") = .ok ⟨0⟩ draft :=
  Step.run_of_result? (by decide +kernel)

def linked : emitter.Module where
  name := "marked"
  draft := draft
  built := Emitter.Module.builds_make Cells.below_init run_draft
  unit := Step.after emitter.emitPendingGlue draft
  drained := ⟨0, Step.run_of_result? (by decide +kernel)⟩

theorem holds_make : linked.Holds "make" [.usize] ⟨17⟩ (emitter.makeCode ⟨17⟩ init) := by
  refine ⟨_, ⟨0⟩, draft, .refl, run_draft, ?_, by decide +kernel⟩
  simp only [linked]
  exact .refl

def layout : RefLayout := ⟨.counted, ⟨16⟩, ⟨8, 4⟩, 4⟩

theorem admits : emitter.pool.Admits ⟨16⟩ [.usize] [.usize 0x100000005] init := by
  exact ⟨Or.inl rfl, trivial⟩

end Marked

/-- A record is made beside another block, from a size that is too wide for the target. -/
theorem allocation_initialises_marked :
    Marked.emitter.pool.Admits ⟨16⟩ [.usize] [.usize 0x100000005] Marked.init
      ∧ ∃ r m, (Marked.linked.program.run "make" [.usize 0x100000005]).run Narrow.machine
          = .ok (some (.ptr r)) m
        ∧ Marked.emitter.layouts.blockOf ⟨17⟩ r = .ok 0x10000020
        ∧ Marked.emitter.layouts.refCount m.heap ⟨17⟩ r = .ok 1
        ∧ Marked.emitter.layouts.load m.heap ⟨16⟩ r = .ok (.record [.usize 5, .bool true])
        ∧ m.heap.blocks.get? 0x10000000 = Narrow.machine.heap.blocks.get? 0x10000000
        ∧ m.heap.mallocs = 2 := by
  have hlayout : Marked.emitter.layouts.ref ⟨17⟩ = .ok Marked.layout := by decide +kernel
  have hmake := allocation_initialises Marked.linked Marked.holds_make
    Cells.below_init rfl hlayout Marked.admits Narrow.reachable_machine (by decide +kernel)
    (by decide +kernel) (.inl (by decide +kernel)) (by decide +kernel)
  obtain ⟨-, r, m, hrun, -, hr⟩ := hmake
  exact ⟨Marked.admits, r, m, hrun, hr.blockOf, hr.count rfl, hr.value,
    hr.others _ (by decide +kernel), hr.mallocs⟩

namespace Straddling

/-- An owning reference to a record of five numbers. -/
def emitter : Emitter where
  layouts := ⟨.ofItems .new [.record ⟨⟨0⟩, [⟨⟨1⟩, .int, none⟩, ⟨⟨2⟩, .int, none⟩,
    ⟨⟨3⟩, .int, none⟩, ⟨⟨4⟩, .int, none⟩, ⟨⟨5⟩, .int, none⟩]⟩, .reference .owning ⟨16⟩], .w64⟩
  config := {}

def init : Initial := .fields (List.replicate 5 (.const (.literal (.int 7))))

/-- A function that makes a record of five sevens. -/
def draft : CodeUnit :=
  Step.after (Emitter.addEmitted "make" [] ⟨17⟩ (emitter.makeCode ⟨17⟩ init)) (.new "five")

theorem run_draft : (Emitter.addEmitted "make" [] ⟨17⟩
    (emitter.makeCode ⟨17⟩ init)).run (.new "five") = .ok ⟨0⟩ draft :=
  Step.run_of_result? (by decide +kernel)

theorem below_init : ∀ op ∈ init.operands, op.Below 0 := by
  intro op hop
  rw [List.eq_of_mem_replicate hop]
  trivial

def linked : emitter.Module where
  name := "five"
  draft := draft
  built := Emitter.Module.builds_make below_init run_draft
  unit := Step.after emitter.emitPendingGlue draft
  drained := ⟨0, Step.run_of_result? (by decide +kernel)⟩

theorem holds_make : linked.Holds "make" [] ⟨17⟩ (emitter.makeCode ⟨17⟩ init) := by
  refine ⟨_, ⟨0⟩, draft, .refl, run_draft, ?_, by decide +kernel⟩
  simp only [linked]
  exact .refl

theorem admits : emitter.pool.Admits ⟨16⟩ [] [] init :=
  ⟨.inl rfl, .inl rfl, .inl rfl, .inl rfl, .inl rfl, trivial⟩

/-- There is one stack slot, and the next allocation starts 32 bytes in front of it. -/
def heap : Heap := (Heap.initial.withSlot 8).withBlock 0x5fffffd0

theorem reachable_heap : heap.Reachable := by
  unfold heap
  exact (Heap.Reachable.initial.withSlot 8).withBlock _

def machine : Machine := ⟨heap, 100, []⟩

/-- The bytes of a number below 256. -/
def bytes (n : UInt8) : List UInt8 := n :: List.replicate 7 0

theorem value_int : emitter.layouts.value .int = .ok ⟨8, 8⟩ := by decide +kernel

/-- The machine behind the call. -/
def after : Machine := Step.after (linked.program.run "make" []) machine

theorem load_after : emitter.layouts.load after.heap ⟨16⟩ 0x6fffffe0
    = .ok (.record [.int 7, .int 7, .int 7, .int 7, .int 0]) := by
  have hvalue : emitter.layouts.value ⟨16⟩ = .ok ⟨40, 8⟩ := by decide +kernel
  have hread : after.heap.read 0x6fffffe0 40
      = .ok (bytes 7 ++ bytes 7 ++ bytes 7 ++ bytes 7 ++ bytes 0) := by decide +kernel
  exact (Layouts.load_of_read (a := 0x6fffffe0) hvalue hread).trans rfl

theorem load_slot {h : Heap} {n : UInt8} (hread : h.read 0x70000000 8 = .ok (bytes n)) :
    emitter.layouts.load h .int 0x70000000 = emitter.layouts.decode .int (bytes n) :=
  Layouts.load_of_read (a := 0x70000000) value_int hread

end Straddling

/-- Without room, the end of the record is what the slot is: the record is not what it was to start
with, and neither is the slot. -/
theorem allocation_into_slot :
    Straddling.emitter.pool.Admits ⟨16⟩ [] [] Straddling.init
      ∧ Straddling.linked.Holds "make" [] ⟨17⟩
        (Straddling.emitter.makeCode ⟨17⟩ Straddling.init)
      ∧ Straddling.heap.Reachable ∧ Straddling.heap.nextHeap = 0x6fffffe0
      ∧ (Straddling.linked.program.run "make" []).run Straddling.machine
        = .ok (some (.ptr 0x6fffffe0)) Straddling.after
      ∧ Straddling.emitter.layouts.load Straddling.after.heap ⟨16⟩ 0x6fffffe0
        = .ok (.record [.int 7, .int 7, .int 7, .int 7, .int 0])
      ∧ Straddling.emitter.layouts.load Straddling.heap .int 0x70000000 = .ok (.int 0)
      ∧ Straddling.emitter.layouts.load Straddling.after.heap .int 0x70000000 = .ok (.int 7) := by
  have hbefore := Straddling.load_slot (h := Straddling.heap) (n := 0) (by decide +kernel)
  have hafter := Straddling.load_slot (h := Straddling.after.heap) (n := 7) (by decide +kernel)
  exact ⟨Straddling.admits, Straddling.holds_make, Straddling.reachable_heap, by decide +kernel,
    Exec.run_of_pointer? (by decide +kernel), Straddling.load_after, hbefore.trans rfl,
    hafter.trans rfl⟩

end Ownership
