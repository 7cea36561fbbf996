import Ownership.Proofs.Accesses
import Ownership.Proofs.Termination

/-!
# What a step does to memory

An instruction either leaves memory alone, or makes a stack slot, writes
to a block, or calls one of the heap primitives (`Program.Does`); if it
fails, it leaves the machine as it was. A step of a run is an instruction,
the start or the end of a call, or goes on elsewhere in the same call; a
run that ends has left all its calls (`Program.Effect`).
-/

namespace Ownership

/-! ## Blocks -/

namespace Heap

/-- A block of the arena starts here, live or not. -/
def HasBlock (h : Heap) (a : Address) (arena : Arena) (live : Bool) : Prop :=
  ∃ b, h.blocks.get? a = some b ∧ b.arena = arena ∧ b.live = live

/-- What the heap primitives keep count of. -/
def tally (h : Heap) : Nat × Nat × Nat × List Address :=
  (h.mallocs, h.frees, h.bytesAllocated, h.freed)

variable {h h' : Heap} {a x : Address} {b b' : Block} {arena arena' : Arena} {live live' : Bool}

theorem HasBlock.unique (hb : h.HasBlock a arena live) (hb' : h.HasBlock a arena' live') :
    arena = arena' ∧ live = live' := by
  obtain ⟨b, hget, rfl, rfl⟩ := hb
  obtain ⟨b', hget', rfl, rfl⟩ := hb'
  obtain rfl := Option.some.inj (hget.symm.trans hget')
  exact ⟨rfl, rfl⟩

theorem hasBlock_putBlock : (h.putBlock a b).HasBlock x arena live ↔
    (x = a ∧ b.arena = arena ∧ b.live = live) ∨ (x ≠ a ∧ h.HasBlock x arena live) := by
  unfold HasBlock
  rw [get?_putBlock]
  by_cases hx : x = a
  · simp [hx]
  · simp [hx]

/-- A block is replaced by one that differs in its bytes. -/
theorem hasBlock_putBlock_same (hb : h.blocks.get? a = some b) (harena : b'.arena = b.arena)
    (hlive : b'.live = b.live) :
    (h.putBlock a b').HasBlock x arena live ↔ h.HasBlock x arena live := by
  rw [hasBlock_putBlock]
  by_cases hx : x = a
  · subst hx
    simp [HasBlock, hb, harena, hlive]
  · simp [hx]

/-- A block is put where there was none. -/
theorem hasBlock_putBlock_new (hb : h.blocks.get? a = none) :
    (h.putBlock a b).HasBlock x arena live ↔
      (x = a ∧ b.arena = arena ∧ b.live = live) ∨ h.HasBlock x arena live := by
  rw [hasBlock_putBlock]
  by_cases hx : x = a
  · subst hx
    simp [HasBlock, hb]
  · simp [hx]

theorem hasBlock_malloc {size : Nat} (hs : h.Sound) (hm : h.malloc size = .ok (a, h'))
    (hcursor : h'.nextHeap ≤ stackBase) : h'.HasBlock x arena live ↔
      (x = a ∧ Arena.heap = arena ∧ true = live) ∨ h.HasBlock x arena live := by
  obtain ⟨rfl, -, -, -, rfl⟩ := malloc_ok hm
  change h.nextHeap + stride size ≤ stackBase at hcursor
  have hstride := add_guard_le_stride size
  have hguard : 0 < guardSize := by decide
  have hnew : (h.reserve size).blocks.get? h.nextHeap = none := hs.get?_nextHeap (by lia)
  exact hasBlock_putBlock_new hnew

theorem hasBlock_pushSlot {size : Nat} (hs : h.Sound) (hm : h.pushSlot size = .ok (a, h'))
    (hcursor : h'.nextHeap ≤ stackBase) : h'.HasBlock x arena live ↔
      (x = a ∧ Arena.stack = arena ∧ true = live) ∨ h.HasBlock x arena live := by
  obtain ⟨rfl, -, rfl⟩ := pushSlot_ok hm
  exact hasBlock_putBlock_new (hs.get?_nextStack hcursor)

theorem hasBlock_write {data : List UInt8} (hw : h.write a data = .ok h') :
    h'.HasBlock x arena live ↔ h.HasBlock x arena live := by
  obtain ⟨base, b, hc, -, rfl⟩ := write_ok hw
  refine hasBlock_putBlock_same hc.block ?_ ?_
  · rfl
  · rfl

/-- Only allocated blocks are freed. -/
theorem arena_of_free (hf : h.free a = .ok h') (ha : a ≠ 0) (hb : h.blocks.get? a = some b) :
    b.arena = .heap := by
  by_contra harena
  simp only [free, if_neg ha, hb, ne_eq, harena, not_false_eq_true, if_true] at hf
  cases hf

/-- A free changes no stack slot and no other block. -/
theorem hasBlock_free (hs : h.Sound) (hf : h.free a = .ok h') (hx : arena = .stack ∨ x ≠ a) :
    h'.HasBlock x arena live ↔ h.HasBlock x arena live := by
  rcases free_ok hf with rfl | ⟨b, hb, rfl⟩
  · exact Iff.rfl
  · have harena := arena_of_free hf (hs.bounded.ne_zero hb) hb
    change (h.putBlock a { b with live := false }).HasBlock x arena live ↔ _
    rw [hasBlock_putBlock]
    by_cases hxa : x = a
    · obtain rfl := hx.resolve_right (fun hne => hne hxa)
      subst hxa
      simp [HasBlock, hb, harena]
    · simp [hxa]

theorem live_kill : (h.kill a).HasBlock x arena true ↔ h.HasBlock x arena true ∧ x ≠ a := by
  cases hb : h.blocks.get? a with
  | none =>
      rw [kill_none hb]
      refine ⟨fun hx => ⟨hx, ?_⟩, And.left⟩
      rintro rfl
      obtain ⟨b, hget, -⟩ := hx
      rw [hb] at hget
      cases hget
  | some b =>
      rw [kill_eq hb, hasBlock_putBlock]
      simp [and_comm]

theorem hasBlock_kill (hx : x ≠ a) :
    (h.kill a).HasBlock x arena live ↔ h.HasBlock x arena live := by
  cases hb : h.blocks.get? a with
  | none => rw [kill_none hb]
  | some b =>
      rw [kill_eq hb, hasBlock_putBlock]
      simp [hx]

/-- The slots that are dropped end, and no others. -/
theorem live_dropSlots {slots : List Address} : (h.dropSlots slots).HasBlock x arena true ↔
    h.HasBlock x arena true ∧ x ∉ slots := by
  induction slots generalizing h with
  | nil => simp [dropSlots]
  | cons a slots ih =>
      have hrest : (h.dropSlots (a :: slots)) = (h.kill a).dropSlots slots := rfl
      rw [hrest, ih, live_kill, List.mem_cons, not_or, and_assoc]

theorem hasBlock_dropSlots {slots : List Address} (hx : x ∉ slots) :
    (h.dropSlots slots).HasBlock x arena live ↔ h.HasBlock x arena live := by
  induction slots generalizing h with
  | nil => exact Iff.rfl
  | cons a slots ih =>
      rw [List.mem_cons, not_or] at hx
      exact (ih hx.2).trans (hasBlock_kill hx.1)

theorem tally_dropSlots (h : Heap) (slots : List Address) :
    (h.dropSlots slots).tally = h.tally := by
  obtain ⟨blocks, heq⟩ := h.exists_dropSlots_eq slots
  rw [heq]
  exact Eq.refl _

end Heap

/-! ## Instructions -/

namespace Exec

variable {α β : Type} {m : Machine} {Q : α → Machine → Prop}

/-- With a value, `x` leaves a machine as `Q` says; without one, it leaves the machine as it was. -/
def Sets (x : Exec α) (m : Machine) (Q : α → Machine → Prop) : Prop :=
  match x.run m with
  | .ok a m' => Q a m'
  | .error _ m' => m' = m

theorem Sets.of_ok {x : Exec α} {a : α} {m' : Machine} (h : x.Sets m Q)
    (hrun : x.run m = .ok a m') : Q a m' := by
  rw [Sets, hrun] at h
  exact h

theorem Sets.of_error {x : Exec α} {s : Stop Fault} {m' : Machine} (h : x.Sets m Q)
    (hrun : x.run m = .error s m') : m' = m := by
  rw [Sets, hrun] at h
  exact h

theorem sets_pure {a : α} (h : Q a m) : (pure a : Exec α).Sets m Q := h

theorem sets_throw (s : Stop Fault) : (throw s : Exec α).Sets m Q := rfl

/-- The first part only looks something up. -/
theorem sets_outcome_bind {y : Outcome β} {k : β → Exec α} (h : ∀ b, y = .ok b → (k b).Sets m Q) :
    (outcome y >>= k).Sets m Q := by
  cases y with
  | ok b => exact h b rfl
  | error s => cases s <;> exact rfl

theorem Sets.map {x : Exec β} {g : β → α} (h : x.Sets m fun b m' => Q (g b) m') :
    (x >>= fun b => pure (g b)).Sets m Q := by
  unfold Sets
  cases hrun : x.run m with
  | ok b m' =>
      rw [Step.run_bind_ok hrun]
      exact h.of_ok hrun
  | error s m' =>
      rw [Step.run_bind_error hrun]
      exact h.of_error hrun

theorem sets_malloc {size : UInt64} {Q : UInt64 → Machine → Prop}
    (h : ∀ a heap, m.heap.malloc size.toNat = .ok (a, heap) → Q (UInt64.ofNat a) { m with heap }) :
    (malloc size).Sets m Q := by
  unfold Sets
  cases hm : m.heap.malloc size.toNat with
  | ok q =>
      rw [run_malloc hm]
      exact h q.1 q.2 hm
  | error a => rw [run_malloc_error hm]

theorem sets_withHeap {f : Heap → Outcome Heap} {Q : Unit → Machine → Prop}
    (h : ∀ heap, f m.heap = .ok heap → Q () { m with heap }) : (withHeap f).Sets m Q := by
  unfold Sets
  cases hf : f m.heap with
  | ok heap =>
      rw [run_withHeap hf]
      exact h heap hf
  | error s => rw [run_withHeap_error hf]

theorem sets_pushSlot {size : Nat} {Q : UInt64 → Machine → Prop}
    (h : ∀ a heap, m.heap.pushSlot size = .ok (a, heap) →
      Q (UInt64.ofNat a) { m with heap, slots := a :: m.slots }) : (pushSlot size).Sets m Q := by
  change (Step.ofAbort (m.heap.pushSlot size) >>= _ : Exec UInt64).Sets m Q
  cases hm : m.heap.pushSlot size with
  | ok q => exact h q.1 q.2 hm
  | error a => exact rfl

end Exec

/-- Whether the instruction makes a stack slot. -/
def Instr.makesSlot : Instr → Bool
  | .alloca .. => true
  | _ => false

namespace Program

open Exec

/-- What an instruction that is no call of a function has done to the frame and the machine. -/
inductive Does (p : Program) (frame : Frame) (m : Machine) : Instr → Frame → Machine → Prop where
  | still {i : Instr} {frame' : Frame} : i.makesSlot = false → Does p frame m i frame' m
  | alloca {dst : ValueId} {ty : TypeId} {var : Name} {size : Nat} {a : Address} {heap : Heap} :
      m.heap.pushSlot size = .ok (a, heap) → Does p frame m (.alloca dst ty var)
        (frame.define dst (.ptr (UInt64.ofNat a))) { m with heap, slots := a :: m.slots }
  | store {ty : TypeId} {value ptr : Operand} {frame' : Frame} {addr : Address} {data : List UInt8}
      {heap : Heap} : m.heap.write addr data = .ok heap →
      Does p frame m (.store ty value ptr) frame' { m with heap }
  | malloc {prims : HeapPrimitives} {dst : Option ValueId} {args : List Operand} {frame' : Frame}
      {size : Nat} {a : Address} {heap : Heap} : p.unit.heap = some prims →
      m.heap.malloc size = .ok (a, heap) →
      Does p frame m (.callExternal dst prims.alloc args) frame' { m with heap }
  | free {prims : HeapPrimitives} {dst : Option ValueId} {arg : Operand} {frame' : Frame}
      {addr : UInt64} {heap : Heap} : p.unit.heap = some prims → prims.alloc ≠ prims.free →
      frame.evalAddr arg = .ok addr → m.heap.free addr.toNat = .ok heap →
      Does p frame m (.callExternal dst prims.free [arg]) frame' { m with heap }

/-- The instruction calls a heap primitive. -/
def IsHeapCall (p : Program) (i : Instr) : Prop :=
  ∃ prims dst callee args, p.unit.heap = some prims ∧ i = .callExternal dst callee args
    ∧ (callee = prims.alloc ∨ callee = prims.free)

/-- The instruction passes the address to the primitive that frees. -/
def PassesToFree (p : Program) (frame : Frame) (i : Instr) (a : Address) : Prop :=
  ∃ prims dst arg addr, p.unit.heap = some prims ∧ prims.alloc ≠ prims.free
    ∧ i = .callExternal dst prims.free [arg] ∧ frame.evalAddr arg = .ok addr ∧ addr.toNat = a

variable {p : Program} {call : Caller} {frame frame' : Frame} {m m' : Machine} {i : Instr}

theorem eval_of_mapM {args : List Operand} {v : Value} (h : args.mapM frame.eval = .ok [v]) :
    ∃ arg, args = [arg] ∧ frame.eval arg = .ok v := by
  cases args with
  | nil => cases h
  | cons arg rest =>
      rw [List.mapM_cons] at h
      obtain ⟨v₁, hv₁, h⟩ := Outcome.bind_ok h
      obtain ⟨vs, hvs, h⟩ := Outcome.bind_ok h
      obtain ⟨rfl, rfl⟩ := List.cons.inj (Except.ok.inj h)
      cases rest with
      | nil => exact ⟨arg, rfl, hv₁⟩
      | cons arg' rest =>
          rw [List.mapM_cons] at hvs
          obtain ⟨v₂, -, hvs⟩ := Outcome.bind_ok hvs
          obtain ⟨vs', -, hvs⟩ := Outcome.bind_ok hvs
          cases hvs

theorem sets_callExternal {args : List Operand} {vs : List Value}
    (hvs : args.mapM frame.eval = .ok vs) (dst : Option ValueId) (callee : ExternalId) :
    (p.callExternal callee vs).Sets m fun _ m' =>
      ∀ frame', p.Does frame m (.callExternal dst callee args) frame' m' := by
  have hunresolved : ∀ {Q}, (callExternal.unresolved p callee).Sets m Q := by
    intro Q
    unfold callExternal.unresolved
    cases p.unit.external? callee with
    | none => exact sets_throw _
    | some e => exact sets_throw _
  unfold callExternal
  split
  · next prims v hprims =>
      obtain ⟨arg, rfl, harg⟩ := eval_of_mapM hvs
      by_cases halloc : prims.alloc = callee
      · subst halloc
        rw [if_pos rfl]
        refine sets_outcome_bind fun size _ => Sets.map ?_
        exact sets_malloc fun a heap hm frame' => .malloc hprims hm
      · rw [if_neg halloc]
        by_cases hfree : prims.free = callee
        · subst hfree
          rw [if_pos rfl]
          refine sets_outcome_bind fun addr haddr => Sets.map ?_
          refine sets_withHeap fun heap hheap frame' => ?_
          have heval : frame.evalAddr arg = .ok addr := by
            rw [Frame.evalAddr, harg]
            exact haddr
          cases hf : m.heap.free addr.toNat with
          | error f =>
              rw [hf] at hheap
              cases hheap
          | ok heap' =>
              rw [hf] at hheap
              cases hheap
              exact .free hprims halloc heval hf
        · rw [if_neg hfree]
          exact hunresolved
  · exact hunresolved

theorem sets_runInstr (hi : i.call? = none) :
    (p.runInstr call frame i).Sets m (p.Does frame m i) := by
  cases i with
  | alloca dst ty var =>
      refine sets_outcome_bind fun layout _ => Sets.map (sets_pushSlot fun a heap hm => ?_)
      exact .alloca hm
  | load dst ty ptr =>
      refine sets_outcome_bind fun addr _ => ?_
      exact sets_outcome_bind fun v _ => sets_pure (.still rfl)
  | store ty value ptr =>
      refine sets_outcome_bind fun addr _ => sets_outcome_bind fun v _ => Sets.map ?_
      refine sets_withHeap fun heap hheap => ?_
      obtain ⟨_, data, -, -, -, -, hw⟩ := Layouts.store_ok hheap
      exact .store hw
  | fieldAddr dst base record field bytes =>
      exact sets_outcome_bind fun addr _ => sets_pure (.still rfl)
  | offset dst base bytes => exact sets_outcome_bind fun addr _ => sets_pure (.still rfl)
  | cast dst ty value => exact sets_outcome_bind fun v _ => sets_pure (.still rfl)
  | add dst ty lhs rhs =>
      refine sets_outcome_bind fun a _ => sets_outcome_bind fun b _ => ?_
      exact sets_outcome_bind fun sum _ => sets_pure (.still rfl)
  | cmp dst how ty lhs rhs => exact sets_outcome_bind fun v _ => sets_pure (.still rfl)
  | callExternal dst callee args =>
      refine sets_outcome_bind fun vs hvs => Sets.map ?_
      have hcall := sets_callExternal (p := p) (m := m) hvs dst callee
      unfold Sets at hcall ⊢
      split at hcall
      · exact hcall _
      · exact hcall
  | call dst callee args => cases hi

theorem Does.nextHeap_le (h : p.Does frame m i frame' m') : m.heap.nextHeap ≤ m'.heap.nextHeap := by
  cases h with
  | still => exact Nat.le_refl _
  | alloca hm =>
      obtain ⟨-, -, rfl⟩ := Heap.pushSlot_ok hm
      exact Nat.le_refl _
  | store hw =>
      obtain ⟨base, b, -, -, rfl⟩ := Heap.write_ok hw
      exact Nat.le_refl _
  | malloc _ hm =>
      obtain ⟨-, -, -, -, rfl⟩ := Heap.malloc_ok hm
      exact Nat.le_add_right _ _
  | free _ _ _ hf =>
      rcases Heap.free_ok hf with heq | ⟨b, -, heq⟩ <;> exact heq ▸ Nat.le_refl _

theorem Does.tally_eq (h : p.Does frame m i frame' m') (hi : ¬ p.IsHeapCall i) :
    m'.heap.tally = m.heap.tally := by
  cases h with
  | still => rfl
  | alloca hm =>
      obtain ⟨-, -, rfl⟩ := Heap.pushSlot_ok hm
      rfl
  | store hw =>
      obtain ⟨base, b, -, -, rfl⟩ := Heap.write_ok hw
      rfl
  | malloc hprims _ => exact absurd ⟨_, _, _, _, hprims, rfl, Or.inl rfl⟩ hi
  | free hprims _ _ _ => exact absurd ⟨_, _, _, _, hprims, rfl, Or.inr rfl⟩ hi

theorem Does.of_alloca {dst : ValueId} {ty : TypeId} {var : Name}
    (h : p.Does frame m (.alloca dst ty var) frame' m') :
    ∃ w : UInt64, m'.slots = w.toNat :: m.slots ∧ frame' = frame.define dst (.ptr w) := by
  cases h with
  | still hi => cases hi
  | @alloca _ _ _ size a heap hm =>
      obtain ⟨rfl, hend, -⟩ := Heap.pushSlot_ok hm
      have hfits : m.heap.nextStack < UInt64.size := Nat.lt_of_le_of_lt (Nat.le_add_right _ _) hend
      exact ⟨UInt64.ofNat m.heap.nextStack, by rw [UInt64.toNat_ofNat_of_lt' hfits], rfl⟩

theorem Does.slots_subset (h : p.Does frame m i frame' m') : m.slots ⊆ m'.slots := by
  cases h with
  | alloca => exact List.subset_cons_self _ _
  | still | store | malloc | free => exact List.Subset.refl _

end Program

/-! ## Steps -/

namespace Snapshot

/-- The instruction that is run next, if the block has one left. -/
def instr? (c : Snapshot) : Option Instr := do
  let B ← c.current.function.block? c.current.block
  B.body[c.current.done]?

/-- The stack slots that each call under way found when it began, which are those of its caller. -/
def outers (c : Snapshot) : List (List Address) := (c.current :: c.callers).map Activation.outer

theorem length_outers (c : Snapshot) : c.outers.length = c.callers.length + 1 := by
  simp [outers]

end Snapshot

namespace Program

variable {p : Program} {c c' c₁ c₂ : Snapshot} {e : Event} {es es' : List Event} {i : Instr}
  {r : Outcome (Option Value)} {m m' : Machine}

/-- The next step is a call of a heap primitive. -/
def CallsHeap (p : Program) (c : Snapshot) : Prop :=
  0 < c.machine.budget ∧ ∃ i, c.instr? = some i ∧ p.IsHeapCall i

/-- The next step passes the address to the primitive that frees. -/
def Frees (p : Program) (c : Snapshot) (a : Address) : Prop :=
  0 < c.machine.budget ∧ ∃ i, c.instr? = some i ∧ p.PassesToFree c.current.frame i a

/-- What comes next for a run at `c`, as far as memory and stack slots are concerned. -/
inductive Effect (p : Program) (c : Snapshot) : Progress → Prop where
  | instr {e : Event} {c' : Snapshot} {i : Instr} {budget : Nat} : c.instr? = some i →
      c.machine.budget = budget + 1 →
      p.Does c.current.frame { c.machine with budget } i c'.current.frame c'.machine →
      c'.outers = c.outers → Effect p c (.goes e c')
  | call {e : Event} {c' : Snapshot} {dst : Option ValueId} {callee : FuncId} {args : List Operand}
      {budget : Nat} : c.instr? = some (.call dst callee args) →
      c'.machine = { c.machine with budget, slots := [] } →
      c'.outers = c.machine.slots :: c.outers → Effect p c (.goes e c')
  | goto {e : Event} {c' : Snapshot} : c.instr? = none → c'.machine = c.machine →
      c'.outers = c.outers → Effect p c (.goes e c')
  | back {e : Event} {c' : Snapshot} : c.instr? = none → c.outers = c.current.outer :: c'.outers →
      c'.machine = Exec.leave c.machine c.current.outer → Effect p c (.goes e c')
  /-- All calls are left, and memory is as the step found it. -/
  | ends {r : Outcome (Option Value)} {budget : Nat} :
      Effect p c (.ends r (c.outers.foldl Exec.leave { c.machine with budget }))

theorem effect_stop (c : Snapshot) (s : Stop Fault) (budget : Nat) :
    p.Effect c ({ c with machine := { c.machine with budget } }.stop s) := by
  have hunwind : { c with machine := { c.machine with budget } }.stop s =
      .ends (.error s) (c.outers.foldl Exec.leave { c.machine with budget }) := by
    rw [Snapshot.outers, List.map_cons, List.foldl_cons, List.foldl_map]
    exact Eq.refl _
  rw [hunwind]
  exact .ends

theorem effect_instr {budget : Nat} (hinstr : c.instr? = some i)
    (hbudget : c.machine.budget = budget + 1) (hi : i.call? = none) :
    p.Effect c (p.perform { c with machine := { c.machine with budget } } i) := by
  have hsets : (p.runInstr (fun _ _ => Step.giveUp .dangling) c.current.frame i).Sets
      { c.machine with budget } (p.Does c.current.frame { c.machine with budget } i) :=
    sets_runInstr hi
  unfold perform
  rw [hi]
  cases hrun : (p.runInstr (fun _ _ => Step.giveUp .dangling) c.current.frame i).run
      { c.machine with budget } with
  | ok frame m => exact .instr hinstr hbudget (hsets.of_ok hrun) rfl
  | error s m =>
      obtain rfl := hsets.of_error hrun
      exact effect_stop c s budget

theorem effect_call {dst : Option ValueId} {callee : FuncId} {args : List Operand}
    (hinstr : c.instr? = some (.call dst callee args)) (budget : Nat) :
    p.Effect c (p.perform { c with machine := { c.machine with budget } }
      (.call dst callee args)) := by
  unfold perform
  simp only [Instr.call?]
  cases hargs : args.mapM c.current.frame.eval with
  | error s => exact effect_stop c s budget
  | ok vs =>
      cases hf : p.callee callee with
      | error s => exact effect_stop c s budget
      | ok f => exact .call hinstr (Eq.refl { c.machine with budget, slots := [] }) rfl

theorem effect_leave (hinstr : c.instr? = none) (x : Outcome Exit) : p.Effect c (c.leave x) := by
  cases x with
  | error s => exact effect_stop c s c.machine.budget
  | ok x =>
      cases x with
      | goto id => exact .goto hinstr rfl rfl
      | answer v =>
          change p.Effect c (c.answer v)
          unfold Snapshot.answer
          cases hcallers : c.callers with
          | nil =>
              have houters : c.outers = [c.current.outer] := by
                rw [Snapshot.outers, hcallers]
                exact Eq.refl _
              have hends : p.Effect c
                  (.ends (.ok v) (c.outers.foldl Exec.leave { c.machine with })) := .ends
              rw [houters] at hends
              exact hends
          | cons a callers =>
              refine .back hinstr ?_ rfl
              rw [Snapshot.outers, hcallers]
              exact Eq.refl _

theorem effect_next (p : Program) (c : Snapshot) : p.Effect c (p.next c) := by
  cases hB : c.current.function.block? c.current.block with
  | none =>
      rw [next_dangling hB]
      exact effect_stop c _ c.machine.budget
  | some B =>
      have hinstr : c.instr? = B.body[c.current.done]? := by
        rw [Snapshot.instr?, hB]
        exact Eq.refl _
      cases hbody : B.body[c.current.done]? with
      | none =>
          rw [next_exit hB hbody]
          exact effect_leave (hinstr.trans hbody) _
      | some i =>
          cases hbudget : c.machine.budget with
          | zero =>
              rw [next_stepLimit hB hbody hbudget]
              exact effect_stop c _ c.machine.budget
          | succ budget =>
              rw [next_instr hB hbody hbudget]
              cases i with
              | call dst callee args => exact effect_call (hinstr.trans hbody) budget
              | alloca | load | store | fieldAddr | offset | cast | add | cmp | callExternal =>
                  exact effect_instr (hinstr.trans hbody) hbudget rfl

theorem effect_of_next {x : Progress} (h : p.next c = x) : p.Effect c x := h ▸ p.effect_next c

/-! ## What stays and what only grows -/

/-- Leaving calls changes blocks, and nothing else of memory. -/
theorem exists_foldl_leave_eq (outers : List (List Address)) (m : Machine) :
    ∃ blocks slots,
      outers.foldl Exec.leave m = { m with heap := { m.heap with blocks }, slots } := by
  induction outers generalizing m with
  | nil => exact ⟨m.heap.blocks, m.slots, rfl⟩
  | cons outer outers ih =>
      obtain ⟨blocks, slots, hrest⟩ := ih (Exec.leave m outer)
      obtain ⟨blocks', hdrop⟩ := m.heap.exists_dropSlots_eq m.slots
      refine ⟨blocks, slots, hrest.trans ?_⟩
      rw [Exec.leave, hdrop]

theorem nextHeap_le_of_goes (h : p.next c = .goes e c') :
    c.machine.heap.nextHeap ≤ c'.machine.heap.nextHeap := by
  cases effect_of_next h with
  | instr _ _ hdoes _ => exact hdoes.nextHeap_le
  | call _ hm _ => exact hm ▸ Nat.le_refl _
  | goto _ hm _ => exact hm ▸ Nat.le_refl _
  | back _ _ hm => exact hm ▸ Nat.le_of_eq (Heap.nextHeap_dropSlots _ _).symm

theorem nextHeap_of_ends (h : p.next c = .ends r m') :
    m'.heap.nextHeap = c.machine.heap.nextHeap := by
  cases effect_of_next h with
  | @ends _ budget =>
      obtain ⟨blocks, slots, heq⟩ := exists_foldl_leave_eq c.outers { c.machine with budget }
      rw [heq]

theorem Steps.nextHeap_le (h : p.Steps c es c') :
    c.machine.heap.nextHeap ≤ c'.machine.heap.nextHeap := by
  induction h with
  | refl => exact Nat.le_refl _
  | head hnext _ ih => exact Nat.le_trans (nextHeap_le_of_goes hnext) ih

end Program

end Ownership
