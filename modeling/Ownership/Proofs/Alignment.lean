import Mathlib
import Ownership.Proofs.Allocation
import Ownership.Proofs.Arenas
import Ownership.Proofs.Flattening
import Ownership.Proofs.Owned

/-!
# Natural alignment

Addresses are aligned from the cursor of the allocations down to the
fields of nested records. The cursor is always a multiple of a granule.
The header in front of a counted pointee is padded to the alignment of
the pointee, so a new reference has that alignment
(`Layouts.align_dvd_reference`), and the instructions that take the
address of a field go from an aligned record to an aligned field
(`Program.FieldPath.aligned`).
-/

namespace Ownership

/-! ## Instructions that were added -/

/-- Instructions were put behind those of the open block; the other blocks are as they were. -/
structure Draft.Adds (d d' : Draft) (code : List Instr) : Prop where
  opened : d.builder.IsOpen
  position : d'.builder.position = d.builder.position
  blocks : d'.builder.function.blocks = d.builder.function.blocks.modify d.builder.here.block.index
    fun B => { B with body := B.body ++ code }

theorem Draft.values_define (d : Draft) (ty : TypeId) (instr : ValueId → Instr) :
    ({ d with builder := (d.builder.define ty instr).2 } : Draft).values = d.values + 1 :=
  Builder.values_define ..

namespace Draft.Adds

variable {d d₁ d₂ : Draft} {code code' : List Instr}

theorem nil (hopen : d.builder.IsOpen) (u : CodeUnit) : d.Adds { d with unit := u } [] := by
  refine ⟨hopen, rfl, ?_⟩
  simp only [List.append_nil]
  exact (List.modify_id _ _).symm

theorem push (hopen : d.builder.IsOpen) (i : Instr) :
    d.Adds { d with builder := d.builder.push i } [i] := by
  refine ⟨hopen, ?_, ?_⟩
  · rw [Builder.push, Builder.Open.extend hopen]
    rfl
  · rw [Builder.push, Builder.Open.extend hopen]
    rfl

theorem define (hopen : d.builder.IsOpen) (ty : TypeId) (instr : ValueId → Instr) :
    d.Adds { d with builder := (d.builder.define ty instr).2 } [instr ⟨d.values⟩] := by
  have hfresh : (d.builder.fresh ty).2.IsOpen := (Builder.Open.fresh hopen ty).isOpen
  have hpush := push (d := { d with builder := (d.builder.fresh ty).2 }) hfresh (instr ⟨d.values⟩)
  exact ⟨hopen, hpush.position, hpush.blocks⟩

theorem block_here (h : d.Adds d₁ code) : d₁.builder.here.block = d.builder.here.block := by
  simp only [Builder.here, h.position]

theorem unique (h : d.Adds d₁ code) (h' : d.Adds d₁ code') : code = code' := by
  obtain ⟨-, B, hB, -⟩ := h.opened
  have hbody : ∀ {c}, d.Adds d₁ c → d₁.builder.function.blocks[d.builder.here.block.index]?
      = some { B with body := B.body ++ c } := by
    intro c hc
    rw [hc.blocks, List.getElem?_modify_eq, hB]
    rfl
  have hsame := congrArg BasicBlock.body (Option.some.inj ((hbody h).symm.trans (hbody h')))
  exact List.append_cancel_left hsame

theorem isOpen (h : d.Adds d₁ code) : d₁.builder.IsOpen := by
  obtain ⟨hposition, B, hB, hterm, -⟩ := h.opened
  have hopen : d₁.builder.Open ⟨d.builder.here.block, B.body.length + code.length⟩ := by
    refine ⟨h.position.trans hposition, { B with body := B.body ++ code }, ?_, hterm, ?_⟩
    · rw [h.blocks, List.getElem?_modify_eq, hB]
      rfl
    · exact List.length_append
  exact hopen.isOpen

theorem trans (h : d.Adds d₁ code) (h' : d₁.Adds d₂ code') : d.Adds d₂ (code ++ code') := by
  refine ⟨h.opened, h'.position.trans h.position, ?_⟩
  rw [h'.blocks, h.block_here, h.blocks, List.modify_modify_eq]
  simp only [Function.comp_def, List.append_assoc]

end Draft.Adds

/-! ## Code that leaves a reference alone -/

/-- The instruction stores something, or takes the address of a field into a value from `n` on. -/
def Instr.Spares (n : Nat) : Instr → Prop
  | .store .. => True
  | .fieldAddr dst .. => n ≤ dst.index
  | _ => False

theorem Instr.Spares.mono {n n' : Nat} {i : Instr} (h : i.Spares n') (hn : n ≤ n') :
    i.Spares n := by
  cases i with
  | store => trivial
  | fieldAddr dst => exact hn.trans h
  | alloca | load | offset | cast | add | cmp | callExternal | call => exact h

theorem Frame.size_define (frame : Frame) (id : ValueId) (v : Value) :
    (frame.define id v).size = frame.size := (keeps_define frame le_rfl v).size

namespace Program

variable {p : Program} {call : Caller} {frame frame' : Frame} {m m' : Machine}

theorem runInstrs_append (code code' : List Instr) (frame : Frame) :
    p.runInstrs call (code ++ code') frame
      = p.runInstrs call code frame >>= p.runInstrs call code' := by
  induction code generalizing frame with
  | nil => rfl
  | cons i rest ih =>
      simp only [List.cons_append, runInstrs, bind_assoc]
      exact bind_congr fun _ => bind_congr fun frame₁ => ih frame₁

theorem runInstrs_cons_ok {i : Instr} {rest : List Instr}
    (h : (p.runInstrs call (i :: rest) frame).run m = .ok frame' m') :
    ∃ m₁ frame₁ m₂, m₁.heap = m.heap ∧ (p.runInstr call frame i).run m₁ = .ok frame₁ m₂
      ∧ (p.runInstrs call rest frame₁).run m₂ = .ok frame' m' := by
  obtain ⟨⟨⟩, m₁, htick, h⟩ := Step.bind_ok h
  obtain ⟨frame₁, m₂, hrun, hrest⟩ := Step.bind_ok h
  exact ⟨m₁, frame₁, m₂, ((Exec.yields_tick m).of_ok htick).1.heap, hrun, hrest⟩

theorem frame_of_store {ty : TypeId} {value ptr : Operand}
    (h : (p.runInstr call frame (.store ty value ptr)).run m = .ok frame' m') :
    frame' = frame := by
  obtain ⟨addr, m₁, -, h⟩ := Step.bind_ok h
  obtain ⟨v, m₂, -, h⟩ := Step.bind_ok h
  obtain ⟨⟨⟩, m₃, -, h⟩ := Step.bind_ok h
  exact (EStateM.Result.ok.inj h).1.symm

theorem frame_of_offset {dst : ValueId} {base : Operand} {bytes : Int64}
    (h : (p.runInstr call frame (.offset dst base bytes)).run m = .ok frame' m') :
    ∃ a, frame.evalAddr base = .ok a ∧ frame' = frame.define dst (.ptr (a + bytes.toUInt64)) := by
  obtain ⟨a, m₁, ha, h⟩ := Step.bind_ok h
  exact ⟨a, (Exec.outcome_ok ha).1, (EStateM.Result.ok.inj h).1.symm⟩

theorem frame_of_cast {dst : ValueId} {ty : TypeId} {value : Operand}
    (h : (p.runInstr call frame (.cast dst ty value)).run m = .ok frame' m') :
    ∃ v, frame.eval value = .ok v ∧ frame' = frame.define dst v := by
  obtain ⟨v, m₁, hv, h⟩ := Step.bind_ok h
  exact ⟨v, (Exec.outcome_ok hv).1, (EStateM.Result.ok.inj h).1.symm⟩

theorem frame_of_fieldAddr {dst : ValueId} {base : Operand} {record : TypeId} {index : Nat}
    {bytes : UInt64}
    (h : (p.runInstr call frame (.fieldAddr dst base record index bytes)).run m = .ok frame' m') :
    ∃ a, frame.evalAddr base = .ok a ∧ frame' = frame.define dst (.ptr (a + bytes)) := by
  obtain ⟨a, m₁, ha, h⟩ := Step.bind_ok h
  exact ⟨a, (Exec.outcome_ok ha).1, (EStateM.Result.ok.inj h).1.symm⟩

/-- What is left of a frame by code that leaves the first values alone. -/
theorem keeps_of_spares {n : Nat} : ∀ {code : List Instr} {frame : Frame} {m : Machine},
    (∀ i ∈ code, i.Spares n) → (p.runInstrs call code frame).run m = .ok frame' m' →
    Frame.Keeps n frame frame'
  | [], frame, m, _, h => by
      obtain ⟨rfl, -⟩ := EStateM.Result.ok.inj h
      exact .refl _ _
  | i :: rest, frame, m, hspares, h => by
      obtain ⟨m₁, frame₁, m₂, -, hrun, hrest⟩ := runInstrs_cons_ok h
      have hkeeps := keeps_of_spares (fun j hj => hspares j (List.mem_cons_of_mem _ hj)) hrest
      refine Frame.Keeps.trans le_rfl ?_ hkeeps
      have hi := hspares i List.mem_cons_self
      cases i with
      | store ty value ptr =>
          rw [frame_of_store hrun]
          exact .refl _ _
      | fieldAddr dst base record index bytes =>
          obtain ⟨a, -, rfl⟩ := frame_of_fieldAddr hrun
          exact Frame.keeps_define _ hi _
      | alloca | load | offset | cast | add | cmp | callExternal | call => cases hi

end Program

/-! ## The code of an allocation -/

/-- The value that is the reference, where the values from `n` on are free. -/
def RefLayout.referenceAt (layout : RefLayout) (n : Nat) : ValueId :=
  ⟨if layout.hasCounter then n + 2 else n + 1⟩

theorem RefLayout.le_referenceAt (layout : RefLayout) (n : Nat) :
    n ≤ (layout.referenceAt n).index := by
  unfold referenceAt
  split <;> lia

namespace Emitter

/-- The instructions that make a reference to the block at the value `n`. -/
def startCode (e : Emitter) (ty : TypeId) (layout : RefLayout) (n : Nat) : List Instr :=
  if layout.hasCounter then
    [.store .usize (e.wordConst 1) (.value ⟨n⟩),
      .offset ⟨n + 1⟩ (.value ⟨n⟩) (Int64.ofInt (-layout.countOffset)),
      .cast ⟨n + 2⟩ ty (.value ⟨n + 1⟩)]
  else [.cast ⟨n + 1⟩ ty (.value ⟨n⟩)]

/-- The instructions that make a block and a reference to it. -/
def blockCode (e : Emitter) (ty : TypeId) (layout : RefLayout) (alloc : ExternalId) (size n : Nat) :
    List Instr :=
  .callExternal (some ⟨n⟩) alloc [.const (.usize (UInt64.ofNat size))] :: e.startCode ty layout n

variable {e : Emitter} {d d' : Draft} {ty : TypeId} {id : ValueId}

theorem isOpen_of_requirePoint (h : Emit.requirePoint.run d = .ok () d') : d.builder.IsOpen := by
  unfold Emit.requirePoint at h
  obtain ⟨d₁, d₂, h₁, k₁⟩ := Step.bind_ok h
  obtain ⟨rfl, rfl⟩ := EStateM.Result.ok.inj h₁
  rw [Step.run_require] at k₁
  split at k₁
  · next hsome =>
      obtain ⟨block, hblock⟩ := Option.isSome_iff_exists.mp hsome
      obtain ⟨n, hopen⟩ := Builder.open_of_insertionBlock? hblock
      exact hopen.isOpen
  · cases k₁

/-- The draft has more instructions, which leave the values that were in use alone. -/
structure Appends (d d' : Draft) (fill : List Instr) : Prop where
  adds : d.Adds d' fill
  spares : ∀ i ∈ fill, i.Spares d.values
  values : d.values ≤ d'.values
  unit : d'.unit = d.unit

theorem Appends.trans {d₁ d₂ : Draft} {fill fill' : List Instr} (h : Appends d d₁ fill)
    (h' : Appends d₁ d₂ fill') : Appends d d₂ (fill ++ fill') := by
  refine ⟨h.adds.trans h'.adds, fun i hi => ?_, h.values.trans h'.values, h'.unit.trans h.unit⟩
  rcases List.mem_append.mp hi with hi | hi
  · exact h.spares i hi
  · exact (h'.spares i hi).mono h.values

theorem appends_store (hopen : d.builder.IsOpen) (ty : TypeId) (value ptr : Operand) :
    Appends d { d with builder := d.builder.store ty value ptr } [.store ty value ptr] := by
  refine ⟨.push hopen _, fun i hi => ?_, (Builder.values_push ..).ge, rfl⟩
  rw [List.mem_singleton.mp hi]
  trivial

theorem appends_storeField {base : ValueId} {record : TypeId} {vs : List Operand}
    {entry : FieldSlot × FieldSource} (hopen : d.builder.IsOpen)
    (h : (storeField base record vs entry).run d = .ok () d') : ∃ fill, Appends d d' fill := by
  unfold storeField at h
  obtain ⟨v, d₁, h₁, k₁⟩ := Step.bind_ok h
  obtain ⟨-, rfl⟩ := Emits.ofAbort_ok h₁
  obtain ⟨addr, d₂, h₂, k₂⟩ := Step.bind_ok k₁
  obtain ⟨rfl, rfl⟩ := Emits.build_ok rfl h₂
  obtain ⟨-, rfl⟩ := EStateM.Result.ok.inj k₂
  have haddr := Draft.Adds.define hopen .ptr fun dst =>
    .fieldAddr dst (.value base) record entry.1.index (UInt64.ofNat entry.1.offset)
  refine ⟨_, Appends.trans ⟨haddr, fun i hi => ?_, ?_, rfl⟩ (appends_store haddr.isOpen _ _ _)⟩
  · rw [List.mem_singleton.mp hi]
    exact Nat.le_refl _
  · exact (Nat.le_succ _).trans (Draft.values_define ..).ge

theorem appends_storeFields {base : ValueId} {record : TypeId} {vs : List Operand} :
    ∀ {entries : List (FieldSlot × FieldSource)} {d : Draft}, d.builder.IsOpen →
      (entries.forM (storeField base record vs)).run d = .ok () d' → ∃ fill, Appends d d' fill
  | [], d, hopen, h => by
      obtain ⟨-, rfl⟩ := EStateM.Result.ok.inj h
      exact ⟨[], .nil hopen d.unit, by rintro i ⟨⟩, le_rfl, rfl⟩
  | entry :: entries, d, hopen, h => by
      obtain ⟨⟨⟩, d₁, h₁, h⟩ := Step.bind_ok h
      obtain ⟨fill, hfill⟩ := appends_storeField hopen h₁
      obtain ⟨fill', hfill'⟩ := appends_storeFields hfill.adds.isOpen h
      exact ⟨fill ++ fill', hfill.trans hfill'⟩

theorem appends_storeLiteral {base : ValueId} {record : TypeId} {vs : List Operand}
    (hopen : d.builder.IsOpen) (h : (e.storeLiteral base record vs).run d = .ok () d') :
    ∃ fill, Appends d d' fill := by
  unfold storeLiteral at h
  obtain ⟨d₁, d₂, h₁, k₁⟩ := Step.bind_ok h
  obtain ⟨rfl, rfl⟩ := EStateM.Result.ok.inj h₁
  obtain ⟨sources, d₃, h₂, k₂⟩ := Step.bind_ok k₁
  obtain ⟨-, rfl⟩ := Emits.lift_ok h₂
  obtain ⟨layout, d₄, h₃, k₃⟩ := Step.bind_ok k₂
  obtain ⟨-, rfl⟩ := Emits.layout_ok h₃
  exact appends_storeFields hopen k₃

/-- Starting the counter and casting adds the rest of the code of a new block. -/
theorem adds_startCode {layout : RefLayout} {payload : ValueId} {d₁ : Draft} {n : Nat}
    (hopen : d.builder.IsOpen) (hn : d.values = n + 1)
    (h : (e.startCounter layout ⟨n⟩).run d = .ok payload d₁)
    (hcast : (Emit.build (·.cast ty (.value payload))).run d₁ = .ok id d') :
    id = layout.referenceAt n ∧ d'.values = id.index + 1 ∧ d'.unit = d.unit
      ∧ d.Adds d' (e.startCode ty layout n) := by
  unfold startCounter at h
  unfold startCode RefLayout.referenceAt
  cases hc : layout.hasCounter with
  | true =>
      simp only [hc, if_true] at h ⊢
      obtain ⟨⟨⟩, d₂, h₂, k₂⟩ := Step.bind_ok h
      obtain ⟨-, hd₂⟩ := EStateM.Result.ok.inj h₂
      have hstore : d.Adds d₂ [.store .usize (e.wordConst 1) (.value ⟨n⟩)] := hd₂ ▸ .push hopen _
      have hn₂ : d₂.values = n + 1 := by
        rw [← hd₂]
        exact (Builder.values_push ..).trans hn
      have hunit₂ : d₂.unit = d.unit := by rw [← hd₂]
      obtain ⟨rfl, hd₁⟩ := Emits.build_ok rfl k₂
      have hoffset := Draft.Adds.define hstore.isOpen .ptr fun dst =>
        .offset dst (.value ⟨n⟩) (Int64.ofInt (-layout.countOffset))
      rw [← hd₁] at hoffset
      have hn₁ : d₁.values = n + 2 := by rw [hd₁, Draft.values_define, hn₂]
      have hunit₁ : d₁.unit = d.unit := by rw [hd₁, hunit₂]
      obtain ⟨rfl, rfl⟩ := Emits.build_ok rfl hcast
      have hreference := Draft.Adds.define hoffset.isOpen ty fun dst =>
        .cast dst ty (.value ⟨d₂.values⟩)
      rw [Draft.values_define, hn₁]
      refine ⟨rfl, rfl, hunit₁, ?_⟩
      rw [hn₂, hn₁] at hreference
      rw [hn₂] at hoffset ⊢
      exact hstore.trans (hoffset.trans hreference)
  | false =>
      simp only [hc, Bool.false_eq_true, if_false] at h ⊢
      obtain ⟨rfl, rfl⟩ := EStateM.Result.ok.inj h
      obtain ⟨rfl, rfl⟩ := Emits.build_ok rfl hcast
      rw [Draft.values_define, hn]
      refine ⟨rfl, rfl, rfl, ?_⟩
      rw [← hn]
      exact .define hopen ty _

/-- The code of an allocation makes a block, then the reference to it, and then fills the block. -/
theorem allocate_adds {init : Initial} (h : (e.allocate ty init).run d = .ok id d') :
    ∃ layout size heap fill, e.layouts.ref ty = .ok layout ∧ layout.region ≠ .borrowed
      ∧ layout.allocSize = .ok size ∧ d'.unit.heap = some heap ∧ id = layout.referenceAt d.values
      ∧ id.index < d'.values ∧ d.Adds d' (e.blockCode ty layout heap.alloc size d.values ++ fill)
      ∧ ∀ i ∈ fill, i.Spares (id.index + 1) := by
  unfold allocate at h
  obtain ⟨layout, d₁, h₁, k₁⟩ := Step.bind_ok h
  obtain ⟨hl, rfl⟩ := Emits.layout_ok h₁
  obtain ⟨⟨⟩, d₂, h₂, k₂⟩ := Step.bind_ok k₁
  obtain ⟨hregion, rfl⟩ := Emits.requireShowing_ok h₂
  obtain ⟨⟨⟩, d₃, h₃, k₃⟩ := Step.bind_ok k₂
  have hopen := isOpen_of_requirePoint h₃
  obtain rfl := Emits.requirePoint_ok h₃
  -- the symbols of the heap may be declared first, which changes the unit but adds no instruction
  obtain ⟨heap, d₄, h₄, k₄⟩ := Step.bind_ok k₃
  obtain ⟨u, rfl, hheap, -⟩ := Emits.requireHeap_ok h₄
  obtain ⟨size, d₅, h₅, k₅⟩ := Step.bind_ok k₄
  obtain ⟨hsize, rfl⟩ := Emits.ofAbort_ok h₅
  obtain ⟨block, d₆, h₆, k₆⟩ := Step.bind_ok k₅
  obtain ⟨payload, d₇, h₇, k₇⟩ := Step.bind_ok k₆
  obtain ⟨reference, d₈, h₈, k₈⟩ := Step.bind_ok k₇
  obtain ⟨rfl, hd₆⟩ := Emits.build_ok rfl h₆
  have hdefine := Draft.Adds.define (d := { d₃ with unit := u }) hopen .ptr fun dst =>
    .callExternal (some dst) heap.alloc [.const (.usize (UInt64.ofNat size))]
  have hcall := (Draft.Adds.nil hopen u).trans hdefine
  rw [← hd₆] at hcall
  have hn₆ : d₆.values = d₃.values + 1 := by
    rw [hd₆]
    exact Draft.values_define ..
  have hheap₆ : d₆.unit.heap = some heap := by
    rw [hd₆]
    exact hheap
  obtain ⟨rfl, hn₈, hunit₈, hstart⟩ := adds_startCode hcall.isOpen hn₆ h₇ h₈
  have hblock : d₃.Adds d₈ (e.blockCode ty layout heap.alloc size d₃.values) := hcall.trans hstart
  obtain ⟨rfl, fill, hfill⟩ : id = layout.referenceAt d₃.values ∧ ∃ fill, Appends d₈ d' fill := by
    cases init with
    | value v =>
        obtain ⟨⟨⟩, d₉, h₉, k₉⟩ := Step.bind_ok k₈
        obtain ⟨-, rfl⟩ := EStateM.Result.ok.inj h₉
        obtain ⟨rfl, rfl⟩ := EStateM.Result.ok.inj k₉
        exact ⟨rfl, _, appends_store hblock.isOpen _ _ _⟩
    | fields vs =>
        obtain ⟨⟨⟩, d₉, h₉, k₉⟩ := Step.bind_ok k₈
        obtain ⟨rfl, rfl⟩ := EStateM.Result.ok.inj k₉
        exact ⟨rfl, appends_storeLiteral hblock.isOpen h₉⟩
  refine ⟨layout, size, heap, fill, hl, hregion, hsize, ?_, rfl, ?_, hblock.trans hfill.adds, ?_⟩
  · rw [hfill.unit, hunit₈, hheap₆]
  · have hvalues := hfill.values
    rw [hn₈] at hvalues
    exact hvalues
  · rw [← hn₈]
    exact hfill.spares

/-! ## Where the reference points -/

variable {p : Program} {call : Program.Caller} {frame frame' : Frame} {m m' : Machine}
  {layout : RefLayout}

/-- A header has at most eight bytes. -/
theorem header_le (hl : e.layouts.ref ty = .ok layout) : layout.header ≤ 8 := by
  obtain ⟨-, hv, hh⟩ := Layouts.ref_eq_ok_iff.mp hl
  cases hregion : layout.region with
  | counted => exact (Layouts.header_counted hv (hregion ▸ hh)).2
  | owning | borrowed =>
      rw [hregion] at hh
      exact Except.ok.inj hh ▸ Nat.zero_le 8

/-- The reference to a block lies behind the header of the block. -/
theorem reference_of_startCode {n : Nat} {b : UInt64} (hl : e.layouts.ref ty = .ok layout)
    (hregion : layout.region ≠ .borrowed) (hroom : b.toNat + layout.header < sizeLimit)
    (hfit : (layout.referenceAt n).index < frame.size)
    (hb : frame.eval (.value ⟨n⟩) = .ok (.ptr b))
    (h : (p.runInstrs call (e.startCode ty layout n) frame).run m = .ok frame' m') :
    ∃ r : UInt64, frame'.eval (.value (layout.referenceAt n)) = .ok (.ptr r)
      ∧ r.toNat = b.toNat + layout.header := by
  unfold startCode at h
  unfold RefLayout.referenceAt at hfit ⊢
  cases hc : layout.hasCounter with
  | true =>
      simp only [hc, if_true] at h hfit ⊢
      obtain ⟨_, frame₁, _, -, hstore, hrest⟩ := Program.runInstrs_cons_ok h
      obtain rfl := Program.frame_of_store hstore
      obtain ⟨_, frame₂, _, -, hoffset, hrest⟩ := Program.runInstrs_cons_ok hrest
      obtain ⟨a, ha, rfl⟩ := Program.frame_of_offset hoffset
      obtain ⟨_, frame₃, _, -, hcast, hrest⟩ := Program.runInstrs_cons_ok hrest
      obtain ⟨v, hv, rfl⟩ := Program.frame_of_cast hcast
      obtain ⟨rfl, -⟩ := EStateM.Result.ok.inj hrest
      rw [Frame.evalAddr_eq hb] at ha
      obtain rfl := Except.ok.inj ha
      rw [Frame.eval_define (by lia)] at hv
      obtain rfl := Except.ok.inj hv
      refine ⟨_, Frame.eval_define (by rw [Frame.size_define]; exact hfit) _, ?_⟩
      rw [RefLayout.countOffset, Int.neg_neg, toNat_add_header hroom]
  | false =>
      simp only [hc, Bool.false_eq_true, if_false] at h hfit ⊢
      obtain ⟨_, frame₁, _, -, hcast, hrest⟩ := Program.runInstrs_cons_ok h
      obtain ⟨v, hv, rfl⟩ := Program.frame_of_cast hcast
      obtain ⟨rfl, -⟩ := EStateM.Result.ok.inj hrest
      obtain rfl := Except.ok.inj (hb.symm.trans hv)
      refine ⟨b, Frame.eval_define hfit _, ?_⟩
      -- without a counter there is no header
      have howning : layout.region = .owning := by
        cases hr : layout.region with
        | owning => rfl
        | counted => simp [RefLayout.hasCounter, hr] at hc
        | borrowed => exact absurd hr hregion
      obtain ⟨-, -, hh⟩ := Layouts.ref_eq_ok_iff.mp hl
      have hzero : layout.header = 0 := Layouts.header_owning (howning ▸ hh)
      rw [hzero, Nat.add_zero]

/-- A new block lies where the cursor was, and its reference behind the header. -/
theorem reference_of_blockCode {heap : HeapPrimitives} {size n : Nat}
    (hl : e.layouts.ref ty = .ok layout) (hregion : layout.region ≠ .borrowed)
    (hsize : size < sizeLimit) (hheap : p.unit.heap = some heap)
    (hfit : (layout.referenceAt n).index < frame.size)
    (h : (p.runInstrs call (e.blockCode ty layout heap.alloc size n) frame).run m
      = .ok frame' m') :
    ∃ r : UInt64, frame'.eval (.value (layout.referenceAt n)) = .ok (.ptr r)
      ∧ r.toNat = m.heap.nextHeap + layout.header := by
  obtain ⟨m₁, frame₁, m₂, hm₁, hcall, hrest⟩ := Program.runInstrs_cons_ok h
  rw [Program.runInstr_malloc hheap] at hcall
  obtain ⟨a, m₃, hrun, hdefine⟩ := Step.bind_ok hcall
  obtain ⟨rfl, -⟩ := EStateM.Result.ok.inj hdefine
  obtain ⟨h', hmalloc, rfl⟩ := Exec.malloc_ok hrun
  rw [UInt64.toNat_ofNat_of_lt' hsize, hm₁] at hmalloc
  rw [hm₁] at hrest
  obtain ⟨-, hnext, -⟩ := Heap.malloc_ok hmalloc
  -- the guard behind a block leaves room for any header
  have hroom : m.heap.nextHeap + layout.header < sizeLimit := by
    have hheader := header_le hl
    have hstride := Memory.granule_add_guard_le_stride size
    have hgranule : 8 ≤ Heap.granule + Heap.guardSize := by decide
    lia
  have hstart : (UInt64.ofNat m.heap.nextHeap).toNat = m.heap.nextHeap :=
    UInt64.toNat_ofNat_of_lt' (Nat.lt_of_le_of_lt (Nat.le_add_right _ _) hroom)
  have hn : n < frame.size := (layout.le_referenceAt n).trans_lt hfit
  obtain ⟨r, hr, hsum⟩ := reference_of_startCode hl hregion (hstart.symm ▸ hroom)
    (by rw [Frame.size_define]; exact hfit) (Frame.eval_define hn _) hrest
  exact ⟨r, hr, by rw [hsum, hstart]⟩

end Emitter

/-! ## Alignment of the pointee and the counter -/

/-- Alignments divide the granule of the allocations, and the number of addresses. -/
theorem Layouts.Natural.dvd_granule {align : Nat} (h : Natural align) : align ∣ Heap.granule := by
  rcases h with rfl | rfl | rfl <;> decide

theorem Layouts.Natural.dvd_toNat_add {align : Nat} (h : Natural align) {a : UInt64} {n : Nat}
    (ha : align ∣ a.toNat) (hn : align ∣ n) : align ∣ (a + UInt64.ofNat n).toNat := by
  have hsize : align ∣ 2 ^ 64 := h.dvd_granule.trans (by decide)
  rw [UInt64.toNat_add, UInt64.toNat_ofNat', Nat.dvd_mod_iff hsize]
  exact Nat.dvd_add ha ((Nat.dvd_mod_iff hsize).mpr hn)

namespace Layouts

variable {L : Layouts} {ty : TypeId} {layout : RefLayout} {r : UInt64} {cursor : Nat}

/-- The header is as long as the pointee needs it to be. -/
theorem align_dvd_header (hl : L.ref ty = .ok layout) : layout.value.align ∣ layout.header := by
  obtain ⟨-, hv, hh⟩ := ref_eq_ok_iff.mp hl
  cases hregion : layout.region with
  | counted =>
      rw [hregion] at hh
      rw [(alignSize_ok (sizeOf_natural hv).isPowerOfTwo hh).1]
      exact dvd_alignUp _ _
  | owning | borrowed =>
      rw [hregion] at hh
      exact Except.ok.inj hh ▸ Nat.dvd_zero _

theorem align_dvd_reference (hl : L.ref ty = .ok layout) (hcursor : Heap.granule ∣ cursor)
    (hr : r.toNat = cursor + layout.header) : layout.value.align ∣ r.toNat := by
  obtain ⟨-, hv, -⟩ := ref_eq_ok_iff.mp hl
  rw [hr]
  exact Nat.dvd_add ((sizeOf_natural hv).dvd_granule.trans hcursor) (align_dvd_header hl)

theorem word_dvd_block (hl : L.ref ty = .ok layout) (hcursor : Heap.granule ∣ cursor)
    (hr : r.toNat = cursor + layout.header) :
    ∃ c, L.blockOf ty r = .ok c ∧ c.toNat + layout.header = r.toNat ∧ L.word ∣ c.toNat := by
  have hblock : (r + (Int64.ofInt layout.countOffset).toUInt64).toNat = cursor := by
    rw [RefLayout.countOffset, toNat_add_neg (hr ▸ Nat.le_add_left _ _), hr, Nat.add_sub_cancel]
  refine ⟨_, by rw [blockOf, hl]; rfl, ?_, ?_⟩
  · rw [hblock, hr]
  · rw [hblock]
    exact (natural_word L).dvd_granule.trans hcursor

end Layouts

/-! ## Alignment of fields -/

/-- Only records have slots. -/
theorem Layouts.tag_of_slot {L : Layouts} {ty : TypeId} {r : RecordLayout} {slot : FieldSlot}
    (hr : L.placed ty = some r) (hslot : slot ∈ r.fields) : L.pool.tag ty = .record := by
  obtain ⟨f, hf, -⟩ := type_mem_of_slot hr hslot
  unfold Pool.fields at hf
  cases hdefn : L.pool.record? ty with
  | none =>
      rw [hdefn] at hf
      cases hf
  | some defn => exact tag_of_record? hdefn

/-- A field of an aligned record is aligned. -/
theorem Layouts.align_dvd_field {L : Layouts} {record : TypeId} {layout : RecordLayout}
    {slot : FieldSlot} {v : ValueLayout} {a : UInt64} (hlayout : L.record record = .ok layout)
    (hslot : slot ∈ layout.fields) (hv : L.value record = .ok v) (ha : v.align ∣ a.toNat) :
    ∃ w, L.value slot.type = .ok w ∧ w.align ∣ (a + UInt64.ofNat slot.offset).toNat := by
  have hplaced := record_eq_ok_iff.mp hlayout
  have hsize := sizeOf_of_placed (tag_of_slot hplaced hslot) hplaced
  obtain rfl := Except.ok.inj (hv.symm.trans (value_eq_ok_iff.mpr hsize))
  obtain ⟨w, hw, -⟩ := (placed_shape hplaced).1.ends slot hslot
  obtain ⟨hdvd, hoffset⟩ := align_dvd_of_slot hplaced hslot hw
  exact ⟨w, value_eq_ok_iff.mpr hw, (sizeOf_natural hw).dvd_toNat_add (hdvd.trans ha) hoffset⟩

namespace Program

variable {p : Program} {call : Caller} {frame frame' : Frame} {m m' : Machine}

/-- Instructions that take the address of a field lead from the value of type `ty` at `start` to
one inside it. -/
inductive FieldPath (p : Program) (start : UInt64) (ty : TypeId) : UInt64 → TypeId → Prop
  | here : FieldPath p start ty start ty
  | field {a addr : UInt64} {record : TypeId} {layout : RecordLayout} {slot : FieldSlot}
      {call : Caller} {frame frame' : Frame} {base : Operand} {dst : ValueId} {m m' : Machine}
      (hprior : FieldPath p start ty a record) (hlayout : p.layouts.record record = .ok layout)
      (hslot : slot ∈ layout.fields) (hbase : frame.evalAddr base = .ok a)
      (hrun : (p.runInstr call frame
        (.fieldAddr dst base record slot.index (UInt64.ofNat slot.offset))).run m = .ok frame' m')
      (haddr : frame'.eval (.value dst) = .ok (.ptr addr)) : FieldPath p start ty addr slot.type

/-- The address of a field is computed where the frame has a place for it. -/
theorem run_fieldAddr {dst : ValueId} {base : Operand} {a : UInt64}
    (hbase : frame.evalAddr base = .ok a) (hdst : dst.index < frame.size) (p : Program)
    (call : Caller) (record : TypeId) (index : Nat) (bytes : UInt64) (m : Machine) :
    ∃ frame', (p.runInstr call frame (.fieldAddr dst base record index bytes)).run m
        = .ok frame' m
      ∧ frame'.eval (.value dst) = .ok (.ptr (a + bytes)) := by
  refine ⟨frame.define dst (.ptr (a + bytes)), ?_, Frame.eval_define hdst _⟩
  simp only [runInstr, hbase]
  rfl

/-- The value of `dst` after the address of a field was taken into it. -/
theorem eval_of_fieldAddr {dst : ValueId} {base : Operand} {record : TypeId} {index : Nat}
    {a addr bytes : UInt64}
    (hrun : (p.runInstr call frame (.fieldAddr dst base record index bytes)).run m = .ok frame' m')
    (hbase : frame.evalAddr base = .ok a) (haddr : frame'.eval (.value dst) = .ok (.ptr addr)) :
    addr = a + bytes := by
  obtain ⟨a', ha', rfl⟩ := frame_of_fieldAddr hrun
  obtain rfl := Except.ok.inj (hbase.symm.trans ha')
  by_cases hdst : dst.index < frame.size
  · rw [Frame.eval_define hdst] at haddr
    exact (Value.ptr.inj (Except.ok.inj haddr)).symm
  · have hnone : (frame.define dst (.ptr (a + bytes)))[dst.index]? = none :=
      Array.getElem?_eq_none (by rw [Frame.size_define]; exact Nat.le_of_not_lt hdst)
    simp only [Frame.eval, hnone] at haddr
    cases haddr

/-- Everything inside an aligned value is aligned. -/
theorem FieldPath.aligned {start a : UInt64} {ty sub : TypeId} {v : ValueLayout}
    (h : p.FieldPath start ty a sub) (hv : p.layouts.value ty = .ok v)
    (hstart : v.align ∣ start.toNat) :
    ∃ w, p.layouts.value sub = .ok w ∧ w.align ∣ a.toNat := by
  induction h with
  | here => exact ⟨v, hv, hstart⟩
  | field hprior hlayout hslot hbase hrun haddr ih =>
      obtain ⟨w, hw, ha⟩ := ih
      rw [eval_of_fieldAddr hrun hbase haddr]
      exact Layouts.align_dvd_field hlayout hslot hw ha

end Program

/-- New references are aligned, and so is everything behind them. Where the code of an allocation
runs to its end, on memory that any uses have led to, the reference is a multiple of the alignment
of its pointee, and the counter in front of a counted pointee is a multiple of a word. From there,
the instruction that takes the address of a field, of the pointee or of a record inside it, gives
a multiple of the alignment of that field. -/
theorem natural_alignment {e : Emitter} {ty : TypeId} {init : Initial} {d d' : Draft} {id : ValueId}
    (h : (e.allocate ty init).run d = .ok id d') :
    ∃ layout code, e.layouts.ref ty = .ok layout ∧ layout.region ≠ .borrowed ∧ d.Adds d' code
      ∧ ∀ {p : Program} {call : Program.Caller} {frame frame' : Frame} {m m' : Machine}
        {uses : List MemoryUse} {memory : Memory}, p.layouts = e.layouts → d'.unit.Keeps p.unit →
        d'.values ≤ frame.size → Memory.run uses .initial = .ok memory → m.heap = memory.heap →
        (p.runInstrs call code frame).run m = .ok frame' m' →
        ∃ r, frame'.eval (.value id) = .ok (.ptr r) ∧ layout.value.align ∣ r.toNat
          ∧ (layout.region = .counted → ∃ c, p.layouts.blockOf ty r = .ok c
            ∧ c.toNat + layout.header = r.toNat ∧ p.layouts.word ∣ c.toNat)
          ∧ ∀ {a : UInt64} {record : TypeId} {fields : RecordLayout} {slot : FieldSlot},
            p.FieldPath r layout.pointee a record → p.layouts.record record = .ok fields →
            slot ∈ fields.fields → ∃ w, p.layouts.value slot.type = .ok w
              ∧ ∀ {call : Program.Caller} {frame : Frame} {base : Operand} {dst : ValueId},
                frame.evalAddr base = .ok a → dst.index < frame.size → ∀ m, ∃ frame' addr,
                  (p.runInstr call frame
                    (.fieldAddr dst base record slot.index (UInt64.ofNat slot.offset))).run m
                    = .ok frame' m
                  ∧ frame'.eval (.value dst) = .ok (.ptr addr) ∧ w.align ∣ addr.toNat := by
  obtain ⟨layout, size, heap, fill, hl, hregion, hsize, hheap, rfl, hvalues, hadds, hspares⟩ :=
    Emitter.allocate_adds h
  refine ⟨layout, _, hl, hregion, hadds, ?_⟩
  intro p call frame frame' m m' uses memory hlayouts hkeeps hframe hmemory hm hrun
  rw [Program.runInstrs_append] at hrun
  obtain ⟨frame₁, m₁, hblock, hfill⟩ := Step.bind_ok hrun
  obtain ⟨hsum, hlimit⟩ := addSize_ok hsize
  obtain ⟨r, hr, haddr⟩ := Emitter.reference_of_blockCode hl hregion (hsum ▸ hlimit)
    (hkeeps.heap hheap) (hvalues.trans_le hframe) hblock
  have hcursor : Heap.granule ∣ m.heap.nextHeap := by
    rw [hm]
    exact (Memory.laid_initial.run hmemory).aligned
  have hreference := (Program.keeps_of_spares hspares hfill).eval (Operand.below_value
    (Nat.lt_succ_self (layout.referenceAt d.values).index))
  have haligned := Layouts.align_dvd_reference hl hcursor haddr
  obtain ⟨-, hv, -⟩ := Layouts.ref_eq_ok_iff.mp hl
  rw [← hlayouts] at hl hv
  refine ⟨r, hreference.trans hr, haligned, fun _ => Layouts.word_dvd_block hl hcursor haddr, ?_⟩
  intro a record fields slot hpath hfields hslot
  obtain ⟨v, hv, ha⟩ := hpath.aligned (Layouts.value_eq_ok_iff.mpr hv) haligned
  obtain ⟨w, hw, hdvd⟩ := Layouts.align_dvd_field hfields hslot hv ha
  refine ⟨w, hw, fun hbase hdst m => ?_⟩
  obtain ⟨frame₂, hrun₂, heval⟩ := Program.run_fieldAddr hbase hdst p _ record slot.index
    (UInt64.ofNat slot.offset) m
  exact ⟨frame₂, _, hrun₂, heval, hdvd⟩

namespace Mixed

def emitter : Emitter := ⟨layouts, { target := ⟨.w32, some {}⟩ }⟩

/-- A function that gets a record. -/
def before : Draft := ⟨.new "mixed", .new "make" [⟨17⟩] ⟨18⟩⟩

/-- The record is put into a new block. -/
def draft : Draft := Step.after (emitter.allocate ⟨18⟩ (.value (.value ⟨0⟩))) before

theorem run_draft : (emitter.allocate ⟨18⟩ (.value (.value ⟨0⟩))).run before = .ok ⟨3⟩ draft :=
  Step.run_of_result? (by decide +kernel)

def program : Program := ⟨draft.unit, layouts⟩

theorem layouts_program : program.layouts = emitter.layouts :=
  rfl

def code : List Instr :=
  [.callExternal (some ⟨1⟩) ⟨0⟩ [.const (.usize 40)],
    .store .usize (.const (.usize 1)) (.value ⟨1⟩), .offset ⟨2⟩ (.value ⟨1⟩) 8,
    .cast ⟨3⟩ ⟨18⟩ (.value ⟨2⟩), .store ⟨17⟩ (.value ⟨0⟩) (.value ⟨3⟩)]

theorem adds_code : before.Adds draft code :=
  ⟨(Builder.open_new ..).isOpen, by decide +kernel, by decide +kernel⟩

def frame : Frame :=
  #[some (.record [.byte 1, .unit, .record [.bool true, .int 5], .ptr 0]), none, none, none]

def uses : List MemoryUse := [.malloc 3, .pushSlot 5, .free Heap.heapBase]

def machine : Machine := ⟨(Collision.after uses).heap, 10, []⟩

def filled : Frame :=
  (Step.result? (program.runInstrs program.call code frame) machine).getD frame

theorem run_code : (program.runInstrs program.call code frame).run machine
    = .ok filled (Step.after (program.runInstrs program.call code frame) machine) := by
  refine Step.run_of_result? ?_
  have hsome :
      (Step.result? (program.runInstrs program.call code frame) machine).isSome = true := by
    decide +kernel
  obtain ⟨frame', hframe⟩ := Option.isSome_iff_exists.mp hsome
  rw [filled, hframe]
  rfl

/-- A frame with an address and room for another one. -/
def pointing (a : UInt64) : Frame :=
  #[some (.ptr a), none]

theorem evalAddr_pointing (a : UInt64) : (pointing a).evalAddr (.value ⟨0⟩) = .ok a :=
  rfl

theorem lt_size_pointing (a : UInt64) : 1 < (pointing a).size :=
  Nat.lt_succ_self 1

end Mixed

/-- The counter takes eight bytes, of which it needs four, and the number in the inner record
is aligned too. -/
theorem natural_alignment_mixed :
    ∃ r, Mixed.filled.eval (.value ⟨3⟩) = .ok (.ptr r) ∧ 8 ∣ r.toNat
      ∧ (∃ c, Mixed.layouts.blockOf ⟨18⟩ r = .ok c ∧ c.toNat + 8 = r.toNat ∧ 4 ∣ c.toNat)
      ∧ ∃ a frame addr, Mixed.program.FieldPath r ⟨17⟩ a ⟨16⟩
        ∧ (Mixed.program.runInstr Mixed.program.call (Mixed.pointing a)
          (.fieldAddr ⟨1⟩ (.value ⟨0⟩) ⟨16⟩ 1 (UInt64.ofNat 8))).run Mixed.machine
          = .ok frame Mixed.machine
        ∧ frame.eval (.value ⟨1⟩) = .ok (.ptr addr) ∧ 8 ∣ addr.toNat := by
  have hlayout : Mixed.emitter.layouts.ref ⟨18⟩ = .ok ⟨.counted, ⟨17⟩, ⟨32, 8⟩, 8⟩ := by
    decide +kernel
  have hinner : Mixed.program.layouts.record ⟨16⟩
      = .ok ⟨[⟨0, ⟨1⟩, .bool, 0⟩, ⟨1, ⟨2⟩, .int, 8⟩], 16, 8⟩ := by decide +kernel
  have houter : Mixed.program.layouts.record ⟨17⟩ = .ok Mixed.record := by decide +kernel
  obtain ⟨layout, code, hl, -, hadds, hall⟩ := natural_alignment Mixed.run_draft
  obtain rfl := hadds.unique Mixed.adds_code
  obtain rfl := Except.ok.inj (hl.symm.trans hlayout)
  have hvalues : Mixed.draft.values ≤ Mixed.frame.size := by decide +kernel
  have hmemory : Memory.run Mixed.uses .initial = .ok (Collision.after Mixed.uses) :=
    Collision.run_eq_after (by decide +kernel)
  obtain ⟨r, hr, haligned, hcount, hfields⟩ :=
    hall Mixed.layouts_program (.refl _) hvalues hmemory rfl Mixed.run_code
  obtain ⟨inner, hrun, heval⟩ := Program.run_fieldAddr (Mixed.evalAddr_pointing r)
    (Mixed.lt_size_pointing r) Mixed.program Mixed.program.call ⟨17⟩ 2 (UInt64.ofNat 8)
    Mixed.machine
  have hslot : (⟨2, ⟨6⟩, ⟨16⟩, 8⟩ : FieldSlot) ∈ Mixed.record.fields := by decide
  have hpath := Program.FieldPath.field .here houter hslot (Mixed.evalAddr_pointing r) hrun heval
  have hnumber : (⟨1, ⟨2⟩, .int, 8⟩ : FieldSlot)
      ∈ [⟨0, ⟨1⟩, .bool, 0⟩, ⟨1, ⟨2⟩, .int, 8⟩] := by decide
  obtain ⟨w, hw, haddress⟩ := hfields hpath hinner hnumber
  have hint : Mixed.program.layouts.value .int = .ok ⟨8, 8⟩ := by decide +kernel
  obtain rfl := Except.ok.inj (hw.symm.trans hint)
  obtain ⟨frame, addr, hstep, hnum, hdvd⟩ := haddress (Mixed.evalAddr_pointing _)
    (Mixed.lt_size_pointing _) Mixed.machine
  exact ⟨r, hr, haligned, hcount rfl, _, frame, addr, hpath, hstep, hnum, hdvd⟩

end Ownership
