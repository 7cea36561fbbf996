import Ownership.Emit.Scope
import Ownership.Proofs.Visits

/-!
# Stages of a function

While a function is built its open blocks grow and its closed blocks are
final. `Function.Grows` is the order of the stages of one function: what
was emitted at a stage is found in every later one, and so in the
finished function. `Function.Forward` says that control only goes to
later blocks; emitted code keeps it that way.

`Program.resume` runs a function from the middle of a block on. The
equations at the end say what a run does at a point of which one stage
already fixes the next instruction (`resume_instr`) or the terminator
(`resume_terminator`).
-/

namespace Ownership

/-! ## Growing blocks and functions -/

/-- A closed block stays as it is, an open one may get more instructions and a terminator. -/
def BasicBlock.Grows (B B' : BasicBlock) : Prop :=
  B' = B ∨ (B.terminator = none ∧ B.body <+: B'.body)

theorem BasicBlock.Grows.trans {B₁ B₂ B₃ : BasicBlock} (h : B₁.Grows B₂) (h' : B₂.Grows B₃) :
    B₁.Grows B₃ := by
  rcases h with rfl | ⟨hopen, hpre⟩
  · exact h'
  · rcases h' with rfl | ⟨-, hpre'⟩
    · exact Or.inr ⟨hopen, hpre⟩
    · exact Or.inr ⟨hopen, hpre.trans hpre'⟩

namespace Function

/-- An earlier and a later stage of one function. -/
structure Grows (f g : Function) : Prop where
  blocks : ∀ {i : Nat} {B : BasicBlock}, f.blocks[i]? = some B →
    ∃ B', g.blocks[i]? = some B' ∧ B.Grows B'
  types : f.valueTypes <+: g.valueTypes
  arity : g.arity = f.arity

theorem Grows.values {f g : Function} (h : f.Grows g) :
    f.valueTypes.length ≤ g.valueTypes.length := h.types.length_le

theorem Grows.refl (f : Function) : f.Grows f :=
  ⟨fun h => ⟨_, h, Or.inl rfl⟩, List.prefix_rfl, rfl⟩

theorem Grows.trans {f g k : Function} (h : f.Grows g) (h' : g.Grows k) : f.Grows k := by
  refine ⟨fun hB => ?_, h.types.trans h'.types, h'.arity.trans h.arity⟩
  obtain ⟨B₁, hB₁, hg₁⟩ := h.blocks hB
  obtain ⟨B₂, hB₂, hg₂⟩ := h'.blocks hB₁
  exact ⟨B₂, hB₂, hg₁.trans hg₂⟩

/-- Control goes to later blocks only. -/
def Forward (f : Function) : Prop :=
  ∀ (i : Nat) (B : BasicBlock) (t : Terminator), f.blocks[i]? = some B →
    B.terminator = some t → ∀ s ∈ t.successors, i < s.index ∧ s.index < f.blocks.length

end Function

/-- A place between two instructions: `done` of those of its block are behind it. -/
structure Point where
  block : BlockId
  done : Nat

namespace Builder

/-- The builder adds to an open block, at this point. -/
structure Open (b : Builder) (pt : Point) : Prop where
  position : b.position = some pt.block
  block : ∃ B, b.function.blocks[pt.block.index]? = some B ∧ B.terminator = none
    ∧ B.body.length = pt.done

/-- Number of values that are in use. -/
def values (b : Builder) : Nat := b.function.valueTypes.length

/-- A builder goes on from another one. -/
structure Leads (b b' : Builder) : Prop where
  grows : b.function.Grows b'.function
  forward : b.function.Forward → b'.function.Forward

theorem Leads.refl (b : Builder) : b.Leads b := ⟨.refl _, id⟩

theorem Leads.trans {b₁ b₂ b₃ : Builder} (h : b₁.Leads b₂) (h' : b₂.Leads b₃) : b₁.Leads b₃ :=
  ⟨h.grows.trans h'.grows, h'.forward ∘ h.forward⟩

theorem Open.lt_length {b : Builder} {pt : Point} (h : b.Open pt) :
    pt.block.index < b.function.blocks.length := by
  obtain ⟨B, hB, -⟩ := h.block
  exact (List.getElem?_eq_some_iff.mp hB).1

theorem Open.insertionBlock? {b : Builder} {pt : Point} (h : b.Open pt) :
    b.insertionBlock? = some pt.block := by
  obtain ⟨B, hB, hopen, -⟩ := h.block
  simp [Builder.insertionBlock?, currentTerminated, current?, h.position, Function.block?, hB,
    hopen]

theorem open_of_insertionBlock? {b : Builder} {id : BlockId} (h : b.insertionBlock? = some id) :
    ∃ n, b.Open ⟨id, n⟩ := by
  unfold Builder.insertionBlock? at h
  obtain ⟨hpos, hclosed⟩ := Option.filter_eq_some_iff.mp h
  have hB := List.getElem?_eq_getElem (b.positioned id hpos)
  refine ⟨_, hpos, _, hB, ?_, rfl⟩
  simpa [currentTerminated, current?, hpos, Function.block?, hB] using hclosed

/-- The point at which the builder adds. -/
def here (b : Builder) : Point :=
  let id := b.position.getD ⟨0⟩
  ⟨id, ((b.function.blocks[id.index]?).map fun B => B.body.length).getD 0⟩

/-- There is an open block that the builder adds to. -/
def IsOpen (b : Builder) : Prop := b.Open b.here

theorem Open.here {b : Builder} {pt : Point} (h : b.Open pt) : b.here = pt := by
  obtain ⟨B, hB, -, hlen⟩ := h.block
  simp only [Builder.here, h.position, Option.getD_some, hB, Option.map_some, hlen]

theorem Open.isOpen {b : Builder} {pt : Point} (h : b.Open pt) : b.IsOpen := by
  rw [IsOpen, h.here]
  exact h

/-! ## What the builder's operations do to an open block -/

theorem length_modifyBlock (b : Builder) (id : BlockId) (change : BasicBlock → BasicBlock) :
    (b.modifyBlock id change).function.blocks.length = b.function.blocks.length :=
  List.length_modify _ _ _

theorem length_extend (b : Builder) (change : BasicBlock → BasicBlock) :
    (b.extend change).function.blocks.length = b.function.blocks.length := by
  unfold Builder.extend
  split
  · exact length_modifyBlock ..
  · rfl

theorem Open.extend {b : Builder} {pt : Point} (h : b.Open pt) (change : BasicBlock → BasicBlock) :
    b.extend change = b.modifyBlock pt.block change := by
  simp only [Builder.extend, h.insertionBlock?]

theorem getElem?_modifyBlock (b : Builder) (id : BlockId) (change : BasicBlock → BasicBlock)
    (j : Nat) : (b.modifyBlock id change).function.blocks[j]?
      = if id.index = j then b.function.blocks[j]?.map change else b.function.blocks[j]? := by
  change (b.function.blocks.modify id.index change)[j]? = _
  rw [List.getElem?_modify]
  split
  · rfl
  · exact Option.map_id'

theorem leads_push (b : Builder) (i : Instr) : b.Leads (b.push i) := by
  cases hins : b.insertionBlock? with
  | none =>
      have : b.push i = { b with dropped := b.dropped + 1 } := by
        simp only [push, Builder.extend, hins]
      rw [this]
      exact ⟨.refl _, id⟩
  | some id =>
      obtain ⟨n, hopen⟩ := open_of_insertionBlock? hins
      have heq := hopen.extend fun B => { B with body := B.body ++ [i] }
      obtain ⟨B, hB, hterm, -⟩ := hopen.block
      rw [push, heq]
      constructor
      · refine ⟨fun {j C} hC => ?_, List.prefix_rfl, rfl⟩
        simp only [getElem?_modifyBlock]
        split
        · next hj =>
            subst hj
            obtain rfl := Option.some.inj (hB.symm.trans hC)
            exact ⟨{ B with body := B.body ++ [i] }, by rw [hC]; rfl,
              Or.inr ⟨hterm, List.prefix_append _ _⟩⟩
        · exact ⟨C, hC, Or.inl rfl⟩
      · intro hfwd j C t hC ht s hs
        simp only [getElem?_modifyBlock] at hC
        simp only [length_modifyBlock]
        split at hC
        · next hj =>
            subst hj
            obtain ⟨D, hD, rfl⟩ := Option.map_eq_some_iff.mp hC
            exact hfwd _ _ _ hD ht s hs
        · exact hfwd _ _ _ hC ht s hs

theorem Open.push {b : Builder} {pt : Point} (h : b.Open pt) (i : Instr) :
    (b.push i).Open ⟨pt.block, pt.done + 1⟩
      ∧ ∃ B, (b.push i).function.blocks[pt.block.index]? = some B ∧ B.body[pt.done]? = some i := by
  obtain ⟨B, hB, hterm, hlen⟩ := h.block
  rw [Builder.push, h.extend]
  have hget : (b.modifyBlock pt.block
      fun B => { B with body := B.body ++ [i] }).function.blocks[pt.block.index]? =
        some { B with body := B.body ++ [i] } := by
    rw [getElem?_modifyBlock, if_pos rfl, hB]
    rfl
  refine ⟨⟨h.position, _, hget, hterm, by simp [hlen]⟩, _, hget, ?_⟩
  simp [← hlen]

theorem leads_terminate {b : Builder} {pt : Point} (h : b.Open pt) (t : Terminator)
    (ht : ∀ s ∈ t.successors, pt.block.index < s.index ∧ s.index < b.function.blocks.length) :
    b.Leads (b.terminate t) := by
  obtain ⟨B, hB, hterm, -⟩ := h.block
  rw [terminate, h.extend]
  constructor
  · refine ⟨fun {j C} hC => ?_, List.prefix_rfl, rfl⟩
    simp only [getElem?_modifyBlock]
    split
    · next hj =>
        subst hj
        obtain rfl := Option.some.inj (hB.symm.trans hC)
        exact ⟨{ B with terminator := some t }, by rw [hC]; rfl,
          Or.inr ⟨hterm, List.prefix_rfl⟩⟩
    · exact ⟨C, hC, Or.inl rfl⟩
  · intro hfwd j C t' hC ht' s hs
    simp only [getElem?_modifyBlock] at hC
    simp only [length_modifyBlock]
    split at hC
    · next hj =>
        subst hj
        obtain ⟨D, hD, rfl⟩ := Option.map_eq_some_iff.mp hC
        obtain rfl := Option.some.inj ht'
        exact ht s hs
    · exact hfwd _ _ _ hC ht' s hs

theorem leads_ret {b : Builder} {pt : Point} (h : b.Open pt) (v : Option Operand) :
    b.Leads (b.ret v) := leads_terminate h (.ret v) nofun

theorem Open.terminate {b : Builder} {pt : Point} (h : b.Open pt) (t : Terminator) :
    ∃ B, (b.terminate t).function.blocks[pt.block.index]? = some B ∧ B.terminator = some t
      ∧ B.body.length = pt.done := by
  obtain ⟨B, hB, hterm, hlen⟩ := h.block
  rw [Builder.terminate, h.extend]
  exact ⟨{ B with terminator := some t }, by rw [getElem?_modifyBlock, if_pos rfl, hB]; rfl, rfl,
    hlen⟩

theorem leads_branch {cond : Operand} {yes no : BlockId} {b : Builder} {pt : Point}
    (hopen : b.Open pt)
    (hyes : pt.block.index < yes.index ∧ yes.index < b.function.blocks.length)
    (hno : pt.block.index < no.index ∧ no.index < b.function.blocks.length) :
    b.Leads (b.branch cond yes no) := by
  refine leads_terminate hopen _ fun s hs => ?_
  rcases List.mem_cons.mp hs with rfl | hs
  · exact hyes
  · rw [List.mem_singleton.mp hs]
    exact hno

theorem leads_appendBlock (b : Builder) (label : String) : b.Leads (b.appendBlock label).2 := by
  constructor
  · refine ⟨fun {j C} hC => ⟨C, ?_, Or.inl rfl⟩, List.prefix_rfl, rfl⟩
    have := (List.getElem?_eq_some_iff.mp hC).1
    simp only [appendBlock, List.getElem?_append_left this, hC]
  · intro hfwd j C t hC ht s hs
    simp only [appendBlock, List.getElem?_append, List.length_append] at hC ⊢
    split at hC
    · obtain ⟨h1, h2⟩ := hfwd _ _ _ hC ht s hs
      exact ⟨h1, by omega⟩
    · cases hk : j - b.function.blocks.length with
      | zero =>
          rw [hk] at hC
          obtain rfl := Option.some.inj hC
          cases ht
      | succ k =>
          rw [hk] at hC
          cases hC

theorem Open.appendBlock {b : Builder} {pt : Point} (h : b.Open pt) (label : String) :
    (b.appendBlock label).2.Open pt := by
  obtain ⟨B, hB, hterm, hlen⟩ := h.block
  refine ⟨h.position, B, ?_, hterm, hlen⟩
  simp only [Builder.appendBlock, List.getElem?_append_left h.lt_length, hB]

theorem leads_moveTo (b : Builder) {id : BlockId} (h : id.index < b.function.blocks.length) :
    b.Leads (b.moveTo id h) := ⟨.refl _, fun h => h⟩

theorem leads_fresh (b : Builder) (ty : TypeId) : b.Leads (b.fresh ty).2 :=
  ⟨⟨fun h => ⟨_, h, Or.inl rfl⟩, List.prefix_append _ _, rfl⟩, id⟩

theorem leads_define (b : Builder) (ty : TypeId) (instr : ValueId → Instr) :
    b.Leads (b.define ty instr).2 :=
  (leads_fresh b ty).trans (leads_push _ _)

theorem Open.fresh {b : Builder} {pt : Point} (h : b.Open pt) (ty : TypeId) :
    (b.fresh ty).2.Open pt := ⟨h.position, h.block⟩

theorem values_push (b : Builder) (i : Instr) : (b.push i).values = b.values := by
  unfold push Builder.extend values
  split <;> rfl

theorem values_define (b : Builder) (ty : TypeId) (instr : ValueId → Instr) :
    (b.define ty instr).2.values = b.values + 1 := by
  rw [define]
  simp only [values_push]
  simp [fresh, values]

theorem Open.define {b : Builder} {pt : Point} (h : b.Open pt) (ty : TypeId)
    (instr : ValueId → Instr) :
    (b.define ty instr).2.Open ⟨pt.block, pt.done + 1⟩
      ∧ ∃ B, (b.define ty instr).2.function.blocks[pt.block.index]? = some B
        ∧ B.body[pt.done]? = some (instr ⟨b.values⟩) :=
  (h.fresh ty).push _

/-! ## Blocks that wait -/

/-- The block `id` is there and has nothing in it yet. -/
def Reserved (b : Builder) (id : BlockId) : Prop :=
  ∃ label, b.function.blocks[id.index]? = some ⟨label, [], none⟩

theorem Reserved.lt_length {b : Builder} {id : BlockId} (h : b.Reserved id) :
    id.index < b.function.blocks.length := by
  obtain ⟨label, hB⟩ := h
  exact (List.getElem?_eq_some_iff.mp hB).1

theorem Reserved.moveTo {b : Builder} {id : BlockId} (h : b.Reserved id) :
    (b.moveTo id h.lt_length).Open ⟨id, 0⟩ := by
  obtain ⟨label, hB⟩ := h
  exact ⟨rfl, _, hB, rfl, rfl⟩

theorem reserved_appendBlock (b : Builder) (label : String) :
    (b.appendBlock label).2.Reserved (b.appendBlock label).1 := by
  refine ⟨label, ?_⟩
  simp [appendBlock]

theorem Reserved.appendBlock {b : Builder} {id : BlockId} (h : b.Reserved id) (label : String) :
    (b.appendBlock label).2.Reserved id := by
  obtain ⟨label', hB⟩ := h
  have hlt := (List.getElem?_eq_some_iff.mp hB).1
  exact ⟨label', by simp only [Builder.appendBlock, List.getElem?_append_left hlt, hB]⟩

/-- What is done to the open block leaves the others alone. -/
theorem Open.extend_other {b : Builder} {pt : Point} (hopen : b.Open pt) {id : BlockId}
    (hne : pt.block.index ≠ id.index) (change : BasicBlock → BasicBlock) :
    (b.extend change).function.blocks[id.index]? = b.function.blocks[id.index]? := by
  rw [hopen.extend]
  simp only [getElem?_modifyBlock, if_neg hne]

theorem Reserved.push {b : Builder} {id : BlockId} (h : b.Reserved id) {pt : Point}
    (hopen : b.Open pt) (hne : pt.block.index ≠ id.index) (i : Instr) :
    (b.push i).Reserved id := by
  obtain ⟨label, hB⟩ := h
  exact ⟨label, by rw [Builder.push, hopen.extend_other hne, hB]⟩

theorem Reserved.terminate {b : Builder} {id : BlockId} (h : b.Reserved id) {pt : Point}
    (hopen : b.Open pt) (hne : pt.block.index ≠ id.index) (t : Terminator) :
    (b.terminate t).Reserved id := by
  obtain ⟨label, hB⟩ := h
  exact ⟨label, by rw [Builder.terminate, hopen.extend_other hne, hB]⟩

/-- A new function is open at its start, and has no terminator yet. -/
theorem open_new (name : String) (params : List TypeId) (ret : TypeId) :
    (new name params ret).Open ⟨⟨0⟩, 0⟩ := ⟨rfl, _, rfl, rfl, rfl⟩

theorem forward_new (name : String) (params : List TypeId) (ret : TypeId) :
    (new name params ret).function.Forward := by
  intro i B t hB ht
  have hB' : [(⟨"entry", [], none⟩ : BasicBlock)][i]? = some B := hB
  cases i with
  | zero =>
      obtain rfl := Option.some.inj hB'
      cases ht
  | succ i => cases hB'

end Builder

/-! ## Running from a point on -/

namespace Program

/-- Runs `f` from a point on. -/
def resume (p : Program) (call : Caller) (f : Function) (pt : Point) (frame : Frame) :
    Exec (Option Value) := do
  let block ← Step.ofOption .dangling (f.block? pt.block)
  let frame ← p.runInstrs call (block.body.drop pt.done) frame
  leaveBlock f (p.runFrom call f) pt.block block.terminator frame

/-- A run from a block on. -/
theorem runFrom_eq_resume {p : Program} {call : Caller}
    (hcall : ∀ id args, (call id args).Thrifty) (f : Function) (id : BlockId) (frame : Frame) :
    p.runFrom call f id frame = p.resume call f ⟨id, 0⟩ frame :=
  runFrom_eq_visitBlock hcall id frame

/-! ## The next thing that a run does -/

variable {p : Program} {call : Caller} {f g : Function} {pt : Point}

/-- An instruction that one stage has at a point is run there. -/
theorem resume_instr {B : BasicBlock} {i : Instr} (hgrows : g.Grows f)
    (hB : g.blocks[pt.block.index]? = some B) (hi : B.body[pt.done]? = some i) (frame : Frame) :
    p.resume call f pt frame = (do
      Exec.tick
      let frame ← p.runInstr call frame i
      p.resume call f ⟨pt.block, pt.done + 1⟩ frame) := by
  obtain ⟨B', hB', hgrowsB⟩ := hgrows.blocks hB
  have hpre : B.body <+: B'.body := by
    rcases hgrowsB with rfl | ⟨-, hpre⟩
    · exact List.prefix_rfl
    · exact hpre
  have hi' : B'.body[pt.done]? = some i := by
    obtain ⟨hlt, -⟩ := List.getElem?_eq_some_iff.mp hi
    obtain ⟨rest, hrest⟩ := hpre
    rw [← hrest, List.getElem?_append_left hlt, hi]
  have hdrop : B'.body.drop pt.done = i :: B'.body.drop (pt.done + 1) := by
    obtain ⟨hlt, rfl⟩ := List.getElem?_eq_some_iff.mp hi'
    exact List.drop_eq_getElem_cons hlt
  have hblock : f.block? pt.block = some B' := hB'
  simp only [resume, hblock, hdrop, runInstrs, Step.ofOption, pure_bind, bind_assoc]

/-- A terminator that one stage has is taken at the end of its block. -/
theorem resume_terminator {B : BasicBlock} {t : Terminator} (hgrows : g.Grows f)
    (hB : g.blocks[pt.block.index]? = some B) (ht : B.terminator = some t)
    (hlen : B.body.length = pt.done) (frame : Frame) :
    p.resume call f pt frame =
      leaveBlock f (p.runFrom call f) pt.block (some t) frame := by
  obtain ⟨B', hB', hgrowsB⟩ := hgrows.blocks hB
  have hB'eq : B' = B := by
    rcases hgrowsB with rfl | ⟨hnone, -⟩
    · rfl
    · rw [ht] at hnone
      cases hnone
  subst hB'eq
  have hblock : f.block? pt.block = some B' := hB'
  have hdrop : B'.body.drop pt.done = [] := by rw [← hlen, List.drop_length]
  simp only [resume, hblock, hdrop, ht, runInstrs, Step.ofOption, pure_bind]

end Program

end Ownership
