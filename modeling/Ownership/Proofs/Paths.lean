import Ownership.Proofs.Emits

/-!
# Definitions on the way to their uses

A run of a function follows a path: it starts in the first block with the
parameters, each instruction may define one more value, and a terminator
leads to a successor (`Function.Arrives`). A function is well-formed if
on every path the operands of an instruction were defined before, and if
its blocks and value numbers are in order (`Function.WellFormed`).

While a function is built, a table says for each block which values are
defined wherever control enters it. That this is so is seen block by
block (`Function.Checked`), so an operation of the builder has to answer
only for the block that it changes (`Builder.SoundWith`).
-/

namespace Ownership

/-! ## Uses -/

/-- The operands that an instruction reads. -/
def Instr.operands : Instr → List Operand
  | .alloca _ _ _ => []
  | .load _ _ ptr => [ptr]
  | .store _ value ptr => [value, ptr]
  | .fieldAddr _ base _ _ _ | .offset _ base _ => [base]
  | .cast _ _ value => [value]
  | .add _ _ lhs rhs | .cmp _ _ _ lhs rhs => [lhs, rhs]
  | .callExternal _ _ args | .call _ _ args => args

/-- The operands that a terminator reads. -/
def Terminator.operands : Terminator → List Operand
  | .branch cond _ _ => [cond]
  | .ret value => value.toList
  | .jump _ | .trap _ => []

/-- The operand is a constant or one of these values. -/
def Operand.Among (vs : List ValueId) : Operand → Prop
  | .value id => id ∈ vs
  | .const _ => True

instance (vs : List ValueId) : DecidablePred (Operand.Among vs)
  | .value id => inferInstanceAs (Decidable (id ∈ vs))
  | .const _ => .isTrue trivial

theorem Operand.among_value {vs : List ValueId} {id : ValueId} (h : id ∈ vs) :
    (Operand.value id).Among vs := h

theorem Operand.Among.mono {vs vs' : List ValueId} (h : vs ⊆ vs') :
    ∀ {op : Operand}, op.Among vs → op.Among vs'
  | .value _, hop => h hop
  | .const _, _ => trivial

theorem Operand.Among.cons {vs : List ValueId} {op : Operand} (h : op.Among vs) (id : ValueId) :
    op.Among (id :: vs) := h.mono (List.subset_cons_self id vs)

/-- The values that a list of instructions defines. -/
def definitions (body : List Instr) : List ValueId := body.filterMap Instr.dst?

@[simp]
theorem definitions_nil : definitions [] = [] := rfl

@[simp]
theorem definitions_append (body body' : List Instr) :
    definitions (body ++ body') = definitions body ++ definitions body' := List.filterMap_append ..

theorem definitions_singleton (i : Instr) : definitions [i] = i.dst?.toList := by
  cases h : i.dst? <;> simp [definitions, h]

/-! ## Paths -/

namespace Function

/-- Some path from the start of the function arrives at a point, with these values defined. -/
inductive Arrives (f : Function) : Point → List ValueId → Prop where
  | entry : Arrives f ⟨⟨0⟩, 0⟩ f.params
  | step {pt : Point} {defs : List ValueId} {B : BasicBlock} {i : Instr} : Arrives f pt defs →
      f.blocks[pt.block.index]? = some B → B.body[pt.done]? = some i →
      Arrives f ⟨pt.block, pt.done + 1⟩ (i.dst?.toList ++ defs)
  | leave {pt : Point} {defs : List ValueId} {B : BasicBlock} {t : Terminator} {s : BlockId} :
      Arrives f pt defs → f.blocks[pt.block.index]? = some B → pt.done = B.body.length →
      B.terminator = some t → s ∈ t.successors → Arrives f ⟨s, 0⟩ defs

/-- Blocks and value numbers are in order, and on every path definitions come before uses. -/
structure WellFormed (f : Function) : Prop where
  entry : f.isDeclaration = false
  terminated : ∀ B ∈ f.blocks, B.terminator.isSome
  forward : f.Forward
  distinct : (f.params ++ definitions f.instrs).Nodup
  typed : ∀ v ∈ f.params ++ definitions f.instrs, v.index < f.valueTypes.length
  defined : ∀ {pt defs B} {i : Instr}, f.Arrives pt defs → f.blocks[pt.block.index]? = some B →
    B.body[pt.done]? = some i → ∀ op ∈ i.operands, op.Among defs
  leaving : ∀ {pt defs B} {t : Terminator}, f.Arrives pt defs → f.blocks[pt.block.index]? = some B →
    pt.done = B.body.length → B.terminator = some t → ∀ op ∈ t.operands, op.Among defs

/-! ## Tables -/

/-- Where every block may rely on the values that the table has for it, all operands are defined,
and the successors of a block may rely on theirs. -/
structure Checked (f : Function) (table : Nat → List ValueId) : Prop where
  entry : table 0 ⊆ f.params
  body : ∀ {j k : Nat} {B : BasicBlock} {i : Instr}, f.blocks[j]? = some B →
    B.body[k]? = some i → ∀ op ∈ i.operands, op.Among (table j ++ definitions (B.body.take k))
  leaving : ∀ {j : Nat} {B : BasicBlock} {t : Terminator}, f.blocks[j]? = some B →
    B.terminator = some t → ∀ op ∈ t.operands, op.Among (table j ++ definitions B.body)
  successors : ∀ {j : Nat} {B : BasicBlock} {t : Terminator} {s : BlockId},
    f.blocks[j]? = some B → B.terminator = some t → s ∈ t.successors →
    table s.index ⊆ table j ++ definitions B.body

/-- What the table has for a block is defined on every path that arrives there. -/
theorem Checked.arrives {f : Function} {table : Nat → List ValueId} (h : f.Checked table)
    {pt : Point} {defs : List ValueId} (ha : f.Arrives pt defs) {B : BasicBlock}
    (hB : f.blocks[pt.block.index]? = some B) :
    table pt.block.index ++ definitions (B.body.take pt.done) ⊆ defs := by
  induction ha generalizing B with
  | entry => simpa using h.entry
  | @step pt defs B' i _ hB' hi ih =>
      obtain rfl := Option.some.inj (hB'.symm.trans hB)
      have htake : B'.body.take (pt.done + 1) = B'.body.take pt.done ++ [i] := by
        rw [List.take_add_one, hi]
        rfl
      rw [htake, definitions_append, definitions_singleton, ← List.append_assoc]
      intro v hv
      rcases List.mem_append.mp hv with hv | hv
      · exact List.mem_append_right _ (ih hB' hv)
      · exact List.mem_append_left _ hv
  | @leave pt defs B' t s _ hB' hdone ht hs ih =>
      have hbefore := ih hB'
      rw [hdone, List.take_length] at hbefore
      simpa using List.Subset.trans (h.successors hB' ht hs) hbefore

theorem Checked.defined {f : Function} {table : Nat → List ValueId} (h : f.Checked table)
    {pt : Point} {defs : List ValueId} {B : BasicBlock} {i : Instr} (ha : f.Arrives pt defs)
    (hB : f.blocks[pt.block.index]? = some B) (hi : B.body[pt.done]? = some i) :
    ∀ op ∈ i.operands, op.Among defs :=
  fun op hop => (h.body hB hi op hop).mono (h.arrives ha hB)

theorem Checked.defined_leaving {f : Function} {table : Nat → List ValueId} (h : f.Checked table)
    {pt : Point} {defs : List ValueId} {B : BasicBlock} {t : Terminator} (ha : f.Arrives pt defs)
    (hB : f.blocks[pt.block.index]? = some B) (hdone : pt.done = B.body.length)
    (ht : B.terminator = some t) : ∀ op ∈ t.operands, op.Among defs := by
  intro op hop
  have hbefore := h.arrives ha hB
  rw [hdone, List.take_length] at hbefore
  exact (h.leaving hB ht op hop).mono hbefore

end Function

/-! ## Builders -/

namespace Builder

/-- A function under construction, about which the table is right. The values `vs` are defined
wherever control arrives at the current point. All blocks but the current one are closed, except for
those in `waits`, which are still empty and may rely on the values listed for them. -/
structure SoundWith (table : Nat → List ValueId) (vs : List ValueId)
    (waits : List (BlockId × List ValueId)) (b : Builder) : Prop where
  opened : b.IsOpen
  dropped : b.dropped = 0
  forward : b.function.Forward
  checked : b.function.Checked table
  here : ∀ {B : BasicBlock}, b.function.blocks[b.here.block.index]? = some B →
    vs ⊆ table b.here.block.index ++ definitions B.body
  closed : ∀ {j : Nat} {B : BasicBlock}, b.function.blocks[j]? = some B → B.terminator = none →
    j = b.here.block.index ∨ ∃ w ∈ waits, w.1.index = j
  waiting : ∀ w ∈ waits, b.Reserved w.1 ∧ b.here.block.index < w.1.index ∧ table w.1.index = w.2
  distinct : (b.function.params ++ definitions b.function.instrs).Nodup
  typed : ∀ v ∈ b.function.params ++ definitions b.function.instrs,
    v.index < b.function.valueTypes.length

variable {b : Builder} {pt : Point} {B C : BasicBlock} {j : Nat} {table : Nat → List ValueId}
  {vs : List ValueId} {waits : List (BlockId × List ValueId)}

/-! ### What changes -/

/-- The blocks after a change of the open one. -/
theorem Open.block_extend (hopen : b.Open pt) (hB : b.function.blocks[pt.block.index]? = some B)
    {change : BasicBlock → BasicBlock}
    (hC : (b.extend change).function.blocks[j]? = some C) :
    (j = pt.block.index ∧ C = change B)
      ∨ (j ≠ pt.block.index ∧ b.function.blocks[j]? = some C) := by
  rw [hopen.extend] at hC
  simp only [getElem?_modifyBlock] at hC
  split at hC
  · next heq =>
      rw [← heq, hB] at hC
      exact Or.inl ⟨heq.symm, (Option.some.inj hC).symm⟩
  · next hne => exact Or.inr ⟨fun h => hne h.symm, hC⟩

theorem block_appendBlock {label : String}
    (hC : (b.appendBlock label).2.function.blocks[j]? = some C) :
    b.function.blocks[j]? = some C ∨ (j = b.function.blocks.length ∧ C = ⟨label, [], none⟩) := by
  change (b.function.blocks ++ [_])[j]? = some C at hC
  rw [List.getElem?_append] at hC
  split at hC
  · exact Or.inl hC
  · next hge =>
      obtain ⟨hlt, hC⟩ := List.getElem?_eq_some_iff.mp hC
      rw [List.length_singleton] at hlt
      refine Or.inr ⟨by omega, ?_⟩
      rw [← hC]
      exact List.getElem_singleton ..

theorem flatMap_body_push (i : Instr) : ∀ {l : List BasicBlock} {n : Nat}, n < l.length →
    ((l.modify n fun B => { B with body := B.body ++ [i] }).flatMap BasicBlock.body).Perm
      (i :: l.flatMap BasicBlock.body)
  | B :: l, 0, _ => by
      simp only [List.modify_zero_cons, List.flatMap_cons, List.append_assoc, List.singleton_append]
      exact List.perm_middle
  | B :: l, n + 1, h => by
      simp only [List.modify_succ_cons, List.flatMap_cons]
      have hrest := (flatMap_body_push i (Nat.lt_of_succ_lt_succ h)).append_left B.body
      exact hrest.trans List.perm_middle

theorem flatMap_body_terminate (t : Terminator) : ∀ (l : List BasicBlock) (n : Nat),
    (l.modify n fun B => { B with terminator := some t }).flatMap BasicBlock.body =
      l.flatMap BasicBlock.body
  | [], n => by cases n <;> rfl
  | B :: l, 0 => rfl
  | B :: l, n + 1 => by
      simp only [List.modify_succ_cons, List.flatMap_cons, flatMap_body_terminate t l n]

theorem Open.instrs_push (hopen : b.Open pt) (i : Instr) :
    (b.push i).function.instrs.Perm (i :: b.function.instrs) := by
  rw [Builder.push, hopen.extend]
  exact flatMap_body_push i hopen.lt_length

theorem Open.instrs_terminate (hopen : b.Open pt) (t : Terminator) :
    (b.terminate t).function.instrs = b.function.instrs := by
  rw [Builder.terminate, hopen.extend]
  exact flatMap_body_terminate t _ _

theorem instrs_appendBlock (b : Builder) (label : String) :
    (b.appendBlock label).2.function.instrs = b.function.instrs := by
  simp [Builder.appendBlock, Function.instrs]

theorem Open.function_extend (hopen : b.Open pt) (change : BasicBlock → BasicBlock) :
    (b.extend change).function.params = b.function.params
      ∧ (b.extend change).function.valueTypes = b.function.valueTypes
      ∧ (b.extend change).dropped = b.dropped := by
  rw [hopen.extend]
  exact ⟨rfl, rfl, rfl⟩

/-- A pushed instruction adds the value that it defines. -/
theorem Open.defined_push (hopen : b.Open pt) (i : Instr) :
    ((b.push i).function.params ++ definitions (b.push i).function.instrs).Perm
      (i.dst?.toList ++ (b.function.params ++ definitions b.function.instrs)) := by
  have hparams : (b.push i).function.params = b.function.params := (hopen.function_extend _).1
  have hdefs := (hopen.instrs_push i).filterMap Instr.dst?
  rw [← List.singleton_append, List.filterMap_append, ← definitions, ← definitions,
    ← definitions, definitions_singleton] at hdefs
  rw [hparams]
  refine (hdefs.append_left _).trans ?_
  rw [← List.append_assoc, ← List.append_assoc]
  exact List.perm_append_comm.append_right _

/-! ### What stays right -/

namespace SoundWith

theorem mono (h : SoundWith table vs waits b) {vs' : List ValueId} (hvs : vs' ⊆ vs) :
    SoundWith table vs' waits b :=
  { h with here := fun hB => List.Subset.trans hvs (h.here hB) }

theorem block (h : SoundWith table vs waits b) :
    ∃ B, b.function.blocks[b.here.block.index]? = some B ∧ B.terminator = none := by
  obtain ⟨B, hB, hterm, -⟩ := h.opened.block
  exact ⟨B, hB, hterm⟩

/-- Control arrives at the first block with the parameters. -/
theorem new (name : String) (params : List TypeId) (ret : TypeId) :
    SoundWith (fun _ => (Builder.new name params ret).function.params)
      (Builder.new name params ret).function.params [] (Builder.new name params ret) := by
  have hopen := open_new name params ret
  have hblock : ∀ {j B}, (Builder.new name params ret).function.blocks[j]? = some B →
      j = 0 ∧ B = ⟨"entry", [], none⟩ := by
    intro j B hB
    have hB' : [(⟨"entry", [], none⟩ : BasicBlock)][j]? = some B := hB
    cases j with
    | zero => exact ⟨rfl, (Option.some.inj hB').symm⟩
    | succ j => cases hB'
  refine ⟨hopen.isOpen, rfl, forward_new name params ret, ⟨List.Subset.refl _, ?_, ?_, ?_⟩, ?_, ?_,
    nofun, ?_, ?_⟩
  · intro j k B i hB hi
    obtain ⟨-, rfl⟩ := hblock hB
    cases hi
  · intro j B t hB ht
    obtain ⟨-, rfl⟩ := hblock hB
    cases ht
  · intro j B t s hB ht
    obtain ⟨-, rfl⟩ := hblock hB
    cases ht
  · exact fun _ => List.subset_append_left _ _
  · intro j B hB _
    rw [hopen.here]
    exact Or.inl (hblock hB).1
  · change (((List.range params.length).map ValueId.mk) ++ []).Nodup
    rw [List.append_nil]
    exact List.nodup_range.map fun i j h => ValueId.mk.inj h
  · intro v hv
    change v ∈ ((List.range params.length).map ValueId.mk) ++ [] at hv
    rw [List.append_nil] at hv
    obtain ⟨i, hi, rfl⟩ := List.mem_map.mp hv
    exact List.mem_range.mp hi

/-- A new value number, which no instruction defines yet. -/
theorem fresh (h : SoundWith table vs waits b) (ty : TypeId) :
    SoundWith table vs waits (b.fresh ty).2 where
  opened := h.opened.fresh ty
  dropped := h.dropped
  forward := h.forward
  checked := ⟨h.checked.entry, h.checked.body, h.checked.leaving, h.checked.successors⟩
  here := h.here
  closed := h.closed
  waiting := h.waiting
  distinct := h.distinct
  typed := fun v hv => by
    change v.index < (b.function.valueTypes ++ [ty]).length
    rw [List.length_append]
    exact Nat.lt_of_lt_of_le (h.typed v hv) (Nat.le_add_right _ _)

theorem checked_push (h : SoundWith table vs waits b) {i : Instr}
    (hops : ∀ op ∈ i.operands, op.Among vs) : (b.push i).function.Checked table := by
  obtain ⟨B, hB, hterm⟩ := h.block
  have hopen := h.opened
  have hparams : (b.push i).function.params = b.function.params := (hopen.function_extend _).1
  refine ⟨hparams ▸ h.checked.entry, fun {j k C i'} hC hi' => ?_, fun hC ht => ?_,
    fun hC ht => ?_⟩
  · rcases hopen.block_extend hB hC with ⟨rfl, rfl⟩ | ⟨-, hC⟩
    · rw [List.getElem?_append] at hi'
      split at hi'
      · next hk =>
          rw [List.take_append_of_le_length (Nat.le_of_lt hk)]
          exact h.checked.body hB hi'
      · next hk =>
          -- the new instruction stands behind all others of its block
          obtain ⟨hlt, heq⟩ := List.getElem?_eq_some_iff.mp hi'
          rw [List.length_singleton] at hlt
          have hlen : k = B.body.length := by omega
          rw [List.getElem_singleton] at heq
          rw [hlen, List.take_left, ← heq]
          exact fun op hop => (hops op hop).mono (h.here hB)
    · exact h.checked.body hC hi'
  · rcases hopen.block_extend hB hC with ⟨rfl, rfl⟩ | ⟨-, hC⟩
    · rw [hterm] at ht
      cases ht
    · exact h.checked.leaving hC ht
  · rcases hopen.block_extend hB hC with ⟨rfl, rfl⟩ | ⟨-, hC⟩
    · rw [hterm] at ht
      cases ht
    · exact h.checked.successors hC ht

/-- An instruction whose operands are defined, and which defines nothing or a new value. -/
theorem push (h : SoundWith table vs waits b) {i : Instr} (hops : ∀ op ∈ i.operands, op.Among vs)
    (hdst : ∀ v, i.dst? = some v → v ∉ b.function.params ++ definitions b.function.instrs
      ∧ v.index < b.function.valueTypes.length) :
    SoundWith table (i.dst?.toList ++ vs) waits (b.push i) := by
  obtain ⟨B, hB, -⟩ := h.block
  have hopen := h.opened
  have hend := (hopen.push i).1
  obtain ⟨-, htypes, hdropped⟩ := hopen.function_extend fun B => { B with body := B.body ++ [i] }
  have hhere : (b.push i).here.block = b.here.block := by rw [hend.here]
  have hdefined := hopen.defined_push i
  refine ⟨hend.isOpen, hdropped.trans h.dropped, (leads_push b i).forward h.forward,
    h.checked_push hops, ?_, ?_, ?_, ?_, ?_⟩
  · intro C hC
    rw [hhere] at hC ⊢
    rcases hopen.block_extend hB hC with ⟨-, rfl⟩ | ⟨hne, -⟩
    · rw [definitions_append, definitions_singleton, ← List.append_assoc]
      refine List.append_subset.mpr ⟨List.subset_append_right _ _, ?_⟩
      exact List.subset_append_of_subset_left _ (h.here hB)
    · exact absurd rfl hne
  · intro j C hC ht
    rw [hhere]
    rcases hopen.block_extend hB hC with ⟨rfl, -⟩ | ⟨-, hC⟩
    · exact Or.inl rfl
    · exact h.closed hC ht
  · intro w hw
    obtain ⟨hreserved, hlt, htable⟩ := h.waiting w hw
    rw [hhere]
    exact ⟨hreserved.push hopen (Nat.ne_of_lt hlt) i, hlt, htable⟩
  · rw [hdefined.nodup_iff]
    cases hi : i.dst? with
    | none => exact h.distinct
    | some v => exact List.nodup_cons.mpr ⟨(hdst v hi).1, h.distinct⟩
  · intro v hv
    rw [hdefined.mem_iff] at hv
    rw [show (b.push i).function.valueTypes = _ from htypes]
    rcases List.mem_append.mp hv with hv | hv
    · exact (hdst v (Option.mem_toList.mp hv)).2
    · exact h.typed v hv

/-- An instruction that defines a new value. -/
theorem define (h : SoundWith table vs waits b) {ty : TypeId} {instr : ValueId → Instr}
    (hops : ∀ op ∈ (instr ⟨b.values⟩).operands, op.Among vs)
    (hdst : (instr ⟨b.values⟩).dst? = some ⟨b.values⟩) :
    SoundWith table (⟨b.values⟩ :: vs) waits (b.define ty instr).2 := by
  have hpush := (h.fresh ty).push (i := instr ⟨b.values⟩) hops fun v hv => by
    obtain rfl := Option.some.inj (hdst.symm.trans hv)
    refine ⟨fun hmem => Nat.lt_irrefl _ (h.typed _ hmem), ?_⟩
    change b.values < (b.function.valueTypes ++ [ty]).length
    rw [List.length_append]
    exact Nat.lt_succ_self _
  rwa [hdst] at hpush

/-- Nothing that is there looks up the entry of the table for a new block. -/
theorem checked_appendBlock (h : SoundWith table vs waits b) (label : String) (ws : List ValueId) :
    (b.appendBlock label).2.function.Checked
      (Function.update table b.function.blocks.length ws) := by
  have htable : ∀ {j}, j < b.function.blocks.length →
      Function.update table b.function.blocks.length ws j = table j := fun hj =>
    Function.update_of_ne (Nat.ne_of_lt hj) _ _
  have hold : ∀ {j C}, b.function.blocks[j]? = some C →
      Function.update table b.function.blocks.length ws j = table j := fun hC =>
    htable (List.getElem?_eq_some_iff.mp hC).1
  refine ⟨?_, fun hC hi => ?_, fun hC ht => ?_, fun {_ _ _ s} hC ht hs => ?_⟩
  · rw [htable (Nat.zero_lt_of_lt h.opened.lt_length)]
    exact h.checked.entry
  · rcases block_appendBlock hC with hC | ⟨-, rfl⟩
    · rw [hold hC]
      exact h.checked.body hC hi
    · cases hi
  · rcases block_appendBlock hC with hC | ⟨-, rfl⟩
    · rw [hold hC]
      exact h.checked.leaving hC ht
    · cases ht
  · rcases block_appendBlock hC with hC | ⟨-, rfl⟩
    · rw [hold hC, htable (h.forward _ _ _ hC ht s hs).2]
      exact h.checked.successors hC ht hs
    · cases ht

/-- A new block that waits. -/
theorem appendBlock (h : SoundWith table vs waits b) (label : String) (ws : List ValueId) :
    SoundWith (Function.update table b.function.blocks.length ws) vs
      (waits ++ [(⟨b.function.blocks.length⟩, ws)]) (b.appendBlock label).2 := by
  have hlt := h.opened.lt_length
  have htable : ∀ {j}, j < b.function.blocks.length →
      Function.update table b.function.blocks.length ws j = table j := fun hj =>
    Function.update_of_ne (Nat.ne_of_lt hj) _ _
  have hend := h.opened.appendBlock label
  have hhere : (b.appendBlock label).2.here = b.here := hend.here
  refine ⟨hend.isOpen, h.dropped, (leads_appendBlock b label).forward h.forward,
    h.checked_appendBlock label ws, ?_, ?_, ?_, ?_, ?_⟩
  · intro C hC
    rw [hhere] at hC ⊢
    rw [htable hlt]
    rcases block_appendBlock hC with hC | ⟨heq, -⟩
    · exact h.here hC
    · omega
  · intro j C hC ht
    rw [hhere]
    rcases block_appendBlock hC with hC | ⟨rfl, -⟩
    · refine (h.closed hC ht).imp_right ?_
      rintro ⟨w, hw, rfl⟩
      exact ⟨w, List.mem_append_left _ hw, rfl⟩
    · exact Or.inr ⟨_, List.mem_append_right _ (List.mem_singleton.mpr rfl), rfl⟩
  · intro w hw
    rw [hhere]
    rcases List.mem_append.mp hw with hw | hw
    · obtain ⟨hreserved, hlt', htable'⟩ := h.waiting w hw
      exact ⟨hreserved.appendBlock label, hlt', (htable hreserved.lt_length).trans htable'⟩
    · obtain rfl := List.mem_singleton.mp hw
      exact ⟨reserved_appendBlock b label, hlt, Function.update_self ..⟩
  · rw [instrs_appendBlock]
    exact h.distinct
  · rw [instrs_appendBlock]
    exact h.typed

/-- The block is closed. -/
theorem checked_terminate (h : SoundWith table vs waits b) {t : Terminator}
    (hops : ∀ op ∈ t.operands, op.Among vs)
    (hsuccessors : ∀ s ∈ t.successors, ∃ ws, (s, ws) ∈ waits ∧ ws ⊆ vs) :
    (b.terminate t).function.Checked table ∧ (b.terminate t).function.Forward := by
  obtain ⟨B, hB, -⟩ := h.block
  have hopen := h.opened
  obtain ⟨hparams, -, -⟩ := hopen.function_extend fun B => { B with terminator := some t }
  refine ⟨⟨?_, ?_, ?_, ?_⟩, ?_⟩
  · exact hparams ▸ h.checked.entry
  · intro j k C i hC hi
    rcases hopen.block_extend hB hC with ⟨rfl, rfl⟩ | ⟨-, hC⟩
    · exact h.checked.body (B := B) hB hi
    · exact h.checked.body hC hi
  · intro j C t' hC ht op hop
    rcases hopen.block_extend hB hC with ⟨rfl, rfl⟩ | ⟨-, hC⟩
    · obtain rfl := Option.some.inj ht
      exact (hops op hop).mono (h.here hB)
    · exact h.checked.leaving hC ht op hop
  · intro j C t' s hC ht hs
    rcases hopen.block_extend hB hC with ⟨rfl, rfl⟩ | ⟨-, hC⟩
    · obtain rfl := Option.some.inj ht
      obtain ⟨ws, hw, hws⟩ := hsuccessors s hs
      rw [(h.waiting _ hw).2.2]
      exact List.Subset.trans hws (h.here (B := B) hB)
    · exact h.checked.successors hC ht hs
  · refine (leads_terminate hopen t fun s hs => ?_).forward h.forward
    obtain ⟨ws, hw, -⟩ := hsuccessors s hs
    obtain ⟨hreserved, hlt, -⟩ := h.waiting _ hw
    exact ⟨hlt, hreserved.lt_length⟩

/-- The block is closed, and the first block that waits is filled next. -/
theorem leave {w : BlockId} {ws : List ValueId} (h : SoundWith table vs ((w, ws) :: waits) b)
    {t : Terminator} (hops : ∀ op ∈ t.operands, op.Among vs)
    (hsuccessors : ∀ s ∈ t.successors, ∃ ws', (s, ws') ∈ (w, ws) :: waits ∧ ws' ⊆ vs)
    (hlater : ∀ w' ∈ waits, w.index < w'.1.index)
    (hid : w.index < (b.terminate t).function.blocks.length) :
    SoundWith table ws waits ((b.terminate t).moveTo w hid) := by
  obtain ⟨B, hB, -⟩ := h.block
  have hopen := h.opened
  obtain ⟨hparams, htypes, hdropped⟩ :=
    hopen.function_extend fun B => { B with terminator := some t }
  obtain ⟨hchecked, hforward⟩ := h.checked_terminate hops hsuccessors
  obtain ⟨hreserved, hlt, htable⟩ := h.waiting _ List.mem_cons_self
  have hreserved' : (b.terminate t).Reserved w := hreserved.terminate hopen (Nat.ne_of_lt hlt) t
  have hhere : ((b.terminate t).moveTo w hid).here = ⟨w, 0⟩ := hreserved'.moveTo.here
  refine ⟨hreserved'.moveTo.isOpen, hdropped.trans h.dropped, hforward,
    ⟨hchecked.entry, hchecked.body, hchecked.leaving, hchecked.successors⟩, ?_, ?_, ?_, ?_, ?_⟩
  · intro C _
    rw [hhere, htable]
    exact List.subset_append_left _ _
  · intro j C hC hnone
    rw [hhere]
    rcases hopen.block_extend hB hC with ⟨rfl, rfl⟩ | ⟨hne, hC⟩
    · cases hnone
    · rcases h.closed hC hnone with hj | ⟨w', hw', rfl⟩
      · exact absurd hj hne
      · rcases List.mem_cons.mp hw' with rfl | hw'
        · exact Or.inl rfl
        · exact Or.inr ⟨w', hw', rfl⟩
  · intro w' hw'
    obtain ⟨hr, hlt', htable'⟩ := h.waiting w' (List.mem_cons_of_mem _ hw')
    rw [hhere]
    have hr' := hr.terminate hopen (Nat.ne_of_lt hlt') t
    exact ⟨hr', hlater w' hw', htable'⟩
  · change ((b.terminate t).function.params ++ definitions (b.terminate t).function.instrs).Nodup
    rw [hopen.instrs_terminate, show (b.terminate t).function.params = _ from hparams]
    exact h.distinct
  · change ∀ v ∈ (b.terminate t).function.params ++ definitions (b.terminate t).function.instrs,
      v.index < (b.terminate t).function.valueTypes.length
    rw [hopen.instrs_terminate, show (b.terminate t).function.params = _ from hparams,
      show (b.terminate t).function.valueTypes = _ from htypes]
    exact h.typed

/-- The last block is closed by a return. -/
theorem wellFormed_ret (h : SoundWith table vs [] b) {value : Option Operand}
    (hvalue : ∀ op ∈ value, op.Among vs) :
    (b.ret value).dropped = 0 ∧ (b.ret value).function.WellFormed := by
  obtain ⟨B, hB, -⟩ := h.block
  have hopen := h.opened
  obtain ⟨hparams, htypes, hdropped⟩ :=
    hopen.function_extend fun B => { B with terminator := some (.ret value) }
  obtain ⟨hchecked, hforward⟩ := h.checked_terminate (t := .ret value)
    (fun op hop => hvalue op (Option.mem_toList.mp hop)) nofun
  refine ⟨hdropped.trans h.dropped, ?_, ?_, hforward, ?_, ?_, hchecked.defined,
    hchecked.defined_leaving⟩
  · obtain ⟨C, hC, -⟩ := hopen.terminate (.ret value)
    rw [Function.isDeclaration, List.isEmpty_eq_false_iff]
    exact List.ne_nil_of_mem (List.mem_of_getElem? hC)
  · intro C hC
    obtain ⟨j, hC⟩ := List.mem_iff_getElem?.mp hC
    cases hnone : C.terminator with
    | some t => rfl
    | none =>
        rcases hopen.block_extend hB hC with ⟨-, rfl⟩ | ⟨hne, hC⟩
        · cases hnone
        · rcases h.closed hC hnone with hj | ⟨w, hw, -⟩
          · exact absurd hj hne
          · cases hw
  · rw [ret, hopen.instrs_terminate, show (b.terminate _).function.params = _ from hparams]
    exact h.distinct
  · rw [ret, hopen.instrs_terminate, show (b.terminate _).function.params = _ from hparams,
      show (b.terminate _).function.valueTypes = _ from htypes]
    exact h.typed

end SoundWith

end Builder

end Ownership
