import Mathlib
import Ownership.Machine.Exec

/-!
# Steps and visits

A run pays for its instructions and never gets anything back
(`Exec.Thrifty`). What bounds the blocks that it visits is another
number, which only runs out on a circle of empty blocks: as long as the
budget stays the same the blocks that are visited are empty and the frame
does not change, so one more of them than the function has means that a
block was visited twice.

It follows that any two numbers of visits do that are large enough for
the budget (`Program.runBlocks_visits`), and that from the end of a block
on a run does what a run does that starts at the next one
(`Program.runFrom_eq_visitBlock`).
-/

namespace Ownership

open Relation

/-! ## Sequences -/

namespace Step

variable {ε σ α β : Type} {x y : Step ε σ α} {f : α → Step ε σ β} {s s' : σ}

/-- From the result of two steps to those of each. -/
theorem bind_ok {b : β} (h : (x >>= f).run s = .ok b s') :
    ∃ a s₁, x.run s = .ok a s₁ ∧ (f a).run s₁ = .ok b s' := by
  rw [EStateM.run_bind] at h
  split at h
  · next a s₁ hx => exact ⟨a, s₁, hx, h⟩
  · cases h

theorem run_bind_ok {a : α} (h : x.run s = .ok a s') : (x >>= f).run s = (f a).run s' := by
  rw [EStateM.run_bind, h]

theorem run_bind_congr (h : x.run s = y.run s') : (x >>= f).run s = (y >>= f).run s' := by
  rw [EStateM.run_bind, h, EStateM.run_bind]

theorem run_bind_error {r : Stop ε} (h : x.run s = .error r s') :
    (x >>= f).run s = .error r s' := by
  rw [EStateM.run_bind, h]

end Step

theorem Outcome.bind_ok {α β : Type} {x : Outcome α} {f : α → Outcome β} {b : β}
    (h : x >>= f = .ok b) : ∃ a, x = .ok a ∧ f a = .ok b := by
  cases x with
  | ok a => exact ⟨a, rfl, h⟩
  | error s => cases h

/-! ## What is paid -/

namespace Exec

variable {α β : Type} {x : Exec α} {m : Machine}

theorem run_tick_zero (h : m.budget = 0) : tick.run m = .error (.error .stepLimit) m := by
  change tick m = _
  simp only [tick, bind, EStateM.bind, get, getThe, MonadStateOf.get, EStateM.get, h]
  rfl

theorem run_tick {budget : Nat} (h : m.budget = budget + 1) :
    tick.run m = .ok () { m with budget } := by
  change tick m = _
  simp only [tick, bind, EStateM.bind, get, getThe, MonadStateOf.get, EStateM.get, h]
  rfl

theorem run_outcome_error (s : Stop Fault) (m : Machine) :
    (outcome (.error s) : Exec α).run m = .error s m := by cases s <;> rfl

theorem outcome_bind (x : Outcome α) (f : α → Outcome β) :
    outcome (x >>= f) = outcome x >>= fun a => outcome (f a) := by
  cases x with
  | ok a => rfl
  | error s => cases s <;> rfl

theorem run_withHeap {f : Heap → Outcome Heap} {h : Heap} (hf : f m.heap = .ok h) :
    (withHeap f).run m = .ok () { m with heap := h } := by
  change (outcome (f m.heap) >>= _).run m = _
  rw [hf]
  rfl

theorem run_withHeap_error {f : Heap → Outcome Heap} {s : Stop Fault}
    (hf : f m.heap = .error s) : (withHeap f).run m = .error s m := by
  change (outcome (f m.heap) >>= _).run m = _
  rw [hf]
  cases s <;> rfl

theorem run_malloc {size : UInt64} {p : Address × Heap}
    (h : m.heap.malloc size.toNat = .ok p) :
    (malloc size).run m = .ok (UInt64.ofNat p.1) { m with heap := p.2 } := by
  change (Step.ofAbort (m.heap.malloc size.toNat) >>= _).run m = _
  rw [h]
  rfl

theorem run_malloc_error {size : UInt64} {a : Abort}
    (h : m.heap.malloc size.toNat = .error a) : (malloc size).run m = .error (.abort a) m := by
  change (Step.ofAbort (m.heap.malloc size.toNat) >>= _).run m = _
  rw [h]
  rfl

theorem run_pushSlot {size : Nat} {p : Address × Heap} (h : m.heap.pushSlot size = .ok p) :
    (pushSlot size).run m
      = .ok (UInt64.ofNat p.1) { m with heap := p.2, slots := p.1 :: m.slots } := by
  change (Step.ofAbort (m.heap.pushSlot size) >>= _).run m = _
  rw [h]
  rfl

theorem run_pushSlot_error {size : Nat} {a : Abort} (h : m.heap.pushSlot size = .error a) :
    (pushSlot size).run m = .error (.abort a) m := by
  change (Step.ofAbort (m.heap.pushSlot size) >>= _).run m = _
  rw [h]
  rfl

theorem run_inCall_ok {m' : Machine} {a : α} (h : x.run { m with slots := [] } = .ok a m') :
    (inCall x).run m = .ok a (leave m' m.slots) := by
  change inCall x m = _
  unfold inCall
  rw [h]

theorem run_inCall_error {m' : Machine} {s : Stop Fault}
    (h : x.run { m with slots := [] } = .error s m') :
    (inCall x).run m = .error s (leave m' m.slots) := by
  change inCall x m = _
  unfold inCall
  rw [h]

/-- The computation costs no step. -/
structure Costless (x : Exec α) : Prop where
  budget {m m' : Machine} {a : α} : x.run m = .ok a m' → m'.budget = m.budget

theorem costless_pure (a : α) : Costless (pure a : Exec α) :=
  ⟨fun h => (EStateM.Result.ok.inj h).2 ▸ rfl⟩

theorem costless_get : Costless (get : Exec Machine) :=
  ⟨fun h => (EStateM.Result.ok.inj h).2 ▸ rfl⟩

theorem costless_throw (s : Stop Fault) : Costless (throw s : Exec α) := ⟨fun h => by cases h⟩

theorem Costless.bind {f : α → Exec β} (hx : Costless x) (hf : ∀ a, Costless (f a)) :
    Costless (x >>= f) := by
  refine ⟨fun h => ?_⟩
  obtain ⟨a, m₁, h₁, h₂⟩ := Step.bind_ok h
  exact ((hf a).budget h₂).trans (hx.budget h₁)

theorem costless_outcome (y : Outcome α) : Costless (outcome y) := by
  cases y with
  | ok a => exact costless_pure a
  | error s => exact costless_throw _

theorem costless_withHeap (f : Heap → Outcome Heap) : Costless (withHeap f) := by
  refine ⟨fun {m _ _} h => ?_⟩
  cases hm : f m.heap with
  | ok heap =>
      rw [run_withHeap hm] at h
      cases h
      rfl
  | error s =>
      rw [run_withHeap_error hm] at h
      cases h

theorem costless_malloc (size : UInt64) : Costless (malloc size) := by
  refine ⟨fun {m _ _} h => ?_⟩
  cases hm : m.heap.malloc size.toNat with
  | ok q =>
      rw [run_malloc hm] at h
      cases h
      rfl
  | error a =>
      rw [run_malloc_error hm] at h
      cases h

theorem costless_pushSlot (size : Nat) : Costless (pushSlot size) := by
  refine ⟨fun {m _ _} h => ?_⟩
  cases hm : m.heap.pushSlot size with
  | ok q =>
      rw [run_pushSlot hm] at h
      cases h
      rfl
  | error a =>
      rw [run_pushSlot_error hm] at h
      cases h

/-- The computation gives nothing back. -/
structure Thrifty (x : Exec α) : Prop where
  budget {m m' : Machine} {a : α} : x.run m = .ok a m' → m'.budget ≤ m.budget

theorem Costless.thrifty (h : Costless x) : Thrifty x := ⟨fun hrun => (h.budget hrun).le⟩

theorem Thrifty.bind {f : α → Exec β} (hx : Thrifty x) (hf : ∀ a, Thrifty (f a)) :
    Thrifty (x >>= f) := by
  refine ⟨fun h => ?_⟩
  obtain ⟨a, m₁, h₁, h₂⟩ := Step.bind_ok h
  exact ((hf a).budget h₂).trans (hx.budget h₁)

theorem Thrifty.inCall (hx : Thrifty x) : Thrifty (inCall x) := by
  refine ⟨fun {m _ _} h => ?_⟩
  cases hrun : x.run { m with slots := [] } with
  | ok a m₁ =>
      rw [run_inCall_ok hrun] at h
      obtain ⟨-, rfl⟩ := EStateM.Result.ok.inj h
      have hbudget := hx.budget hrun
      exact hbudget
  | error s m₁ =>
      rw [run_inCall_error hrun] at h
      cases h

end Exec

/-- The callee and the arguments of a call. -/
def Instr.call? : Instr → Option (Option ValueId × FuncId × List Operand)
  | .call dst callee args => some (dst, callee, args)
  | _ => none

namespace Program

open Exec

variable {p : Program} {call : Caller} {f : Function} {frame : Frame} {i : Instr}

theorem costless_callExternal (callee : ExternalId) (args : List Value) :
    (p.callExternal callee args).Costless := by
  have hunresolved : (callExternal.unresolved p callee).Costless := by
    unfold callExternal.unresolved
    cases p.unit.external? callee with
    | none => exact costless_throw _
    | some e => exact costless_throw _
  unfold callExternal
  split
  · split
    · exact (costless_outcome _).bind fun _ => (costless_malloc _).bind fun _ => costless_pure _
    · split
      · exact (costless_outcome _).bind fun _ => (costless_withHeap _).bind fun _ =>
          costless_pure _
      · exact hunresolved
  · exact hunresolved

/-- Only what a call does may cost more than the step for the instruction. -/
theorem costless_runInstr (hi : i.call? = none) : (p.runInstr call frame i).Costless := by
  cases i with
  | alloca =>
      exact (costless_outcome _).bind fun _ => (costless_pushSlot _).bind fun _ => costless_pure _
  | load =>
      exact (costless_outcome _).bind fun _ => costless_get.bind fun _ =>
        (costless_outcome _).bind fun _ => costless_pure _
  | store =>
      exact (costless_outcome _).bind fun _ => (costless_outcome _).bind fun _ =>
        (costless_withHeap _).bind fun _ => costless_pure _
  | fieldAddr | offset | cast | cmp =>
      exact (costless_outcome _).bind fun _ => costless_pure _
  | add =>
      exact (costless_outcome _).bind fun _ => (costless_outcome _).bind fun _ =>
        (costless_outcome _).bind fun _ => costless_pure _
  | callExternal =>
      exact (costless_outcome _).bind fun _ => (costless_callExternal _ _).bind fun _ =>
        costless_pure _
  | call => cases hi

variable (hcall : ∀ id args, (call id args).Thrifty)

include hcall

theorem thrifty_runInstr : (p.runInstr call frame i).Thrifty := by
  cases hi : i.call? with
  | none => exact (costless_runInstr hi).thrifty
  | some q =>
      cases i with
      | call dst callee args =>
          exact (costless_outcome _).thrifty.bind fun vs => (hcall callee vs).bind fun _ =>
            (costless_pure _).thrifty
      | alloca | load | store | fieldAddr | offset | cast | add | cmp | callExternal => cases hi

/-- Each instruction of a block costs a step. -/
theorem budget_runInstrs {body : List Instr} {frame' : Frame} {m m' : Machine}
    (h : (p.runInstrs call body frame).run m = .ok frame' m') :
    m'.budget + body.length ≤ m.budget := by
  induction body generalizing frame m with
  | nil =>
      obtain ⟨-, rfl⟩ := EStateM.Result.ok.inj h
      exact Nat.le_refl _
  | cons i body ih =>
      cases hm : m.budget with
      | zero =>
          rw [runInstrs, Step.run_bind_error (run_tick_zero hm)] at h
          cases h
      | succ budget =>
          rw [runInstrs, Step.run_bind_ok (run_tick hm)] at h
          obtain ⟨frame₁, m₁, h₁, h₂⟩ := Step.bind_ok h
          have hinstr := (thrifty_runInstr hcall).budget h₁
          exact Nat.succ_le_succ ((ih h₂).trans hinstr)

end Program

/-! ## The end of a block -/

/-- Where control goes at the end of a block. -/
inductive Exit where
  | goto (id : BlockId)
  | answer (v : Option Value)

/-- What a run does after the end of a block. -/
def Exit.follow (next : BlockId → Exec (Option Value)) : Exit → Exec (Option Value)
  | .goto id => next id
  | .answer v => pure v

namespace Function

variable {f : Function} {frame : Frame} {a b : BlockId}

/-- What the terminator of the block `id` does. -/
def exit (f : Function) (id : BlockId) (frame : Frame) : Option Terminator → Outcome Exit
  | none => .fail (.unterminated f.name id)
  | some (.jump target) => .ok (.goto target)
  | some (.branch cond thenBlock elseBlock) => do
    let v ← frame.eval cond
    let taken ← Outcome.ofKind v.asBool
    return .goto (if taken then thenBlock else elseBlock)
  | some (.ret none) => .ok (.answer none)
  | some (.ret (some value)) => do
    let v ← frame.eval value
    return .answer (some v)
  | some (.trap cause) => .fail (.trap cause)

/-- The block `a` is empty, and control goes from it to `b`. -/
def Idle (f : Function) (frame : Frame) (a b : BlockId) : Prop :=
  ∃ B, f.block? a = some B ∧ B.body = [] ∧ f.exit a frame B.terminator = .ok (.goto b)

/-- Different blocks from which idle ways lead to a block are no more than the function has. -/
theorem length_le_of_idle {l : List BlockId} (hnodup : l.Nodup)
    (hidle : ∀ a ∈ l, TransGen (f.Idle frame) a b) : l.length ≤ f.blocks.length := by
  have hmap : (l.map BlockId.index).Nodup := hnodup.map fun a b h => by
    cases a
    cases b
    exact congrArg BlockId.mk h
  have hsub : l.map BlockId.index ⊆ List.range f.blocks.length := by
    intro k hk
    obtain ⟨a, ha, rfl⟩ := List.mem_map.mp hk
    obtain ⟨-, ⟨B, hB, -⟩, -⟩ := TransGen.head'_iff.mp (hidle a ha)
    exact List.mem_range.mpr (List.getElem?_eq_some_iff.mp hB).1
  have hlen := (List.subperm_of_subset hmap hsub).length_le
  rwa [List.length_map, List.length_range] at hlen

end Function

namespace Program

open Exec

variable {p : Program} {call : Caller} {f : Function} {frame : Frame}
  {next next' : BlockId → Frame → Exec (Option Value)} {id : BlockId} {t : Option Terminator}

/-- How a run goes on at the end of the block `id`; `next` runs the blocks that follow. -/
def leaveBlock (f : Function) (next : BlockId → Frame → Exec (Option Value)) (id : BlockId) :
    Option Terminator → Frame → Exec (Option Value)
  | none, _ => Step.fail (.unterminated f.name id)
  | some (.jump target), frame => next target frame
  | some (.branch cond thenBlock elseBlock), frame => do
    let v ← Exec.outcome (frame.eval cond)
    let taken ← Exec.outcome (Outcome.ofKind v.asBool)
    next (if taken then thenBlock else elseBlock) frame
  | some (.ret none), _ => return none
  | some (.ret (some value)), frame => do
    let v ← Exec.outcome (frame.eval value)
    return some v
  | some (.trap cause), _ => Step.fail (.trap cause)

theorem leaveBlock_eq_follow (f : Function) (next : BlockId → Frame → Exec (Option Value))
    (id : BlockId) (t : Option Terminator) (frame : Frame) :
    leaveBlock f next id t frame
      = outcome (f.exit id frame t) >>= Exit.follow (next · frame) := by
  match t with
  | none => rfl
  | some (.jump _) => rfl
  | some (.branch _ _ _) =>
      simp only [leaveBlock, Function.exit, outcome_bind, bind_assoc]
      rfl
  | some (.ret none) => rfl
  | some (.ret (some _)) =>
      simp only [leaveBlock, Function.exit, outcome_bind, bind_assoc]
      rfl
  | some (.trap _) => rfl

theorem thrifty_leaveBlock (hnext : ∀ id frame, (next id frame).Thrifty) :
    (leaveBlock f next id t frame).Thrifty := by
  rw [leaveBlock_eq_follow]
  refine (costless_outcome _).thrifty.bind fun e => ?_
  cases e with
  | goto id' => exact hnext id' frame
  | answer v => exact (costless_pure v).thrifty

theorem run_leaveBlock_congr {m : Machine}
    (h : ∀ id', f.exit id frame t = .ok (.goto id') →
      (next id' frame).run m = (next' id' frame).run m) :
    (leaveBlock f next id t frame).run m = (leaveBlock f next' id t frame).run m := by
  rw [leaveBlock_eq_follow, leaveBlock_eq_follow]
  cases hexit : f.exit id frame t with
  | error s =>
      rw [Step.run_bind_error (run_outcome_error s m), Step.run_bind_error (run_outcome_error s m)]
  | ok e =>
      cases e with
      | goto id' => exact h id' hexit
      | answer v => rfl

/-- A visit of the block `id`; `next` runs the blocks that follow. -/
def visitBlock (p : Program) (call : Caller) (f : Function)
    (next : BlockId → Frame → Exec (Option Value)) (id : BlockId) (frame : Frame) :
    Exec (Option Value) := do
  let block ← Step.ofOption .dangling (f.block? id)
  let frame ← p.runInstrs call block.body frame
  leaveBlock f next id block.terminator frame

theorem runBlocks_succ (p : Program) (call : Caller) (f : Function) (visits : Nat) (id : BlockId)
    (frame : Frame) : p.runBlocks call f (visits + 1) id frame
      = p.visitBlock call f (p.runBlocks call f visits) id frame := by
  rw [runBlocks, visitBlock]
  refine bind_congr fun block => bind_congr fun frame => ?_
  match block.terminator with
  | none | some (.jump _) | some (.branch _ _ _) | some (.ret none) | some (.ret (some _))
  | some (.trap _) => rfl

theorem visitBlock_some {B : BasicBlock} (hB : f.block? id = some B) :
    p.visitBlock call f next id frame
      = p.runInstrs call B.body frame >>= leaveBlock f next id B.terminator := by
  rw [visitBlock, hB]
  exact pure_bind B _

theorem visitBlock_empty {B : BasicBlock} (hB : f.block? id = some B) (hbody : B.body = []) :
    p.visitBlock call f next id frame = leaveBlock f next id B.terminator frame := by
  rw [visitBlock_some hB, hbody]
  exact pure_bind frame _

/-! ## What is left of the budget -/

section Thrift

variable (hcall : ∀ id args, (call id args).Thrifty)

include hcall

theorem thrifty_visitBlock (hnext : ∀ id frame, (next id frame).Thrifty) :
    (p.visitBlock call f next id frame).Thrifty := by
  cases hB : f.block? id with
  | none =>
      rw [visitBlock, hB]
      exact (costless_throw _).thrifty
  | some B =>
      rw [visitBlock_some hB]
      have hbody : (p.runInstrs call B.body frame).Thrifty :=
        ⟨fun h => Nat.le_of_add_right_le (budget_runInstrs hcall h)⟩
      exact hbody.bind fun _ => thrifty_leaveBlock hnext

theorem thrifty_runBlocks (visits : Nat) (id : BlockId) (frame : Frame) :
    (p.runBlocks call f visits id frame).Thrifty := by
  induction visits generalizing id frame with
  | zero => exact (costless_throw _).thrifty
  | succ visits ih =>
      rw [runBlocks_succ]
      exact thrifty_visitBlock hcall ih

theorem thrifty_runBody (f : Function) (args : List Value) : (p.runBody call f args).Thrifty :=
  costless_get.thrifty.bind fun _ => thrifty_runBlocks hcall _ _ _

end Thrift

/-- Calls give nothing back, however deep they nest. -/
theorem thrifty_callWithin (p : Program) (depth : Nat) (id : FuncId) (args : List Value) :
    (p.callWithin depth id args).Thrifty := by
  induction depth generalizing id args with
  | zero => exact (costless_throw _).thrifty
  | succ depth ih =>
      unfold callWithin
      cases p.unit.function? id with
      | none => exact (costless_throw _).thrifty
      | some f =>
          rw [Step.ofOption, pure_bind]
          split
          · exact (costless_throw _).thrifty
          · exact (thrifty_runBody ih f args).inCall

/-! ## The number of visits -/

/-- On a circle no number of visits is enough. -/
theorem run_circle (visits : Nat) (h : TransGen (f.Idle frame) id id) (m : Machine) :
    (p.runBlocks call f visits id frame).run m = .error (.abort .endless) m := by
  induction visits generalizing id with
  | zero => rfl
  | succ visits ih =>
      obtain ⟨b, hidle, hback⟩ := TransGen.head'_iff.mp h
      have hcircle := TransGen.tail' hback hidle
      obtain ⟨B, hB, hbody, hexit⟩ := hidle
      rw [runBlocks_succ, visitBlock_empty hB hbody, leaveBlock_eq_follow, hexit]
      exact ih hcircle

/-- The blocks in `seen` were visited since the last instruction. There is another visit. -/
theorem visits_pos {budget visits : Nat} {seen : List BlockId} (hnodup : seen.Nodup)
    (hseen : ∀ a ∈ seen, TransGen (f.Idle frame) a id)
    (hvisits : visitLimit f budget ≤ visits + seen.length) : 0 < visits := by
  have hfew := Function.length_le_of_idle hnodup hseen
  rw [visitLimit, Nat.succ_mul] at hvisits
  omega

/-- An instruction makes up for the visits since the one before it. -/
theorem visitLimit_le {budget left visits seen : Nat}
    (hvisits : visitLimit f budget ≤ visits + 1 + seen) (hseen : seen ≤ f.blocks.length)
    (hleft : left < budget) : visitLimit f left ≤ visits := by
  have hmul : visitLimit f (left + 1) ≤ visitLimit f budget :=
    Nat.mul_le_mul_right _ (Nat.succ_le_succ hleft)
  rw [visitLimit, Nat.succ_mul] at hmul
  rw [visitLimit]
  omega

/-- Runs `f` from the start of a block on, with as many visits as the budget asks for. -/
def runFrom (p : Program) (call : Caller) (f : Function) (id : BlockId) (frame : Frame) :
    Exec (Option Value) := do
  let m ← get
  p.runBlocks call f (visitLimit f m.budget) id frame

theorem runBody_eq_runFrom (p : Program) (call : Caller) (f : Function) (args : List Value) :
    p.runBody call f args = p.runFrom call f ⟨0⟩ (Frame.start f args) := rfl

section Counting

variable (hcall : ∀ id args, (call id args).Thrifty) {m : Machine}

include hcall

/-- What follows a block with instructions has less of the budget. -/
theorem run_visitBlock_congr
    (hidle : ∀ id', f.Idle frame id id' → (next id' frame).run m = (next' id' frame).run m)
    (hspent : ∀ id' frame' (m' : Machine), m'.budget < m.budget →
      (next id' frame').run m' = (next' id' frame').run m') :
    (p.visitBlock call f next id frame).run m = (p.visitBlock call f next' id frame).run m := by
  cases hB : f.block? id with
  | none =>
      rw [visitBlock, visitBlock, hB]
      rfl
  | some B =>
      cases hbody : B.body with
      | nil =>
          rw [visitBlock_empty hB hbody, visitBlock_empty hB hbody]
          exact run_leaveBlock_congr fun id' hexit => hidle id' ⟨B, hB, hbody, hexit⟩
      | cons i rest =>
          rw [visitBlock_some hB, visitBlock_some hB]
          cases hrun : (p.runInstrs call B.body frame).run m with
          | error s m' => rw [Step.run_bind_error hrun, Step.run_bind_error hrun]
          | ok frame' m' =>
              have hless := budget_runInstrs hcall hrun
              rw [hbody, List.length_cons] at hless
              rw [Step.run_bind_ok hrun, Step.run_bind_ok hrun]
              exact run_leaveBlock_congr fun id' _ => hspent id' frame' m' (by omega)

/-- Numbers of visits that are large enough for the budget all do the same. -/
theorem runBlocks_visits {visits visits' : Nat} {seen : List BlockId} (hnodup : seen.Nodup)
    (hseen : ∀ a ∈ seen, TransGen (f.Idle frame) a id)
    (hvisits : visitLimit f m.budget ≤ visits + seen.length)
    (hvisits' : visitLimit f m.budget ≤ visits' + seen.length) :
    (p.runBlocks call f visits id frame).run m = (p.runBlocks call f visits' id frame).run m := by
  induction visits generalizing visits' seen id frame m with
  | zero => exact absurd (visits_pos hnodup hseen hvisits) (Nat.lt_irrefl 0)
  | succ visits ih =>
      obtain ⟨visits', rfl⟩ :=
        Nat.exists_eq_succ_of_ne_zero (visits_pos hnodup hseen hvisits').ne'
      by_cases hmem : id ∈ seen
      · rw [run_circle _ (hseen id hmem), run_circle _ (hseen id hmem)]
      have hfew := Function.length_le_of_idle hnodup hseen
      rw [runBlocks_succ, runBlocks_succ]
      refine run_visitBlock_congr hcall (fun id' hidle => ?_) fun id' frame' m' hless => ?_
      · -- the block joins those that were visited since the last instruction
        refine ih (List.nodup_cons.mpr ⟨hmem, hnodup⟩) ?_ ?_ ?_
        · intro a ha
          rcases List.mem_cons.mp ha with rfl | ha
          · exact .single hidle
          · exact (hseen a ha).tail hidle
        · rw [List.length_cons]
          omega
        · rw [List.length_cons]
          omega
      · exact ih List.nodup_nil (fun _ h => absurd h List.not_mem_nil)
          (visitLimit_le hvisits hfew hless) (visitLimit_le hvisits' hfew hless)

/-- A run from a block on visits it, and then goes on as a run from the next one on does. -/
theorem runFrom_eq_visitBlock (id : BlockId) (frame : Frame) :
    p.runFrom call f id frame = p.visitBlock call f (p.runFrom call f) id frame := by
  refine EStateM.ext fun m => ?_
  have hlimit : ∃ visits, visitLimit f m.budget = visits + 1 :=
    Nat.exists_eq_succ_of_ne_zero (Nat.mul_pos (Nat.succ_pos _) (Nat.succ_pos _)).ne'
  obtain ⟨visits, hlimit⟩ := hlimit
  change (p.runBlocks call f (visitLimit f m.budget) id frame).run m = _
  rw [hlimit, runBlocks_succ]
  refine run_visitBlock_congr hcall (fun id' hidle => ?_) fun id' frame' m' hless => ?_
  · exact runBlocks_visits hcall (List.nodup_singleton id)
      (fun a ha => List.mem_singleton.mp ha ▸ .single hidle) hlimit.le (Nat.le_add_right _ _)
  · exact runBlocks_visits hcall List.nodup_nil (fun _ h => absurd h List.not_mem_nil)
      (visitLimit_le hlimit.le (Nat.zero_le _) hless) (Nat.le_refl _)

end Counting

end Program

end Ownership
