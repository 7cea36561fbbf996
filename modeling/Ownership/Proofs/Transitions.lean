import Ownership.Proofs.Faults

/-!
# Runs step by step

`Program.next` says what a run does next, one instruction or one transfer
of control at a time. Calls under way are a stack of activations. No
number bounds how far that goes: a run is followed for as long as one
likes (`Program.Steps`). Each instruction costs one step of the budget,
transfers cost nothing (`Steps.budget`).
-/

namespace Ownership

/-! ## Snapshots -/

/-- A call under way. -/
structure Activation where
  function : Function
  block : BlockId
  /-- How many instructions of the block were run. -/
  done : Nat
  frame : Frame
  /-- The stack slots of the caller. -/
  outer : List Address
  /-- The value of the caller that the result is for. -/
  dst : Option ValueId

/-- A run under way: the call that is run, and those that wait for it, the latest first. -/
structure Snapshot where
  machine : Machine
  current : Activation
  callers : List Activation

/-- What a step is. -/
inductive Event where
  | instr
  /-- A jump, a branch or a return. -/
  | transfer
  deriving DecidableEq

inductive Progress where
  | goes (e : Event) (c : Snapshot)
  | ends (r : Outcome (Option Value)) (m : Machine)

/-- A call of `f` at its start. -/
def Activation.start (f : Function) (args : List Value) (outer : List Address)
    (dst : Option ValueId) : Activation :=
  ⟨f, ⟨0⟩, 0, .start f args, outer, dst⟩

/-- The activation with the result of the call that it waited for. -/
def Activation.receive (a : Activation) (dst : Option ValueId) (v : Option Value) : Activation :=
  { a with frame := match dst with
      | some dst => a.frame.define dst (v.getD .unit)
      | none => a.frame }

namespace Snapshot

/-- The functions of the calls under way. -/
def functions (c : Snapshot) : List Function :=
  c.current.function :: c.callers.map Activation.function

/-- The machine `m` after all calls were left. -/
def unwind (c : Snapshot) (m : Machine) : Machine :=
  c.callers.foldl (fun m a => Exec.leave m a.outer) (Exec.leave m c.current.outer)

def stop (c : Snapshot) (s : Stop Fault) : Progress := .ends (.error s) (c.unwind c.machine)

def goto (c : Snapshot) (id : BlockId) : Snapshot :=
  { c with current := { c.current with block := id, done := 0 } }

/-- After an instruction. -/
def advance (c : Snapshot) (frame : Frame) (m : Machine) : Snapshot :=
  { c with machine := m, current := { c.current with done := c.current.done + 1, frame } }

/-- At the start of a call. -/
def enter (c : Snapshot) (f : Function) (args : List Value) (dst : Option ValueId) : Snapshot :=
  ⟨{ c.machine with slots := [] }, .start f args c.machine.slots dst, c.current :: c.callers⟩

/-- A result for the caller, or that of the run. -/
def answer (c : Snapshot) (v : Option Value) : Progress :=
  match c.callers with
  | [] => .ends (.ok v) (Exec.leave c.machine c.current.outer)
  | a :: callers =>
    .goes .transfer ⟨Exec.leave c.machine c.current.outer, a.receive c.current.dst v, callers⟩

/-- At the end of a block. -/
def leave (c : Snapshot) : Outcome Exit → Progress
  | .error s => c.stop s
  | .ok (.goto id) => .goes .transfer (c.goto id)
  | .ok (.answer v) => c.answer v

end Snapshot

namespace Program

/-- The function of an id, if it has a body. -/
def callee (p : Program) (id : FuncId) : Except (Stop Fault) Function :=
  match p.unit.function? id with
  | none => .error (.abort .dangling)
  | some f => if f.isDeclaration then .error (.error (.missingBody f.name)) else .ok f

/-- What an instruction does, with a budget that was paid from. -/
def perform (p : Program) (c : Snapshot) (i : Instr) : Progress :=
  match i.call? with
  | none =>
    match (p.runInstr (fun _ _ => Step.giveUp .dangling) c.current.frame i).run c.machine with
    | .error s m => { c with machine := m }.stop s
    | .ok frame m => .goes .instr (c.advance frame m)
  | some (dst, callee, args) =>
    match args.mapM c.current.frame.eval with
    | .error s => c.stop s
    | .ok vs =>
      match p.callee callee with
      | .error s => c.stop s
      | .ok f => .goes .instr ((c.advance c.current.frame c.machine).enter f vs dst)

/-- What the run does next. -/
def next (p : Program) (c : Snapshot) : Progress :=
  match c.current.function.block? c.current.block with
  | none => c.stop (.abort .dangling)
  | some B =>
    match B.body[c.current.done]? with
    | some i =>
      match c.machine.budget with
      | 0 => c.stop (.error .stepLimit)
      | budget + 1 => p.perform { c with machine := { c.machine with budget } } i
    | none => c.leave (c.current.function.exit c.current.block c.current.frame B.terminator)

/-- The run of a function from its start. -/
def start (p : Program) (name : String) (args : List Value) (m : Machine) :
    Except (Stop Fault) Snapshot :=
  match p.unit.functionNamed? name with
  | none => .error (.error (.unknownFunction name))
  | some id =>
    match p.callee id with
    | .error s => .error s
    | .ok f => .ok ⟨{ m with slots := [] }, .start f args m.slots none, []⟩

/-- The run goes from one snapshot to another, with these events. -/
inductive Steps (p : Program) : Snapshot → List Event → Snapshot → Prop where
  | refl (c : Snapshot) : Steps p c [] c
  | head {c c₁ c₂ : Snapshot} {e : Event} {es : List Event} :
      p.next c = .goes e c₁ → Steps p c₁ es c₂ → Steps p c (e :: es) c₂

variable {p : Program} {c c₁ c₂ : Snapshot} {es es' : List Event}

theorem Steps.trans (h : p.Steps c es c₁) (h' : p.Steps c₁ es' c₂) :
    p.Steps c (es ++ es') c₂ := by
  induction h with
  | refl => exact h'
  | head hnext _ ih => exact .head hnext (ih h')

/-- There is only one way to go on. -/
theorem Steps.eq_append (h : p.Steps c es c₁) (h' : p.Steps c es' c₂)
    (hle : es.length ≤ es'.length) : ∃ rest, es' = es ++ rest ∧ p.Steps c₁ rest c₂ := by
  induction h generalizing es' with
  | refl => exact ⟨es', rfl, h'⟩
  | head hnext _ ih =>
      cases h' with
      | refl => simp at hle
      | head hnext' hrest =>
          rw [hnext] at hnext'
          cases hnext'
          obtain ⟨rest, rfl, hsteps⟩ := ih hrest (Nat.le_of_succ_le_succ hle)
          exact ⟨rest, rfl, hsteps⟩

/-- Nothing comes after the end. -/
theorem Steps.length_le {r : Outcome (Option Value)} {m : Machine} (h : p.Steps c es c₁)
    (hend : p.next c₁ = .ends r m) (h' : p.Steps c es' c₂) : es'.length ≤ es.length := by
  by_contra hlong
  obtain ⟨rest, rfl, hsteps⟩ := h.eq_append h' (by omega)
  cases hsteps with
  | refl => simp at hlong
  | head hnext _ =>
      rw [hend] at hnext
      cases hnext

/-- A run ends in one way. -/
theorem Steps.end_unique {r r' : Outcome (Option Value)} {m m' : Machine} (h : p.Steps c es c₁)
    (hend : p.next c₁ = .ends r m) (h' : p.Steps c es' c₂) (hend' : p.next c₂ = .ends r' m') :
    r' = r ∧ m' = m := by
  obtain ⟨rest, rfl, hsteps⟩ := h.eq_append h' (h'.length_le hend' h)
  cases hsteps with
  | refl =>
      rw [hend] at hend'
      cases hend'
      exact ⟨rfl, rfl⟩
  | head hnext _ =>
      rw [hend] at hnext
      cases hnext

end Program

/-! ## Instructions -/

namespace Outcome

variable {α β : Type} {x : Outcome α}

/-- There is an answer. -/
def Finite (x : Outcome α) : Prop := x ≠ .error (.abort .endless)

theorem Regular.finite (h : Regular x) : Finite x := fun hx => h _ hx trivial

theorem finite_ok (a : α) : Finite (.ok a : Outcome α) := nofun

theorem finite_fail (e : Fault) : Finite (.fail e : Outcome α) := nofun

theorem Finite.bind {f : α → Outcome β} (hx : Finite x) (hf : ∀ a, Finite (f a)) :
    Finite (x >>= f) := by
  cases x with
  | ok a => exact hf a
  | error s => exact fun h => hx (congrArg Except.error (Except.error.inj h))

theorem finite_eval (frame : Frame) (op : Operand) : Finite (frame.eval op) := by
  cases op with
  | const c => exact finite_ok _
  | value id =>
      simp only [Frame.eval]
      split
      · exact finite_ok _
      · exact finite_fail (.undefinedValue id)

theorem finite_evalAddr (frame : Frame) (op : Operand) : Finite (frame.evalAddr op) :=
  (finite_eval frame op).bind fun _ => (regular_ofKind _).finite

theorem finite_mapM_eval (frame : Frame) : ∀ ops : List Operand, Finite (ops.mapM frame.eval)
  | [] => finite_ok _
  | op :: ops => by
      rw [List.mapM_cons]
      exact (finite_eval frame op).bind fun _ => (finite_mapM_eval frame ops).bind fun _ =>
        finite_ok _

theorem finite_exit (f : Function) (id : BlockId) (frame : Frame) (t : Option Terminator) :
    Finite (f.exit id frame t) := by
  match t with
  | none => exact finite_fail _
  | some (.jump _) => exact finite_ok _
  | some (.branch cond _ _) =>
      exact (finite_eval frame cond).bind fun _ => (regular_ofKind _).finite.bind fun _ =>
        finite_ok _
  | some (.ret none) => exact finite_ok _
  | some (.ret (some value)) => exact (finite_eval frame value).bind fun _ => finite_ok _
  | some (.trap _) => exact finite_fail _

end Outcome

namespace Exec

variable {α β : Type} {x : Exec α}

/-- There is an end to the computation. -/
structure Finite (x : Exec α) : Prop where
  error {m m' : Machine} {s : Stop Fault} : x.run m = .error s m' → s ≠ .abort .endless

theorem finite_pure (a : α) : Finite (pure a : Exec α) := ⟨fun h => by cases h⟩

theorem finite_get : Finite (get : Exec Machine) := ⟨fun h => by cases h⟩

theorem finite_throw {s : Stop Fault} (hs : s ≠ .abort .endless) : Finite (throw s : Exec α) :=
  ⟨fun h => (EStateM.Result.error.inj h).1 ▸ hs⟩

theorem Finite.bind {f : α → Exec β} (hx : Finite x) (hf : ∀ a, Finite (f a)) :
    Finite (x >>= f) := by
  refine ⟨fun {m _ _} h => ?_⟩
  cases hrun : x.run m with
  | ok a m₁ =>
      rw [Step.run_bind_ok hrun] at h
      exact (hf a).error h
  | error s' m₁ =>
      rw [Step.run_bind_error hrun] at h
      cases h
      exact hx.error hrun

theorem finite_outcome {y : Outcome α} (hy : y.Finite) : Finite (outcome y) := by
  cases y with
  | ok a => exact finite_pure a
  | error s =>
      have hs : s ≠ .abort .endless := fun h => hy (h ▸ rfl)
      cases s with
      | error e => exact finite_throw hs
      | abort a => exact finite_throw hs

theorem finite_withHeap {f : Heap → Outcome Heap} (hf : ∀ h, (f h).Finite) :
    Finite (withHeap f) := by
  refine ⟨fun {m _ _} h => ?_⟩
  cases hm : f m.heap with
  | ok heap =>
      rw [run_withHeap hm] at h
      cases h
  | error s' =>
      rw [run_withHeap_error hm] at h
      cases h
      exact fun hs => hf m.heap (hs ▸ hm)

theorem finite_malloc (size : UInt64) : Finite (malloc size) := by
  refine ⟨fun {m _ _} h => ?_⟩
  cases hm : m.heap.malloc size.toNat with
  | ok q =>
      rw [run_malloc hm] at h
      cases h
  | error a =>
      rw [run_malloc_error hm] at h
      cases h
      rcases Heap.malloc_error hm with rfl | rfl <;> nofun

theorem finite_free (addr : UInt64) : Finite (free addr) :=
  finite_withHeap fun h hlimit => by
    cases hf : h.free addr.toNat <;> rw [hf] at hlimit <;> cases hlimit

theorem finite_pushSlot (size : Nat) : Finite (pushSlot size) := by
  refine ⟨fun {m _ _} h => ?_⟩
  cases hm : m.heap.pushSlot size with
  | ok q =>
      rw [run_pushSlot hm] at h
      cases h
  | error a =>
      rw [run_pushSlot_error hm] at h
      cases h
      rcases Heap.pushSlot_error hm with rfl | rfl <;> nofun

end Exec

namespace Program

open Outcome Exec

variable {p : Program} {call : Caller} {frame : Frame} {i : Instr}

theorem finite_callExternal (callee : ExternalId) (args : List Value) :
    (p.callExternal callee args).Finite := by
  have hunresolved : (callExternal.unresolved p callee).Finite := by
    unfold callExternal.unresolved
    cases p.unit.external? callee with
    | none => exact finite_throw nofun
    | some e => exact finite_throw nofun
  unfold callExternal
  split
  · split
    · exact (finite_outcome (regular_ofKind _).finite).bind fun _ => (finite_malloc _).bind fun _ =>
        finite_pure _
    · split
      · exact (finite_outcome (regular_ofKind _).finite).bind fun _ => (finite_free _).bind fun _ =>
          finite_pure _
      · exact hunresolved
  · exact hunresolved

/-- An instruction that is not a call. -/
theorem finite_runInstr (hi : i.call? = none) : (p.runInstr call frame i).Finite := by
  cases i with
  | alloca dst ty name =>
      exact (finite_outcome (Layouts.regular_value ty).finite).bind fun _ =>
        (finite_pushSlot _).bind fun _ => finite_pure _
  | load dst ty ptr =>
      exact (finite_outcome (finite_evalAddr frame ptr)).bind fun addr => finite_get.bind fun m =>
        (finite_outcome (Layouts.regular_load m.heap ty addr).finite).bind fun _ => finite_pure _
  | store ty value ptr =>
      exact (finite_outcome (finite_evalAddr frame ptr)).bind fun addr =>
        (finite_outcome (finite_eval frame value)).bind fun v =>
          (finite_withHeap fun h => (Layouts.regular_store h ty addr v).finite).bind fun _ =>
            finite_pure _
  | fieldAddr dst base record field bytes =>
      exact (finite_outcome (finite_evalAddr frame base)).bind fun _ => finite_pure _
  | offset dst base bytes =>
      exact (finite_outcome (finite_evalAddr frame base)).bind fun _ => finite_pure _
  | cast dst ty value =>
      exact (finite_outcome (finite_eval frame value)).bind fun _ => finite_pure _
  | add dst ty lhs rhs =>
      exact (finite_outcome (finite_eval frame lhs)).bind fun a =>
        (finite_outcome (finite_eval frame rhs)).bind fun b =>
          (finite_outcome (regular_add a b).finite).bind fun _ => finite_pure _
  | cmp dst how ty lhs rhs =>
      have hcompare : (Program.compare how frame lhs rhs).Finite :=
        (finite_eval frame lhs).bind fun _ => (regular_ofKind _).finite.bind fun _ =>
          (finite_eval frame rhs).bind fun _ => (regular_ofKind _).finite.bind fun _ => finite_ok _
      exact (finite_outcome hcompare).bind fun _ => finite_pure _
  | callExternal dst callee args =>
      exact (finite_outcome (finite_mapM_eval frame args)).bind fun vs =>
        (finite_callExternal callee vs).bind fun _ => finite_pure _
  | call dst callee args => cases hi

/-- Only calls depend on how functions are called. -/
theorem runInstr_congr {call' : Caller} (hi : i.call? = none) :
    p.runInstr call frame i = p.runInstr call' frame i := by
  cases i with
  | call dst callee args => cases hi
  | alloca | load | store | fieldAddr | offset | cast | add | cmp | callExternal => rfl

/-! ## Single steps -/

variable {c c' : Snapshot} {B : BasicBlock} {e : Event} {es : List Event}

theorem next_dangling (hB : c.current.function.block? c.current.block = none) :
    p.next c = c.stop (.abort .dangling) := by
  simp only [next, hB]

theorem next_stepLimit (hB : c.current.function.block? c.current.block = some B)
    (hi : B.body[c.current.done]? = some i) (hbudget : c.machine.budget = 0) :
    p.next c = c.stop (.error .stepLimit) := by
  simp only [next, hB, hi, hbudget]

theorem next_instr (hB : c.current.function.block? c.current.block = some B)
    (hi : B.body[c.current.done]? = some i) {budget : Nat}
    (hbudget : c.machine.budget = budget + 1) :
    p.next c = p.perform { c with machine := { c.machine with budget } } i := by
  simp only [next, hB, hi, hbudget]

theorem next_exit (hB : c.current.function.block? c.current.block = some B)
    (hi : B.body[c.current.done]? = none) :
    p.next c = c.leave (c.current.function.exit c.current.block c.current.frame B.terminator) := by
  simp only [next, hB, hi]

theorem mem_of_callee {id : FuncId} {f : Function} (h : p.callee id = .ok f) :
    f ∈ p.unit.functions := by
  unfold callee at h
  cases hf : p.unit.function? id with
  | none =>
      simp only [hf] at h
      cases h
  | some f' =>
      simp only [hf] at h
      by_cases hd : f'.isDeclaration
      · rw [if_pos hd] at h
        cases h
      · rw [if_neg hd] at h
        cases h
        exact List.mem_of_getElem? hf

/-- An instruction leaves the budget as it is, and may start a call of a function of the unit. -/
theorem perform_goes (h : p.perform c i = .goes e c') :
    e = .instr ∧ c'.machine.budget = c.machine.budget
      ∧ c'.functions ⊆ c.functions ++ p.unit.functions := by
  have hsame := List.subset_append_left c.functions p.unit.functions
  unfold perform at h
  cases hi : i.call? with
  | none =>
      rw [hi] at h
      cases hrun :
          (p.runInstr (fun _ _ => Step.giveUp .dangling) c.current.frame i).run c.machine with
      | ok frame m =>
          simp only [hrun] at h
          cases h
          exact ⟨rfl, (costless_runInstr hi).budget hrun, hsame⟩
      | error s m =>
          simp only [hrun] at h
          cases h
  | some q =>
      obtain ⟨dst, callee, args⟩ := q
      simp only [hi] at h
      cases hargs : args.mapM c.current.frame.eval with
      | error s =>
          simp only [hargs] at h
          cases h
      | ok vs =>
          simp only [hargs] at h
          cases hf : p.callee callee with
          | error s =>
              simp only [hf] at h
              cases h
          | ok f =>
              simp only [hf] at h
              cases h
              exact ⟨rfl, rfl, List.cons_subset.mpr
                ⟨List.mem_append_right _ (mem_of_callee hf), hsame⟩⟩

theorem answer_goes {v : Option Value} (h : c.answer v = .goes e c') :
    e = .transfer ∧ c'.machine.budget = c.machine.budget ∧ c'.functions ⊆ c.functions := by
  unfold Snapshot.answer at h
  cases hcallers : c.callers with
  | nil =>
      simp only [hcallers] at h
      cases h
  | cons a callers =>
      simp only [hcallers] at h
      cases h
      refine ⟨rfl, rfl, ?_⟩
      rw [Snapshot.functions, Snapshot.functions, hcallers]
      exact List.subset_cons_self ..

/-- What a step does to the budget and to the calls under way. -/
theorem next_goes (h : p.next c = .goes e c') :
    c'.machine.budget + [e].count .instr = c.machine.budget
      ∧ c'.functions ⊆ c.functions ++ p.unit.functions := by
  have hsame := List.subset_append_left c.functions p.unit.functions
  cases hB : c.current.function.block? c.current.block with
  | none =>
      rw [next_dangling hB] at h
      cases h
  | some B =>
      cases hi : B.body[c.current.done]? with
      | some i =>
          cases hbudget : c.machine.budget with
          | zero =>
              rw [next_stepLimit hB hi hbudget] at h
              cases h
          | succ budget =>
              rw [next_instr hB hi hbudget] at h
              obtain ⟨rfl, hm, hfunctions⟩ := perform_goes h
              exact ⟨congrArg Nat.succ hm, hfunctions⟩
      | none =>
          rw [next_exit hB hi] at h
          cases hx : c.current.function.exit c.current.block c.current.frame B.terminator with
          | error s =>
              rw [hx] at h
              cases h
          | ok x =>
              rw [hx] at h
              cases x with
              | goto id =>
                  cases h
                  exact ⟨rfl, hsame⟩
              | answer v =>
                  obtain ⟨rfl, hm, hfunctions⟩ := answer_goes h
                  exact ⟨hm, List.Subset.trans hfunctions hsame⟩

/-- The budget pays for the instructions. -/
theorem Steps.budget (h : p.Steps c es c') :
    c'.machine.budget + es.count .instr = c.machine.budget := by
  induction h with
  | refl => rfl
  | @head _ _ _ e es hnext _ ih =>
      obtain ⟨hone, -⟩ := next_goes hnext
      have hcount : (e :: es).count .instr = es.count .instr + [e].count .instr := by
        simp only [List.count_cons, List.count_nil, Nat.zero_add]
      omega

/-- Only functions of the unit are called. -/
theorem Steps.functions (h : p.Steps c es c') (hc : c.functions ⊆ p.unit.functions) :
    c'.functions ⊆ p.unit.functions := by
  induction h with
  | refl => exact hc
  | head hnext _ ih =>
      obtain ⟨-, hfunctions⟩ := next_goes hnext
      exact ih (List.Subset.trans hfunctions (List.append_subset.mpr ⟨hc, List.Subset.refl _⟩))

end Program

end Ownership
