import Ownership.Proofs.Guards
import Ownership.Proofs.Transitions

/-!
# Runs that end

The budget bounds the instructions of a run, and not its jumps and
branches: blocks without instructions cost nothing. A run that comes to a
circle of such blocks goes around it for ever (`Snapshot.Circles.steps`),
with nothing to stop it. That is the only way in which a run does not
end (`executor_stops`).

`Program.run` counts the blocks that it visits, and gives up where no run
that ends would still be on its way. It is shown to do what the single
steps do (`Program.Realizes`), and to give up only on a circle: as long as
the budget stays the same the blocks that are visited are empty and the
frame does not change, so one more of them than the function has means
that a block was visited twice (`Program.realizes_blocks`).
-/

namespace Ownership

open Relation

/-! ## Circles of empty blocks -/

namespace Function

variable {f : Function} {frame : Frame} {a b : BlockId}

/-- The block `a` is empty, and its terminator names `b`. -/
def Passes (f : Function) (a b : BlockId) : Prop :=
  ∃ B t, f.block? a = some B ∧ B.body = [] ∧ B.terminator = some t ∧ b ∈ t.successors

theorem mem_successors_of_exit {t : Option Terminator} (h : f.exit a frame t = .ok (.goto b)) :
    ∃ t', t = some t' ∧ b ∈ t'.successors := by
  match t with
  | none => cases h
  | some (.jump target) =>
      cases h
      exact ⟨_, rfl, List.mem_singleton.mpr rfl⟩
  | some (.branch cond thenBlock elseBlock) =>
      obtain ⟨v, -, h⟩ := Outcome.bind_ok h
      obtain ⟨taken, -, h⟩ := Outcome.bind_ok h
      refine ⟨_, rfl, ?_⟩
      cases h
      cases taken <;> simp [Terminator.successors]
  | some (.ret none) => cases h
  | some (.ret (some value)) =>
      obtain ⟨v, -, h⟩ := Outcome.bind_ok h
      cases h
  | some (.trap cause) => cases h

theorem Idle.passes (h : f.Idle frame a b) : f.Passes a b := by
  obtain ⟨B, hB, hbody, hexit⟩ := h
  obtain ⟨t, ht, hb⟩ := mem_successors_of_exit hexit
  exact ⟨B, t, hB, hbody, ht, hb⟩

end Function

namespace Snapshot

variable {c c' : Snapshot}

/-- Control goes around a circle of empty blocks. -/
def Circles (c : Snapshot) : Prop :=
  c.current.done = 0
    ∧ TransGen (c.current.function.Idle c.current.frame) c.current.block c.current.block

theorem Circles.next (h : c.Circles) (p : Program) :
    ∃ c', p.next c = .goes .transfer c' ∧ c'.Circles := by
  obtain ⟨hdone, hcircle⟩ := h
  obtain ⟨b, hidle, hback⟩ := TransGen.head'_iff.mp hcircle
  refine ⟨c.goto b, ?_, rfl, TransGen.tail' hback hidle⟩
  obtain ⟨B, hB, hbody, hexit⟩ := hidle
  rw [Program.next_exit hB (by rw [hdone, hbody]; rfl), hexit]
  rfl

/-- On a circle there is always another transfer. -/
theorem Circles.steps (p : Program) (n : Nat) (h : c.Circles) :
    ∃ c', p.Steps c (List.replicate n .transfer) c' ∧ c'.Circles := by
  induction n generalizing c with
  | zero => exact ⟨c, .refl c, h⟩
  | succ n ih =>
      obtain ⟨c₁, hnext, h₁⟩ := h.next p
      obtain ⟨c₂, hsteps, h₂⟩ := ih h₁
      exact ⟨c₂, .head hnext hsteps, h₂⟩

/-- Both are in the same call. -/
structure SameCall (c c' : Snapshot) : Prop where
  outer : c'.current.outer = c.current.outer
  dst : c'.current.dst = c.current.dst
  callers : c'.callers = c.callers

theorem SameCall.trans {c₂ : Snapshot} (h : c.SameCall c') (h' : c'.SameCall c₂) :
    c.SameCall c₂ :=
  ⟨h'.outer.trans h.outer, h'.dst.trans h.dst, h'.callers.trans h.callers⟩

end Snapshot

namespace Program

variable {p : Program} {call : Caller} {c c₁ : Snapshot} {α β : Type}

/-! ## Runs and single steps -/

/-- The single steps from `c` on do what `x` does: they come to where it
returns, end where it fails, and go around a circle where it gives up. -/
structure Realizes (p : Program) (c : Snapshot) (x : Exec α) (K : α → Snapshot → Prop) : Prop where
  ok : ∀ {a m}, x.run c.machine = .ok a m → ∃ es c', p.Steps c es c' ∧ c'.machine = m ∧ K a c'
  error : ∀ {s m}, x.run c.machine = .error s m → s ≠ .abort .endless →
    ∃ es c', p.Steps c es c' ∧ p.next c' = .ends (.error s) (c.unwind m)
  endless : ∀ {m}, x.run c.machine = .error (.abort .endless) m →
    ∃ es c', p.Steps c es c' ∧ c'.Circles

variable {x : Exec α} {K : α → Snapshot → Prop}

theorem realizes_return {a : α} (hrun : x.run c.machine = .ok a c.machine) (hK : K a c) :
    p.Realizes c x K where
  ok := fun h => by
    rw [hrun] at h
    cases h
    exact ⟨[], c, .refl c, rfl, hK⟩
  error := fun h _ => by
    rw [hrun] at h
    cases h
  endless := fun h => by
    rw [hrun] at h
    cases h

theorem realizes_stop {s : Stop Fault} {m : Machine} (hrun : x.run c.machine = .error s m)
    (hs : s ≠ .abort .endless) (hnext : p.next c = .ends (.error s) (c.unwind m)) :
    p.Realizes c x K where
  ok := fun h => by
    rw [hrun] at h
    cases h
  error := fun h _ => by
    rw [hrun] at h
    cases h
    exact ⟨[], c, .refl c, hnext⟩
  endless := fun h => by
    rw [hrun] at h
    exact absurd (EStateM.Result.error.inj h).1 hs

theorem realizes_circle {m : Machine} (hrun : x.run c.machine = .error (.abort .endless) m)
    (hcircle : c.Circles) : p.Realizes c x K where
  ok := fun h => by
    rw [hrun] at h
    cases h
  error := fun h hs => by
    rw [hrun] at h
    exact absurd (EStateM.Result.error.inj h).1.symm hs
  endless := fun _ => ⟨[], c, .refl c, hcircle⟩

theorem Realizes.mono {K' : α → Snapshot → Prop} (h : p.Realizes c x K)
    (hK : ∀ a c', K a c' → K' a c') : p.Realizes c x K' where
  ok := fun hx => by
    obtain ⟨es, c', hsteps, hm, hc'⟩ := h.ok hx
    exact ⟨es, c', hsteps, hm, hK _ _ hc'⟩
  error := h.error
  endless := h.endless

theorem Realizes.congr {y : Exec α} (h : p.Realizes c y K)
    (hrun : x.run c.machine = y.run c.machine) : p.Realizes c x K where
  ok := fun hx => h.ok (hrun ▸ hx)
  error := fun hx => h.error (hrun ▸ hx)
  endless := fun hx => h.endless (hrun ▸ hx)

/-- A first step that `x` does not see. -/
theorem Realizes.head {y : Exec α} {e : Event} (h : p.Realizes c₁ y K)
    (hnext : p.next c = .goes e c₁) (hrun : x.run c.machine = y.run c₁.machine)
    (hunwind : ∀ m, c₁.unwind m = c.unwind m) : p.Realizes c x K where
  ok := fun hx => by
    obtain ⟨es, c', hsteps, hm, hc'⟩ := h.ok (hrun ▸ hx)
    exact ⟨e :: es, c', .head hnext hsteps, hm, hc'⟩
  error := fun {s m} hx hs => by
    obtain ⟨es, c', hsteps, hend⟩ := h.error (hrun ▸ hx) hs
    exact ⟨e :: es, c', .head hnext hsteps, hunwind m ▸ hend⟩
  endless := fun hx => by
    obtain ⟨es, c', hsteps, hcircle⟩ := h.endless (hrun ▸ hx)
    exact ⟨e :: es, c', .head hnext hsteps, hcircle⟩

theorem Realizes.bind {f : α → Exec β} {K' : β → Snapshot → Prop} (hx : p.Realizes c x K)
    (hunwind : ∀ {a c'} m, K a c' → c'.unwind m = c.unwind m)
    (hf : ∀ a c', K a c' → p.Realizes c' (f a) K') : p.Realizes c (x >>= f) K' where
  ok := fun {b m} h => by
    obtain ⟨a, m₁, h₁, h₂⟩ := Step.bind_ok h
    obtain ⟨es, c', hsteps, rfl, hK⟩ := hx.ok h₁
    obtain ⟨es', c'', hsteps', hm, hK'⟩ := (hf a c' hK).ok h₂
    exact ⟨es ++ es', c'', hsteps.trans hsteps', hm, hK'⟩
  error := fun {s m} h hs => by
    cases hrun : x.run c.machine with
    | ok a m₁ =>
        rw [Step.run_bind_ok hrun] at h
        obtain ⟨es, c', hsteps, rfl, hK⟩ := hx.ok hrun
        obtain ⟨es', c'', hsteps', hend⟩ := (hf a c' hK).error h hs
        exact ⟨es ++ es', c'', hsteps.trans hsteps', hunwind m hK ▸ hend⟩
    | error s' m₁ =>
        rw [Step.run_bind_error hrun] at h
        cases h
        exact hx.error hrun hs
  endless := fun {m} h => by
    cases hrun : x.run c.machine with
    | ok a m₁ =>
        rw [Step.run_bind_ok hrun] at h
        obtain ⟨es, c', hsteps, rfl, hK⟩ := hx.ok hrun
        obtain ⟨es', c'', hsteps', hcircle⟩ := (hf a c' hK).endless h
        exact ⟨es ++ es', c'', hsteps.trans hsteps', hcircle⟩
    | error s' m₁ =>
        rw [Step.run_bind_error hrun] at h
        cases h
        exact hx.endless hrun

/-- The steps of a body come to where the same call answers. -/
def RealizesBody (p : Program) (c : Snapshot) (x : Exec (Option Value)) : Prop :=
  p.Realizes c x fun v c' => c.SameCall c' ∧ p.next c' = c'.answer v

theorem RealizesBody.within {x : Exec (Option Value)} (h : p.RealizesBody c₁ x)
    (hsame : c.SameCall c₁) :
    p.Realizes c₁ x fun v c' => c.SameCall c' ∧ p.next c' = c'.answer v :=
  Realizes.mono h fun _ _ h => ⟨hsame.trans h.1, h.2⟩

/-- Calls with a budget below `n` do what the steps of the callee do. -/
def RealizesCalls (p : Program) (call : Caller) (n : Nat) : Prop :=
  ∀ (c : Snapshot) (id : FuncId) (args : List Value) (dst : Option ValueId), c.machine.budget < n →
    (∀ s, p.callee id = .error s → (call id args).run c.machine = .error s c.machine)
    ∧ ∀ f, p.callee id = .ok f →
      ∃ x, call id args = Exec.inCall x ∧ p.RealizesBody (c.enter f args dst) x

theorem callee_error {id : FuncId} {s : Stop Fault} (h : p.callee id = .error s) :
    s ≠ .abort .endless := by
  rintro rfl
  unfold callee at h
  cases hf : p.unit.function? id with
  | none =>
      simp only [hf] at h
      cases h
  | some f =>
      simp only [hf] at h
      by_cases hd : f.isDeclaration
      · rw [if_pos hd] at h
        cases h
      · rw [if_neg hd] at h
        cases h

/-! ## Instructions -/

variable {n : Nat} {B : BasicBlock} {i : Instr} {m : Machine}

theorem eq_call_of_call? {dst : Option ValueId} {id : FuncId} {args : List Operand}
    (h : i.call? = some (dst, id, args)) : i = .call dst id args := by
  cases i with
  | call dst id args =>
      cases h
      rfl
  | alloca | load | store | fieldAddr | offset | cast | add | cmp | callExternal => cases h

/-- The run is an instruction further, and has no more than a budget of `n` left. -/
def Advanced (c : Snapshot) (n : Nat) (frame : Frame) (c' : Snapshot) : Prop :=
  c' = c.advance frame c'.machine ∧ c'.machine.budget ≤ n

theorem realizes_plain {x : Exec Frame} (hi : i.call? = none)
    (hnext : p.next c = p.perform { c with machine := m } i)
    (hrun : x.run c.machine = (p.runInstr call c.current.frame i).run m) :
    p.Realizes c x (Advanced c m.budget) := by
  rw [runInstr_congr hi] at hrun
  simp only [perform, hi] at hnext
  cases hinstr : (p.runInstr (fun _ _ => Step.giveUp .dangling) c.current.frame i).run m with
  | ok frame m' =>
      rw [hinstr] at hrun
      simp only [hinstr] at hnext
      have hdone : p.Realizes (c.advance frame m') (pure frame) (Advanced c m.budget) :=
        realizes_return rfl ⟨rfl, ((costless_runInstr hi).budget hinstr).le⟩
      exact hdone.head hnext hrun fun _ => rfl
  | error s m' =>
      rw [hinstr] at hrun
      simp only [hinstr] at hnext
      exact realizes_stop hrun ((finite_runInstr hi).error hinstr) hnext

theorem answer_cons {a : Activation} {callers : List Activation} (h : c.callers = a :: callers)
    (v : Option Value) : c.answer v
      = .goes .transfer
        ⟨Exec.leave c.machine c.current.outer, a.receive c.current.dst v, callers⟩ := by
  simp only [Snapshot.answer, h]

/-- A call: its body is run with a stack of its own, and the caller gets the answer. -/
theorem realizes_entered {x : Exec Frame} {y : Exec (Option Value)} {f : Function}
    {args : List Value} {dst : Option ValueId} (hbody : p.RealizesBody (c₁.enter f args dst) y)
    (hnext : p.next c = .goes .instr (c₁.enter f args dst))
    (hunwind : ∀ m, c₁.unwind m = c.unwind m)
    (hrun : x.run c.machine
      = (Exec.inCall y >>= fun v => pure (c₁.current.receive dst v).frame).run c₁.machine) :
    p.Realizes c x fun frame c' =>
      c' = ⟨c'.machine, { c₁.current with frame }, c₁.callers⟩
        ∧ c'.machine.budget ≤ c₁.machine.budget := by
  cases hy : y.run { c₁.machine with slots := [] } with
  | ok v m' =>
      rw [Step.run_bind_ok (Exec.run_inCall_ok hy)] at hrun
      obtain ⟨es, c', hsteps, rfl, hsame, hanswer⟩ := hbody.ok hy
      rw [answer_cons hsame.callers, hsame.outer, hsame.dst] at hanswer
      have hspent := hsteps.budget
      have hsteps' := (Steps.head hnext hsteps).trans (.head hanswer (.refl _))
      constructor
      · intro frame m hx
        obtain ⟨rfl, rfl⟩ := EStateM.Result.ok.inj (hrun.symm.trans hx)
        exact ⟨_, _, hsteps', rfl, rfl, Nat.le_of_add_right_le hspent.le⟩
      · intro s m hx
        cases hrun.symm.trans hx
      · intro m hx
        cases hrun.symm.trans hx
  | error s m' =>
      rw [Step.run_bind_error (Exec.run_inCall_error hy)] at hrun
      constructor
      · intro frame m hx
        cases hrun.symm.trans hx
      · intro s' m hx hs
        obtain ⟨rfl, rfl⟩ := EStateM.Result.error.inj (hrun.symm.trans hx)
        obtain ⟨es, c', hsteps, hend⟩ := hbody.error hy hs
        exact ⟨_, c', .head hnext hsteps, hend.trans (congrArg _ (hunwind _))⟩
      · intro m hx
        obtain ⟨rfl, rfl⟩ := EStateM.Result.error.inj (hrun.symm.trans hx)
        obtain ⟨es, c', hsteps, hcircle⟩ := hbody.endless hy
        exact ⟨_, c', .head hnext hsteps, hcircle⟩

theorem realizes_call {x : Exec Frame} {dst : Option ValueId} {id : FuncId} {args : List Operand}
    (hcalls : p.RealizesCalls call n) (hm : m.budget < n)
    (hnext : p.next c = p.perform { c with machine := m } (.call dst id args))
    (hrun : x.run c.machine = (p.runInstr call c.current.frame (.call dst id args)).run m) :
    p.Realizes c x (Advanced c m.budget) := by
  simp only [perform, Instr.call?] at hnext
  rw [runInstr] at hrun
  cases hargs : args.mapM c.current.frame.eval with
  | error s =>
      simp only [hargs] at hnext hrun
      rw [Step.run_bind_error (Exec.run_outcome_error s m)] at hrun
      have hs : s ≠ .abort .endless := fun h =>
        Outcome.finite_mapM_eval c.current.frame args (h ▸ hargs)
      exact realizes_stop hrun hs hnext
  | ok vs =>
      simp only [hargs] at hnext hrun
      change x.run c.machine = (call id vs >>= _).run m at hrun
      let c₁ : Snapshot := c.advance c.current.frame m
      obtain ⟨hmissing, hbody⟩ := hcalls c₁ id vs dst hm
      cases hf : p.callee id with
      | error s =>
          simp only [hf] at hnext
          exact realizes_stop (hrun.trans (Step.run_bind_error (hmissing s hf))) (callee_error hf)
            hnext
      | ok f =>
          simp only [hf] at hnext
          obtain ⟨y, hcall, hy⟩ := hbody f hf
          refine realizes_entered hy hnext (fun _ => rfl) (hrun.trans ?_)
          rw [← hcall]
          rfl

/-- An instruction takes a step from the budget. -/
theorem realizes_instr (hcalls : p.RealizesCalls call n) (hn : c.machine.budget ≤ n)
    (hB : c.current.function.block? c.current.block = some B)
    (hi : B.body[c.current.done]? = some i) :
    p.Realizes c (Exec.tick >>= fun _ => p.runInstr call c.current.frame i) fun frame c' =>
      c' = c.advance frame c'.machine ∧ c'.machine.budget < c.machine.budget := by
  cases hbudget : c.machine.budget with
  | zero =>
      exact realizes_stop (Step.run_bind_error (Exec.run_tick_zero hbudget)) (fun h => by cases h)
        (next_stepLimit hB hi hbudget)
  | succ budget =>
      have hnext := next_instr (p := p) hB hi hbudget
      have hrun := Exec.run_after_tick (x := p.runInstr call c.current.frame i) hbudget
      have hadvanced : p.Realizes c (Exec.tick >>= fun _ => p.runInstr call c.current.frame i)
          (Advanced c budget) := by
        cases hcall : i.call? with
        | none => exact realizes_plain hcall hnext hrun
        | some q =>
            obtain ⟨dst, id, args⟩ := q
            obtain rfl := eq_call_of_call? hcall
            exact realizes_call hcalls (show budget < n by omega) hnext hrun
      exact hadvanced.mono fun frame c' h => ⟨h.1, Nat.lt_succ_of_le h.2⟩

/-- The instructions of a block take a step each. -/
theorem realizes_instrs (hcalls : p.RealizesCalls call n) (rest : List Instr)
    (hn : c.machine.budget ≤ n) (hB : c.current.function.block? c.current.block = some B)
    (hrest : B.body.drop c.current.done = rest) :
    p.Realizes c (p.runInstrs call rest c.current.frame) fun frame c' =>
      (∃ done, B.body[done]? = none
        ∧ c' = ⟨c'.machine, { c.current with done, frame }, c.callers⟩)
      ∧ c'.machine.budget + rest.length ≤ c.machine.budget := by
  induction rest generalizing c with
  | nil =>
      have hdone : B.body[c.current.done]? = none :=
        List.getElem?_eq_none (List.drop_eq_nil_iff.mp hrest)
      exact realizes_return rfl ⟨⟨c.current.done, hdone, rfl⟩, Nat.le_refl _⟩
  | cons i rest ih =>
      have hi : B.body[c.current.done]? = some i := by
        rw [← Nat.add_zero c.current.done, ← List.getElem?_drop, hrest]
        rfl
      have hrest' : B.body.drop (c.current.done + 1) = rest := by
        rw [← List.tail_drop, hrest]
        rfl
      rw [runInstrs, ← bind_assoc]
      refine (realizes_instr hcalls hn hB hi).bind (fun m h => h.1 ▸ rfl) ?_
      rintro frame c' ⟨hc', hspent⟩
      rw [hc'] at hspent ⊢
      refine (ih (c := c.advance frame c'.machine) (hspent.le.trans hn) hB hrest').mono ?_
      rintro frame' c'' ⟨hend, hleft⟩
      refine ⟨hend, ?_⟩
      rw [List.length_cons]
      omega

/-! ## Blocks -/

/-- At the end of a block control goes on or the call answers. -/
theorem realizes_exit {next : BlockId → Frame → Exec (Option Value)}
    (hB : c.current.function.block? c.current.block = some B)
    (hdone : B.body[c.current.done]? = none)
    (hgoto : ∀ id, c.current.function.exit c.current.block c.current.frame B.terminator
        = .ok (.goto id) → p.RealizesBody (c.goto id) (next id c.current.frame)) :
    p.RealizesBody c
      (leaveBlock c.current.function next c.current.block B.terminator c.current.frame) := by
  have hnext := next_exit (p := p) hB hdone
  rw [leaveBlock_eq_follow]
  cases hexit : c.current.function.exit c.current.block c.current.frame B.terminator with
  | error s =>
      rw [hexit] at hnext
      have hs : s ≠ .abort .endless := fun h =>
        Outcome.finite_exit c.current.function c.current.block c.current.frame B.terminator
          (h ▸ hexit)
      exact realizes_stop (Step.run_bind_error (Exec.run_outcome_error s _)) hs hnext
  | ok e =>
      rw [hexit] at hnext
      cases e with
      | goto id =>
          have hlater := (hgoto id hexit).within (c := c) ⟨rfl, rfl, rfl⟩
          exact hlater.head hnext rfl fun _ => rfl
      | answer v => exact realizes_return rfl ⟨⟨rfl, rfl, rfl⟩, hnext⟩

/-- What follows the instructions of a block has less of the budget. -/
theorem realizes_block {next : BlockId → Frame → Exec (Option Value)}
    (hcalls : p.RealizesCalls call n) (hn : c.machine.budget ≤ n) (hdone : c.current.done = 0)
    (hB : c.current.function.block? c.current.block = some B)
    (hlater : ∀ (m : Machine) (frame : Frame) (id : BlockId),
      m.budget + B.body.length ≤ c.machine.budget →
      p.RealizesBody ⟨m, { c.current with block := id, done := 0, frame }, c.callers⟩
        (next id frame)) :
    p.RealizesBody c (p.runInstrs call B.body c.current.frame >>=
      leaveBlock c.current.function next c.current.block B.terminator) := by
  have hinstrs := realizes_instrs hcalls B.body hn hB (by rw [hdone]; rfl)
  refine hinstrs.bind (fun m h => ?_) ?_
  · obtain ⟨⟨done, -, hc'⟩, -⟩ := h
    rw [hc']
    rfl
  · rintro frame c' ⟨⟨done, hend, hc'⟩, hspent⟩
    rw [hc']
    let c₂ : Snapshot := ⟨c'.machine, { c.current with done, frame }, c.callers⟩
    have hexit : p.RealizesBody c₂ _ :=
      realizes_exit (c := c₂) hB hend fun id _ => hlater c'.machine frame id hspent
    exact hexit.within ⟨rfl, rfl, rfl⟩

/-- The blocks in `seen` were visited since the last instruction. With those
that are still allowed they are as many as can be visited with the budget
that is left, so the count only runs out on a circle. -/
theorem realizes_blocks (hcalls : p.RealizesCalls call n) (visits : Nat) {seen : List BlockId}
    (hdone : c.current.done = 0) (hn : c.machine.budget ≤ n) (hnodup : seen.Nodup)
    (hseen : ∀ a ∈ seen, TransGen (c.current.function.Idle c.current.frame) a c.current.block)
    (hvisits : visitLimit c.current.function c.machine.budget ≤ visits + seen.length) :
    p.RealizesBody c
      (p.runBlocks call c.current.function visits c.current.block c.current.frame) := by
  induction visits generalizing c seen with
  | zero => exact absurd (visits_pos hnodup hseen hvisits) (Nat.lt_irrefl 0)
  | succ visits ih =>
      by_cases hmem : c.current.block ∈ seen
      · exact realizes_circle (run_circle _ (hseen _ hmem) _) ⟨hdone, hseen _ hmem⟩
      rw [runBlocks_succ]
      cases hB : c.current.function.block? c.current.block with
      | none =>
          rw [visitBlock, hB]
          exact realizes_stop rfl (fun h => by cases h) (next_dangling hB)
      | some B =>
          cases hbody : B.body with
          | nil =>
              -- the block joins those that were visited since the last instruction
              rw [visitBlock_empty hB hbody]
              refine realizes_exit hB (by rw [hdone, hbody]; rfl) fun id hexit => ?_
              have hidle : c.current.function.Idle c.current.frame c.current.block id :=
                ⟨B, hB, hbody, hexit⟩
              have hnodup' : (c.current.block :: seen).Nodup :=
                List.nodup_cons.mpr ⟨hmem, hnodup⟩
              refine ih (c := c.goto id) rfl hn hnodup' ?_ ?_
              · intro a ha
                rcases List.mem_cons.mp ha with rfl | ha
                · exact .single hidle
                · exact (hseen a ha).tail hidle
              · rw [List.length_cons, ← Nat.add_assoc, Nat.add_right_comm]
                exact hvisits
          | cons i rest =>
              -- the budget drops, and the visits are counted anew
              rw [visitBlock_some hB]
              refine realizes_block hcalls hn hdone hB fun m frame id hspent => ?_
              rw [hbody, List.length_cons] at hspent
              have hless : m.budget < c.machine.budget := by omega
              have hleft :=
                visitLimit_le hvisits (Function.length_le_of_idle hnodup hseen) hless
              exact ih (c := ⟨m, { c.current with block := id, done := 0, frame }, c.callers⟩) rfl
                (hless.le.trans hn) List.nodup_nil (fun _ h => absurd h List.not_mem_nil) hleft

/-! ## Calls -/

theorem callWithin_succ (p : Program) (depth : Nat) (id : FuncId) (args : List Value) :
    p.callWithin (depth + 1) id args
      = Exec.outcome (p.callee id) >>= fun f =>
        Exec.inCall (p.runBody (p.callWithin depth) f args) := by
  rw [callWithin, callee]
  cases p.unit.function? id with
  | none => rfl
  | some f =>
      simp only [Step.ofOption, pure_bind]
      by_cases hd : f.isDeclaration
      · rw [if_pos hd, if_pos hd]
        rfl
      · rw [if_neg hd, if_neg hd]
        rfl

theorem run_callWithin_error {id : FuncId} {s : Stop Fault} (h : p.callee id = .error s)
    (depth : Nat) (args : List Value) (m : Machine) :
    (p.callWithin (depth + 1) id args).run m = .error s m := by
  rw [callWithin_succ, h]
  exact Step.run_bind_error (Exec.run_outcome_error s m)

theorem callWithin_ok {id : FuncId} {f : Function} (h : p.callee id = .ok f) (depth : Nat)
    (args : List Value) :
    p.callWithin (depth + 1) id args = Exec.inCall (p.runBody (p.callWithin depth) f args) := by
  rw [callWithin_succ, h]
  exact pure_bind f _

theorem realizes_runBody (hcalls : p.RealizesCalls call n) {f : Function} {args : List Value}
    {outer : List Address} {dst : Option ValueId} (hstart : c.current = .start f args outer dst)
    (hn : c.machine.budget ≤ n) : p.RealizesBody c (p.runBody call f args) := by
  obtain ⟨m, current, callers⟩ := c
  cases hstart
  have hblocks := realizes_blocks (c := ⟨m, .start f args outer dst, callers⟩) hcalls
    (visitLimit f m.budget) rfl hn List.nodup_nil (fun _ h => absurd h List.not_mem_nil)
    (Nat.le_refl _)
  exact hblocks.congr rfl

/-- Calls nest no deeper than the budget. -/
theorem realizesCalls (p : Program) (depth : Nat) : p.RealizesCalls (p.callWithin depth) depth := by
  induction depth with
  | zero => exact fun c id args dst h => absurd h (Nat.not_lt_zero _)
  | succ depth ih =>
      intro c id args dst hbudget
      refine ⟨fun s h => run_callWithin_error h depth args c.machine, fun f hf => ?_⟩
      exact ⟨_, callWithin_ok hf depth args, realizes_runBody ih rfl (Nat.le_of_lt_succ hbudget)⟩

theorem run_call (p : Program) (id : FuncId) (args : List Value) (m : Machine) :
    (p.call id args).run m = (p.callWithin (m.budget + 1) id args).run m :=
  Step.run_bind_ok (x := get) rfl

/-! ## Whole runs -/

variable {name : String} {args : List Value} {es : List Event} {r : Outcome (Option Value)}
  {m' : Machine}

/-- A run of the function gets to `c`, with these events. -/
def Reaches (p : Program) (name : String) (args : List Value) (m : Machine) (es : List Event)
    (c : Snapshot) : Prop :=
  ∃ c₀, p.start name args m = .ok c₀ ∧ p.Steps c₀ es c

theorem start_error {s : Stop Fault} (h : p.start name args m = .error s) :
    (p.run name args).run m = .error s m ∧ s ≠ .abort .endless := by
  unfold start at h
  cases hid : p.unit.functionNamed? name with
  | none =>
      simp only [hid] at h
      cases h
      simp only [run, hid]
      exact ⟨rfl, fun h => by cases h⟩
  | some id =>
      simp only [hid] at h
      cases hf : p.callee id with
      | error s' =>
          simp only [hf] at h
          cases h
          simp only [run, hid, run_call]
          exact ⟨run_callWithin_error hf m.budget args m, callee_error hf⟩
      | ok f =>
          simp only [hf] at h
          cases h

theorem start_ok (h : p.start name args m = .ok c) :
    ∃ f x, f ∈ p.unit.functions ∧ c = ⟨{ m with slots := [] }, .start f args m.slots none, []⟩
      ∧ (p.run name args).run m = (Exec.inCall x).run m ∧ p.RealizesBody c x := by
  unfold start at h
  cases hid : p.unit.functionNamed? name with
  | none =>
      simp only [hid] at h
      cases h
  | some id =>
      simp only [hid] at h
      cases hf : p.callee id with
      | error s =>
          simp only [hf] at h
          cases h
      | ok f =>
          simp only [hf] at h
          cases h
          simp only [run, hid, run_call, callWithin_ok hf]
          have hbody : p.RealizesBody ⟨{ m with slots := [] }, .start f args m.slots none, []⟩ _ :=
            realizes_runBody (p.realizesCalls m.budget) rfl (Nat.le_refl _)
          exact ⟨f, _, mem_of_callee hf, rfl, rfl, hbody⟩

/-- The steps of a run end as it does, or go around a circle where it gives up. -/
theorem run_ends_or_circles (h : p.start name args m = .ok c) :
    ∃ es c', p.Steps c es c'
      ∧ ((∃ r m', p.next c' = .ends r m' ∧ (p.run name args).run m = Step.ending r m'
          ∧ r ≠ .error (.abort .endless))
        ∨ (c'.Circles ∧ ∃ m', (p.run name args).run m = .error (.abort .endless) m')) := by
  obtain ⟨f, x, -, rfl, hrun, hbody⟩ := start_ok h
  rw [hrun]
  cases hx : x.run { m with slots := [] } with
  | ok v m₁ =>
      obtain ⟨es, c', hsteps, rfl, hsame, hanswer⟩ := hbody.ok hx
      rw [Snapshot.answer, hsame.callers, hsame.outer] at hanswer
      exact ⟨es, c', hsteps, .inl ⟨.ok v, _, hanswer, Exec.run_inCall_ok hx,
        fun h => by cases h⟩⟩
  | error s m₁ =>
      by_cases hs : s = .abort .endless
      · obtain ⟨es, c', hsteps, hcircle⟩ := hbody.endless (hs ▸ hx)
        exact ⟨es, c', hsteps, .inr ⟨hcircle, _, hs ▸ Exec.run_inCall_error hx⟩⟩
      · obtain ⟨es, c', hsteps, hend⟩ := hbody.error hx hs
        exact ⟨es, c', hsteps, .inl ⟨.error s, _, hend, Exec.run_inCall_error hx,
          fun h => hs (Except.error.inj h)⟩⟩

/-- A run that gets to a circle does not end. -/
theorem not_ends_of_circles {es es' : List Event} {c₂ : Snapshot} (h : p.Steps c es c₁)
    (hcircle : c₁.Circles) (h' : p.Steps c es' c₂) : p.next c₂ ≠ .ends r m' := by
  intro hend
  obtain ⟨c₃, hround, -⟩ := hcircle.steps p (es'.length + 1)
  have hle := h'.length_le hend (h.trans hround)
  rw [List.length_append, List.length_replicate] at hle
  omega

theorem Reaches.budget (h : p.Reaches name args m es c) : es.count .instr ≤ m.budget := by
  obtain ⟨c₀, hstart, hsteps⟩ := h
  obtain ⟨f, x, -, rfl, -⟩ := start_ok hstart
  exact Nat.le_of_add_left_le hsteps.budget.le

theorem Reaches.run_eq (h : p.Reaches name args m es c) (hend : p.next c = .ends r m') :
    (p.run name args).run m = Step.ending r m' := by
  obtain ⟨c₀, hstart, hsteps⟩ := h
  obtain ⟨es', c', hsteps', ⟨r', m'', hend', hrun, -⟩ | ⟨hcircle, -⟩⟩ := run_ends_or_circles hstart
  · obtain ⟨rfl, rfl⟩ := hsteps.end_unique hend hsteps' hend'
    exact hrun
  · exact absurd hend (not_ends_of_circles hsteps' hcircle hsteps)

/-- The run gives up if it gets to a circle, and only then. -/
theorem run_endless_iff : (∃ m', (p.run name args).run m = .error (.abort .endless) m')
    ↔ ∃ es c, p.Reaches name args m es c ∧ c.Circles := by
  constructor
  · rintro ⟨m', hrun⟩
    cases hstart : p.start name args m with
    | error s =>
        obtain ⟨hrun', hs⟩ := start_error hstart
        rw [hrun'] at hrun
        exact absurd (EStateM.Result.error.inj hrun).1 hs
    | ok c₀ =>
        obtain ⟨es, c, hsteps, ⟨r, m'', -, hrun', hr⟩ | ⟨hcircle, -⟩⟩ := run_ends_or_circles hstart
        · rw [hrun'] at hrun
          cases r with
          | ok v => cases hrun
          | error s => exact absurd (congrArg Except.error (EStateM.Result.error.inj hrun).1) hr
        · exact ⟨es, c, ⟨c₀, hstart, hsteps⟩, hcircle⟩
  · rintro ⟨es, c, ⟨c₀, hstart, hsteps⟩, hcircle⟩
    obtain ⟨es', c', hsteps', ⟨r, m', hend, -⟩ | ⟨-, hrun⟩⟩ := run_ends_or_circles hstart
    · exact absurd hend (not_ends_of_circles hsteps hcircle hsteps')
    · exact hrun

/-- There is a longest run if no circle is reached, and only then. -/
theorem exists_limit_iff :
    (∃ limit, ∀ es c, p.Reaches name args m es c → es.length ≤ limit)
      ↔ ∀ es c, p.Reaches name args m es c → ¬ c.Circles := by
  constructor
  · rintro ⟨limit, hlimit⟩ es c ⟨c₀, hstart, hsteps⟩ hcircle
    obtain ⟨c', hround, -⟩ := hcircle.steps p (limit + 1)
    have hle := hlimit _ _ ⟨c₀, hstart, hsteps.trans hround⟩
    rw [List.length_append, List.length_replicate] at hle
    omega
  · intro hno
    cases hstart : p.start name args m with
    | error s =>
        refine ⟨0, ?_⟩
        rintro es c ⟨c₀, hstart', -⟩
        rw [hstart] at hstart'
        cases hstart'
    | ok c₀ =>
        obtain ⟨es, c, hsteps, ⟨r, m', hend, -⟩ | ⟨hcircle, -⟩⟩ := run_ends_or_circles hstart
        · refine ⟨es.length, ?_⟩
          rintro es' c' ⟨c₀', hstart', hsteps'⟩
          obtain rfl := Except.ok.inj (hstart.symm.trans hstart')
          exact hsteps.length_le hend hsteps'
        · exact absurd hcircle (hno es c ⟨c₀, hstart, hsteps⟩)

theorem Reaches.function_mem (h : p.Reaches name args m es c) :
    c.current.function ∈ p.unit.functions := by
  obtain ⟨c₀, hstart, hsteps⟩ := h
  obtain ⟨f, x, hf, rfl, -⟩ := start_ok hstart
  exact hsteps.functions (List.cons_subset.mpr ⟨hf, List.nil_subset _⟩) (List.mem_cons_self ..)

/-- Only a circle in the code can be gone around. -/
theorem Reaches.passes (h : p.Reaches name args m es c) (hcircle : c.Circles) :
    ∃ f ∈ p.unit.functions, ∃ a, TransGen f.Passes a a :=
  ⟨_, h.function_mem, c.current.block, hcircle.2.lift id fun _ _ => Function.Idle.passes⟩

end Program

/-- A run has no more instructions than its budget, and the steps that end
are those of `Program.run`. There is an end to it, with an answer or a
fault, if it does not get to a circle of empty blocks, and only then; code
without such a circle always ends. -/
theorem executor_stops (p : Program) (name : String) (args : List Value) (m : Machine) :
    (∀ es c, p.Reaches name args m es c → es.count .instr ≤ m.budget)
    ∧ (∀ es c r m', p.Reaches name args m es c → p.next c = .ends r m' →
        (p.run name args).run m = Step.ending r m')
    ∧ ((∃ limit, ∀ es c, p.Reaches name args m es c → es.length ≤ limit)
        ↔ ∀ es c, p.Reaches name args m es c → ¬ c.Circles)
    ∧ ((∃ m', (p.run name args).run m = .error (.abort .endless) m')
        ↔ ∃ es c, p.Reaches name args m es c ∧ c.Circles)
    ∧ ((∀ f ∈ p.unit.functions, ∀ a, ¬ TransGen f.Passes a a) →
        ∀ es c, p.Reaches name args m es c → ¬ c.Circles) := by
  refine ⟨fun es c h => h.budget, fun es c r m' h hend => h.run_eq hend, Program.exists_limit_iff,
    Program.run_endless_iff, fun hcode es c h hcircle => ?_⟩
  obtain ⟨f, hf, a, ha⟩ := h.passes hcircle
  exact hcode f hf a ha

/-! ## A loop -/

namespace Spinning

/-- A loop around some instructions. -/
def loop (body : List Instr) : Function where
  name := "spin"
  arity := 0
  returnType := .unit
  blocks := [⟨"entry", [], some (.jump ⟨1⟩)⟩, ⟨"loop", body, some (.jump ⟨1⟩)⟩]
  valueTypes := [.int]

def program (body : List Instr) : Program where
  unit := ⟨"unit", [], [loop body], none, [], []⟩
  layouts := ⟨.empty, .w64⟩

def one : Instr := .add ⟨0⟩ .int (.const (.literal (.int 1))) (.const (.literal (.int 1)))

theorem functionNamed?_spin (body : List Instr) :
    (program body).unit.functionNamed? "spin" = some ⟨0⟩ := by
  simp [CodeUnit.functionNamed?, program, loop]

/-- The run of the loop when it is entered. -/
def entered (body : List Instr) (budget : Nat) : Snapshot :=
  ⟨.new budget, ⟨loop body, ⟨1⟩, 0, .start (loop body) [], [], none⟩, []⟩

theorem circles_entered (budget : Nat) : (entered [] budget).Circles :=
  ⟨rfl, .single ⟨_, rfl, rfl, rfl⟩⟩

theorem reaches_entered (body : List Instr) (budget : Nat) :
    (program body).Reaches "spin" [] (.new budget) [.transfer] (entered body budget) := by
  refine ⟨⟨.new budget, .start (loop body) [] [] none, []⟩, ?_, .head rfl (.refl _)⟩
  simp only [Program.start, functionNamed?_spin]
  rfl

theorem not_passes_circle (a : BlockId) : ¬ TransGen (loop [one]).Passes a a := by
  have hpasses : ∀ {a b}, (loop [one]).Passes a b → a = ⟨0⟩ ∧ b = ⟨1⟩ := by
    rintro ⟨_ | _ | k⟩ b ⟨B, t, hB, hbody, ht, hb⟩
    · cases hB
      cases ht
      exact ⟨rfl, List.mem_singleton.mp hb⟩
    · cases hB
      cases hbody
    · cases hB
  intro h
  obtain ⟨b, hfirst, -⟩ := TransGen.head'_iff.mp h
  obtain ⟨b', -, hlast⟩ := TransGen.tail'_iff.mp h
  exact absurd ((hpasses hfirst).1.symm.trans (hpasses hlast).2) (by decide)

end Spinning

/-- Around an empty loop there are always more transfers, and the budget stays. -/
theorem empty_loop_never_stops :
    (∀ n, ∃ c, (Spinning.program []).Reaches "spin" [] (.new 100)
        ([.transfer] ++ List.replicate n .transfer) c
      ∧ ∃ e c', (Spinning.program []).next c = .goes e c' ∧ c'.machine.budget = 100)
    ∧ ∃ m', ((Spinning.program []).run "spin" []).run (.new 100) = .error (.abort .endless) m' := by
  obtain ⟨c₀, hstart, henter⟩ := Spinning.reaches_entered [] 100
  have hcircle := Spinning.circles_entered 100
  refine ⟨fun n => ?_, Program.run_endless_iff.mpr ⟨_, _, ⟨c₀, hstart, henter⟩, hcircle⟩⟩
  obtain ⟨c, hsteps, hc⟩ := hcircle.steps (Spinning.program []) n
  obtain ⟨c', hnext, -⟩ := hc.next (Spinning.program [])
  refine ⟨c, ⟨c₀, hstart, henter.trans hsteps⟩, .transfer, c', hnext, ?_⟩
  have hspent := (hsteps.trans (.head hnext (.refl c'))).budget
  rw [List.count_append, List.count_replicate] at hspent
  exact hspent

theorem executor_stops_spinning :
    (∃ m', ((Spinning.program [Spinning.one]).run "spin" []).run (.new 2)
      = .error (.error .stepLimit) m')
    ∧ ∃ limit, ∀ es c, (Spinning.program [Spinning.one]).Reaches "spin" [] (.new 2) es c →
      es.length ≤ limit := by
  obtain ⟨-, -, hlimit, -, hcode⟩ :=
    executor_stops (Spinning.program [Spinning.one]) "spin" [] (.new 2)
  refine ⟨?_, hlimit.mpr (hcode fun f hf => ?_)⟩
  · simp only [Program.run, Spinning.functionNamed?_spin]
    exact ⟨_, rfl⟩
  · obtain rfl := List.mem_singleton.mp hf
    exact Spinning.not_passes_circle

end Ownership
