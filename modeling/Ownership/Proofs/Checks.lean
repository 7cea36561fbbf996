import Ownership.Proofs.Counter
import Ownership.Proofs.Coupling

/-!
# Code with and without checks of counts

The same function, built once with checked counts and once without. The
two have different blocks and value numbers, and so have the glue
functions behind them; but what they do differs in the checks alone, and
a check that passes costs a step and does nothing else. So whatever the
checked code achieves the other achieves too, on any heap, with at least
as much budget left over (`unchecked_agrees`).
-/

namespace Ownership

/-! ## Runs that get further -/

/-- The machine `n` is `m` with maybe more budget. -/
structure Machine.Richer (m n : Machine) : Prop where
  heap : n.heap = m.heap
  slots : n.slots = m.slots
  budget : m.budget ≤ n.budget

/-- Where the first machine has a result, the second one has it too. -/
def Coupling.richer : Coupling where
  rel := Machine.Richer
  heap h := h.heap
  put h _ := ⟨rfl, h.slots, h.budget⟩
  spend {m n k} h hk := by
    have hle := h.budget
    exact ⟨n.budget - 1, by omega, h.heap, h.slots, show k ≤ n.budget - 1 by omega⟩
  fails := False
  spent := False.elim

namespace Exec

variable {α β : Type} {x y : Exec α} {f g : α → Exec β}

/-- Where `x` has a result, `y` has it too, also on a machine with more budget. -/
abbrev Simulates (x y : Exec α) : Prop := Coupling.richer.Follows x y

theorem simulates_throw (s : Stop Fault) : Simulates (throw s : Exec α) y where
  ok _ hrun := by cases hrun
  error := False.elim

/-- A check that passes costs a step. -/
theorem simulates_guardTrap (cause : TrapCause) (bad : Bool) :
    Simulates (guardTrap cause bad) (pure ()) where
  ok {m n _ _} hmn hrun := by
    obtain ⟨⟨⟩, m₁, h₁, k₁⟩ := Step.bind_ok hrun
    obtain ⟨budget, hm, rfl⟩ := Coupling.tick_ok h₁
    have hle := hmn.budget
    cases bad with
    | true => cases k₁
    | false =>
        obtain ⟨-, rfl⟩ := EStateM.Result.ok.inj k₁
        exact ⟨n, rfl, hmn.heap, hmn.slots, show budget ≤ n.budget by omega⟩
  error := False.elim

theorem simulates_inCall (h : Simulates x y) : Simulates (inCall x) (inCall y) where
  ok {m n _ _} hmn hrun := by
    obtain ⟨m₁, hx, rfl⟩ := inCall_ok hrun
    have hempty : Machine.Richer { m with slots := [] } { n with slots := [] } :=
      ⟨hmn.heap, rfl, hmn.budget⟩
    obtain ⟨n₁, hy, hmn₁⟩ := h.ok hempty hx
    refine ⟨leave n₁ n.slots, run_inCall_ok hy, ?_, hmn.slots, hmn₁.budget⟩
    simp only [leave, hmn₁.heap, hmn₁.slots]
  error := False.elim

end Exec

/-! ## The same actions under other settings -/

/-- The emitter with other settings for the checks of counts. -/
def Emitter.withChecks (e : Emitter) (checks : CountChecks) : Emitter :=
  { e with config := { e.config with checks } }

@[simp]
theorem Emitter.layouts_withChecks (e : Emitter) (checks : CountChecks) :
    (e.withChecks checks).layouts = e.layouts := rfl

namespace Runtime

open Exec Coupling

variable {e : Emitter} {R : Runtime (e.withChecks .trap)} {S : Runtime (e.withChecks .unchecked)}
  {ty : TypeId} {layout : RefLayout} {v : Value} {delta : Int64}

/-- The glue functions of the one unit do what those of the other do. -/
def Matches (R : Runtime (e.withChecks .trap)) (S : Runtime (e.withChecks .unchecked)) : Prop :=
  ∀ (ty : TypeId) (id id' : FuncId) (v : Value), R.unit.glueFor? ty = some id →
    S.unit.glueFor? ty = some id' → Simulates (R.call id [v]) (S.call id' [v])

theorem simulates_letGo (h : R.Matches S) (hserves : S.unit.Serves e.layouts ty) :
    Simulates (R.letGo ty v) (S.letGo ty v) := by
  unfold letGo
  change Simulates (if (e.layouts.leaves ty).isEmpty then _ else _)
    (if (e.layouts.leaves ty).isEmpty then _ else _)
  cases hempty : (e.layouts.leaves ty).isEmpty with
  | true => exact follows_pure ()
  | false =>
      obtain ⟨id', hid'⟩ := hserves hempty
      refine follows_tick.bind fun _ => ?_
      cases hid : R.unit.glueFor? ty with
      | none => exact simulates_throw _
      | some id =>
          rw [hid']
          exact (h ty id id' v hid hid').bind fun _ => follows_pure ()

theorem simulates_freeAt : Simulates (R.freeAt v) (S.freeAt v) := by
  unfold freeAt
  change Simulates (if e.SymbolsApart then _ else _) (if e.SymbolsApart then _ else _)
  split
  · exact follows_tick.bind fun _ => (follows_outcome _).bind fun _ => follows_withHeap _
  · exact follows_tick.bind fun _ => (follows_outcome _).bind fun _ =>
      (follows_malloc _).bind fun _ => follows_pure ()

theorem simulates_freeAtZero (h : R.Matches S) (hserves : S.unit.Serves e.layouts layout.pointee)
    (counter new : UInt64) :
    Simulates (R.freeAtZero layout v counter new) (S.freeAtZero layout v counter new) := by
  refine follows_tick.bind fun _ => ?_
  split
  · exact (simulates_letGo h hserves).bind fun _ => simulates_freeAt
  · exact follows_pure ()

theorem simulates_changed (old : UInt64) : Simulates (R.changed old delta) (S.changed old delta) :=
  follows_tick.bind fun _ => follows_pure _

theorem simulates_decrease (h : R.Matches S) (hserves : S.unit.Serves e.layouts layout.pointee) :
    Simulates (R.decrease layout v delta) (S.decrease layout v delta) :=
  (follows_counter e.layouts layout v).bind fun p => (simulates_guardTrap _ _).bind fun _ =>
    (simulates_changed p.2).bind fun new => (follows_put e.layouts p.1 new).bind fun _ =>
      simulates_freeAtZero h hserves p.1 new

theorem simulates_increase : Simulates (R.increase layout v delta) (S.increase layout v delta) :=
  (follows_counter e.layouts layout v).bind fun p => (simulates_changed p.2).bind fun new =>
    (simulates_guardTrap _ _).bind fun _ => follows_put e.layouts p.1 new

theorem simulates_adjust (h : R.Matches S)
    (hserves : delta < 0 → S.unit.Serves e.layouts layout.pointee) :
    Simulates (R.adjust layout v delta) (S.adjust layout v delta) := by
  unfold adjust
  split
  · next hneg => exact simulates_decrease h (hserves hneg)
  · exact simulates_increase

theorem simulates_release (h : R.Matches S) (hserves : ∀ layout, e.layouts.ref ty = .ok layout →
      layout.region ≠ .borrowed → S.unit.Serves e.layouts layout.pointee) :
    Simulates (R.release ty v) (S.release ty v) := by
  unfold release
  simp only [Emitter.layouts_withChecks]
  cases hl : e.layouts.ref ty with
  | error s => exact simulates_throw _
  | ok layout =>
      have hserved := hserves layout hl
      cases hreg : layout.region with
      | owning =>
          simp only [hreg]
          exact (simulates_letGo h (hserved (by rw [hreg]; decide))).bind fun _ => simulates_freeAt
      | counted =>
          simp only [hreg]
          exact simulates_decrease h (hserved (by rw [hreg]; decide))
      | borrowed =>
          simp only [hreg]
          exact follows_pure ()

theorem simulates_releaseField (h : R.Matches S) {r : FieldRelease}
    (hserves : S.unit.ServesField e.layouts r) :
    Simulates (R.releaseField v r) (S.releaseField v r) := by
  unfold CodeUnit.ServesField at hserves
  refine (follows_displaced v _).bind fun addr => ?_
  cases haction : r.action with
  | release region =>
      simp only [haction] at hserves
      exact (follows_fetchValue e.layouts _ _).bind fun held => simulates_release h hserves
  | descend =>
      simp only [haction] at hserves
      exact simulates_letGo h hserves

end Runtime

/-! ## The same functions under other settings -/

namespace Emitter.Module

open Exec Coupling

variable {e : Emitter} {M : (e.withChecks .trap).Module} {N : (e.withChecks .unchecked).Module}

/-- The glue functions of the two modules; the induction is on how deep calls nest. -/
theorem matches_runtime : ∀ depth, (M.runtime depth).Matches (N.runtime depth)
  | 0 => fun _ _ _ v _ _ => simulates_throw _
  | depth + 1 => by
      intro ty id id' v hid hid'
      obtain ⟨plan, hplan, -, hcall⟩ := M.callGlue hid
      obtain ⟨plan', hplan', hserves, hcall'⟩ := N.callGlue hid'
      obtain rfl : plan = plan' := Except.ok.inj (hplan.symm.trans hplan')
      have hfields : Simulates ((M.runtime depth).releaseFields v plan)
          ((N.runtime depth).releaseFields v plan) := follows_forM fun r hr =>
        Runtime.simulates_releaseField (matches_runtime depth) (hserves r hr)
      change Simulates (M.program.callWithin (depth + 1) id [v])
        (N.program.callWithin (depth + 1) id' [v])
      rw [hcall depth v, hcall' depth v]
      exact simulates_inCall (hfields.bind fun _ => follows_pure none)

end Emitter.Module

/-- What a function does with the reference that it gets. -/
inductive Task where
  | adjust (delta : Int64)
  | release

/-- The body of a function that does a task. -/
def Emitter.taskCode (e : Emitter) (ty : TypeId) : Task → Emit Unit
  | .adjust delta => e.adjustCode ty delta
  | .release => e.releaseCode ty

namespace Emitter.Module

open Exec Coupling

variable {e : Emitter} {ty : TypeId} {name : String}

theorem serves_of_adjusts {M : e.Module} {delta : Int64} {layout : RefLayout}
    (hholds : M.Holds name [ty] .unit (e.adjustCode ty delta)) (hneg : delta < 0)
    (hl : e.layouts.ref ty = .ok layout) : M.unit.Serves e.layouts layout.pointee := by
  obtain ⟨u, ⟨⟩, d, id, hrun, hkeeps, -, -⟩ := hholds.emission fun h => by
    obtain ⟨_, -, -, -, hemits⟩ := emits_adjust .unit h
    exact hemits.leads.unit
  obtain ⟨layout', hl', -, -, k⟩ := Emits.adjustCount_ok hrun
  obtain rfl := Except.ok.inj (hl.symm.trans hl')
  rw [if_pos hneg] at k
  exact (serves_decreaseCount k).mono hkeeps

/-- A run of a function that does a task is a run of an action, which is the same in both modules
up to the checks. -/
theorem simulates_task {M : (e.withChecks .trap).Module} {N : (e.withChecks .unchecked).Module}
    {task : Task} (hM : M.Holds name [ty] .unit ((e.withChecks .trap).taskCode ty task))
    (hN : N.Holds name [ty] .unit ((e.withChecks .unchecked).taskCode ty task)) (v : Value)
    (m : Machine) : ∃ x y : Exec (Option Value), Simulates x y
      ∧ (M.program.run name [v]).run m = x.run m ∧ (N.program.run name [v]).run m = y.run m := by
  have hmatches := matches_runtime (M := M) (N := N) m.budget
  cases task with
  | release =>
      refine ⟨_, _, ?_, run_release hM v m, run_release hN v m⟩
      refine simulates_inCall (Follows.bind ?_ fun _ => follows_pure none)
      exact Runtime.simulates_release hmatches fun layout hl hreg => serves_of_holds hN hl hreg
  | adjust delta =>
      obtain ⟨layout, hl, -, -, hrun⟩ := run_adjust hM v
      obtain ⟨layout', hl', -, -, hrun'⟩ := run_adjust hN v
      obtain rfl : layout = layout' := Except.ok.inj (hl.symm.trans hl')
      refine ⟨_, _, ?_, hrun m, hrun' m⟩
      refine simulates_inCall (Follows.bind ?_ fun _ => follows_pure none)
      exact Runtime.simulates_adjust hmatches fun hneg => serves_of_adjusts hN hneg hl'

end Emitter.Module

/-- Where the code with checked counts has a result, the code without checks has the same result and
leaves the same heap, whatever the heap was. -/
theorem unchecked_agrees {e : Emitter} {M : (e.withChecks .trap).Module}
    {N : (e.withChecks .unchecked).Module} {name : String} {ty : TypeId} {task : Task}
    (hM : M.Holds name [ty] .unit ((e.withChecks .trap).taskCode ty task))
    (hN : N.Holds name [ty] .unit ((e.withChecks .unchecked).taskCode ty task)) {v : Value}
    {m m' : Machine} {r : Option Value} (hrun : (M.program.run name [v]).run m = .ok r m') :
    ∃ n', (N.program.run name [v]).run m = .ok r n' ∧ n'.heap = m'.heap ∧ n'.slots = m'.slots
      ∧ m'.budget ≤ n'.budget := by
  obtain ⟨x, y, hxy, hx, hy⟩ := Emitter.Module.simulates_task hM hN v m
  rw [hx] at hrun
  obtain ⟨n', hrun', hricher⟩ := hxy.ok ⟨rfl, rfl, Nat.le_refl _⟩ hrun
  exact ⟨n', hy.trans hrun', hricher.heap, hricher.slots, hricher.budget⟩

/-! ## A pair under both settings -/

namespace Shared

/-- The function that releases a pair. -/
def checkedDraft (checks : CountChecks) : CodeUnit :=
  Step.after (Emitter.addEmitted "pair" [⟨19⟩] .unit ((emitter.withChecks checks).releaseCode ⟨19⟩))
    (.new "pair")

theorem run_checkedDraft (checks : CountChecks) : (Emitter.addEmitted "pair" [⟨19⟩] .unit
    ((emitter.withChecks checks).releaseCode ⟨19⟩)).run (.new "pair")
      = .ok ⟨1⟩ (checkedDraft checks) := by
  cases checks <;> exact Step.run_of_result? (by decide +kernel)

def checkedModule (checks : CountChecks) : (emitter.withChecks checks).Module where
  name := "pair"
  draft := checkedDraft checks
  built := Emitter.Module.builds_release (run_checkedDraft checks)
  unit := Step.after (emitter.withChecks checks).emitPendingGlue (checkedDraft checks)
  drained := ⟨1, by cases checks <;> exact Step.run_of_result? (by decide +kernel)⟩

theorem holds_checkedModule (checks : CountChecks) :
    (checkedModule checks).Holds "pair" [⟨19⟩] .unit
      ((emitter.withChecks checks).taskCode ⟨19⟩ .release) := by
  refine ⟨_, ⟨1⟩, checkedDraft checks, .refl, run_checkedDraft checks, .refl, ?_⟩
  cases checks <;> decide +kernel

def runPair (checks : CountChecks) : Exec (Option Value) :=
  (checkedModule checks).program.run "pair" [.ptr pair.addr]

theorem run_checked : (runPair .trap).run machine = .ok none (Step.after (runPair .trap) machine) :=
  Exec.run_of_isNone (by decide +kernel)

end Shared

theorem unchecked_agrees_pair :
    (Shared.runPair .trap).run Shared.machine
        = .ok none (Step.after (Shared.runPair .trap) Shared.machine)
      ∧ ∃ n', (Shared.runPair .unchecked).run Shared.machine = .ok none n'
        ∧ n'.heap = (Step.after (Shared.runPair .trap) Shared.machine).heap := by
  obtain ⟨n', hrun, hheap, -⟩ := unchecked_agrees (Shared.holds_checkedModule .trap)
    (Shared.holds_checkedModule .unchecked) Shared.run_checked
  exact ⟨Shared.run_checked, n', hrun, hheap⟩

end Ownership
