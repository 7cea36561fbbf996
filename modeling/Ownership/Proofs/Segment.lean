import Ownership.Proofs.Requests
import Ownership.Proofs.Stage

/-!
# Emitted pieces of code

An emission that starts at one point of a function and ends at another
has put a piece of code between them. `Draft.Leads` says what it keeps:
the function and the unit only grow. `Site.Performs` says what the piece
does when it runs inside the finished function: it acts on the machine
like a program of `Exec`, and then the function goes on at the end point
with a frame in which the values that were there before are the same.
Pieces are put together by `Performs.bind`.
-/

namespace Ownership

/-! ## Frames -/

/-- The operand is a constant, or one of the first `n` values. -/
def Operand.Below (n : Nat) : Operand → Prop
  | .value id => id.index < n
  | .const _ => True

theorem Operand.Below.mono {n n' : Nat} (hn : n ≤ n') : ∀ {op : Operand}, op.Below n → op.Below n'
  | .value _, h => Nat.lt_of_lt_of_le h hn
  | .const _, _ => trivial

theorem Operand.below_value {n i : Nat} (h : i < n) : (Operand.value ⟨i⟩).Below n := h

namespace Frame

/-- The later frame has the same first `n` values. -/
structure Keeps (n : Nat) (frame frame' : Frame) : Prop where
  size : frame'.size = frame.size
  agree : ∀ i < n, frame'[i]? = frame[i]?

theorem Keeps.refl (n : Nat) (frame : Frame) : Keeps n frame frame := ⟨rfl, fun _ _ => rfl⟩

theorem Keeps.trans {n n' : Nat} (hn : n ≤ n') {f₁ f₂ f₃ : Frame} (h : Keeps n f₁ f₂)
    (h' : Keeps n' f₂ f₃) : Keeps n f₁ f₃ :=
  ⟨h'.size.trans h.size, fun i hi => (h'.agree i (Nat.lt_of_lt_of_le hi hn)).trans (h.agree i hi)⟩

theorem Keeps.eval {n : Nat} {frame frame' : Frame} (h : Keeps n frame frame') :
    ∀ {op : Operand}, op.Below n → frame'.eval op = frame.eval op
  | .value id, hop => by simp only [Frame.eval, h.agree id.index hop]
  | .const _, _ => rfl

theorem keeps_define {n : Nat} (frame : Frame) {id : ValueId} (h : n ≤ id.index) (v : Value) :
    Keeps n frame (frame.define id v) := by
  refine ⟨Array.size_setIfInBounds .., fun i hi => ?_⟩
  rw [define, Array.getElem?_setIfInBounds_ne (by omega)]

theorem eval_define {frame : Frame} {id : ValueId} (h : id.index < frame.size) (v : Value) :
    (frame.define id v).eval (.value id) = .ok v := by
  have hget : (frame.define id v)[id.index]? = some (some v) := by
    rw [define, Array.getElem?_setIfInBounds_self_of_lt h]
  simp only [Frame.eval, hget]

theorem evalAddr_eq {frame : Frame} {op : Operand} {v : Value} (h : frame.eval op = .ok v) :
    frame.evalAddr op = Outcome.ofKind v.asAddr := by
  simp only [evalAddr, h]
  rfl

end Frame

/-! ## Drafts -/

/-- A draft goes on from another one. -/
structure Draft.Leads (e : Emitter) (d d' : Draft) : Prop where
  builder : d.builder.Leads d'.builder
  unit : e.Asks d.unit d'.unit

theorem Draft.Leads.refl (e : Emitter) (d : Draft) : Draft.Leads e d d := ⟨.refl _, .refl⟩

theorem Draft.Leads.trans {e : Emitter} {d₁ d₂ d₃ : Draft} (h : Draft.Leads e d₁ d₂)
    (h' : Draft.Leads e d₂ d₃) : Draft.Leads e d₁ d₃ :=
  ⟨h.builder.trans h'.builder, h.unit.trans h'.unit⟩

/-- Number of values in use. -/
def Draft.values (d : Draft) : Nat := d.builder.values

theorem Draft.Leads.values {e : Emitter} {d d' : Draft} (h : Draft.Leads e d d') :
    d.values ≤ d'.values := h.builder.grows.values

/-! ## Running inside a finished function -/

/-- The unit that code runs in, and how its functions are called. -/
structure Runtime (e : Emitter) where
  unit : CodeUnit
  call : Program.Caller
  thrifty : ∀ id args, (call id args).Thrifty
  apart : ∀ {heap : HeapPrimitives}, unit.heap = some heap →
    (heap.alloc ≠ heap.free ↔ e.SymbolsApart)

def Runtime.program {e : Emitter} (R : Runtime e) : Program := ⟨R.unit, e.layouts⟩

/-- A finished function that is run. -/
structure Site {e : Emitter} (R : Runtime e) where
  function : Function

namespace Site

variable {e : Emitter} {R : Runtime e} {α β : Type}

def resume (S : Site R) (pt : Point) (frame : Frame) : Exec (Option Value) :=
  R.program.resume R.call S.function pt frame

/-- The draft is an earlier stage of the function and of the unit. -/
structure Completes (S : Site R) (d : Draft) : Prop where
  function : d.builder.function.Grows S.function
  unit : d.unit.Keeps R.unit

theorem Completes.of_leads {S : Site R} {d d' : Draft} (h : S.Completes d')
    (hl : Draft.Leads e d d') : S.Completes d :=
  ⟨hl.builder.grows.trans h.function, hl.unit.keeps.trans h.unit⟩

/-- The frame has a place for each value. -/
def Fits (S : Site R) (frame : Frame) : Prop := frame.size = S.function.valueTypes.length

theorem Fits.keeps {S : Site R} {n : Nat} {frame frame' : Frame} (h : S.Fits frame)
    (hk : Frame.Keeps n frame frame') : S.Fits frame' := hk.size.trans h

/-- From `pt` on with `frame`, the function does `y`. If that gives a
value it goes on at `pt'`, with a frame that has the same first `n` values. -/
def Performs (S : Site R) (pt pt' : Point) (n : Nat) (frame : Frame) (y : Exec α)
    (Q : α → Frame → Prop) : Prop :=
  ∀ m, match y.run m with
    | .ok a m' => ∃ frame', Q a frame' ∧ Frame.Keeps n frame frame'
        ∧ (S.resume pt frame).run m = (S.resume pt' frame').run m'
    | .error s m' => (S.resume pt frame).run m = .error s m'

theorem performs_pure {S : Site R} {pt : Point} {n : Nat} {frame : Frame} {a : α}
    {Q : α → Frame → Prop} (h : Q a frame) : S.Performs pt pt n frame (pure a) Q :=
  fun _ => ⟨frame, h, .refl _ _, rfl⟩

theorem Performs.bind {S : Site R} {pt pt₁ pt₂ : Point} {n n₁ : Nat} {frame : Frame} {y : Exec α}
    {k : α → Exec β} {Q₁ : α → Frame → Prop} {Q₂ : β → Frame → Prop} (hn : n ≤ n₁)
    (h₁ : S.Performs pt pt₁ n frame y Q₁)
    (h₂ : ∀ a frame₁, Q₁ a frame₁ → Frame.Keeps n frame frame₁ →
      S.Performs pt₁ pt₂ n₁ frame₁ (k a) Q₂) :
    S.Performs pt pt₂ n frame (y >>= k) Q₂ := by
  intro m
  rw [EStateM.run_bind]
  have h := h₁ m
  cases hy : y.run m with
  | error s m' =>
      rw [hy] at h
      exact h
  | ok a m' =>
      rw [hy] at h
      obtain ⟨frame₁, hQ, hk, hrun⟩ := h
      have h' := h₂ a frame₁ hQ hk m'
      rw [hrun]
      cases hka : (k a).run m' with
      | error s m'' =>
          rw [hka] at h'
          simpa only [hka] using h'
      | ok b m'' =>
          rw [hka] at h'
          obtain ⟨frame₂, hQ₂, hk₂, hrun₂⟩ := h'
          simp only [hka]
          exact ⟨frame₂, hQ₂, hk.trans hn hk₂, hrun₂⟩

theorem Performs.weaken {S : Site R} {pt pt' : Point} {n : Nat} {frame : Frame} {y : Exec α}
    {Q Q' : α → Frame → Prop} (h : S.Performs pt pt' n frame y Q)
    (hQ : ∀ a frame', Q a frame' → Q' a frame') : S.Performs pt pt' n frame y Q' := by
  intro m
  have h' := h m
  cases hy : y.run m with
  | error s m' =>
      rw [hy] at h'
      exact h'
  | ok a m' =>
      rw [hy] at h'
      obtain ⟨frame', hq, hk, hrun⟩ := h'
      exact ⟨frame', hQ _ _ hq, hk, hrun⟩

/-- A step that only moves to another point. -/
theorem Performs.of_resume {S : Site R} {pt pt₁ pt' : Point} {n : Nat} {frame : Frame}
    {y : Exec α} {Q : α → Frame → Prop} (heq : S.resume pt frame = S.resume pt₁ frame)
    (h : S.Performs pt₁ pt' n frame y Q) : S.Performs pt pt' n frame y Q := by
  intro m
  rw [heq]
  exact h m

theorem Performs.to_resume {S : Site R} {pt pt₁ pt' : Point} {n : Nat} {frame : Frame}
    {y : Exec α} {Q : α → Frame → Prop} (h : S.Performs pt pt₁ n frame y Q)
    (heq : ∀ frame', S.resume pt₁ frame' = S.resume pt' frame') :
    S.Performs pt pt' n frame y Q := by
  intro m
  have h' := h m
  cases hy : y.run m with
  | error s m' =>
      rw [hy] at h'
      exact h'
  | ok a m' =>
      rw [hy] at h'
      obtain ⟨frame', hq, hk, hrun⟩ := h'
      exact ⟨frame', hq, hk, by rw [hrun, heq]⟩

theorem performs_of_bind {S : Site R} {pt pt' : Point} {n : Nat} {frame : Frame} {y : Exec α}
    {after : α → Frame} {Q : α → Frame → Prop}
    (h : S.resume pt frame = y >>= fun a => S.resume pt' (after a))
    (hQ : ∀ a, Q a (after a)) (hk : ∀ a, Frame.Keeps n frame (after a)) :
    S.Performs pt pt' n frame y Q := by
  intro m
  rw [h]
  cases hy : y.run m with
  | error s m' => simp only [EStateM.run_bind, hy]
  | ok a m' => exact ⟨after a, hQ a, hk a, by simp only [EStateM.run_bind, hy]⟩

/-- A piece of code in which the run ends. -/
theorem performs_fail {S : Site R} {pt pt' : Point} {n : Nat} {frame : Frame} {f : Fault}
    {Q : α → Frame → Prop} (h : S.resume pt frame = Step.fail f) :
    S.Performs pt pt' n frame (Step.fail f : Exec α) Q := fun m => by
  rw [h]
  rfl

/-! ## Instructions -/

/-- An instruction that defines a value, of the form `value` applied to what `x` finds out. -/
theorem performs_define {S : Site R} {d : Draft} {pt : Point} {ty : TypeId}
    {instr : ValueId → Instr} {frame : Frame} {x : Exec α} {value : α → Value}
    (hopen : d.builder.Open pt)
    (hS : S.Completes { d with builder := (d.builder.define ty instr).2 })
    (hfit : S.Fits frame)
    (hx : R.program.runInstr R.call frame (instr ⟨d.values⟩) =
      x >>= fun a => pure (frame.define ⟨d.values⟩ (value a))) :
    S.Performs pt ⟨pt.block, pt.done + 1⟩ d.values frame (Exec.tick >>= fun _ => x)
      fun a frame' => frame'.eval (.value ⟨d.values⟩) = .ok (value a) := by
  obtain ⟨B, hB, hi⟩ := (hopen.define ty instr).2
  have hlt : d.values < frame.size := by
    have h1 : d.builder.values + 1 ≤ S.function.valueTypes.length := by
      rw [← Builder.values_define d.builder ty instr]
      exact hS.function.values
    rw [hfit]
    exact h1
  have hrun : S.resume pt frame = ((Exec.tick >>= fun _ => x) >>= fun a =>
      S.resume ⟨pt.block, pt.done + 1⟩ (frame.define ⟨d.values⟩ (value a))) := by
    have hinstr : R.program.runInstr R.call frame (instr ⟨d.builder.values⟩) =
        x >>= fun a => pure (frame.define ⟨d.values⟩ (value a)) := hx
    rw [resume, Program.resume_instr hS.function hB hi frame, hinstr]
    simp only [resume, bind_assoc, pure_bind]
  exact performs_of_bind hrun (fun a => Frame.eval_define hlt (value a))
    fun a => Frame.keeps_define frame (Nat.le_refl _) (value a)

/-- An instruction that defines nothing. -/
theorem performs_push {S : Site R} {d : Draft} {pt : Point} {i : Instr} {frame : Frame}
    {x : Exec Unit} {n : Nat} (hopen : d.builder.Open pt)
    (hS : S.Completes { d with builder := d.builder.push i })
    (hx : R.program.runInstr R.call frame i = x >>= fun _ => pure frame) :
    S.Performs pt ⟨pt.block, pt.done + 1⟩ n frame (Exec.tick >>= fun _ => x)
      fun _ frame' => frame' = frame := by
  obtain ⟨B, hB, hi⟩ := (hopen.push i).2
  have hrun : S.resume pt frame = ((Exec.tick >>= fun _ => x) >>= fun _ =>
      S.resume ⟨pt.block, pt.done + 1⟩ frame) := by
    rw [resume, Program.resume_instr hS.function hB hi frame, hx]
    simp only [resume, bind_assoc, pure_bind]
  exact performs_of_bind hrun (fun _ => rfl) fun _ => .refl _ _

/-! ## Terminators -/

theorem runFrom_eq_resume (S : Site R) (id : BlockId) (frame : Frame) :
    R.program.runFrom R.call S.function id frame = S.resume ⟨id, 0⟩ frame :=
  Program.runFrom_eq_resume R.thrifty S.function id frame

variable {S : Site R} {d : Draft} {pt : Point}

theorem resume_jump {target : BlockId} (hopen : d.builder.Open pt)
    (hS : S.Completes { d with builder := d.builder.jump target }) (frame : Frame) :
    S.resume pt frame = S.resume ⟨target, 0⟩ frame := by
  obtain ⟨B, hB, ht, hlen⟩ := hopen.terminate (.jump target)
  rw [← runFrom_eq_resume]
  exact Program.resume_terminator hS.function hB ht hlen frame

theorem resume_branch {cond : Operand} {yes no : BlockId} (hopen : d.builder.Open pt)
    (hS : S.Completes { d with builder := d.builder.branch cond yes no }) {frame : Frame}
    {c : Bool} (hc : frame.eval cond = .ok (.bool c)) :
    S.resume pt frame = S.resume ⟨if c then yes else no, 0⟩ frame := by
  obtain ⟨B, hB, ht, hlen⟩ := hopen.terminate (.branch cond yes no)
  rw [← runFrom_eq_resume]
  refine (Program.resume_terminator hS.function hB ht hlen frame).trans ?_
  simp only [Program.leaveBlock, hc]
  rfl

theorem resume_trap {cause : TrapCause} (hopen : d.builder.Open pt)
    (hS : S.Completes { d with builder := d.builder.trap cause }) (frame : Frame) :
    S.resume pt frame = Step.fail (.trap cause) := by
  obtain ⟨B, hB, ht, hlen⟩ := hopen.terminate (.trap cause)
  exact Program.resume_terminator hS.function hB ht hlen frame

theorem resume_ret_none (hopen : d.builder.Open pt)
    (hS : S.Completes { d with builder := d.builder.ret none }) (frame : Frame) :
    S.resume pt frame = pure none := by
  obtain ⟨B, hB, ht, hlen⟩ := hopen.terminate (.ret none)
  exact Program.resume_terminator hS.function hB ht hlen frame

theorem resume_ret_some {op : Operand} (hopen : d.builder.Open pt)
    (hS : S.Completes { d with builder := d.builder.ret (some op) }) {frame : Frame} {v : Value}
    (hv : frame.eval op = .ok v) : S.resume pt frame = pure (some v) := by
  obtain ⟨B, hB, ht, hlen⟩ := hopen.terminate (.ret (some op))
  refine (Program.resume_terminator hS.function hB ht hlen frame).trans ?_
  simp only [Program.leaveBlock, hv]
  rfl

end Site

end Ownership
