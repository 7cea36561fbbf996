import Ownership.Machine.Exec
import Ownership.Proofs.Memory

/-!
# Evaluated runs

What a computation results in and the state it leaves, as functions of the
computation and the state it starts in. On given inputs both are evaluated:
the result is compared with the one expected, and the state keeps the name
it has as a function. Heaps on which such runs start are made by calls of
the memory, so they are reachable.
-/

namespace Ownership

namespace Step

variable {ε σ α : Type}

/-- What a computation results in, if it does. -/
def result? (x : Step ε σ α) (s : σ) : Option α :=
  match x.run s with
  | .ok a _ => some a
  | .error _ _ => none

/-- The state that a computation leaves. -/
def after (x : Step ε σ α) (s : σ) : σ :=
  match x.run s with
  | .ok _ s' => s'
  | .error _ s' => s'

theorem run_of_result? {x : Step ε σ α} {s : σ} {a : α} (h : result? x s = some a) :
    x.run s = .ok a (after x s) := by
  unfold result? at h
  unfold after
  split at h
  · next hrun =>
      cases h
      rw [hrun]
  · cases h

end Step

namespace Exec

variable {x : Exec (Option Value)} {m : Machine}

-- Values cannot be compared by evaluation. Their pointers can, and so can whether there is one.

/-- The pointer that a call results in. -/
def pointer? (x : Exec (Option Value)) (m : Machine) : Option UInt64 :=
  match Step.result? x m with
  | some (some (.ptr r)) => some r
  | _ => none

theorem run_of_pointer? {r : UInt64} (h : pointer? x m = some r) :
    x.run m = .ok (some (.ptr r)) (Step.after x m) := by
  refine Step.run_of_result? ?_
  unfold pointer? at h
  split at h
  · next hresult => rw [hresult, Option.some.inj h]
  · cases h

theorem run_of_isNone (h : (Step.result? x m).map Option.isNone = some true) :
    x.run m = .ok none (Step.after x m) := by
  obtain ⟨v, hresult, hv⟩ := Option.map_eq_some_iff.mp h
  rw [Option.isNone_iff_eq_none.mp hv] at hresult
  exact Step.run_of_result? hresult

end Exec

namespace Heap

variable {h : Heap}

/-- One block more, if there is room. -/
def withBlock (h : Heap) (size : Nat) : Heap :=
  match h.malloc size with
  | .ok (_, h) => h
  | .error _ => h

/-- One stack slot more, if there is room. -/
def withSlot (h : Heap) (size : Nat) : Heap :=
  match h.pushSlot size with
  | .ok (_, h) => h
  | .error _ => h

/-- The word `w` stored at `a`, if `a` can be written. -/
def withWord (h : Heap) (a : Address) (w : Nat) : Heap :=
  match h.write a (leBytes 8 w) with
  | .ok h => h
  | .error _ => h

theorem Reachable.withBlock (hr : h.Reachable) (size : Nat) : (h.withBlock size).Reachable := by
  unfold Heap.withBlock
  split
  · next hm => exact .malloc hr hm
  · exact hr

theorem Reachable.withSlot (hr : h.Reachable) (size : Nat) : (h.withSlot size).Reachable := by
  unfold Heap.withSlot
  split
  · next hs => exact .pushSlot hr hs
  · exact hr

theorem Reachable.withWord (hr : h.Reachable) (a : Address) (w : Nat) :
    (h.withWord a w).Reachable := by
  unfold Heap.withWord
  split
  · next hw => exact .write hr hw
  · exact hr

end Heap

end Ownership
