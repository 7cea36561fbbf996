import Ownership.NatMap

/-!
# Byte buffers

A buffer of a fixed size that starts out as zeros. Only the bytes that
were written are stored, so a buffer may be far larger than what is ever
done with it. A read or write outside the buffer has no result.
-/

namespace Ownership

structure Bytes where
  size : Nat
  written : NatMap UInt8

namespace Bytes

/-- A buffer of zeros. -/
def zeros (size : Nat) : Bytes := ⟨size, .empty⟩

/-- The byte at an index. -/
def get (b : Bytes) (i : Nat) : UInt8 := (b.written.get? i).getD 0

/-- The `len` bytes from `start` on. -/
def slice? (b : Bytes) (start len : Nat) : Option (List UInt8) :=
  if start + len ≤ b.size then some ((List.range' start len).map b.get) else none

/-- The map with `data` put under the keys from `i` on. -/
def putFrom (m : NatMap UInt8) : (i : Nat) → (data : List UInt8) → NatMap UInt8
  | _, [] => m
  | i, x :: data => putFrom (m.insert i x) (i + 1) data

/-- Overwrites the bytes from `start` on. -/
def write? (b : Bytes) (start : Nat) (data : List UInt8) : Option Bytes :=
  if start + data.length ≤ b.size then some { b with written := putFrom b.written start data }
  else none

/-! ## What a write does to the bytes -/

theorem get?_putFrom (m : NatMap UInt8) (i j : Nat) (data : List UInt8) :
    (putFrom m i data).get? j =
      if i ≤ j ∧ j < i + data.length then data[j - i]? else m.get? j := by
  induction data generalizing m i with
  | nil => rw [putFrom, if_neg (by simp only [List.length_nil]; omega)]
  | cons x data ih =>
    simp only [putFrom, ih, NatMap.get?_insert, List.length_cons]
    by_cases h : j = i
    · subst h
      rw [if_neg (by omega), if_pos rfl, if_pos (by omega), Nat.sub_self, List.getElem?_cons_zero]
    · by_cases h' : i + 1 ≤ j
      · have e : j - i = (j - (i + 1)) + 1 := by omega
        have same :
            (i + 1 ≤ j ∧ j < i + 1 + data.length) ↔ (i ≤ j ∧ j < i + (data.length + 1)) := by
          omega
        simp only [e, List.getElem?_cons_succ, if_neg h, same]
      · rw [if_neg (by omega), if_neg h, if_neg (by omega)]

end Bytes

end Ownership
