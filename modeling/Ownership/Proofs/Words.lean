import Mathlib
import Ownership.Machine.Encoding

/-!
# Words in bytes

Numbers survive being written as bytes as far as the bytes go
(`ofLeBytes_leBytes`), and a buffer gives back what was put into it
(`slice_put`), untouched elsewhere (`get_put_of_not_mem`).
-/

namespace Ownership

/-! ## Numbers and bytes -/

@[simp] theorem length_leBytes : ∀ (len n : Nat), (leBytes len n).length = len
  | 0, _ => rfl
  | len + 1, n => by rw [leBytes, List.length_cons, length_leBytes len]

theorem ofLeBytes_leBytes : ∀ (len n : Nat), ofLeBytes (leBytes len n) = n % 256 ^ len
  | 0, n => by rw [leBytes, ofLeBytes, Nat.pow_zero, Nat.mod_one]
  | len + 1, n => by
      have hsplit : n % 256 ^ (len + 1) = n % 256 + 256 * (n / 256 % 256 ^ len) := by
        rw [Nat.pow_succ', Nat.mod_mul]
      rw [leBytes, ofLeBytes, ofLeBytes_leBytes len, UInt8.toNat_ofNat', hsplit]

theorem ofLeBytes_lt : ∀ (l : List UInt8), ofLeBytes l < 256 ^ l.length
  | [] => by simp [ofLeBytes]
  | b :: l => by
      have h1 := ofLeBytes_lt l
      have h2 := b.toNat_lt
      rw [ofLeBytes, List.length_cons, Nat.pow_succ']
      omega

/-- Bytes that stand for a number are its bytes. -/
theorem leBytes_ofLeBytes : ∀ (l : List UInt8), leBytes l.length (ofLeBytes l) = l
  | [] => rfl
  | b :: l => by
      have h2 := b.toNat_lt
      have h3 : (b.toNat + 256 * ofLeBytes l) / 256 = ofLeBytes l := by omega
      rw [List.length_cons, ofLeBytes, leBytes, h3, leBytes_ofLeBytes l]
      congr 1
      rw [← UInt8.toNat_inj, UInt8.toNat_ofNat']
      omega

/-! ## Buffers -/

namespace Bytes

/-- The buffer with `data` in it from `start` on. -/
def put (b : Bytes) (start : Nat) (data : List UInt8) : Bytes :=
  { b with written := putFrom b.written start data }

/-- The `len` bytes from `start` on. -/
def slice (b : Bytes) (start len : Nat) : List UInt8 := (List.range' start len).map b.get

@[simp] theorem length_slice (b : Bytes) (start len : Nat) :
    (b.slice start len).length = len := by simp [slice]

theorem write?_eq {b : Bytes} {start : Nat} {data : List UInt8}
    (h : start + data.length ≤ b.size) : b.write? start data = some (b.put start data) := by
  rw [write?, if_pos h]
  rfl

theorem slice?_eq {b : Bytes} {start len : Nat} (h : start + len ≤ b.size) :
    b.slice? start len = some (b.slice start len) := by
  rw [slice?, if_pos h]
  rfl

theorem get_put {b : Bytes} {start : Nat} {data : List UInt8} (i : Nat) :
    (b.put start data).get i =
      if start ≤ i ∧ i < start + data.length then data.getD (i - start) 0 else b.get i := by
  simp only [put, get, get?_putFrom]
  split
  · rw [List.getD_eq_getElem?_getD]
  · rfl

theorem get_put_of_not_mem {b : Bytes} {start i : Nat} {data : List UInt8}
    (h : i < start ∨ start + data.length ≤ i) : (b.put start data).get i = b.get i := by
  rw [get_put, if_neg (by omega)]

theorem slice_congr {b b' : Bytes} {start len : Nat}
    (h : ∀ i, start ≤ i → i < start + len → b'.get i = b.get i) :
    b'.slice start len = b.slice start len := by
  refine List.map_congr_left fun i hi => ?_
  rw [List.mem_range'_1] at hi
  exact h i hi.1 hi.2

theorem slice_put (b : Bytes) (start : Nat) (data : List UInt8) :
    (b.put start data).slice start data.length = data := by
  refine List.ext_getElem (by simp) fun i h1 h2 => ?_
  simp only [slice, List.getElem_map, List.getElem_range', Nat.one_mul]
  rw [get_put, if_pos (by omega), Nat.add_sub_cancel_left, List.getD_eq_getElem _ _ h2]

end Bytes

/-! ## Words of the target -/

theorem PointerWidth.toNat_truncate (w : PointerWidth) (n : UInt64) :
    (w.truncate n).toNat = n.toNat % 2 ^ w.bits := by
  cases w with
  | w32 => exact Nat.and_two_pow_sub_one_eq_mod n.toNat 32
  | w64 => exact Nat.and_two_pow_sub_one_eq_mod n.toNat 64

theorem PointerWidth.two_pow_bits_dvd (w : PointerWidth) : (2 : Int) ^ w.bits ∣ 2 ^ 64 := by
  cases w <;> decide

theorem toNat_toUInt64_emod (n : Int64) : (n.toUInt64.toNat : Int) = n.toInt % 2 ^ 64 := by
  have hcond := BitVec.toInt_eq_toNat_cond n.toBitVec
  have hlt := n.toBitVec.isLt
  change (n.toBitVec.toNat : Int) = n.toBitVec.toInt % 2 ^ 64
  rw [hcond]
  split <;> omega

end Ownership
