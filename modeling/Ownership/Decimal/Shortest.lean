/-!
# Shortest decimals

The decimal with the fewest digits that reads back as a given binary
float. A float stands for an interval of reals, those that round to it;
the search goes through the decimal grids from coarse to fine and tries
the two neighbours of the float on each. All arithmetic is exact.
-/

namespace Ownership.Decimal

/-- The positive number `mant * 2 ^ exp` among the binary floats. -/
structure Binary where
  mant : Nat
  exp : Int
  /-- The gap below is half of the gap above. -/
  narrow : Bool
  deriving DecidableEq, Repr

/-- The number `coeff * 10 ^ exp`. -/
structure Scientific where
  coeff : Nat
  exp : Int
  deriving DecidableEq, Repr

/-- The number `n * base ^ exp`, and `n` itself for a negative exponent. -/
def grow (n base : Nat) (exp : Int) : Nat := n * Nat.pow base exp.toNat

namespace Binary

/-- The magnitude of a finite float, from its 64 bits. -/
def ofBits (bits : UInt64) : Binary :=
  let exp := (bits >>> 52 &&& 0x7FF).toNat
  let frac := (bits &&& 0xFFFFFFFFFFFFF).toNat
  if exp = 0 then ⟨frac, -1074, false⟩
  else ⟨0x10000000000000 + frac, (exp : Int) - 1075, frac = 0 ∧ 1 < exp⟩

/-- Compares `d` with `n` quarters of the last place of `x`. -/
def compareQuarters (x : Binary) (d : Scientific) (n : Nat) : Ordering :=
  let unit := x.exp - 2
  compare (grow (grow d.coeff 10 d.exp) 2 (-unit)) (grow (grow n 2 unit) 10 (-d.exp))

/-- Whether `d` rounds to `x`: it is closer to `x` than to any other float,
or just as close and `x` is even. -/
def readsBack (x : Binary) (d : Scientific) : Bool :=
  let even := x.mant % 2 = 0
  let below := x.compareQuarters d (4 * x.mant - if x.narrow then 1 else 2)
  let above := x.compareQuarters d (4 * x.mant + 2)
  (below = .gt || (even && below = .eq)) && (above = .lt || (even && above = .eq))

/-- Number of decimal digits. -/
def digitCount (n : Nat) : Nat := (Nat.toDigits 10 n).length

/-- The least `k` with `x < 10 ^ k`. -/
def scale (x : Binary) : Int :=
  let unit := grow 1 2 (-x.exp)
  let whole := grow x.mant 2 x.exp / unit
  if 0 < whole then digitCount whole else 1 - (digitCount ((unit - 1) / x.mant) : Int)

/-- The neighbour of `x` on the grid of `10 ^ exp` that reads back; of two
the closer one, and the upper one when they are equally close. -/
def onGrid? (x : Binary) (exp : Int) : Option Scientific :=
  let num := grow (grow x.mant 2 x.exp) 10 (-exp)
  let den := grow (grow 1 2 (-x.exp)) 10 exp
  let low : Scientific := ⟨num / den, exp⟩
  let high : Scientific := ⟨num / den + 1, exp⟩
  match x.readsBack low, x.readsBack high with
  | true, true => some (if 2 * num < (2 * low.coeff + 1) * den then low else high)
  | true, false => some low
  | false, true => some high
  | false, false => none

/-- The number itself as a decimal. -/
def exact (x : Binary) : Scientific :=
  if 0 ≤ x.exp then ⟨grow x.mant 2 x.exp, 0⟩ else ⟨grow x.mant 5 (-x.exp), x.exp⟩

/-- The decimal with the fewest digits that reads back as `x`. -/
def shortest (x : Binary) : Scientific :=
  ((List.range 17).findSome? fun (n : Nat) => x.onGrid? (x.scale - (n + 1))).getD x.exact

end Binary

end Ownership.Decimal
