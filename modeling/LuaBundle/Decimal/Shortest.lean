/-!
# Shortest digits

The fewest decimal digits that read back as the same double, and of those the nearest to
it.  A positive finite double is an integer times a power of two; the reals that round to
it form an interval around it, whose ends belong to it when the integer is even.  For one
to seventeen digits the two neighbours of the value on the grid of that many digits are
tried, in exact arithmetic.
-/

namespace LuaBundle
namespace Decimal

/-- The positive number `significand * 2 ^ exponent`. -/
structure Scaled where
  significand : Nat
  exponent : Int
deriving DecidableEq, Repr

def Scaled.ofBits (bits : Nat) : Scaled :=
  let fraction : Nat := bits % 0x10000000000000
  let biased : Nat := bits / 0x10000000000000
  if biased = 0 then ⟨fraction, -1074⟩ else ⟨0x10000000000000 + fraction, Int.ofNat biased - 1075⟩

/-- Digits written as a number, and the power of ten that the number is multiplied by. -/
structure Digits where
  number : Nat
  power : Int
deriving DecidableEq, Repr

def compareScaled (a : Nat) (p : Int) (b : Nat) (q : Int) : Ordering :=
  compare (a * Nat.pow 2 p.toNat * Nat.pow 10 (-q).toNat)
    (b * Nat.pow 10 q.toNat * Nat.pow 2 (-p).toNat)

/-- The largest number of units of `10 ^ power` that does not exceed the value. -/
def Scaled.floorAt (v : Scaled) (power : Int) : Nat :=
  v.significand * Nat.pow 2 v.exponent.toNat * Nat.pow 10 (-power).toNat
    / (Nat.pow 10 power.toNat * Nat.pow 2 (-v.exponent).toNat)

/-- The quarter of the gap below the value, in quarters of its last binary place: the gap is
half as wide below a power of two. -/
def Scaled.below (v : Scaled) : Nat :=
  if v.significand = 0x10000000000000 ∧ -1074 < v.exponent then 1 else 2

def Scaled.readsBack (v : Scaled) (d : Digits) : Bool :=
  let lower := compareScaled (4 * v.significand - v.below) (v.exponent - 2) d.number d.power
  let upper := compareScaled (4 * v.significand + 2) (v.exponent - 2) d.number d.power
  let ends := v.significand % 2 = 0
  (lower == .lt || (ends && lower == .eq)) && (upper == .gt || (ends && upper == .eq))

def Scaled.nearerAbove (v : Scaled) (number : Nat) (power : Int) : Bool :=
  compareScaled (2 * v.significand) v.exponent (2 * number + 1) power != .lt

/-- The position of the first digit: the least `k` with the value below `10 ^ k`, searched
upwards from `start`. -/
def Scaled.magnitudeFrom (v : Scaled) : Nat → Int → Int
  | 0, start => start
  | fuel + 1, start =>
      if compareScaled v.significand v.exponent 1 start == .lt then start
      else v.magnitudeFrom fuel (start + 1)

/-- The least `k` with the value below `10 ^ k`, which a double has between -323 and 309. -/
def Scaled.magnitude (v : Scaled) : Int :=
  v.magnitudeFrom 633 (-323)

/-- The neighbour of the value with `count` digits that reads back, the nearer of two. -/
def Scaled.digitsOn (v : Scaled) (magnitude : Int) (count : Nat) : Option Digits :=
  let power := magnitude - count
  let number := v.floorAt power
  let down : Digits := ⟨number, power⟩
  let up : Digits := ⟨number + 1, power⟩
  match v.readsBack down, v.readsBack up with
  | true, true => some (if v.nearerAbove number power then up else down)
  | true, false => some down
  | false, true => some up
  | false, false => none

def Scaled.shortest (v : Scaled) : Digits :=
  let magnitude := v.magnitude
  ((List.range' 1 17).findSome? (v.digitsOn magnitude)).getD ⟨0, 0⟩

end Decimal
end LuaBundle
