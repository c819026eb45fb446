import LuaBundle.Decimal.Reading
import LuaBundle.Lua.Literal

/-!
# Numerals

The double a numeral denotes.  After `0x` the digits are hexadecimal, with at most one
point, and an exponent counts powers of two; any other numeral is decimal.
-/

namespace LuaBundle
namespace Lua

/-- A hexadecimal number under way: the value of its digits, the power of two they stand at,
whether the point has been met, and the count of digits. -/
structure HexDigits where
  mantissa : Float
  scale : Int
  afterPoint : Bool
  count : Nat

def HexDigits.start : HexDigits :=
  ⟨0, 0, false, 0⟩

def HexDigits.push (h : HexDigits) (c : Char) : Option HexDigits :=
  if c = '.' ∧ h.afterPoint = false then some { h with afterPoint := true }
  else
    (hexDigit? c).map fun digit =>
      { mantissa := h.mantissa * 16 + digit.toFloat
        scale := if h.afterPoint then h.scale - 4 else h.scale
        afterPoint := h.afterPoint
        count := h.count + 1 }

def maxInt32 : Int :=
  2147483647

def minInt32 : Int :=
  -2147483648

def hexExponent? (text : List Char) : Option Int :=
  (Decimal.integer? text).bind fun n => if minInt32 ≤ n ∧ n ≤ maxInt32 then some n else none

/-- A power of two: infinite from 2^1024 on, and zero where its inverse is infinite. -/
def powerOfTwo (n : Int) : Float :=
  if 1024 ≤ n then Decimal.infinity
  else if n ≤ -1024 then 0
  else if n = -1023 then Float.ofBits 0x0008000000000000
  else Float.ofBits ((n + 1023).toNat * 0x10000000000000).toUInt64

def hexValue? (text : List Char) : Option Float := do
  let isMark := fun c : Char => c == 'p' || c == 'P'
  let digits ← (text.takeWhile (!isMark ·)).foldlM HexDigits.push HexDigits.start
  if digits.count = 0 then
    none
  else
    match text.dropWhile (!isMark ·) with
    | [] => some (digits.mantissa * powerOfTwo digits.scale)
    | _ :: exponent => do
        let exponent ← hexExponent? exponent
        some (digits.mantissa * powerOfTwo (digits.scale + exponent))

def numeralValue? (raw : List Char) : Option Float :=
  match raw with
  | '0' :: 'x' :: rest => hexValue? rest
  | '0' :: 'X' :: rest => hexValue? rest
  | _ => Decimal.read? raw

end Lua
end LuaBundle
