import LuaBundle.Decimal.Shortest

/-!
# Positional text of a double

A finite double is written with its shortest digits, never with an exponent, and with a
point only where digits follow it.
-/

namespace LuaBundle
namespace Decimal

def Digits.positional (d : Digits) : String :=
  let digits := Nat.toDigits 10 d.number
  if 0 ≤ d.power then
    String.ofList (digits ++ List.replicate d.power.toNat '0')
  else
    let places := (-d.power).toNat
    if places < digits.length then
      let whole := digits.length - places
      String.ofList (digits.take whole ++ '.' :: digits.drop whole)
    else
      String.ofList ('0' :: '.' :: List.replicate (places - digits.length) '0' ++ digits)

def Digits.trimmed : Nat → Digits → Digits
  | 0, d => d
  | fuel + 1, d =>
      if d.number % 10 = 0 ∧ d.number ≠ 0 then
        Digits.trimmed fuel ⟨d.number / 10, d.power + 1⟩
      else d

def text (x : Float) : String :=
  let bits := x.toBits.toNat
  let negative := 0x8000000000000000 ≤ bits
  let magnitude := bits % 0x8000000000000000
  let sign := if negative then "-" else ""
  if magnitude = 0 then sign ++ "0"
  else if magnitude < 0x7FF0000000000000 then
    sign ++ ((Scaled.ofBits magnitude).shortest.trimmed 17).positional
  else if magnitude = 0x7FF0000000000000 then sign ++ "inf"
  else "NaN"

end Decimal
end LuaBundle
