/-!
# Reading decimal text

An optional sign, then digits with at most one point among them and at least one digit, and
an optional exponent; or a word for infinity or for a value that is no number.  The double
nearest to the number is read.
-/

namespace LuaBundle
namespace Decimal

/-- A number as its digits, without the point, and the power of ten they stand at. -/
structure Unsigned where
  number : Nat
  power : Int
deriving DecidableEq, Repr

def digitsOnto (value : Nat) (digits : List Char) : Nat :=
  digits.foldl (fun value c => value * 10 + (c.toNat - '0'.toNat)) value

def sign : List Char → Bool × List Char
  | '-' :: rest => (true, rest)
  | '+' :: rest => (false, rest)
  | text => (false, text)

def integer? (text : List Char) : Option Int :=
  let (negative, digits) := sign text
  if digits.isEmpty || !digits.all Char.isDigit then none
  else
    let value : Int := digitsOnto 0 digits
    some (if negative then -value else value)

def exponent? : List Char → Option Int
  | [] => some 0
  | c :: rest => if c = 'e' ∨ c = 'E' then integer? rest else none

def unsigned? (text : List Char) : Option Unsigned :=
  let whole := text.takeWhile Char.isDigit
  let afterWhole := text.dropWhile Char.isDigit
  let fraction :=
    match afterWhole with
    | '.' :: rest => rest.takeWhile Char.isDigit
    | _ => []
  let afterFraction :=
    match afterWhole with
    | '.' :: rest => rest.dropWhile Char.isDigit
    | rest => rest
  if whole.isEmpty && fraction.isEmpty then none
  else
    (exponent? afterFraction).map fun exponent =>
      ⟨digitsOnto (digitsOnto 0 whole) fraction, exponent - fraction.length⟩

def infinity : Float :=
  Float.ofBits 0x7FF0000000000000

def notANumber : Float :=
  Float.ofBits 0x7FF8000000000000

/-- The double nearest to a number.  Beyond the four-hundredth place on either side it is
infinite or zero. -/
def Unsigned.toFloat (u : Unsigned) : Float :=
  let magnitude : Int := (Nat.toDigits 10 u.number).length + u.power
  if u.number = 0 ∨ magnitude < -400 then 0
  else if 400 < magnitude then infinity
  else if 0 ≤ u.power then Float.ofScientific u.number false u.power.toNat
  else Float.ofScientific u.number true (-u.power).toNat

def read? (text : List Char) : Option Float :=
  let (negative, rest) := sign text
  let magnitude :=
    match String.ofList (rest.map Char.toLower) with
    | "inf" => some infinity
    | "infinity" => some infinity
    | "nan" => some notANumber
    | _ => (unsigned? rest).map Unsigned.toFloat
  magnitude.map fun x => if negative then -x else x

end Decimal
end LuaBundle
