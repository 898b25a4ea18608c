import Coverage.Number.Binary64

/-!
Numerals: a minus sign at most, digits without a leading zero, a fraction and a
power of ten. A numeral keeps its exact value. Readers of doubles do not all
round it in the same way, so what is read from numerals is read by a given one;
the one here rounds once and fails where the result would be infinite.
-/
namespace Coverage

structure Numeral where
  negative : Bool
  /-- The value is `digits * 10 ^ exponent`. -/
  digits : Nat
  exponent : Int
  /-- Written without fraction and without exponent. -/
  isWhole : Bool
deriving DecidableEq, Repr

/-- How numerals are read as doubles; `none` where a numeral is out of range. -/
abbrev Numeral.Reading := Numeral → Option Float

namespace Numeral

def isDigit (c : Char) : Bool := '0' ≤ c && c ≤ '9'

def digitValue (c : Char) : Nat := c.toNat - '0'.toNat

def natOfDigits (digits : List Char) : Nat := digits.foldl (fun n c => 10 * n + digitValue c) 0

def hasLeadingZero : List Char → Bool
  | '0' :: _ :: _ => true
  | _ => false

/-- The digits after a point, of which there is at least one. -/
def readFraction : List Char → Option (List Char × List Char)
  | '.' :: rest =>
      let digits := rest.takeWhile isDigit
      if digits.isEmpty then none else some (digits, rest.dropWhile isDigit)
  | text => some ([], text)

def readPowerDigits (negative : Bool) (text : List Char) : Option Int :=
  if text.isEmpty || !text.all isDigit then none
  else some (if negative then -(natOfDigits text) else natOfDigits text)

/-- The power of ten that ends a numeral; zero if it is not written. -/
def readPower : List Char → Option Int
  | [] => some 0
  | c :: rest =>
      if c = 'e' ∨ c = 'E' then
        match rest with
        | '+' :: rest => readPowerDigits false rest
        | '-' :: rest => readPowerDigits true rest
        | _ => readPowerDigits false rest
      else none

def readUnsigned (negative : Bool) (text : List Char) : Option Numeral := do
  let whole := text.takeWhile isDigit
  if whole.isEmpty || hasLeadingZero whole then none
  else
    let after := text.dropWhile isDigit
    let (fraction, tail) ← readFraction after
    let power ← readPower tail
    some
      { negative
        digits := natOfDigits (whole ++ fraction)
        exponent := power - fraction.length
        isWhole := after.isEmpty }

def read : List Char → Option Numeral
  | '-' :: rest => readUnsigned true rest
  | text => readUnsigned false text

/-- The nearest double, ties going to the even significand. A numeral far out of
range is settled by its number of digits. -/
def toFloat? (n : Numeral) : Option Float :=
  let magnitude : Int := (Nat.toDigits 10 n.digits).length + n.exponent
  let sign (x : Float) : Float := if n.negative then -x else x
  if n.digits = 0 ∨ magnitude < -400 then some (sign 0.0)
  else if 400 < magnitude then none
  else
    let x := Float.ofScientific n.digits (n.exponent < 0) n.exponent.natAbs
    if (Binary64.ofFloat x).isFinite then some (sign x) else none

/-- The value of a whole numeral without sign that fits in 64 bits. -/
def toWord? (n : Numeral) : Option UInt64 :=
  if h : n.digits < UInt64.size then
    if n.isWhole && !n.negative then some (UInt64.ofNatLT n.digits h) else none
  else none

end Numeral

end Coverage
