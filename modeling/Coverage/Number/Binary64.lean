/-!
Finite doubles as exact numbers: a sign, a natural significand and a power of
two, read off the sixty-four bits. Everything that prints or rounds a double
works on this view in exact arithmetic.
-/
namespace Coverage

def twoTo (n : Nat) : Nat := Nat.pow 2 n

def tenTo (n : Nat) : Nat := Nat.pow 10 n

inductive Binary64 where
  /-- The value `significand * 2 ^ exponent`, negated if `negative`. -/
  | finite (negative : Bool) (significand : Nat) (exponent : Int)
  | infinite (negative : Bool)
  | notANumber
deriving DecidableEq, Repr

namespace Binary64

def ofBits (bits : UInt64) : Binary64 :=
  let n := bits.toNat
  let negative := n / twoTo 63 == 1
  let biased : Nat := n / twoTo 52 % twoTo 11
  let fraction : Nat := n % twoTo 52
  if biased = 2047 then
    if fraction = 0 then .infinite negative else .notANumber
  else if biased = 0 then
    .finite negative fraction (-1074)
  else
    .finite negative (fraction + twoTo 52) (biased - 1075)

def ofFloat (x : Float) : Binary64 := ofBits x.toBits

def isFinite : Binary64 → Bool
  | .finite .. => true
  | _ => false

/-- The greatest integer that is not above the value. -/
def floorFinite (negative : Bool) (significand : Nat) (exponent : Int) : Int :=
  let signed : Int := if negative then -significand else significand
  if 0 ≤ exponent then signed * twoTo exponent.toNat else signed.fdiv (twoTo (-exponent).toNat)

/-- A position in the total order of all doubles, in which the negative ones
come first and zeros differ by their sign. -/
def rank (bits : UInt64) : Nat :=
  if bits.toNat < twoTo 63 then bits.toNat + twoTo 63 else twoTo 64 - 1 - bits.toNat

end Binary64

end Coverage
