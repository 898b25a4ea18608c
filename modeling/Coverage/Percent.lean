import Coverage.Number.Binary64

/-!
Shares as whole percentages. The share is multiplied by a hundred as a double,
rounded down and held within the signed 64-bit numbers.
-/
namespace Coverage

def maxPercent : Int := twoTo 63 - 1

def minPercent : Int := -twoTo 63

def percentValue (fraction : Float) : Int :=
  match Binary64.ofFloat (fraction * 100.0) with
  | .finite negative significand exponent =>
      max minPercent (min maxPercent (Binary64.floorFinite negative significand exponent))
  | .infinite negative => if negative then minPercent else maxPercent
  | .notANumber => 0

def percentText (fraction : Float) : String := toString (percentValue fraction) ++ "%"

end Coverage
