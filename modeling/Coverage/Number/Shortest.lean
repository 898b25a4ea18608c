import Coverage.Number.Binary64

/-!
The shortest decimal that reads back as a given double. A double stands for an
interval of reals: those that round to it. On the grid of decimals with one
digit, with two, and so on up to seventeen, the two neighbours of the double are
tried in exact arithmetic; the first grid with a neighbour in the interval gives
the digits, and of two such neighbours the nearer one is taken.
-/
namespace Coverage.Shortest

/-- The decimal `digits * 10 ^ exponent`. -/
structure Decimal where
  digits : Nat
  exponent : Int
deriving DecidableEq, Repr

/-- A positive double in units of a quarter of its last place, together with the
ends of the interval of reals that round to it. -/
structure Interval where
  low : Nat
  value : Nat
  high : Nat
  exponent : Int
  /-- The ends round to the double as well. -/
  closed : Bool

/-- Below a power of two the doubles lie twice as close. -/
def interval (significand : Nat) (exponent : Int) : Interval where
  low := 4 * significand - (if significand = twoTo 52 ∧ -1074 < exponent then 1 else 2)
  value := 4 * significand
  high := 4 * significand + 2
  exponent := exponent - 2
  closed := significand % 2 == 0

/-- The factors that bring `a * 2 ^ p` and `b * 10 ^ e` to one scale. -/
def scales (p e : Int) : Nat × Nat :=
  (twoTo p.toNat * tenTo (-e).toNat, tenTo e.toNat * twoTo (-p).toNat)

def contains (i : Interval) (d : Decimal) : Bool :=
  let (s, t) := scales i.exponent d.exponent
  let x := d.digits * t
  if i.closed then i.low * s ≤ x && x ≤ i.high * s else i.low * s < x && x < i.high * s

/-- The number of decimal digits before the point, or minus the number of zeros
after it. -/
def magnitude (i : Interval) : Int :=
  let scaled := i.value * twoTo i.exponent.toNat * tenTo 330 / twoTo (-i.exponent).toNat
  (Nat.toDigits 10 scaled).length - 330

/-- The distance of a decimal from the double, on the scale of its exponent. -/
def distance (i : Interval) (d : Decimal) : Nat :=
  let (s, t) := scales i.exponent d.exponent
  (d.digits * t - i.value * s) + (i.value * s - d.digits * t)

def nearer (i : Interval) (below above : Decimal) : Decimal :=
  if distance i below < distance i above then below
  else if distance i above < distance i below then above
  else if below.digits % 2 = 0 then below else above

/-- The decimal on the grid of the given exponent, if the interval holds one. -/
def onGrid (i : Interval) (e : Int) : Option Decimal :=
  let (s, t) := scales i.exponent e
  let below : Decimal := ⟨i.value * s / t, e⟩
  let above : Decimal := ⟨i.value * s / t + 1, e⟩
  match contains i below, contains i above with
  | true, true => some (nearer i below above)
  | true, false => some below
  | false, true => some above
  | false, false => none

/-- Tries the grids with ever more digits; seventeen always suffice. -/
def search (i : Interval) (magnitude : Int) : List Nat → Decimal
  | [] => ⟨i.value, 0⟩
  | count :: more => (onGrid i (magnitude - count)).getD (search i magnitude more)

def withoutTrailingZeros (d : Decimal) : Decimal :=
  let zeros := ((Nat.toDigits 10 d.digits).reverse.takeWhile (· == '0')).length
  ⟨d.digits / tenTo zeros, d.exponent + zeros⟩

def decimal (significand : Nat) (exponent : Int) : Decimal :=
  let i := interval significand exponent
  withoutTrailingZeros (search i (magnitude i) (List.range' 1 17))

/-- Between these two powers of ten a double is written without an exponent. -/
structure Layout where
  lowest : Int
  highest : Int

/-- From 0.00001 up to below 10^16 numbers are positional, and a whole number
keeps `.0`; beyond, the exponent follows with its sign. -/
def layout : Layout := ⟨-5, 15⟩

def positional (digits : List Char) (exponent : Int) : List Char :=
  if 0 ≤ exponent then
    digits ++ List.replicate exponent.toNat '0' ++ ['.', '0']
  else
    let places := (-exponent).toNat
    let padded := List.replicate (places + 1 - digits.length) '0' ++ digits
    padded.take (padded.length - places) ++ '.' :: padded.drop (padded.length - places)

def scientific (digits : List Char) (power : Int) : List Char :=
  let sign := if power < 0 then '-' else '+'
  let mantissa :=
    match digits with
    | first :: d :: more => first :: '.' :: d :: more
    | short => short
  mantissa ++ 'e' :: sign :: Nat.toDigits 10 power.natAbs

def write (l : Layout) (d : Decimal) : List Char :=
  let digits := Nat.toDigits 10 d.digits
  let power := d.exponent + digits.length - 1
  if l.lowest ≤ power ∧ power ≤ l.highest then positional digits d.exponent
  else scientific digits power

/-- The text of a finite double; the others have none. -/
def text? (x : Float) : Option String :=
  match Binary64.ofFloat x with
  | .finite negative significand exponent =>
      let magnitude :=
        if significand = 0 then ['0', '.', '0'] else write layout (decimal significand exponent)
      some (String.ofList (if negative then '-' :: magnitude else magnitude))
  | _ => none

end Coverage.Shortest
