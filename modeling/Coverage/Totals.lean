/-!
Shares of a whole. Where there is nothing to cover everything is covered, and a
part that reaches the whole gives exactly one.
-/
namespace Coverage

/-- Both numbers are below 2^64; the quotient is rounded once after each of them
was rounded to a double. -/
def ratio (part whole : Nat) : Float :=
  if whole = 0 ∨ whole ≤ part then 1.0 else part.toUInt64.toFloat / whole.toUInt64.toFloat

structure Totals where
  total : Nat
  seen : Nat
  missing : Nat
  percentage : Float

/-- The seen part counts at most as much as the whole. -/
def Totals.ofSeen (total seen : Nat) : Totals :=
  let seen := min seen total
  { total, seen, missing := total - seen, percentage := ratio seen total }

end Coverage
