/-!
# Spans of time in words

A span of time is written with two decimals in the largest unit, of seconds, milliseconds,
microseconds and nanoseconds, of which it holds at least one. The value is exact up to there: it is
rounded to the nearest hundredth, and of two that are equally near to the even one. Rounding never
changes the unit.
-/

namespace Stencil.Text

/-- A span of time in whole nanoseconds. -/
structure Elapsed where
  nanoseconds : Nat
deriving DecidableEq, Repr

/-- The quotient rounded to the nearest whole number, a half to the even neighbour. -/
def roundHalfEven (num den : Nat) : Nat :=
  let q := num / den
  let twice := 2 * (num % den)
  if twice < den then q
  else if den < twice then q + 1
  else if q % 2 = 0 then q else q + 1

/-- The number of hundredths with a point before the last two digits. -/
def withTwoDecimals (hundredths : Nat) : String :=
  let frac := hundredths % 100
  toString (hundredths / 100) ++ "." ++ (if frac < 10 then "0" else "") ++ toString frac

namespace Elapsed

/-- Seconds and further nanoseconds together. -/
def ofParts (seconds nanoseconds : Nat) : Elapsed :=
  ⟨seconds * 1000000000 + nanoseconds⟩

/-- The nanoseconds in the unit that the span of time is written in, and the unit's name. -/
def unit (e : Elapsed) : Nat × String :=
  if 1000000000 ≤ e.nanoseconds then (1000000000, "s")
  else if 1000000 ≤ e.nanoseconds then (1000000, "ms")
  else if 1000 ≤ e.nanoseconds then (1000, "\u00b5s")
  else (1, "ns")

/-- The span of time in its unit, with two decimals. -/
def display (e : Elapsed) : String :=
  withTwoDecimals (roundHalfEven (e.nanoseconds * 100) e.unit.1) ++ e.unit.2

/-- Whole milliseconds, the rest cut off. Model of `as_millis`. -/
def milliseconds (e : Elapsed) : Nat :=
  e.nanoseconds / 1000000

end Elapsed

end Stencil.Text
