import Stencil.Text.Elapsed

/-!
# Summaries

What a run has done, in numbers: for people on one line, and for programs as an object of JSON whose
members come in a fixed order.

Results: if not more outputs are updated than are generated, every generated output is either updated
or kept (`kept_add_updated`).
-/

namespace Stencil

/-- What a run has done, in numbers. Model of `RunSummary`. -/
structure Summary where
  /-- The templates that were found. -/
  templates : Nat
  /-- The outputs claimed by instantiations that have not failed. -/
  generated : Nat
  /-- The outputs that were written. -/
  updated : Nat
  /-- The orphans that were deleted. -/
  deleted : Nat
deriving DecidableEq, Repr

namespace Summary

/-- The outputs that were left as they are because they were up to date. Model of `kept`. -/
def kept (s : Summary) : Nat :=
  s.generated - s.updated

theorem kept_add_updated {s : Summary} (h : s.updated ≤ s.generated) :
    s.kept + s.updated = s.generated := by
  simp only [kept]
  omega

/-- The numbers in words. -/
def counts (s : Summary) : String :=
  toString s.templates ++ " template(s), " ++ toString s.generated ++ " file(s) generated, "
    ++ toString s.updated ++ " updated, " ++ toString s.deleted ++ " deleted"

/-- The numbers and the time that the run took, in words. Model of `fmt`. -/
def display (s : Summary) (elapsed : Text.Elapsed) : String :=
  s.counts ++ " in " ++ elapsed.display

/-- The names and the values of the members of the JSON object, without the time. -/
def members (s : Summary) : List (String × Nat) :=
  [("templates", s.templates), ("generated", s.generated), ("updated", s.updated),
    ("deleted", s.deleted)]

/-- The largest number of milliseconds that is written: the largest number of 64 bits. -/
def maxMilliseconds : Nat :=
  18446744073709551615

/-- A JSON object whose members are numbers, without blanks. -/
def jsonObject (members : List (String × Nat)) : String :=
  "\x7b" ++ ",".intercalate (members.map fun m => "\"" ++ m.1 ++ "\":" ++ toString m.2) ++ "\x7d"

/-- The numbers and the time in whole milliseconds, as an object of JSON. Model of `to_json`. -/
def json (s : Summary) (elapsed : Text.Elapsed) : String :=
  jsonObject (s.members ++ [("elapsed_ms", min elapsed.milliseconds maxMilliseconds)])

end Summary

end Stencil
