import Stencil.Command.Arguments
import Stencil.Generation.Run

/-!
# Responses of the command

What the command writes, and its exit code: zero if all went well, one if a run has come to its end
with errors, and two if it has been stopped or has not started.

Results: the exit code is zero exactly for a report without errors (`code_ofResult_eq_zero_iff`).
-/

namespace Stencil

/-- What the command leaves besides the files. -/
structure Response where
  /-- The exit code. -/
  code : Nat
  /-- What is written to the standard output. -/
  output : String
  /-- What is written to the standard error. -/
  errors : String
deriving DecidableEq, Repr

namespace Response

/-- The error that has stopped a run, with all its causes on one line. Model of `main`. -/
def fatal (e : RunError) : String :=
  ": ".intercalate ("generation failed" :: e.message :: e.causes) ++ "\n"

/-- The errors of a report, each on a line of its own. -/
def errorLines (errors : List RunError) : String :=
  String.join (errors.map fun e => "error: " ++ e.message ++ "\n")

/-- The response to a run that has taken the given time. Model of `report`. -/
def ofResult (json : Bool) (elapsed : Text.Elapsed) : Except RunError Report → Response
  | .error e => ⟨2, "", fatal e⟩
  | .ok r =>
    let code := if r.isClean then 0 else 1
    if json then ⟨code, r.summary.json elapsed ++ "\n", errorLines r.errors⟩
    else ⟨code, "", errorLines r.errors ++ r.summary.display elapsed ++ "\n"⟩

/-- How the command is to be called. -/
def usage : String :=
  "usage: specgen --templates <dir> --output <dir> [--no-incremental] [-v | --verbose]\n"
    ++ "  [--fail-fast] [--threads <n>] [--extension <ext>] [--no-header] [--json]\n"
    ++ "  [--primary <name>] [--secondary <name>] [--intrinsics <class>] [--mixer <function>]\n"

/-- The response to arguments with which the command does not start. -/
def ofRefusal : Refusal → Response
  | .help => ⟨0, usage, ""⟩
  | e => ⟨2, "", "error: " ++ e.message ++ "\n" ++ usage⟩

theorem code_ofResult_eq_zero_iff {json : Bool} {elapsed : Text.Elapsed}
    {result : Except RunError Report} :
    (ofResult json elapsed result).code = 0 ↔ ∃ r, result = .ok r ∧ r.errors = [] := by
  cases result with
  | error e => simp [ofResult]
  | ok r => cases json <;> simp [ofResult, Report.isClean]

end Response

end Stencil
