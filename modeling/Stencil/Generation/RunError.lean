import Stencil.Files.Fault
import Stencil.Generation.Claim
import Stencil.Generation.Summary
import Stencil.Template

/-!
# Errors and reports of runs

What can go wrong in a run, in words, and what is told at the end of one.
-/

namespace Stencil

/-- What can go wrong in a run. Model of `GenerateError`. -/
inductive RunError where
  /-- A template cannot be read. -/
  | read (path : Path) (fault : FileFault)
  /-- An output cannot be written. -/
  | write (path : Path) (fault : FileFault)
  /-- An orphan cannot be deleted. -/
  | delete (path : Path) (fault : FileFault)
  /-- The files below a root cannot be listed. -/
  | scan (root : Path) (fault : FileFault)
  /-- Two instantiations claim the same output. -/
  | duplicate (duplicate : Duplicate)
  /-- A file is no template. -/
  | template (error : TemplateError)
  /-- An instantiation has no text. -/
  | specialize (instantiation : Instantiation) (error : SpecializeError)
deriving DecidableEq, Repr

namespace RunError

/-- A fault of a scan in words. -/
def scanFault (root : Path) (fault : FileFault) : String :=
  "IO error for operation on " ++ root.text ++ ": " ++ fault.message

/-- The error in words. -/
def message : RunError → String
  | .read path fault => "failed to read " ++ path.text ++ ": " ++ fault.message
  | .write path fault => "failed to write " ++ path.text ++ ": " ++ fault.message
  | .delete path fault => "failed to delete " ++ path.text ++ ": " ++ fault.message
  | .scan root fault => "failed to scan " ++ root.text ++ ": " ++ scanFault root fault
  | .duplicate d => d.message
  | .template e => e.message
  | .specialize i e => i.display ++ ": " ++ e.message

/-- What lies behind the error, in words and the nearest cause first. -/
def causes : RunError → List String
  | .read _ fault | .write _ fault | .delete _ fault => [fault.message]
  | .scan root fault => [scanFault root fault, fault.message]
  | .duplicate _ | .template _ => []
  | .specialize _ e => [e.message]

end RunError

/-- What is told at the end of a run that has not been stopped. -/
structure Report where
  /-- What has gone wrong. -/
  errors : List RunError
  /-- What has been done. -/
  summary : Summary
deriving DecidableEq, Repr

namespace Report

/-- Has nothing gone wrong? -/
def isClean (r : Report) : Bool :=
  r.errors.isEmpty

/-- The errors in words, each on a line of its own. Model of `list`. -/
def message (r : Report) : String :=
  toString r.errors.length ++ " error(s) during generation:\n"
    ++ "\n".intercalate (r.errors.map fun e => "  " ++ e.message)

end Report

end Stencil
