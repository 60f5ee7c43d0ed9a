/-!
# Faults of file operations

Why an operation on a file or a directory is refused, and what the system says then.
-/

namespace Stencil

/-- Why a file operation is refused. -/
inductive FileFault where
  /-- There is nothing at the path. -/
  | missing
  /-- There is something at the path already. -/
  | exists
  /-- The path leads through a file. -/
  | notDirectory
  /-- There is a directory at the path. -/
  | isDirectory
  /-- The file is no text. -/
  | notText
deriving DecidableEq, Repr

/-- The fault in the words of the system. -/
def FileFault.message : FileFault → String
  | .missing => "No such file or directory (os error 2)"
  | .exists => "File exists (os error 17)"
  | .notDirectory => "Not a directory (os error 20)"
  | .isDirectory => "Is a directory (os error 21)"
  | .notText => "stream did not contain valid UTF-8"

end Stencil
