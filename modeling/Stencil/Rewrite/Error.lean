import Stencil.Binding.ConcreteType
import Stencil.Token.Span

/-!
# What can go wrong in a specialization

An intrinsic call may not be possible for a binding; the author of the template is told at which
call. The two errors about edits are about the program itself.
-/

namespace Stencil

/-- Why an intrinsic call has no replacement. -/
inductive CallFault where
  /-- The call has no hint, and the template declares two placeholders. -/
  | ambiguous
  /-- The hint names no placeholder that the template declares. -/
  | unresolvedHint (hint : String)
  /-- There is no operation of this name. -/
  | unknown (name : String)
  /-- The call has another number of arguments than the operation takes. -/
  | argumentCount (expected : String) (got : Nat)
  /-- The operation has no meaning for the type. -/
  | unsupported (type : ConcreteType)
deriving DecidableEq, Repr

/-- Why a template has no text for a binding. -/
inductive SpecializeError where
  /-- A call, with its text and the place of its receiver, has no replacement. -/
  | call (fault : CallFault) (text : String) (span : Span)
  /-- Two edits share tokens. -/
  | overlapping (first second : TokenRange)
  /-- An edit lies outside the text that is put together. -/
  | outOfRange (edit range : TokenRange)
deriving DecidableEq, Repr

/-- The fault of a call in words. The text of the call stands between backquotes. -/
def CallFault.message (text : String) : CallFault → String
  | .ambiguous => "intrinsic call `" ++ text ++ "` is ambiguous; add a placeholder type hint"
  | .unresolvedHint hint =>
    "intrinsic call `" ++ text ++ "` targets `" ++ hint
      ++ "`, which is not a declared placeholder"
  | .unknown name => "unknown intrinsic '" ++ name ++ "' in `" ++ text ++ "`"
  | .argumentCount expected got =>
    "intrinsic `" ++ text ++ "` expects " ++ expected ++ " argument(s), got " ++ toString got
  | .unsupported t =>
    "intrinsic `" ++ text ++ "` is not defined for " ++ t.display ++ " bindings"

namespace SpecializeError

/-- The error in words. -/
def message : SpecializeError → String
  | .call fault text span => "at " ++ span.display ++ ": " ++ fault.message text
  | .overlapping first second =>
    "internal error: overlapping edits at " ++ first.bounds ++ " and " ++ second.bounds
  | .outOfRange edit range =>
    "internal error: edit at " ++ edit.bounds ++ " lies outside " ++ range.bounds

/-- Is the error about the program, and not about the template? Model of `is_internal`. -/
def isInternal : SpecializeError → Bool
  | .call .. => false
  | _ => true

/-- The place in the template that the error is about. Model of `span`. -/
def span? : SpecializeError → Option Span
  | .call _ _ span => some span
  | _ => none

end SpecializeError

end Stencil
