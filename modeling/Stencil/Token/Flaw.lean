import Stencil.Token.Span

/-!
# Text that is no token

The ways in which a piece of text can fail to be a token, and the message for each.
-/

namespace Stencil

/-- Why a piece of text is no token. Model of `LexError`. -/
inductive Flaw where
  /-- No token begins with the character. -/
  | unexpectedChar (c : Char)
  /-- The literal, named by its form, has no closing quote. -/
  | unterminatedLiteral (form : String)
  /-- The comment has no end. -/
  | unterminatedComment
  /-- The number lacks what its beginning asks for. -/
  | invalidNumber (detail : String)
deriving DecidableEq, Repr

/-- A flaw and the span of the text that has it. -/
structure LexicalProblem where
  /-- What is wrong. -/
  flaw : Flaw
  /-- Where it is wrong. -/
  span : Span
deriving DecidableEq, Repr

/-- The message that names the flaw and its place. -/
def LexicalProblem.message (p : LexicalProblem) : String :=
  let place := p.span.display
  match p.flaw with
  | .unexpectedChar c => "unexpected character '" ++ c.toString ++ "' at " ++ place
  | .unterminatedLiteral form => "unterminated " ++ form ++ " literal at " ++ place
  | .unterminatedComment => "unterminated comment at " ++ place
  | .invalidNumber detail => "invalid number at " ++ place ++ ": " ++ detail

end Stencil
