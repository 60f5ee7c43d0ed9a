import Stencil.Text.Quoted
import Stencil.Token.Basic

/-!
# Tokens in listings

The form in which a token is shown to someone who looks for a mistake: the name of its kind, its
text between quotes, and its place.
-/

namespace Stencil

/-- The token's kind, quoted text and place. -/
def Token.debug (t : Token) : String :=
  t.kind.label ++ "(" ++ Text.quoted t.text ++ " @ " ++ t.span.display ++ ")"

end Stencil
