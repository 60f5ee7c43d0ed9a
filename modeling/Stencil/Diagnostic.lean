import Stencil.Text.Lines
import Stencil.Token.Flaw

/-!
# Diagnostics

What a template's author is told about a text that is no template: the sort of fault, where it is,
and a message. A diagnostic is shown on one line, or with the line of the text that it is about and
a marker under the place.
-/

namespace Stencil

/-- The sorts of faults in a text. Model of `ParseErrorKind`. -/
inductive Fault where
  /-- A piece of the text is no token. -/
  | invalidToken
  /-- Another token should stand here. -/
  | expectedToken
  /-- The token has no meaning here. -/
  | unexpectedToken
  /-- The text ends too early. -/
  | unexpectedEnd
  /-- A type should stand here. -/
  | expectedType
  /-- A name should stand here. -/
  | expectedIdentifier
  /-- A declaration should stand here. -/
  | expectedDeclaration
  /-- A bracket is closed by another one, or not at all. -/
  | mismatchedDelimiter
  /-- The text is not something that the grammar takes in. -/
  | unsupported
deriving DecidableEq, Repr

/-- The fault in words. Model of `as_str`. -/
def Fault.text : Fault → String
  | .invalidToken => "invalid token"
  | .expectedToken => "expected token"
  | .unexpectedToken => "unexpected token"
  | .unexpectedEnd => "unexpected end of file"
  | .expectedType => "expected type"
  | .expectedIdentifier => "expected identifier"
  | .expectedDeclaration => "expected declaration"
  | .mismatchedDelimiter => "mismatched delimiter"
  | .unsupported => "unsupported syntax"

/-- A fault, its place and a message. Model of `ParseError`. -/
structure Diagnostic where
  /-- The sort of fault. -/
  fault : Fault
  /-- Where it is. -/
  span : Span
  /-- What is wrong, in words. -/
  message : String
deriving DecidableEq, Repr

namespace Diagnostic

/-! ## Common diagnostics -/

/-- Something else was expected. Model of `expected_token`. -/
def expectedToken (span : Span) (expected found : String) : Diagnostic :=
  ⟨.expectedToken, span, "expected " ++ expected ++ ", found " ++ found⟩

/-- A token that has no meaning where it stands. Model of `unexpected_token`. -/
def unexpectedToken (span : Span) (found : String) : Diagnostic :=
  ⟨.unexpectedToken, span, "unexpected token: " ++ found⟩

/-- The text ended too early. Model of `unexpected_eof`. -/
def unexpectedEnd (span : Span) : Diagnostic :=
  ⟨.unexpectedEnd, span, "unexpected end of file"⟩

/-- A name was expected. Model of `expected_identifier`. -/
def expectedIdentifier (span : Span) (found : String) : Diagnostic :=
  ⟨.expectedIdentifier, span, "expected identifier, found " ++ found⟩

/-- A type was expected. Model of `expected_type`. -/
def expectedType (span : Span) (found : String) : Diagnostic :=
  ⟨.expectedType, span, "expected type, found " ++ found⟩

/-- A flaw in the text, as a diagnostic. -/
def ofLexical (p : LexicalProblem) : Diagnostic :=
  ⟨.invalidToken, p.span, p.message⟩

/-! ## Showing diagnostics -/

/-- The diagnostic on one line. -/
def display (d : Diagnostic) : String :=
  d.fault.text ++ " at " ++ d.span.display ++ ": " ++ d.message

/-- The number, filled up with blanks on the left to at least three characters. -/
def lineNumber (n : Nat) : String :=
  let digits := toString n
  String.ofList (List.replicate (3 - digits.length) ' ') ++ digits

/-- The marker under a place: a caret, followed by tildes up to the end of the span. -/
def marker (span : Span) : String :=
  String.ofList ('^' :: List.replicate (span.length - 1) '~')

/-- The line of the text that the span names, and the marker below it. A text without that line has
no excerpt. -/
def excerpt (text : String) (span : Span) : String :=
  match Text.line? text span.line with
  | none => ""
  | some line =>
    "  |\n" ++ lineNumber span.line ++ " | " ++ line ++ "\n  | "
      ++ String.ofList (List.replicate (span.column - 1) ' ') ++ marker span ++ "\n"

/-- The diagnostic with the line that it is about. Columns begin at one.
Model of `display_with_source`. -/
def report (text : String) (d : Diagnostic) : String :=
  "error at " ++ toString d.span.line ++ ":" ++ toString (max d.span.column 1) ++ ": "
    ++ d.fault.text ++ "\n"
    ++ (if d.message.isEmpty then "" else "  " ++ d.message ++ "\n")
    ++ excerpt text d.span

/-- Diagnostics one below the other. -/
def displayAll (ds : List Diagnostic) : String :=
  "\n".intercalate (ds.map display)

/-- Diagnostics with the lines that they are about, one after the other.
Model of `display_with_source`. -/
def reportAll (text : String) (ds : List Diagnostic) : String :=
  String.join (ds.map (report text))

end Diagnostic

end Stencil
