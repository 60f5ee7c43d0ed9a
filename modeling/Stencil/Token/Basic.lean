import Stencil.Token.Kind
import Stencil.Token.Span

/-!
# Tokens and places

A lexeme is a kind with its text. A token is a lexeme with the span at which it stands. A place is
the line and the column that a reader of the text has reached.

Results: reading on is reading in steps (`Place.after_append`).
-/

namespace Stencil

/-- A piece of text with its kind. -/
structure Lexeme where
  /-- What the text is. -/
  kind : Kind
  /-- The text itself. -/
  text : String
deriving DecidableEq, Repr, Inhabited

/-- A lexeme with the span at which it stands. -/
structure Token extends Lexeme where
  /-- Where the token stands. -/
  span : Span
deriving DecidableEq, Repr, Inhabited

/-- Does the grammar see the token? Model of `is_code`. -/
def Token.isCode (t : Token) : Bool :=
  t.kind.isCode

/-- A place in a text, both numbers counted from one and the column in bytes. -/
structure Place where
  /-- The line. -/
  line : Nat
  /-- The column in bytes. -/
  column : Nat
deriving DecidableEq, Repr, Inhabited

/-- The number of bytes that the characters take. -/
def byteLength (cs : List Char) : Nat :=
  cs.foldr (fun c n => c.utf8Size + n) 0

namespace Place

/-- The place at which every text begins. -/
def start : Place :=
  ⟨1, 1⟩

/-- The place behind a character: a line feed begins a new line, and every other character takes as
many columns as it has bytes. Model of `advance`. -/
def next (p : Place) (c : Char) : Place :=
  if c = '\n' then ⟨p.line + 1, 1⟩ else ⟨p.line, p.column + c.utf8Size⟩

/-- The place behind a run of characters. -/
def after (p : Place) (cs : List Char) : Place :=
  cs.foldl next p

@[simp] theorem after_nil (p : Place) : p.after [] = p := rfl

theorem after_append (p : Place) (cs ds : List Char) :
    p.after (cs ++ ds) = (p.after cs).after ds :=
  List.foldl_append

/-- The span of a run of characters that begins here. Model of `span_from`. -/
def spanOf (p : Place) (cs : List Char) : Span :=
  ⟨p.line, p.column, byteLength cs⟩

/-- The token behind which nothing follows. Model of `make_eof`. -/
def endToken (p : Place) : Token :=
  { kind := .eof, text := "", span := Span.point p.line p.column }

end Place

end Stencil
