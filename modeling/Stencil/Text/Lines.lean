/-!
# Lines of a text

A line feed ends a line, and a carriage return directly before it belongs to the line end. A text
that ends in a line feed has no empty line after it.
-/

namespace Stencil.Text

/-- The text cut at its line feeds. The last piece is what follows the last line feed. -/
def splitLineFeeds : List Char → List (List Char)
  | [] => [[]]
  | c :: cs =>
    if c = '\n' then [] :: splitLineFeeds cs
    else
      match splitLineFeeds cs with
      | [] => [[c]]
      | line :: rest => (c :: line) :: rest

/-- The line without a carriage return at its end. -/
def dropCarriageReturn (line : List Char) : List Char :=
  if line.getLast? = some '\r' then line.dropLast else line

/-- The lines of a text. What follows the last line feed is a line only if it is not empty, and
keeps a carriage return at its end. Model of `lines`. -/
def lines (text : List Char) : List (List Char) :=
  let pieces := splitLineFeeds text
  let last := pieces.getLast?.getD []
  pieces.dropLast.map dropCarriageReturn ++ (if last.isEmpty then [] else [last])

/-- The line of the given number, counted from one. Model of `get_line`. -/
def line? (text : String) (number : Nat) : Option String :=
  if number = 0 then none else (lines text.toList)[number - 1]?.map String.ofList

end Stencil.Text
