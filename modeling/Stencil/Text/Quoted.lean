import Stencil.Unicode.Class

/-!
# Quoted texts

A text between double quotes, in which a quote, a backslash and the usual control characters are
written with a backslash, and every other character without a glyph, as well as every combining
mark, by its code point in hexadecimal digits.
-/

namespace Stencil.Text

/-- The code point between braces, in lower-case hexadecimal digits without leading zeros. -/
def escapeCodePoint (c : Char) : List Char :=
  ['\\', 'u', '{'] ++ Nat.toDigits 16 c.toNat ++ ['}']

/-- One character of a quoted text. -/
def quoteChar (c : Char) : List Char :=
  if c = '\x00' then ['\\', '0']
  else if c = '\t' then ['\\', 't']
  else if c = '\r' then ['\\', 'r']
  else if c = '\n' then ['\\', 'n']
  else if c = '"' || c = '\\' then ['\\', c]
  else if Unicode.isCombining c || !Unicode.isPrintable c then escapeCodePoint c
  else [c]

/-- The text between double quotes. -/
def quoted (text : String) : String :=
  String.ofList (['"'] ++ text.toList.flatMap quoteChar ++ ['"'])

end Stencil.Text
