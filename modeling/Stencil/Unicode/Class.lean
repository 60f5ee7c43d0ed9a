import Stencil.Unicode.Alphabetic
import Stencil.Unicode.Combining
import Stencil.Unicode.Numeric
import Stencil.Unicode.Unprintable
import Stencil.Unicode.Uppercase

/-!
# Character classes

The classes of characters that the template language and its output know: letters, numbers, blanks,
capital letters, and characters that a quoted text shows as they are. Each class is decided for
ASCII by its bounds and beyond ASCII by a table.
-/

namespace Stencil.Unicode

/-- A capital or small ASCII letter. -/
def isAsciiLetter (c : Char) : Bool :=
  ('a' ≤ c && c ≤ 'z') || ('A' ≤ c && c ≤ 'Z')

/-- One of the ten ASCII digits. -/
def isDigit (c : Char) : Bool :=
  '0' ≤ c && c ≤ '9'

/-- An ASCII digit or one of the letters `a` to `f` in either case. -/
def isHexDigit (c : Char) : Bool :=
  isDigit c || ('a' ≤ c && c ≤ 'f') || ('A' ≤ c && c ≤ 'F')

/-- A letter of any script. -/
def isAlphabetic (c : Char) : Bool :=
  if c.toNat < 0x80 then isAsciiLetter c else alphabeticRanges.contains c.toNat

/-- A number of any script, in any form: digits, Roman numerals, fractions. -/
def isNumeric (c : Char) : Bool :=
  if c.toNat < 0x80 then isDigit c else numericRanges.contains c.toNat

/-- A letter or a number. -/
def isAlphanumeric (c : Char) : Bool :=
  isAlphabetic c || isNumeric c

/-- A capital letter of any script. -/
def isUppercase (c : Char) : Bool :=
  if c.toNat < 0x80 then 'A' ≤ c && c ≤ 'Z' else uppercaseRanges.contains c.toNat

/-- White space: the ASCII blanks from tab to carriage return, the space, and the blanks and line
separators beyond ASCII. -/
def isBlank (c : Char) : Bool :=
  Ranges.contains
    [(0x9, 0xD), (0x20, 0x20), (0x85, 0x85), (0xA0, 0xA0), (0x1680, 0x1680), (0x2000, 0x200A),
      (0x2028, 0x2029), (0x202F, 0x202F), (0x205F, 0x205F), (0x3000, 0x3000)] c.toNat

/-- A mark that attaches itself to the character before it. -/
def isCombining (c : Char) : Bool :=
  combiningRanges.contains c.toNat

/-- A character with a glyph of its own, or the space. -/
def isPrintable (c : Char) : Bool :=
  if c.toNat < 0x80 then ' ' ≤ c && c ≤ '~' else !unprintableRanges.contains c.toNat

end Stencil.Unicode
