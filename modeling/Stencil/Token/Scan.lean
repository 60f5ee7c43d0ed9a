import Stencil.Token.Basic
import Stencil.Token.Flaw
import Stencil.Unicode.Class

/-!
# The next token of a text

`scan` looks at the first character of a text and at what follows it, and finds how far the token
that begins there reaches and of which kind it is. What it finds is a length, so a token is always a
non-empty beginning of the text.

Results: no count passes the end of the text (`countWhile_le`, `blockCommentLength_le`,
`quotedLength_le`, `textBlockLength_le`).
-/

namespace Stencil

/-- What begins at a character: its kind, or why it is none, and how many characters beyond the first
belong to it. -/
structure Finding where
  /-- The kind of the token, or what is wrong with the text. -/
  verdict : Except Flaw Kind
  /-- The number of characters after the first. -/
  more : Nat

namespace Finding

/-- A token of the given kind. -/
def token (kind : Kind) (more : Nat) : Finding :=
  ⟨.ok kind, more⟩

/-- A piece of text with a flaw. -/
def flawed (flaw : Flaw) (more : Nat) : Finding :=
  ⟨.error flaw, more⟩

/-- The kind that the token carries in the stream: flawed text has a kind of its own. -/
def kind (f : Finding) : Kind :=
  match f.verdict with
  | .ok k => k
  | .error _ => .error

end Finding

namespace Scan

/-! ## Characters -/

/-- White space, or the mark that some files begin with. -/
def isSpace (c : Char) : Bool :=
  Unicode.isBlank c || c == '\uFEFF'

/-- A carriage return or a line feed. -/
def isLineEnd (c : Char) : Bool :=
  c == '\n' || c == '\r'

/-- A character that a name may begin with. Model of `is_ident_start`. -/
def isNameStart (c : Char) : Bool :=
  Unicode.isAlphabetic c || c == '_' || c == '$'

/-- A character that a name may go on with. Model of `is_ident_continue`. -/
def isNamePart (c : Char) : Bool :=
  Unicode.isAlphanumeric c || c == '_' || c == '$'

/-- A decimal digit, or the underscore that may separate digits. -/
def isDecimalPart (c : Char) : Bool :=
  Unicode.isDigit c || c == '_'

/-- A hexadecimal digit, or the underscore that may separate digits. -/
def isHexPart (c : Char) : Bool :=
  Unicode.isHexDigit c || c == '_'

/-- A binary digit, or the underscore that may separate digits. -/
def isBinaryPart (c : Char) : Bool :=
  c == '0' || c == '1' || c == '_'

/-- The number of characters at the beginning that have the property. Model of `eat_while`. -/
def countWhile (p : Char → Bool) (cs : List Char) : Nat :=
  (cs.takeWhile p).length

theorem countWhile_le (p : Char → Bool) (cs : List Char) : countWhile p cs ≤ cs.length :=
  (List.takeWhile_prefix p).length_le

/-! ## Comments -/

/-- The length of a text up to and with the first end of a comment in it.
Model of `scan_block_comment`. -/
def blockCommentLength : List Char → Option Nat
  | '*' :: '/' :: _ => some 2
  | _ :: cs => (blockCommentLength cs).map (· + 1)
  | [] => none

theorem blockCommentLength_le {cs : List Char} {n : Nat} (h : blockCommentLength cs = some n) :
    n ≤ cs.length := by
  fun_induction blockCommentLength cs generalizing n with
  | case1 rest => simp only [Option.some.injEq] at h; simp [← h]
  | case2 c rest _ ih =>
    obtain ⟨m, hm, rfl⟩ := Option.map_eq_some_iff.1 h
    simpa using ih hm
  | case3 => simp at h

/-- A slash: a comment to the end of the line, a comment up to its end mark, an assignment operator
or the operator alone. A comment that opens with two stars is a documentation comment, unless the
second star already belongs to the end mark. Model of `scan_slash`. -/
def slash : List Char → Finding
  | '/' :: cs => .token .lineComment (1 + countWhile (fun c => !isLineEnd c) cs)
  | '*' :: cs =>
    match blockCommentLength cs with
    | none => .flawed .unterminatedComment (1 + cs.length)
    | some n =>
      let isDoc := ['*'].isPrefixOf cs && !(['*', '/'].isPrefixOf cs)
      .token (if isDoc then .docComment else .blockComment) (1 + n)
  | '=' :: _ => .token .slashEqual 1
  | _ => .token .slash 0

/-! ## Quoted literals -/

/-- How far a quoted literal reaches behind its opening quote, and whether it is closed there. A
backslash takes the next character with it, whatever that is; an open literal stops before the end
of the line. -/
def quotedLength (quote : Char) : List Char → Nat × Bool
  | [] => (0, false)
  | '\\' :: _ :: cs => let r := quotedLength quote cs; (r.1 + 2, r.2)
  | c :: cs =>
    if isLineEnd c then (0, false)
    else if c == quote then (1, true)
    else let r := quotedLength quote cs; (r.1 + 1, r.2)

theorem quotedLength_le (quote : Char) (cs : List Char) :
    (quotedLength quote cs).1 ≤ cs.length := by
  fun_induction quotedLength quote cs <;> simp_all <;> omega

/-- A literal in the given quotes, of the given kind and with the given name in messages.
Model of `scan_quoted`. -/
def quotedLiteral (quote : Char) (kind : Kind) (form : String) (cs : List Char) : Finding :=
  match quotedLength quote cs with
  | (n, true) => .token kind n
  | (n, false) => .flawed (.unterminatedLiteral form) n

/-- How far a text block reaches behind its opening quotes, and whether it is closed there.
Model of `scan_text_block`. -/
def textBlockLength : List Char → Nat × Bool
  | [] => (0, false)
  | '"' :: '"' :: '"' :: _ => (3, true)
  | '\\' :: _ :: cs => let r := textBlockLength cs; (r.1 + 2, r.2)
  | _ :: cs => let r := textBlockLength cs; (r.1 + 1, r.2)

theorem textBlockLength_le (cs : List Char) : (textBlockLength cs).1 ≤ cs.length := by
  fun_induction textBlockLength cs <;> simp_all <;> omega

/-- A double quote: a text block if two more follow, else a string. Model of `scan_string`. -/
def doubleQuote : List Char → Finding
  | '"' :: '"' :: cs =>
    match textBlockLength cs with
    | (n, true) => .token .textBlock (2 + n)
    | (n, false) => .flawed (.unterminatedLiteral "text block") (2 + n)
  | cs => quotedLiteral '"' .stringLiteral "string" cs

/-! ## Numbers -/

/-- The length of an exponent behind its mark: a sign, if any, and digits, if any.
Model of `consume_exponent_digits`. -/
def exponentTail : List Char → Nat
  | [] => 0
  | c :: cs =>
    if c == '+' || c == '-' then 1 + countWhile isDecimalPart cs
    else countWhile isDecimalPart (c :: cs)

/-- The length of an exponent with one of the given marks, zero if there is none. -/
def exponentLength (marks : List Char) : List Char → Nat
  | [] => 0
  | c :: cs => if marks.contains c then 1 + exponentTail cs else 0

/-- The length of a decimal fraction with its point, zero if there is none. The point belongs to the
number unless a name or another point follows it. -/
def fractionLength : List Char → Nat
  | '.' :: cs =>
    if cs.head?.all (fun c => !isNameStart c && c != '.') then 1 + countWhile isDecimalPart cs
    else 0
  | _ => 0

/-- The length of a hexadecimal fraction with its point, zero if there is none. -/
def hexFractionLength : List Char → Nat
  | '.' :: cs => 1 + countWhile isHexPart cs
  | _ => 0

/-- The kind of a number and the length of its suffix, from what follows its digits. -/
def numberSuffix (isFloat : Bool) (cs : List Char) : Kind × Nat :=
  let plain := if isFloat then Kind.floatLiteral else .intLiteral
  match cs with
  | c :: _ =>
    if ['f', 'F', 'd', 'D'].contains c then (.floatLiteral, 1)
    else if ['l', 'L'].contains c && !isFloat then (.intLiteral, 1)
    else (plain, 0)
  | [] => (plain, 0)

/-- The number whose digits end after `n` characters of the text, with its suffix.
Model of `finish_number`. -/
def finishNumber (isFloat : Bool) (n : Nat) (cs : List Char) : Kind × Nat :=
  let suffix := numberSuffix isFloat (cs.drop n)
  (suffix.1, n + suffix.2)

/-- The kind and the length of the decimal number that the text begins with.
Model of `scan_decimal_number`. -/
def decimalNumber (cs : List Char) : Kind × Nat :=
  let whole := countWhile isDecimalPart cs
  let fraction := fractionLength (cs.drop whole)
  let exponent := exponentLength ['e', 'E'] (cs.drop (whole + fraction))
  finishNumber (fraction != 0 || exponent != 0) (whole + fraction + exponent) cs

/-- A hexadecimal number, from behind its mark. Model of `scan_hex_number`. -/
def hexNumber (cs : List Char) : Finding :=
  let whole := countWhile isHexPart cs
  let fraction := hexFractionLength (cs.drop whole)
  let exponent := exponentLength ['p', 'P'] (cs.drop (whole + fraction))
  if whole == 0 && fraction == 0 && exponent == 0 then
    .flawed (.invalidNumber "expected hexadecimal digits after '0x'") 1
  else
    let r := finishNumber (fraction != 0 || exponent != 0) (whole + fraction + exponent) cs
    .token r.1 (1 + r.2)

/-- A binary number, from behind its mark. Model of `scan_binary_number`. -/
def binaryNumber (cs : List Char) : Finding :=
  let whole := countWhile isBinaryPart cs
  if whole == 0 then .flawed (.invalidNumber "expected binary digits after '0b'") 1
  else
    let r := finishNumber false whole cs
    .token r.1 (1 + r.2)

/-- A number that begins with the given digit or point. Model of `scan_number`. -/
def number (c : Char) (cs : List Char) : Finding :=
  let decimal :=
    let r := decimalNumber (c :: cs)
    Finding.token r.1 (r.2 - 1)
  match cs with
  | mark :: rest =>
    if c == '0' && (mark == 'x' || mark == 'X') then hexNumber rest
    else if c == '0' && (mark == 'b' || mark == 'B') then binaryNumber rest
    else decimal
  | [] => decimal

/-! ## Names and symbols -/

/-- A name, or the keyword that is spelled like it. Model of `scan_identifier`. -/
def name (c : Char) (cs : List Char) : Finding :=
  let n := countWhile isNamePart cs
  .token ((Kind.ofKeyword? (String.ofList (c :: cs.take n))).getD .identifier) n

/-- The symbols with their spellings, longer ones first. No symbol but `>` itself begins with `>`,
so lists of type arguments close one token at a time. -/
def symbols : List (List Char × Kind) :=
  let spelled := Kind.symbolKinds.filterMap fun k => k.spelling.map fun s => (s.toList, k)
  [3, 2, 1].flatMap fun n => spelled.filter fun s => s.1.length == n

/-- The longest symbol that the text begins with. Model of `scan_operator`. -/
def symbol (c : Char) (cs : List Char) : Finding :=
  match symbols.find? fun s => s.1.isPrefixOf (c :: cs) with
  | some s => .token s.2 (s.1.length - 1)
  | none => .flawed (.unexpectedChar c) 0

end Scan

open Scan in
/-- The token that begins with the character `c` and may go on into `cs`. Model of `next_token`. -/
def scan (c : Char) (cs : List Char) : Finding :=
  if isSpace c then .token .whitespace (countWhile isSpace cs)
  else if c == '/' then slash cs
  else if c == '"' then doubleQuote cs
  else if c == '\'' then quotedLiteral '\'' .charLiteral "character" cs
  else if Unicode.isDigit c then number c cs
  else if c == '.' && cs.head?.any Unicode.isDigit then number c cs
  else if isNameStart c then Scan.name c cs
  else symbol c cs

end Stencil
