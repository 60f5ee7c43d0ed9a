/-!
# Kinds of tokens

The closed list of the kinds of tokens that a template is made of, what each kind is called in
messages, how keywords and symbols are spelled, and the families of kinds that the grammar asks for.

Results: every kind is listed in `Kind.all` (`Kind.mem_all`), and a spelled kind is described by its
spelling between quotes (`Kind.description_of_spelling`).
-/

namespace Stencil

/-- The kind of a token. Keywords have names that begin with `kw`. Model of `TokenKind`. -/
inductive Kind where
  -- blanks and comments
  | whitespace | lineComment | blockComment | docComment
  -- literals and names
  | intLiteral | floatLiteral | charLiteral | stringLiteral | textBlock | identifier
  -- keywords
  | kwBoolean | kwByte | kwChar | kwShort | kwInt | kwLong | kwFloat | kwDouble | kwVoid | kwTrue
  | kwFalse | kwNull | kwThis | kwSuper | kwPackage | kwImport | kwClass | kwInterface | kwEnum
  | kwExtends | kwImplements | kwThrows | kwPublic | kwProtected | kwPrivate | kwStatic
  | kwAbstract | kwFinal | kwNative | kwSynchronized | kwTransient | kwVolatile | kwStrictfp
  | kwDefault | kwIf | kwElse | kwFor | kwWhile | kwDo | kwSwitch | kwCase | kwBreak | kwContinue
  | kwReturn | kwThrow | kwTry | kwCatch | kwFinally | kwNew | kwInstanceof | kwAssert | reserved
  -- operators
  | equal | equalEqual | bang | bangEqual | less | lessEqual | lessLess | lessLessEqual | greater
  | plus | plusEqual | plusPlus | minus | minusEqual | minusMinus | arrow | star | starEqual
  | slash | slashEqual | percent | percentEqual | amp | ampEqual | ampAmp | pipe | pipeEqual
  | pipePipe | caret | caretEqual | tilde | question | colon | colonColon
  -- punctuation
  | leftParen | rightParen | leftBracket | rightBracket | leftBrace | rightBrace | semicolon
  | comma | dot | ellipsis | at
  -- the end of the text, and text that is no token
  | eof | error
deriving DecidableEq, Repr, Inhabited

/-- The three streams that tokens are sorted into. -/
inductive Channel where
  /-- Tokens that the grammar sees. -/
  | code
  /-- Blanks and line ends. -/
  | whitespace
  /-- Comments of all forms. -/
  | comment
deriving DecidableEq, Repr

namespace Kind

/-- The kinds of the primitive types, `void` among them. -/
def primitiveTypes : List Kind :=
  [.kwBoolean, .kwByte, .kwChar, .kwShort, .kwInt, .kwLong, .kwFloat, .kwDouble, .kwVoid]

/-- The kinds of the keywords, in the order of the list of kinds. -/
def keywordKinds : List Kind :=
  [.kwBoolean, .kwByte, .kwChar, .kwShort, .kwInt, .kwLong, .kwFloat, .kwDouble, .kwVoid, .kwTrue,
   .kwFalse, .kwNull, .kwThis, .kwSuper, .kwPackage, .kwImport, .kwClass, .kwInterface, .kwEnum,
   .kwExtends, .kwImplements, .kwThrows, .kwPublic, .kwProtected, .kwPrivate, .kwStatic,
   .kwAbstract, .kwFinal, .kwNative, .kwSynchronized, .kwTransient, .kwVolatile, .kwStrictfp,
   .kwDefault, .kwIf, .kwElse, .kwFor, .kwWhile, .kwDo, .kwSwitch, .kwCase, .kwBreak, .kwContinue,
   .kwReturn, .kwThrow, .kwTry, .kwCatch, .kwFinally, .kwNew, .kwInstanceof, .kwAssert]

/-- The kinds of operators and punctuation. -/
def symbolKinds : List Kind :=
  [.equal, .equalEqual, .bang, .bangEqual, .less, .lessEqual, .lessLess, .lessLessEqual, .greater,
   .plus, .plusEqual, .plusPlus, .minus, .minusEqual, .minusMinus, .arrow, .star, .starEqual,
   .slash, .slashEqual, .percent, .percentEqual, .amp, .ampEqual, .ampAmp, .pipe, .pipeEqual,
   .pipePipe, .caret, .caretEqual, .tilde, .question, .colon, .colonColon, .leftParen, .rightParen,
   .leftBracket, .rightBracket, .leftBrace, .rightBrace, .semicolon, .comma, .dot, .ellipsis, .at]

/-- Every kind, in the order of the list of kinds. -/
def all : List Kind :=
  [.whitespace, .lineComment, .blockComment, .docComment, .intLiteral, .floatLiteral, .charLiteral,
   .stringLiteral, .textBlock, .identifier]
    ++ keywordKinds ++ [.reserved] ++ symbolKinds ++ [.eof, .error]

theorem mem_all (k : Kind) : k ∈ all := by
  cases k <;> decide

/-- The text of a keyword or a symbol. The other kinds stand for many texts, or for none. -/
def spelling : Kind → Option String
  | .kwBoolean => some "boolean"
  | .kwByte => some "byte"
  | .kwChar => some "char"
  | .kwShort => some "short"
  | .kwInt => some "int"
  | .kwLong => some "long"
  | .kwFloat => some "float"
  | .kwDouble => some "double"
  | .kwVoid => some "void"
  | .kwTrue => some "true"
  | .kwFalse => some "false"
  | .kwNull => some "null"
  | .kwThis => some "this"
  | .kwSuper => some "super"
  | .kwPackage => some "package"
  | .kwImport => some "import"
  | .kwClass => some "class"
  | .kwInterface => some "interface"
  | .kwEnum => some "enum"
  | .kwExtends => some "extends"
  | .kwImplements => some "implements"
  | .kwThrows => some "throws"
  | .kwPublic => some "public"
  | .kwProtected => some "protected"
  | .kwPrivate => some "private"
  | .kwStatic => some "static"
  | .kwAbstract => some "abstract"
  | .kwFinal => some "final"
  | .kwNative => some "native"
  | .kwSynchronized => some "synchronized"
  | .kwTransient => some "transient"
  | .kwVolatile => some "volatile"
  | .kwStrictfp => some "strictfp"
  | .kwDefault => some "default"
  | .kwIf => some "if"
  | .kwElse => some "else"
  | .kwFor => some "for"
  | .kwWhile => some "while"
  | .kwDo => some "do"
  | .kwSwitch => some "switch"
  | .kwCase => some "case"
  | .kwBreak => some "break"
  | .kwContinue => some "continue"
  | .kwReturn => some "return"
  | .kwThrow => some "throw"
  | .kwTry => some "try"
  | .kwCatch => some "catch"
  | .kwFinally => some "finally"
  | .kwNew => some "new"
  | .kwInstanceof => some "instanceof"
  | .kwAssert => some "assert"
  | .equal => some "="
  | .equalEqual => some "=="
  | .bang => some "!"
  | .bangEqual => some "!="
  | .less => some "<"
  | .lessEqual => some "<="
  | .lessLess => some "<<"
  | .lessLessEqual => some "<<="
  | .greater => some ">"
  | .plus => some "+"
  | .plusEqual => some "+="
  | .plusPlus => some "++"
  | .minus => some "-"
  | .minusEqual => some "-="
  | .minusMinus => some "--"
  | .arrow => some "->"
  | .star => some "*"
  | .starEqual => some "*="
  | .slash => some "/"
  | .slashEqual => some "/="
  | .percent => some "%"
  | .percentEqual => some "%="
  | .amp => some "&"
  | .ampEqual => some "&="
  | .ampAmp => some "&&"
  | .pipe => some "|"
  | .pipeEqual => some "|="
  | .pipePipe => some "||"
  | .caret => some "^"
  | .caretEqual => some "^="
  | .tilde => some "~"
  | .question => some "?"
  | .colon => some ":"
  | .colonColon => some "::"
  | .leftParen => some "("
  | .rightParen => some ")"
  | .leftBracket => some "["
  | .rightBracket => some "]"
  | .leftBrace => some "\x7b"
  | .rightBrace => some "\x7d"
  | .semicolon => some ";"
  | .comma => some ","
  | .dot => some "."
  | .ellipsis => some "..."
  | .at => some "@"
  | _ => none

/-- What the kind is called in messages: keywords and symbols by their spelling, the rest in words.
Model of `description`. -/
def description (k : Kind) : String :=
  match k.spelling with
  | some text => "'" ++ text ++ "'"
  | none =>
    match k with
    | .whitespace => "whitespace"
    | .lineComment | .blockComment => "comment"
    | .docComment => "doc comment"
    | .intLiteral => "integer literal"
    | .floatLiteral => "floating-point literal"
    | .charLiteral => "character literal"
    | .stringLiteral => "string literal"
    | .textBlock => "text block"
    | .reserved => "reserved keyword"
    | .eof => "end of file"
    | .error => "invalid token"
    | _ => "identifier"

theorem description_of_spelling {k : Kind} {text : String} (h : k.spelling = some text) :
    k.description = "'" ++ text ++ "'" := by
  simp [description, h]

/-- The name of the kind in listings of tokens. -/
def label : Kind → String
  | .whitespace => "Whitespace"
  | .lineComment => "LineComment"
  | .blockComment => "BlockComment"
  | .docComment => "DocComment"
  | .intLiteral => "IntLiteral"
  | .floatLiteral => "FloatLiteral"
  | .charLiteral => "CharLiteral"
  | .stringLiteral => "StringLiteral"
  | .textBlock => "TextBlock"
  | .identifier => "Identifier"
  | .kwBoolean => "Boolean"
  | .kwByte => "Byte"
  | .kwChar => "Char"
  | .kwShort => "Short"
  | .kwInt => "Int"
  | .kwLong => "Long"
  | .kwFloat => "Float"
  | .kwDouble => "Double"
  | .kwVoid => "Void"
  | .kwTrue => "True"
  | .kwFalse => "False"
  | .kwNull => "Null"
  | .kwThis => "This"
  | .kwSuper => "Super"
  | .kwPackage => "Package"
  | .kwImport => "Import"
  | .kwClass => "Class"
  | .kwInterface => "Interface"
  | .kwEnum => "Enum"
  | .kwExtends => "Extends"
  | .kwImplements => "Implements"
  | .kwThrows => "Throws"
  | .kwPublic => "Public"
  | .kwProtected => "Protected"
  | .kwPrivate => "Private"
  | .kwStatic => "Static"
  | .kwAbstract => "Abstract"
  | .kwFinal => "Final"
  | .kwNative => "Native"
  | .kwSynchronized => "Synchronized"
  | .kwTransient => "Transient"
  | .kwVolatile => "Volatile"
  | .kwStrictfp => "Strictfp"
  | .kwDefault => "Default"
  | .kwIf => "If"
  | .kwElse => "Else"
  | .kwFor => "For"
  | .kwWhile => "While"
  | .kwDo => "Do"
  | .kwSwitch => "Switch"
  | .kwCase => "Case"
  | .kwBreak => "Break"
  | .kwContinue => "Continue"
  | .kwReturn => "Return"
  | .kwThrow => "Throw"
  | .kwTry => "Try"
  | .kwCatch => "Catch"
  | .kwFinally => "Finally"
  | .kwNew => "New"
  | .kwInstanceof => "Instanceof"
  | .kwAssert => "Assert"
  | .reserved => "Reserved"
  | .equal => "Equal"
  | .equalEqual => "EqualEqual"
  | .bang => "Bang"
  | .bangEqual => "BangEqual"
  | .less => "Less"
  | .lessEqual => "LessEqual"
  | .lessLess => "LessLess"
  | .lessLessEqual => "LessLessEqual"
  | .greater => "Greater"
  | .plus => "Plus"
  | .plusEqual => "PlusEqual"
  | .plusPlus => "PlusPlus"
  | .minus => "Minus"
  | .minusEqual => "MinusEqual"
  | .minusMinus => "MinusMinus"
  | .arrow => "Arrow"
  | .star => "Star"
  | .starEqual => "StarEqual"
  | .slash => "Slash"
  | .slashEqual => "SlashEqual"
  | .percent => "Percent"
  | .percentEqual => "PercentEqual"
  | .amp => "Amp"
  | .ampEqual => "AmpEqual"
  | .ampAmp => "AmpAmp"
  | .pipe => "Pipe"
  | .pipeEqual => "PipeEqual"
  | .pipePipe => "PipePipe"
  | .caret => "Caret"
  | .caretEqual => "CaretEqual"
  | .tilde => "Tilde"
  | .question => "Question"
  | .colon => "Colon"
  | .colonColon => "ColonColon"
  | .leftParen => "LeftParen"
  | .rightParen => "RightParen"
  | .leftBracket => "LeftBracket"
  | .rightBracket => "RightBracket"
  | .leftBrace => "LeftBrace"
  | .rightBrace => "RightBrace"
  | .semicolon => "Semicolon"
  | .comma => "Comma"
  | .dot => "Dot"
  | .ellipsis => "Ellipsis"
  | .at => "At"
  | .eof => "Eof"
  | .error => "Error"

/-- The kind of the given name. -/
def ofLabel? (name : String) : Option Kind :=
  all.find? fun k => k.label == name

/-- The stream that tokens of the kind belong to. Model of `channel`. -/
def channel : Kind → Channel
  | .whitespace => .whitespace
  | .lineComment | .blockComment | .docComment => .comment
  | _ => .code

/-- Does the grammar see tokens of this kind? -/
def isCode (k : Kind) : Bool :=
  k.channel == .code

/-- A keyword that names a primitive type, or `void`. Model of `is_primitive_type`. -/
def isPrimitiveType (k : Kind) : Bool :=
  primitiveTypes.contains k

/-- A keyword that modifies a declaration. Model of `is_modifier`. -/
def isModifier : Kind → Bool
  | .kwPublic | .kwProtected | .kwPrivate | .kwStatic | .kwAbstract | .kwFinal | .kwNative
  | .kwSynchronized | .kwTransient | .kwVolatile | .kwStrictfp | .kwDefault => true
  | _ => false

/-- A literal of any form, the three literal keywords among them. Model of `is_literal`. -/
def isLiteral : Kind → Bool
  | .intLiteral | .floatLiteral | .charLiteral | .stringLiteral | .textBlock | .kwTrue | .kwFalse
  | .kwNull => true
  | _ => false

/-- An opening bracket. Model of `is_open_delimiter`. -/
def isOpenDelimiter : Kind → Bool
  | .leftParen | .leftBracket | .leftBrace => true
  | _ => false

/-- A closing bracket. Model of `is_close_delimiter`. -/
def isCloseDelimiter : Kind → Bool
  | .rightParen | .rightBracket | .rightBrace => true
  | _ => false

/-- The keywords with their spellings. Two reserved words have no meaning of their own. -/
def keywords : List (String × Kind) :=
  keywordKinds.filterMap (fun k => k.spelling.map (·, k))
    ++ [("const", .reserved), ("goto", .reserved)]

/-- The kind of a word that is a keyword. Model of `lookup_keyword`. -/
def ofKeyword? (word : String) : Option Kind :=
  keywords.lookup word

end Kind

end Stencil
