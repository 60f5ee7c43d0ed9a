import Stencil.Token.Stream

/-!
# A text ready for the grammar

The grammar sees only code: tokens that are neither blanks nor comments. A `Source` keeps the whole
stream and beside it the indices of the code tokens. The *position* of a code token is its number in
that list; `Source.index` leads from positions back to indices of the stream, and `Source.range` from
runs of code tokens to runs of the stream. Positions from the number of code tokens on stand for the
end of the text.
-/

namespace Stencil

/-- The code tokens from position `first` up to, and without, position `stop`. -/
structure Extent where
  /-- The position of the first code token. -/
  first : Nat
  /-- The position after the last code token. -/
  stop : Nat
deriving DecidableEq, Repr, Inhabited

/-- A stream of tokens with a table of its code. -/
structure Source where
  /-- The tokens of the text, without the end mark. -/
  tokens : Array Token
  /-- The end mark. -/
  stop : Token
  /-- What is wrong with the text. -/
  problems : List LexicalProblem
  /-- The indices of the code tokens in ascending order. -/
  code : Array Nat

namespace Source

/-- The indices of the code tokens of a stream, counted from the given number on. -/
def codeIndices : Nat → List Token → List Nat
  | _, [] => []
  | n, t :: ts => if t.isCode then n :: codeIndices (n + 1) ts else codeIndices (n + 1) ts

/-- The source of a stream. -/
def ofStream (s : Stream) : Source :=
  { tokens := s.tokens.toArray
    stop := s.stop
    problems := s.problems
    code := (codeIndices 0 s.tokens).toArray }

/-- The source of a text. -/
def ofString (text : String) : Source :=
  ofStream (Stream.ofString text)

/-- The number of tokens, the end mark included. -/
def size (s : Source) : Nat :=
  s.tokens.size + 1

/-- The token of an index. Behind the last token there is only the end mark. -/
def tokenAt (s : Source) (index : Nat) : Token :=
  s.tokens[index]?.getD s.stop

/-- The index in the stream of the code token at a position. -/
def index (s : Source) (position : Nat) : Nat :=
  s.code[position]?.getD s.tokens.size

/-- The code token at a position, or the end mark. -/
def codeToken (s : Source) (position : Nat) : Token :=
  s.tokenAt (s.index position)

/-- The span of the code token at a position. Model of `span_of`. -/
def spanAt (s : Source) (position : Nat) : Span :=
  (s.codeToken position).span

/-- The tokens of the stream from the first code token of an extent to its last one. An extent
without code tokens becomes the empty range in front of the token at which it begins. -/
def range (s : Source) (e : Extent) : TokenRange :=
  ⟨s.index e.first, if e.first < e.stop then s.index (e.stop - 1) + 1 else s.index e.first⟩

/-- The range of the single code token at a position. -/
def single (s : Source) (position : Nat) : TokenRange :=
  .single (s.index position)

/-- All tokens, the end mark included. -/
def whole (s : Source) : TokenRange :=
  ⟨0, s.size⟩

/-- The code tokens without their spans. -/
def words (s : Source) : Array Lexeme :=
  s.code.map fun i => (s.tokenAt i).toLexeme

/-- The text that the tokens of a range make up. The range is cut off at the end of the stream.
Model of `text`. -/
def text (s : Source) (range : TokenRange) : String :=
  String.join ((s.tokens.extract range.start range.stop).toList.map (·.text))

end Source

end Stencil
