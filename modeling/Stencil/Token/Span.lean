/-!
# Places in a text and runs of tokens

A `Span` says where a token stands: its line, its column and its length, lines and columns counted
from one, columns and lengths in bytes. A `TokenRange` is a half-open run of tokens, given by the
index of its first token and the index after its last.
-/

namespace Stencil

/-- Where a token or a problem stands in a text. The numbers have no bounds here, where `Span` keeps them in
words of 32 bits; `Span.Fits` tells which of them such words hold. -/
structure Span where
  /-- The line, counted from one. -/
  line : Nat
  /-- The column in bytes, counted from one. -/
  column : Nat
  /-- The length in bytes. -/
  length : Nat
deriving DecidableEq, Repr, Inhabited

namespace Span

/-- The span without extent at a place. Model of `point`. -/
def point (line column : Nat) : Span :=
  ⟨line, column, 0⟩

/-- Does the span have no extent? Model of `is_empty`. -/
def isEmpty (s : Span) : Bool :=
  s.length == 0

/-- Line and column, with a colon between them. -/
def display (s : Span) : String :=
  toString s.line ++ ":" ++ toString s.column

end Span

/-- The tokens from index `start` up to, and without, index `stop`. -/
structure TokenRange where
  /-- The index of the first token. -/
  start : Nat
  /-- The index after the last token. -/
  stop : Nat
deriving DecidableEq, Repr, Inhabited

namespace TokenRange

/-- The range of one token. Model of `single`. -/
def single (index : Nat) : TokenRange :=
  ⟨index, index + 1⟩

/-- Does the range hold no token? Model of `is_empty`. -/
def isEmpty (r : TokenRange) : Bool :=
  r.stop ≤ r.start

/-- The number of tokens in the range. Model of `len`. -/
def size (r : TokenRange) : Nat :=
  r.stop - r.start

/-- Does the other range lie within this one? Model of `contains`. -/
def contains (r other : TokenRange) : Bool :=
  r.start ≤ other.start && other.stop ≤ r.stop

/-- Do the two ranges overlap? Ranges that only touch do not. Model of `overlaps`. -/
def overlaps (r other : TokenRange) : Bool :=
  r.start < other.stop && other.start < r.stop

/-- The least range that holds both. Model of `cover`. -/
def cover (r other : TokenRange) : TokenRange :=
  ⟨min r.start other.start, max r.stop other.stop⟩

/-- Ranges are ordered by their first token, then by their end. -/
def order (r other : TokenRange) : Ordering :=
  (compare r.start other.start).then (compare r.stop other.stop)

/-- The two indices, with two dots between them. -/
def bounds (r : TokenRange) : String :=
  toString r.start ++ ".." ++ toString r.stop

/-- The range in words. -/
def display (r : TokenRange) : String :=
  "tokens " ++ r.bounds

end TokenRange

end Stencil
