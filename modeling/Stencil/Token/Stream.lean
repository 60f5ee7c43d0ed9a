import Stencil.Token.Scan

/-!
# The tokens of a text

A text is cut into pieces, each of them what `scan` finds at the first character behind the piece
before. The pieces laid out from the first place of the text on are its tokens. A `Reader` gives the
same tokens one at a time.

Results: the pieces lose nothing (`flatMap_chars_pieces`), and cutting in the middle of a piece is
cutting behind it (`pieces_eq_drop`).
-/

namespace Stencil

/-- A stretch of text that was cut off as one token. -/
structure Piece where
  /-- The kind of the token, or what is wrong with the text. -/
  verdict : Except Flaw Kind
  /-- The text. -/
  chars : List Char

namespace Piece

/-- The piece that begins with a character. -/
def ofScan (c : Char) (cs : List Char) : Piece :=
  let f := scan c cs
  ⟨f.verdict, c :: cs.take f.more⟩

/-- The kind of the piece. Flawed text has a kind of its own. -/
def kind (p : Piece) : Kind :=
  match p.verdict with
  | .ok k => k
  | .error _ => .error

/-- The token that the piece is at a place. Model of `make_token`. -/
def token (p : Piece) (place : Place) : Token :=
  { kind := p.kind, text := String.ofList p.chars, span := place.spanOf p.chars }

/-- The problem that the piece gives rise to at a place, if it has a flaw. -/
def problem? (p : Piece) (place : Place) : Option LexicalProblem :=
  match p.verdict with
  | .ok _ => none
  | .error flaw => some ⟨flaw, place.spanOf p.chars⟩

end Piece

/-- The pieces of a text, once the given number of characters is passed over. -/
def pieces : Nat → List Char → List Piece
  | _, [] => []
  | k + 1, _ :: cs => pieces k cs
  | 0, c :: cs => Piece.ofScan c cs :: pieces (scan c cs).more cs

theorem pieces_eq_drop (k : Nat) (cs : List Char) : pieces k cs = pieces 0 (cs.drop k) := by
  induction cs generalizing k with
  | nil => cases k <;> simp [pieces]
  | cons c cs ih =>
    cases k with
    | zero => rfl
    | succ k => simpa [pieces] using ih k

theorem flatMap_chars_pieces (k : Nat) (cs : List Char) :
    (pieces k cs).flatMap Piece.chars = cs.drop k := by
  induction cs generalizing k with
  | nil => cases k <;> simp [pieces]
  | cons c cs ih =>
    cases k with
    | zero => simp [pieces, ih, Piece.ofScan]
    | succ k => simpa [pieces] using ih k

/-- The pieces with the places at which they begin. -/
def layOut : Place → List Piece → List (Piece × Place)
  | _, [] => []
  | place, p :: ps => (p, place) :: layOut (place.after p.chars) ps

/-- The tokens of a text, the empty token that marks its end, and what is wrong with it.
Model of `tokenize`. -/
structure Stream where
  /-- The tokens in order. Their texts make up the whole text. -/
  tokens : List Token
  /-- The token behind the last one. -/
  stop : Token
  /-- The flaws of the text in order. -/
  problems : List LexicalProblem

namespace Stream

/-- The stream of a list of characters. -/
def ofChars (cs : List Char) : Stream :=
  let placed := layOut .start (pieces 0 cs)
  { tokens := placed.map fun p => p.1.token p.2
    stop := (Place.start.after cs).endToken
    problems := placed.filterMap fun p => p.1.problem? p.2 }

/-- The stream of a text. Model of `tokenize`. -/
def ofString (text : String) : Stream :=
  ofChars text.toList

/-- All tokens, the end mark last. -/
def all (s : Stream) : List Token :=
  s.tokens ++ [s.stop]

end Stream

/-- A text that is being read token by token. Model of `Lexer`. -/
structure Reader where
  /-- What is still to be read. -/
  rest : List Char
  /-- The place that has been reached. -/
  place : Place
  /-- The flaws found and not yet taken. -/
  problems : List LexicalProblem
  /-- Has the end mark been handed out? -/
  ended : Bool

namespace Reader

/-- A reader at the beginning of a text. -/
def ofString (text : String) : Reader :=
  ⟨text.toList, .start, [], false⟩

/-- The next token. At the end of the text it is the end mark, again and again.
Model of `next_token`. -/
def token (r : Reader) : Token × Reader :=
  match r.rest with
  | [] => (r.place.endToken, { r with ended := true })
  | c :: cs =>
    let p := Piece.ofScan c cs
    (p.token r.place,
      { r with
        rest := cs.drop (scan c cs).more
        place := r.place.after p.chars
        problems := r.problems ++ (p.problem? r.place).toList })

/-- The next token before the end mark. Once the end mark has been handed out there is none.
Model of `next`. -/
def next? (r : Reader) : Option Token × Reader :=
  if r.ended then (none, r)
  else
    let (t, r') := r.token
    (if t.kind = .eof then none else some t, r')

/-- Have flaws been found since they were last taken? Model of `has_errors`. -/
def hasProblems (r : Reader) : Bool :=
  !r.problems.isEmpty

/-- The flaws found since they were last taken. Model of `take_errors`. -/
def takeProblems (r : Reader) : List LexicalProblem × Reader :=
  (r.problems, { r with problems := [] })

end Reader

end Stencil
