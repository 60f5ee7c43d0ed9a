import Stencil.Diagnostic
import Stencil.Token.Source
import Stencil.Tree

/-!
# Rules of the grammar

A rule reads code tokens from a position on. It has the whole stream, blanks and comments included, and
finds the code tokens through the table of their indices. It ends with a result or with a mistake, and in both
cases at a position. Rules are put together from the few in this file, of which only `advance` moves
the position forward and only `attempt` and `returnTo` move it back.

Results: a rule that has failed under `attempt` leaves the position where it was (`attempt_error`).
-/

namespace Stencil

/-- A text as the grammar has it, with all its tokens, and the name of the class whose calls are
intrinsic. -/
structure Script where
  /-- The tokens of the text, with the table of its code. -/
  source : Source
  /-- The class whose calls are intrinsic. -/
  receiver : String

namespace Script

/-- The script of a source. -/
def ofSource (s : Source) (receiver : String) : Script :=
  ⟨s, receiver⟩

/-- The number of code tokens. -/
def size (s : Script) : Nat :=
  s.source.code.size

/-- The code token at a position. Behind the last one there is only the end mark. -/
def word (s : Script) (position : Nat) : Lexeme :=
  match s.source.code[position]? with
  | some i => (s.source.tokenAt i).toLexeme
  | none => ⟨.eof, ""⟩

/-- The kind of the code token at a position. -/
def kind (s : Script) (position : Nat) : Kind :=
  (s.word position).kind

/-- The kind of the code token before a position. -/
def kindBefore (s : Script) (position : Nat) : Option Kind :=
  if position = 0 then none
  else s.source.code[position - 1]?.map fun i => (s.source.tokenAt i).kind

end Script

/-! ## Mistakes -/

/-- Why a rule fails at the token at which it stops. -/
inductive Mistake where
  /-- A token of another kind should stand here. -/
  | expected (kind : Kind)
  /-- A name should stand here. -/
  | expectedIdentifier
  /-- A type should stand here. -/
  | expectedType
  /-- A declaration of a type should stand here. -/
  | expectedDeclaration
  /-- The value of a field should stand here. -/
  | expectedInitializer
  /-- The token does not open a group. -/
  | unexpected
  /-- Type parameters stand in front of a field. -/
  | strayTypeParams
  /-- The brackets opened at a position are closed by the wrong bracket. -/
  | unclosed (delimiter : Delimiter) (opened : Nat)
  /-- The text ends too early. -/
  | endOfText
  /-- The allowance for nested and repeated rules is used up. It exceeds the number of code tokens,
  and each nested or repeated rule takes one, so this does not happen. -/
  | exhausted
deriving DecidableEq, Repr

/-- What the author of the text is told about a mistake at a position. -/
def Mistake.diagnostic (source : Source) (position : Nat) (m : Mistake) : Diagnostic :=
  let token := source.codeToken position
  let found := token.kind.description
  match m with
  | .expected kind => .expectedToken token.span kind.description found
  | .expectedIdentifier => .expectedIdentifier token.span found
  | .expectedType => .expectedType token.span found
  | .expectedDeclaration =>
    ⟨.expectedDeclaration, token.span, "expected class, interface or enum, found " ++ found⟩
  | .expectedInitializer => ⟨.unexpectedToken, token.span, "expected initializer, found " ++ found⟩
  | .unexpected => .unexpectedToken token.span found
  | .strayTypeParams =>
    ⟨.unexpectedToken, token.span, "type parameters are only allowed on methods and constructors"⟩
  | .unclosed delimiter opened =>
    ⟨.mismatchedDelimiter, token.span,
      "expected " ++ delimiter.closing.description ++ " to close " ++ delimiter.opening.description
        ++ " at " ++ (source.spanAt opened).display ++ ", found " ++ found⟩
  | .endOfText => .unexpectedEnd token.span
  | .exhausted => ⟨.unsupported, token.span, "nesting too deep"⟩

/-! ## Rules -/

/-- A rule of the grammar: from a script and a position to a result or a mistake, and the position
reached. Model of `Parser`. -/
abbrev Rule (α : Type) := ReaderT Script (EStateM Mistake Nat) α

namespace Rule

variable {α : Type}

/-- The outcome of a rule from a position on. -/
def run (r : Rule α) (s : Script) (position : Nat) : EStateM.Result Mistake Nat α :=
  r s position

/-- The current position. Model of `mark`. -/
def position : Rule Nat :=
  fun _ p => .ok p p

/-- The code token so many tokens ahead. Model of `peek_nth`. -/
def peekNth (n : Nat) : Rule Lexeme :=
  fun s p => .ok (s.word (p + n)) p

/-- The current code token. Model of `peek`. -/
def peek : Rule Lexeme :=
  peekNth 0

/-- The kind of the current code token. -/
def kind : Rule Kind := do
  return (← peek).kind

/-- The kind of the code token before the current one. Model of `previous_kind`. -/
def previousKind : Rule (Option Kind) :=
  fun s p => .ok (s.kindBefore p) p

/-- Is the current token of the given kind? Model of `check`. -/
def check (k : Kind) : Rule Bool := do
  return (← kind) == k

/-- Is the token so many tokens ahead of the given kind? Model of `check_nth`. -/
def checkNth (n : Nat) (k : Kind) : Rule Bool := do
  return (← peekNth n).kind == k

/-- Is the current token the given name? Model of `check_contextual`. -/
def checkName (name : String) : Rule Bool := do
  let w ← peek
  return w.kind == .identifier && w.text == name

/-- Is the end of the text reached? Model of `is_eof`. -/
def atEnd : Rule Bool :=
  check .eof

/-- Goes on to the next code token. The end of the text is not passed. Model of `advance`. -/
def advance : Rule Unit :=
  fun s p => .ok () (if p < s.size then p + 1 else p)

/-- Passes the current token if it is of the given kind. Model of `eat`. -/
def eat (k : Kind) : Rule Bool := do
  if ← check k then
    advance
    return true
  else
    return false

/-- Fails at the current token. At the end of the text that is always the mistake.
Model of `error_here`. -/
def failHere (m : Mistake) : Rule α := do
  if ← atEnd then throw .endOfText else throw m

/-- Passes the current token, which must be of the given kind. Model of `expect`. -/
def expect (k : Kind) : Rule Unit := do
  if ← check k then advance else failHere (.expected k)

/-- Passes the current token, which must be a name. Model of `expect_ident`. -/
def identifier : Rule Ident := do
  let w ← peek
  let p ← position
  if w.kind == .identifier then
    advance
    return ⟨w.text, p⟩
  else
    failHere .expectedIdentifier

/-- The code tokens from a position up to the current one. Model of `range_from`. -/
def extentFrom (start : Nat) : Rule Extent := do
  return ⟨start, ← position⟩

/-- Goes back to an earlier position. Model of `reset`. -/
def returnTo (start : Nat) : Rule Unit :=
  fun _ _ => .ok () start

/-- The result of a rule, or no result and the position unchanged if the rule fails.
Model of `try_parse`. -/
def attempt (r : Rule α) : Rule (Option α) :=
  fun s p =>
    match r s p with
    | .ok a q => .ok (some a) q
    | .error _ _ => .ok none p

theorem attempt_error {r : Rule α} {s : Script} {p q : Nat} {m : Mistake}
    (h : r.run s p = .error m q) : (attempt r).run s p = .ok none p := by
  unfold run at h
  simp [run, attempt, h]

/-- The rule if the condition holds, else no result. -/
def when (condition : Bool) (r : Rule α) : Rule (Option α) :=
  if condition then some <$> r else pure none

/-- The results of a rule that is repeated while the condition holds, at most so many times. -/
def repeatAtMost (more : Rule Bool) (item : Rule α) : Nat → Rule (List α)
  | 0 => throw .exhausted
  | n + 1 => do
    if ← more then
      let a ← item
      let rest ← repeatAtMost more item n
      return a :: rest
    else
      return []

/-- The results of a rule that is repeated while the condition holds. Each round passes a token, so
there are no more rounds than tokens. -/
def manyWhile (more : Rule Bool) (item : Rule α) : Rule (List α) :=
  fun s p => repeatAtMost more item (s.size + 1 - p) s p

/-- One or more results of a rule, with a token of the given kind between them. -/
def sepBy (separator : Kind) (item : Rule α) : Rule (List α) := do
  let first ← item
  let rest ← manyWhile (eat separator) item
  return first :: rest

end Rule

end Stencil
