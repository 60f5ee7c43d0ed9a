import Stencil.Grammar.Declarations

/-!
# Rules for bodies

Bodies are not taken apart into statements and expressions. Their rule finds bracketed groups,
names, type declarations, intrinsic calls, and generic types. A generic type and a comparison begin
alike, so a type is tried first and taken only where a type can stand.
-/

namespace Stencil.Grammar

open Rule

variable (g : Nested)

/-! ## Intrinsic calls -/

/-- Does an intrinsic call follow? That is the name of the intrinsics class, not as a part of a
longer name, with a dot and either a method call or type arguments behind it.
Model of `try_intrinsic`. -/
def intrinsicFollows : Rule Bool := do
  let receiver := (← read).receiver
  if (← peek).text == receiver && (← checkNth 1 .dot) && (← previousKind) != some .dot then
    match (← peekNth 2).kind with
    | .identifier => checkNth 3 .leftParen
    | .less => return true
    | _ => return false
  else
    return false

/-- `'(' (Expr (',' Expr)*)? ')'`. Model of `parse_call_args`. -/
def callArgs : Rule (List Expr) := do
  expect .leftParen
  let args ← if ← check .rightParen then pure [] else sepBy .comma (expr g)
  expect .rightParen
  return args

/-- `Receiver '.' TypeArgs? Name CallArgs`. Model of `try_intrinsic`. -/
def intrinsicCall : Rule IntrinsicCall := do
  let start ← position
  let receiver ← identifier
  expect .dot
  let hint ← optionalTypeArgs g
  let name ← identifier
  let args ← callArgs g
  return ⟨receiver, hint, name, args, ← extentFrom start⟩

/-! ## Generic types -/

/-- Can a token of this kind stand behind a generic type? Model of `can_follow_type`. -/
def canFollowType : Kind → Bool
  | .rightParen | .leftBracket | .rightBracket | .dot | .colonColon | .comma | .semicolon
  | .leftBrace | .rightBrace | .identifier | .ellipsis | .amp | .colon | .equal | .leftParen => true
  | _ => false

/-- A class with type arguments and array dimensions that stands where a type can stand. Behind
`instanceof` and `new` every type is one; elsewhere the token behind it decides. -/
def genericType : Rule TypeExpr := do
  let start ← position
  let previous ← previousKind
  let base ← classType g
  if base.hasTypeArgs then
    let dims ← dims
    if previous == some .kwInstanceof || previous == some .kwNew || canFollowType (← kind) then
      return ⟨base.annotations, base.core, dims, ← extentFrom start⟩
    else
      throw .expectedType
  else
    throw .expectedType

/-- A generic type, if one stands here and is no part of a longer name. Model of `try_body_type`. -/
def genericType? : Rule (Option TypeExpr) := do
  if (← previousKind) == some .dot then
    return none
  else if (← checkNth 1 .less) || (← checkNth 1 .dot) then
    attempt (genericType g)
  else
    return none

/-! ## Elements -/

/-- What is made by `new`: `TypeArgs? (Primitive | ClassType (Args ClassBody?)?)`. Array dimensions
and initial values are elements of their own. Model of `parse_creator`. -/
def creator : Rule (List Elem) := do
  let typeArgs ← optionalTypeArgs g
  let hint := (typeArgs.map Elem.typeArgs).toList
  if (← kind).isPrimitiveType then
    return hint
  else if ← check .identifier then
    let made ← classType g
    let args ← optionalGroup g .leftParen
    let body ← when (args.isSome && (← check .leftBrace)) (g.classBody false)
    return hint ++ .type made :: (args.map Elem.group).toList ++ (body.map Elem.anonymous).toList
  else
    throw .expectedType

/-- A name: an intrinsic call or a generic type if one begins with it, else the name alone. -/
def namedElem : Rule Elem := do
  if ← intrinsicFollows then
    .intrinsic <$> intrinsicCall g
  else
    match ← genericType? g with
    | some t => return .type t
    | none => .ident <$> identifier

/-- A token without further meaning. -/
def plainToken : Rule Elem := do
  let p ← position
  advance
  return .token p

/-- The next element, or the few that belong to one `new`. Model of `parse_elem`. -/
def elem : Rule (List Elem) := do
  let k ← kind
  if k.isOpenDelimiter then
    return [.group (← group g)]
  else if k == .kwNew then
    let first ← plainToken
    return first :: (← creator g)
  else if (k == .kwClass || k == .kwInterface || k == .kwEnum)
      && (← previousKind) != some .dot then
    let start ← position
    return [.localType (← typeDeclFrom g start ⟨[], []⟩)]
  else if k == .dot && (← checkNth 1 .less) then
    let first ← plainToken
    return [first, .typeArgs (← typeArgs g)]
  else if k == .identifier then
    return [← namedElem g]
  else
    return [← plainToken]

/-- Does an element follow, and not the end of the elements? -/
def elemFollows (untilSeparator : Bool) : Rule Bool := do
  let k ← kind
  return !(k == .eof || k.isCloseDelimiter || (untilSeparator && (k == .comma || k == .semicolon)))

/-- The elements up to a closing bracket or, if it says so, up to a comma or a semicolon.
Model of `parse_elems`. -/
def elems (untilSeparator : Bool) : Rule (List Elem) := do
  return (← manyWhile (elemFollows untilSeparator) (elem g)).flatten

end Stencil.Grammar
