import Stencil.Grammar.Rule

/-!
# Rules for names, annotations, groups and types

Annotations have arguments, arguments hold types, and types are annotated. The rules of the grammar
are therefore written over `Nested`, the rules for what stands inside brackets: each of them is
entered only behind a token that the entering rule has passed.
-/

namespace Stencil.Grammar

open Rule

/-- The rules for nested text. -/
structure Nested where
  /-- A type inside another one. -/
  type : Rule TypeExpr
  /-- The elements up to a closing bracket, or up to a separator if it says so. -/
  elems : (untilSeparator : Bool) → Rule (List Elem)
  /-- The body of a type, which may be an enumeration. -/
  classBody : (isEnum : Bool) → Rule ClassBody

/-- Does a dot with a name behind it follow? -/
def dotAndName : Rule Bool := do
  if ← check .dot then checkNth 1 .identifier else return false

/-- `Name ('.' Name)*`. Model of `parse_qualified_name`. -/
def qualifiedName : Rule QualifiedName := do
  let start ← position
  let first ← identifier
  let rest ← manyWhile dotAndName (do advance; identifier)
  return ⟨first :: rest, ← extentFrom start⟩

/-- The number of pairs of square brackets that follow. Model of `parse_dims`. -/
def dims : Rule Nat := do
  let pairs ← manyWhile
    (do if ← check .leftBracket then checkNth 1 .rightBracket else return false)
    (do advance; advance)
  return pairs.length

/-- Does an annotation follow? The declaration of an annotation type begins with the same token. -/
def annotationFollows : Rule Bool := do
  if ← check .at then return !(← checkNth 1 .kwInterface) else return false

variable (g : Nested)

/-- The elements between a pair of brackets. Model of `parse_group`. -/
def group : Rule Group := do
  let start ← position
  match Delimiter.ofOpening? (← kind) with
  | none => throw .unexpected
  | some delimiter =>
    advance
    let elems ← g.elems false
    if ← eat delimiter.closing then
      return ⟨delimiter, elems, ← extentFrom start⟩
    else
      failHere (.unclosed delimiter start)

/-- The elements up to a comma, a semicolon or a closing bracket.
Model of `parse_expr_until_separator`. -/
def expr : Rule Expr := do
  let start ← position
  let elems ← g.elems true
  return ⟨elems, ← extentFrom start⟩

/-- A group, if the current token is the given bracket. -/
def optionalGroup (opening : Kind) : Rule (Option Group) := do
  when (← check opening) (group g)

/-- `'@' QualifiedName ('(' … ')')?`. Model of `parse_annotation`. -/
def annotationUse : Rule AnnotationUse := do
  let start ← position
  expect .at
  let name ← qualifiedName
  let args ← optionalGroup g .leftParen
  return ⟨name, args, ← extentFrom start⟩

/-- All annotations that follow. Model of `parse_annotations`. -/
def annotations : Rule (List AnnotationUse) :=
  manyWhile annotationFollows (annotationUse g)

/-- `Type | '?' (('extends' | 'super') Type)?`. Model of `parse_type_arg`. -/
def typeArg : Rule TypeArg := do
  let start ← position
  if ← eat .question then
    if ← eat .kwExtends then
      let t ← g.type
      return .bounded .upper t (← extentFrom start)
    else if ← eat .kwSuper then
      let t ← g.type
      return .bounded .lower t (← extentFrom start)
    else
      return .wildcard (← extentFrom start)
  else
    return .type (← g.type)

/-- `'<' (TypeArg (',' TypeArg)*)? '>'`. Model of `parse_type_args`. -/
def typeArgs : Rule TypeArgs := do
  let start ← position
  expect .less
  let entries ← if ← check .greater then pure [] else sepBy .comma (typeArg g)
  expect .greater
  return ⟨entries, ← extentFrom start⟩

/-- Type arguments, if they follow. -/
def optionalTypeArgs : Rule (Option TypeArgs) := do
  when (← check .less) (typeArgs g)

/-- `Name TypeArgs?` -/
def typeSegment : Rule TypeSegment := do
  let name ← identifier
  return ⟨name, ← optionalTypeArgs g⟩

/-- `Name TypeArgs? ('.' Name TypeArgs?)*`. Model of `parse_class_segments`. -/
def typeSegments : Rule (List TypeSegment) := do
  let first ← typeSegment g
  let rest ← manyWhile dotAndName (do advance; typeSegment g)
  return first :: rest

/-- A class, without annotations and array dimensions. Model of `parse_class_type`. -/
def classType : Rule TypeExpr := do
  let start ← position
  let segments ← typeSegments g
  return ⟨[], .named segments, 0, ← extentFrom start⟩

/-- `Annotation* (Primitive | ClassType) ('[' ']')*`. Model of `parse_type`. -/
def type : Rule TypeExpr := do
  let start ← position
  let annotations ← annotations g
  let k ← kind
  let core ←
    if k.isPrimitiveType then do
      advance
      pure (TypeCore.primitive k)
    else if k == .identifier then
      TypeCore.named <$> typeSegments g
    else
      throw .expectedType
  let dims ← dims
  return ⟨annotations, core, dims, ← extentFrom start⟩

/-- Types with commas between them. Model of `parse_type_list`. -/
def typeList : Rule (List TypeExpr) :=
  sepBy .comma (type g)

/-- The types behind a keyword, none if the keyword does not follow. -/
def typesAfter (keyword : Kind) : Rule (List TypeExpr) := do
  if ← eat keyword then typeList g else return []

/-- `Annotation* Name ('extends' Type ('&' Type)*)?`. Model of `parse_type_param`. -/
def typeParam : Rule TypeParam := do
  let start ← position
  let annotations ← annotations g
  let name ← identifier
  let bounds ← if ← eat .kwExtends then sepBy .amp (type g) else pure []
  return ⟨annotations, name, bounds, ← extentFrom start⟩

/-- `'<' TypeParam (',' TypeParam)* '>'`. Model of `parse_type_params`. -/
def typeParams : Rule TypeParams := do
  let start ← position
  expect .less
  let entries ← sepBy .comma (typeParam g)
  expect .greater
  return ⟨entries, ← extentFrom start⟩

/-- Type parameters, if they follow. Model of `parse_optional_type_params`. -/
def optionalTypeParams : Rule (Option TypeParams) := do
  when (← check .less) (typeParams g)

end Stencil.Grammar
