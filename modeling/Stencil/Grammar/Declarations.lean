import Stencil.Grammar.Types

/-!
# Rules for declarations

Declarations of types and of their members: fields, methods, constructors, blocks and nested types.
-/

namespace Stencil.Grammar

open Rule

variable (g : Nested)

/-! ## Modifiers -/

/-- Does a modifier or an annotation follow? -/
def modifierFollows : Rule Bool := do
  if (← kind).isModifier then return true else annotationFollows

/-- One modifier, or one annotation. -/
def modifier : Rule (Kind ⊕ AnnotationUse) := do
  let k ← kind
  if k == .at then
    Sum.inr <$> annotationUse g
  else
    advance
    return .inl k

/-- All modifiers and annotations that follow, in any order. Model of `parse_modifiers`. -/
def modifiers : Rule Modifiers := do
  let found ← manyWhile modifierFollows (modifier g)
  return ⟨found.filterMap Sum.getLeft?, found.filterMap Sum.getRight?⟩

/-! ## Declarations of types -/

/-- Does the keyword of a type declaration follow? Model of `starts_type_decl`. -/
def declFollows : Rule Bool := do
  match ← kind with
  | .kwClass | .kwInterface | .kwEnum => return true
  | .at => checkNth 1 .kwInterface
  | _ => return false

/-- The keyword that says what is declared. -/
def declKind : Rule DeclKind := do
  match ← kind with
  | .kwClass => advance; return .ofClass
  | .kwInterface => advance; return .ofInterface
  | .kwEnum => advance; return .ofEnum
  | .at =>
    if ← checkNth 1 .kwInterface then
      advance
      advance
      return .ofAnnotationType
    else
      failHere .expectedDeclaration
  | _ => failHere .expectedDeclaration

/-- A type declaration from its keyword on. Its modifiers begin at the given position:
`('class' | 'interface' | 'enum' | '@' 'interface') Name TypeParams? ('extends' TypeList)?
('implements' TypeList)? ClassBody`. Model of `parse_type_decl_rest`. -/
def typeDeclFrom (start : Nat) (modifiers : Modifiers) : Rule TypeDecl := do
  let declared ← declKind
  let name ← identifier
  let typeParams ← optionalTypeParams g
  let supertypes ← typesAfter g .kwExtends
  let interfaces ← typesAfter g .kwImplements
  let body ← g.classBody (declared == .ofEnum)
  return ⟨modifiers, declared, name, typeParams, supertypes, interfaces, body, ← extentFrom start⟩

/-- A type declaration with its modifiers. Model of `parse_type_decl`. -/
def typeDecl : Rule TypeDecl := do
  let start ← position
  typeDeclFrom g start (← modifiers g)

/-! ## Fields -/

/-- Array dimensions and a value behind the name of a field. -/
def declaratorOf (name : Ident) : Rule Declarator := do
  let dims ← dims
  if ← eat .equal then
    let value ← expr g
    if value.elems.isEmpty then failHere .expectedInitializer else return ⟨name, dims, some value⟩
  else
    return ⟨name, dims, none⟩

/-- The rest of a field declaration behind the name of the first field.
Model of `parse_field_rest`. -/
def fieldFrom (start : Nat) (modifiers : Modifiers) (type : TypeExpr) (name : Ident) :
    Rule FieldDecl := do
  let first ← declaratorOf g name
  let rest ← manyWhile (eat .comma) (do declaratorOf g (← identifier))
  expect .semicolon
  return ⟨modifiers, type, first :: rest, ← extentFrom start⟩

/-! ## Methods -/

/-- `Modifiers Type '...'? Name ('[' ']')*` -/
def param : Rule Param := do
  let start ← position
  let modifiers ← modifiers g
  let t ← type g
  let variadic ← eat .ellipsis
  let name ← identifier
  let dims ← dims
  return ⟨modifiers, t, variadic, name, dims, ← extentFrom start⟩

/-- `'(' (Param (',' Param)*)? ')'`. Model of `parse_params`. -/
def params : Rule (List Param) := do
  expect .leftParen
  let entries ← if ← check .rightParen then pure [] else sepBy .comma (param g)
  expect .rightParen
  return entries

/-- The body of a method, or the semicolon in place of it. -/
def methodBody : Rule (Option Group) := do
  if ← check .leftBrace then
    some <$> group g
  else
    expect .semicolon
    return none

/-- The rest of a method declaration behind its name:
`Params ('[' ']')* ('throws' TypeList)? ('default' Expr)? (Block | ';')`.
Model of `parse_method_rest`. -/
def methodFrom (start : Nat) (modifiers : Modifiers) (typeParams : Option TypeParams)
    (returnType : Option TypeExpr) (name : Ident) : Rule MethodDecl := do
  let params ← params g
  let dims ← dims
  let throws ← typesAfter g .kwThrows
  let defaultValue ← when (← eat .kwDefault) (expr g)
  let body ← methodBody g
  return ⟨modifiers, typeParams, returnType, name, params, dims, throws, defaultValue, body,
    ← extentFrom start⟩

/-! ## Bodies of types -/

/-- A field, a method or a constructor, from its type parameters on. A constructor is a name with
its parameters directly behind it. -/
def namedMember (start : Nat) (modifiers : Modifiers) : Rule Member := do
  let typeParams ← optionalTypeParams g
  if (← check .identifier) && (← checkNth 1 .leftParen) then
    let name ← identifier
    .method <$> methodFrom g start modifiers typeParams none name
  else
    let t ← type g
    let name ← identifier
    if ← check .leftParen then
      .method <$> methodFrom g start modifiers typeParams (some t) name
    else if typeParams.isSome then
      failHere .strayTypeParams
    else
      .field <$> fieldFrom g start modifiers t name

/-- One member of a type, or none for a semicolon that stands alone. Model of `parse_member`. -/
def member : Rule (Option Member) := do
  if ← atEnd then
    throw .endOfText
  else if ← eat .semicolon then
    return none
  else if ← check .leftBrace then
    return some (.block false (← group g))
  else if (← check .kwStatic) && (← checkNth 1 .leftBrace) then
    advance
    return some (.block true (← group g))
  else
    let start ← position
    let modifiers ← modifiers g
    if ← declFollows then
      return some (.nested (← typeDeclFrom g start modifiers))
    else
      return some (← namedMember g start modifiers)

/-- `Annotation* Name Args? ClassBody?` -/
def enumConstant : Rule EnumConstant := do
  let annotations ← annotations g
  let name ← identifier
  let args ← optionalGroup g .leftParen
  let body ← when (← check .leftBrace) (g.classBody false)
  return ⟨annotations, name, args, body⟩

/-- Does a constant follow, and not the end of the list of constants? -/
def constantFollows : Rule Bool := do
  let k ← kind
  return k != .semicolon && k != .rightBrace

/-- The constants of an enumeration, with commas between them and perhaps behind them, and the
semicolon that may end them. Model of `parse_enum_constants`. -/
def enumConstants : Rule (List EnumConstant) := do
  let constants ←
    if ← constantFollows then do
      let first ← enumConstant g
      let rest ← manyWhile (do if ← eat .comma then constantFollows else return false)
        (enumConstant g)
      pure (first :: rest)
    else
      pure []
  discard (eat .semicolon)
  return constants

/-- `'{' EnumConstants? Member* '}'`. Model of `parse_class_body`. -/
def classBody (isEnum : Bool) : Rule ClassBody := do
  let start ← position
  expect .leftBrace
  let constants ← if isEnum then enumConstants g else pure []
  let members ← manyWhile (do return !(← check .rightBrace)) (member g)
  expect .rightBrace
  return ⟨constants, members.filterMap id, ← extentFrom start⟩

end Stencil.Grammar
