import Stencil.Token.Source

/-!
# Syntax trees

What the grammar recognizes in a template. Declarations and types are taken apart completely. The
bodies of methods and the initializers of fields stay runs of tokens, in which only bracketed groups,
names, generic types, type declarations and intrinsic calls stand out.

A tree does not hold its text. Names say at which position among the code tokens they stand, and
each larger node says which run of code tokens it covers, so equal runs of code have equal trees
whatever blanks and comments stand between the tokens.
-/

namespace Stencil

/-- A name and the position of its token. -/
structure Ident where
  /-- The name. -/
  name : String
  /-- The position among the code tokens. -/
  position : Nat
deriving DecidableEq, Repr, Inhabited

/-- Names joined by dots. -/
structure QualifiedName where
  /-- The names in order. -/
  segments : List Ident
  /-- The code tokens that make up the node. -/
  extent : Extent
deriving DecidableEq, Repr, Inhabited

/-- The whole name, with its dots. -/
def QualifiedName.name (q : QualifiedName) : String :=
  ".".intercalate (q.segments.map (·.name))

/-- The three pairs of brackets. -/
inductive Delimiter where
  | paren | bracket | brace
deriving DecidableEq, Repr

namespace Delimiter

/-- The opening bracket. -/
def opening : Delimiter → Kind
  | .paren => .leftParen
  | .bracket => .leftBracket
  | .brace => .leftBrace

/-- The closing bracket. -/
def closing : Delimiter → Kind
  | .paren => .rightParen
  | .bracket => .rightBracket
  | .brace => .rightBrace

/-- The pair that an opening bracket begins. -/
def ofOpening? : Kind → Option Delimiter
  | .leftParen => some .paren
  | .leftBracket => some .bracket
  | .leftBrace => some .brace
  | _ => none

end Delimiter

/-- Which side a wildcard is bounded on. -/
inductive BoundKind where
  /-- The wildcard stands for subtypes of the bound. -/
  | upper
  /-- The wildcard stands for supertypes of the bound. -/
  | lower
deriving DecidableEq, Repr

/-- What a type declaration declares. Model of `TypeDeclKind`. -/
inductive DeclKind where
  | ofClass | ofInterface | ofEnum | ofAnnotationType
deriving DecidableEq, Repr

mutual

/-- An annotation, with its arguments in parentheses if it has any. Model of `Annotation`. -/
structure AnnotationUse where
  name : QualifiedName
  args : Option Group
  extent : Extent

/-- A type with its annotations and the number of its array dimensions. Model of `TypeRef`. -/
structure TypeExpr where
  annotations : List AnnotationUse
  core : TypeCore
  dims : Nat
  extent : Extent

/-- A type without annotations and array dimensions. Model of `TypeKind`. -/
inductive TypeCore where
  /-- A primitive type or `void`, by its keyword. -/
  | primitive (kind : Kind)
  /-- A class, by the parts of its name. -/
  | named (segments : List TypeSegment)

/-- One part of the name of a class, with the type arguments that follow it.
Model of `ClassSegment`. -/
structure TypeSegment where
  name : Ident
  args : Option TypeArgs

/-- Type arguments between angle brackets. The list is empty where they are to be inferred. -/
structure TypeArgs where
  entries : List TypeArg
  extent : Extent

/-- One type argument: a type, or a wildcard with or without a bound. -/
inductive TypeArg where
  | type (type : TypeExpr)
  | wildcard (extent : Extent)
  | bounded (kind : BoundKind) (type : TypeExpr) (extent : Extent)

/-- A type parameter and the types that bound it. -/
structure TypeParam where
  annotations : List AnnotationUse
  name : Ident
  bounds : List TypeExpr
  extent : Extent

/-- Type parameters between angle brackets. -/
structure TypeParams where
  entries : List TypeParam
  extent : Extent

/-- Keywords and annotations in front of a declaration, each in the order of the text.
Model of `ModifierList`. -/
structure Modifiers where
  flags : List Kind
  annotations : List AnnotationUse

/-- The elements between a pair of brackets. -/
structure Group where
  delimiter : Delimiter
  elems : List Elem
  extent : Extent

/-- A run of elements up to a separator or a closing bracket. -/
structure Expr where
  elems : List Elem
  extent : Extent

/-- An element of a body. Model of `BodyElem`. -/
inductive Elem where
  /-- A code token without further meaning, by its position. -/
  | token (position : Nat)
  | ident (name : Ident)
  | type (type : TypeExpr)
  /-- Type arguments of a method, or of a constructor behind `new`. -/
  | typeArgs (args : TypeArgs)
  | group (group : Group)
  | intrinsic (call : IntrinsicCall)
  /-- The body of an anonymous class. -/
  | anonymous (body : ClassBody)
  /-- A type declaration within a body. -/
  | localType (decl : TypeDecl)

/-- A call of an operation on a bound type. The hint says which placeholder it is about. -/
structure IntrinsicCall where
  receiver : Ident
  hint : Option TypeArgs
  name : Ident
  args : List Expr
  extent : Extent

/-- The constants, if the body belongs to an enumeration, and the members of a type. -/
structure ClassBody where
  constants : List EnumConstant
  members : List Member
  extent : Extent

/-- A constant of an enumeration. -/
structure EnumConstant where
  annotations : List AnnotationUse
  name : Ident
  args : Option Group
  body : Option ClassBody

/-- A member of a type. -/
inductive Member where
  | field (field : FieldDecl)
  | method (method : MethodDecl)
  /-- A block that runs when the type, or an object of it, is made. -/
  | block (ofType : Bool) (body : Group)
  | nested (decl : TypeDecl)

/-- Fields of one type. -/
structure FieldDecl where
  modifiers : Modifiers
  type : TypeExpr
  declarators : List Declarator
  extent : Extent

/-- The name of a field, with array dimensions and a value. Model of `VarDeclarator`. -/
structure Declarator where
  name : Ident
  dims : Nat
  value : Option Expr

/-- A method, or a constructor if it has no type. -/
structure MethodDecl where
  modifiers : Modifiers
  typeParams : Option TypeParams
  returnType : Option TypeExpr
  name : Ident
  params : List Param
  dims : Nat
  throws : List TypeExpr
  defaultValue : Option Expr
  body : Option Group
  extent : Extent

/-- A parameter of a method. -/
structure Param where
  modifiers : Modifiers
  type : TypeExpr
  variadic : Bool
  name : Ident
  dims : Nat
  extent : Extent

/-- A declaration of a class, an interface, an enumeration or an annotation type. -/
structure TypeDecl where
  modifiers : Modifiers
  kind : DeclKind
  name : Ident
  typeParams : Option TypeParams
  supertypes : List TypeExpr
  interfaces : List TypeExpr
  body : ClassBody
  extent : Extent

end

/-- The declaration of the package that a file belongs to. -/
structure PackageDecl where
  annotations : List AnnotationUse
  name : QualifiedName
  extent : Extent

/-- An import of one name or of all names of a package or type. -/
structure ImportDecl where
  /-- Are static members imported? -/
  ofMembers : Bool
  name : QualifiedName
  /-- Is every name imported? -/
  onDemand : Bool
  extent : Extent

/-- A whole file. -/
structure CompilationUnit where
  package : Option PackageDecl
  imports : List ImportDecl
  types : List TypeDecl

/-! ## Views of types -/

/-- The parts of the name of a class; a primitive type has none. Model of `segments`. -/
def TypeExpr.segments (t : TypeExpr) : List TypeSegment :=
  match t.core with
  | .primitive _ => []
  | .named segments => segments

/-- The single name that the type is: a class without package, type arguments and array
dimensions. Model of `as_simple_name`. -/
def TypeExpr.simpleName? (t : TypeExpr) : Option Ident :=
  match t.segments, t.dims with
  | [⟨name, none⟩], 0 => some name
  | _, _ => none

/-- Does any part of the type's name have type arguments? Model of `has_type_args`. -/
def TypeExpr.hasTypeArgs (t : TypeExpr) : Bool :=
  t.segments.any fun s => s.args.isSome

/-- Is it a primitive type or `void`? Model of `is_primitive`. -/
def TypeExpr.isPrimitive (t : TypeExpr) : Bool :=
  match t.core with
  | .primitive _ => true
  | .named _ => false

/-- Are the type arguments to be inferred? Model of `is_diamond`. -/
def TypeArgs.isDiamond (a : TypeArgs) : Bool :=
  a.entries.isEmpty

namespace TypeArg

/-- The type that an argument is or is bounded by. -/
def typeExpr? : TypeArg → Option TypeExpr
  | .type t => some t
  | .wildcard _ => none
  | .bounded _ t _ => some t

/-- Is the argument a wildcard? -/
def isWildcard : TypeArg → Bool
  | .type _ => false
  | _ => true

/-- The code tokens of the argument. -/
def extent : TypeArg → Extent
  | .type t => t.extent
  | .wildcard e => e
  | .bounded _ _ e => e

end TypeArg

/-- A constructor has no type in front of its name. Model of `is_constructor`. -/
def MethodDecl.isConstructor (m : MethodDecl) : Bool :=
  m.returnType.isNone

end Stencil
