import Stencil.Tree

/-!
# Outlines of trees

What there is to rewrite in a tree: names, the parts of class names, lists of type arguments and of
type parameters, and intrinsic calls, in the order of the text. All other nodes of a tree only hold
these together, so the outline of a tree is a list, and the outlines of its parts one after the other
make it up. Lists and calls keep the outline of each entry, since what stays of them is rendered entry
by entry.

Results: the outlines of elements one after the other are the outline of all of them
(`Elem.outlines_append`).
-/

namespace Stencil.Rewrite

/-- A place in a template at which there may be something to rewrite. -/
inductive Outline where
  /-- A name by itself. -/
  | name (name : Ident)
  /-- A part of the name of a class, and the type arguments that follow it. -/
  | part (name : Ident) (args : List TypeArg)
  /-- Type arguments, and the name of the class that they belong to. Arguments of methods belong to
  none. -/
  | typeArgs (owner : Option String) (entries : List (TypeArg × List Outline)) (extent : Extent)
  /-- Type parameters. -/
  | typeParams (entries : List (TypeParam × List Outline)) (extent : Extent)
  /-- An intrinsic call. -/
  | call (call : IntrinsicCall) (args : List (Expr × List Outline))

/-- The outline of a qualified name. Model of `qualified_name`. -/
def QualifiedName.outline (q : QualifiedName) : List Outline :=
  q.segments.map .name

mutual

/-- The outline of an annotation. -/
def AnnotationUse.outline : AnnotationUse → List Outline
  | ⟨name, args, _⟩ => QualifiedName.outline name ++ Group.outline? args

/-- The outlines of annotations in order. Model of `annotations`. -/
def AnnotationUse.outlines : List AnnotationUse → List Outline
  | [] => []
  | a :: rest => AnnotationUse.outline a ++ AnnotationUse.outlines rest

/-- The outline of a type. Model of `ty`. -/
def TypeExpr.outline : TypeExpr → List Outline
  | ⟨annotations, core, _, _⟩ => AnnotationUse.outlines annotations ++ TypeCore.outline core

/-- The outline of a type, if there is one. -/
def TypeExpr.outline? : Option TypeExpr → List Outline
  | none => []
  | some t => TypeExpr.outline t

/-- The outlines of types in order. -/
def TypeExpr.outlines : List TypeExpr → List Outline
  | [] => []
  | t :: rest => TypeExpr.outline t ++ TypeExpr.outlines rest

/-- The outline of a type without annotations. -/
def TypeCore.outline : TypeCore → List Outline
  | .primitive _ => []
  | .named segments => TypeSegment.outlines segments

/-- The outlines of the parts of a class name: the part itself, then its type arguments.
Model of `class_segment`. -/
def TypeSegment.outlines : List TypeSegment → List Outline
  | [] => []
  | ⟨name, none⟩ :: rest => .part name [] :: TypeSegment.outlines rest
  | ⟨name, some args⟩ :: rest =>
    .part name args.entries :: TypeArgs.outline (some name.name) args :: TypeSegment.outlines rest

/-- The outline of type arguments, which may belong to a class. -/
def TypeArgs.outline (owner : Option String) : TypeArgs → Outline
  | ⟨entries, extent⟩ => .typeArgs owner (TypeArg.entries entries) extent

/-- Type arguments with their outlines. -/
def TypeArg.entries : List TypeArg → List (TypeArg × List Outline)
  | [] => []
  | a :: rest => (a, TypeArg.outline a) :: TypeArg.entries rest

/-- The outline of a type argument. Model of `type_arg`. -/
def TypeArg.outline : TypeArg → List Outline
  | .type t => TypeExpr.outline t
  | .wildcard _ => []
  | .bounded _ t _ => TypeExpr.outline t

/-- The outline of a type parameter. Model of `type_param`. -/
def TypeParam.outline : TypeParam → List Outline
  | ⟨annotations, name, bounds, _⟩ =>
    AnnotationUse.outlines annotations ++ .name name :: TypeExpr.outlines bounds

/-- Type parameters with their outlines. -/
def TypeParam.entries : List TypeParam → List (TypeParam × List Outline)
  | [] => []
  | p :: rest => (p, TypeParam.outline p) :: TypeParam.entries rest

/-- The outline of type parameters, if there are any. -/
def TypeParams.outline? : Option TypeParams → List Outline
  | none => []
  | some ⟨entries, extent⟩ => [.typeParams (TypeParam.entries entries) extent]

/-- The outline of the annotations among modifiers. Model of `modifiers`. -/
def Modifiers.outline : Modifiers → List Outline
  | ⟨_, annotations⟩ => AnnotationUse.outlines annotations

/-- The outline of a group. Model of `group`. -/
def Group.outline : Group → List Outline
  | ⟨_, elems, _⟩ => Elem.outlines elems

/-- The outline of a group, if there is one. -/
def Group.outline? : Option Group → List Outline
  | none => []
  | some g => Group.outline g

/-- The outline of an expression. -/
def Expr.outline : Expr → List Outline
  | ⟨elems, _⟩ => Elem.outlines elems

/-- The outline of an expression, if there is one. -/
def Expr.outline? : Option Expr → List Outline
  | none => []
  | some e => Expr.outline e

/-- Arguments of a call with their outlines. -/
def Expr.entries : List Expr → List (Expr × List Outline)
  | [] => []
  | e :: rest => (e, Expr.outline e) :: Expr.entries rest

/-- The outlines of elements in order. Model of `elems`. -/
def Elem.outlines : List Elem → List Outline
  | [] => []
  | e :: rest => Elem.outline e ++ Elem.outlines rest

/-- The outline of an element. -/
def Elem.outline : Elem → List Outline
  | .token _ => []
  | .ident name => [.name name]
  | .type t => TypeExpr.outline t
  | .typeArgs args => [TypeArgs.outline none args]
  | .group g => Group.outline g
  | .intrinsic ⟨receiver, hint, name, args, extent⟩ =>
    [.call ⟨receiver, hint, name, args, extent⟩ (Expr.entries args)]
  | .anonymous body => ClassBody.outline body
  | .localType decl => TypeDecl.outline decl

/-- The outline of the body of a type. Model of `class_body`. -/
def ClassBody.outline : ClassBody → List Outline
  | ⟨constants, members, _⟩ => EnumConstant.outlines constants ++ Member.outlines members

/-- The outline of the body of a type, if there is one. -/
def ClassBody.outline? : Option ClassBody → List Outline
  | none => []
  | some b => ClassBody.outline b

/-- The outlines of constants in order. -/
def EnumConstant.outlines : List EnumConstant → List Outline
  | [] => []
  | ⟨annotations, name, args, body⟩ :: rest =>
    AnnotationUse.outlines annotations ++ .name name :: (Group.outline? args
      ++ ClassBody.outline? body ++ EnumConstant.outlines rest)

/-- The outlines of members in order. -/
def Member.outlines : List Member → List Outline
  | [] => []
  | m :: rest => Member.outline m ++ Member.outlines rest

/-- The outline of a member. Model of `member`. -/
def Member.outline : Member → List Outline
  | .field f => FieldDecl.outline f
  | .method m => MethodDecl.outline m
  | .block _ body => Group.outline body
  | .nested decl => TypeDecl.outline decl

/-- The outline of fields. Model of `field`. -/
def FieldDecl.outline : FieldDecl → List Outline
  | ⟨modifiers, t, declarators, _⟩ =>
    Modifiers.outline modifiers ++ TypeExpr.outline t ++ Declarator.outlines declarators

/-- The outlines of the names and values of fields. -/
def Declarator.outlines : List Declarator → List Outline
  | [] => []
  | ⟨name, _, value⟩ :: rest => .name name :: (Expr.outline? value ++ Declarator.outlines rest)

/-- The outline of a method. Model of `method`. -/
def MethodDecl.outline : MethodDecl → List Outline
  | ⟨modifiers, typeParams, returnType, name, params, _, throws, defaultValue, body, _⟩ =>
    Modifiers.outline modifiers ++ TypeParams.outline? typeParams ++ TypeExpr.outline? returnType
      ++ .name name :: (Param.outlines params ++ TypeExpr.outlines throws
        ++ Expr.outline? defaultValue ++ Group.outline? body)

/-- The outlines of parameters in order. -/
def Param.outlines : List Param → List Outline
  | [] => []
  | ⟨modifiers, t, _, name, _, _⟩ :: rest =>
    Modifiers.outline modifiers ++ TypeExpr.outline t ++ .name name :: Param.outlines rest

/-- The outline of a type declaration. Model of `type_decl`. -/
def TypeDecl.outline : TypeDecl → List Outline
  | ⟨modifiers, _, name, typeParams, supertypes, interfaces, body, _⟩ =>
    Modifiers.outline modifiers ++ .name name :: (TypeParams.outline? typeParams
      ++ TypeExpr.outlines supertypes ++ TypeExpr.outlines interfaces ++ ClassBody.outline body)

end

theorem Elem.outlines_append (es fs : List Elem) :
    Elem.outlines (es ++ fs) = Elem.outlines es ++ Elem.outlines fs := by
  induction es with
  | nil => rfl
  | cons e es ih => simp [Elem.outlines, ih]

/-- The outlines of type declarations in order. -/
def TypeDecl.outlines : List TypeDecl → List Outline
  | [] => []
  | d :: rest => TypeDecl.outline d ++ TypeDecl.outlines rest

/-- The outline of the declaration of a package, if there is one. -/
def PackageDecl.outline? : Option PackageDecl → List Outline
  | none => []
  | some p => AnnotationUse.outlines p.annotations ++ QualifiedName.outline p.name

/-- The outlines of imports in order. -/
def ImportDecl.outlines : List ImportDecl → List Outline
  | [] => []
  | i :: rest => QualifiedName.outline i.name ++ ImportDecl.outlines rest

/-- The outline of a whole file. Model of `compilation_unit`. -/
def CompilationUnit.outline (u : CompilationUnit) : List Outline :=
  PackageDecl.outline? u.package ++ ImportDecl.outlines u.imports ++ TypeDecl.outlines u.types

end Stencil.Rewrite
