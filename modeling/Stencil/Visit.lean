import Stencil.Tree

/-!
# Walks over a tree

A walk over a tree visits its nodes from the outside in and in the order of the text. The visits of a
walk form a tree themselves, so that a reader of the walk can leave out what lies below a node.

Results: the trace of a forest of visits is the traces of its trees one after the other
(`Visit.traceAll_append`).
-/

namespace Stencil

/-- The sorts of members of a type. -/
inductive MemberSort where
  | field | method | block | nested
deriving DecidableEq, Repr

/-- What a walk comes upon. -/
inductive Event where
  | typeDecl (name : String)
  | classBody (extent : Extent)
  | member (sort : MemberSort)
  | method (name : String)
  | field (names : List String)
  | annotationUse (name : String)
  | typeParam (name : String)
  | type (extent : Extent)
  | group (extent : Extent)
  | expr (extent : Extent)
  | elem (extent : Extent)
  | ident (name : String)
deriving DecidableEq, Repr

/-- A visit of a node, with the visits of the nodes below it. -/
inductive Visit where
  | node (event : Event) (below : List Visit)

namespace Visit

mutual

/-- The events of a visit in the order of the walk. -/
def trace : Visit → List Event
  | .node event below => event :: traceAll below

/-- The events of visits one after the other. -/
def traceAll : List Visit → List Event
  | [] => []
  | v :: vs => trace v ++ traceAll vs

end

theorem traceAll_append (vs ws : List Visit) :
    traceAll (vs ++ ws) = traceAll vs ++ traceAll ws := by
  induction vs with
  | nil => rfl
  | cons v vs ih => simp [traceAll, ih]

end Visit

/-- The sort of a member. -/
def Member.sort : Member → MemberSort
  | .field _ => .field
  | .method _ => .method
  | .block .. => .block
  | .nested _ => .nested

/-- The code tokens of an element. -/
def Elem.extent : Elem → Extent
  | .token p => ⟨p, p + 1⟩
  | .ident i => ⟨i.position, i.position + 1⟩
  | .type t => t.extent
  | .typeArgs a => a.extent
  | .group g => g.extent
  | .intrinsic c => c.extent
  | .anonymous b => b.extent
  | .localType d => d.extent

mutual

/-- The visit of an annotation. Its name is no part of a body. Model of `visit_annotation`. -/
def AnnotationUse.visits : AnnotationUse → List Visit
  | ⟨name, none, _⟩ => [.node (.annotationUse name.name) []]
  | ⟨name, some args, _⟩ => [.node (.annotationUse name.name) args.visits]

/-- The visits of annotations in order. -/
def AnnotationUse.visitsAll : List AnnotationUse → List Visit
  | [] => []
  | a :: rest => a.visits ++ AnnotationUse.visitsAll rest

/-- The visit of a type, with the annotations and the type arguments of its parts below it.
Model of `walk_type`. -/
def TypeExpr.visits : TypeExpr → List Visit
  | ⟨annotations, core, _, extent⟩ =>
    [.node (.type extent) (AnnotationUse.visitsAll annotations ++ core.visits)]

/-- The visits of types in order. -/
def TypeExpr.visitsAll : List TypeExpr → List Visit
  | [] => []
  | t :: rest => t.visits ++ TypeExpr.visitsAll rest

/-- The visits of the type arguments of a class name. -/
def TypeCore.visits : TypeCore → List Visit
  | .primitive _ => []
  | .named segments => TypeSegment.visitsAll segments

/-- The visits of the type arguments of the parts of a class name. -/
def TypeSegment.visitsAll : List TypeSegment → List Visit
  | [] => []
  | ⟨_, none⟩ :: rest => TypeSegment.visitsAll rest
  | ⟨_, some args⟩ :: rest => args.visits ++ TypeSegment.visitsAll rest

/-- The visits of type arguments. Model of `visit_type_args`. -/
def TypeArgs.visits : TypeArgs → List Visit
  | ⟨entries, _⟩ => TypeArg.visitsAll entries

/-- The visits of the types that type arguments are or are bounded by. -/
def TypeArg.visitsAll : List TypeArg → List Visit
  | [] => []
  | .type t :: rest => t.visits ++ TypeArg.visitsAll rest
  | .wildcard _ :: rest => TypeArg.visitsAll rest
  | .bounded _ t _ :: rest => t.visits ++ TypeArg.visitsAll rest

/-- The visits of type parameters, with their bounds below them. Model of `visit_type_params`. -/
def TypeParam.visitsAll : List TypeParam → List Visit
  | [] => []
  | ⟨_, name, bounds, _⟩ :: rest =>
    .node (.typeParam name.name) (TypeExpr.visitsAll bounds) :: TypeParam.visitsAll rest

/-- The visits of the annotations among modifiers. Model of `visit_modifiers`. -/
def Modifiers.visits : Modifiers → List Visit
  | ⟨_, annotations⟩ => AnnotationUse.visitsAll annotations

/-- The visit of a group, with its elements below it. Model of `visit_group`. -/
def Group.visits : Group → List Visit
  | ⟨_, elems, extent⟩ => [.node (.group extent) (Elem.visitsAll elems)]

/-- The visit of an expression, with its elements below it. Model of `visit_expr`. -/
def Expr.visits : Expr → List Visit
  | ⟨elems, extent⟩ => [.node (.expr extent) (Elem.visitsAll elems)]

/-- The visits of expressions in order. -/
def Expr.visitsAll : List Expr → List Visit
  | [] => []
  | e :: rest => e.visits ++ Expr.visitsAll rest

/-- The visits of elements in order. Model of `walk_elems`. -/
def Elem.visitsAll : List Elem → List Visit
  | [] => []
  | e :: rest => Visit.node (.elem e.extent) e.inner :: Elem.visitsAll rest

/-- The visits below an element. Model of `walk_body_elem`. -/
def Elem.inner : Elem → List Visit
  | .token _ => []
  | .ident name => [.node (.ident name.name) []]
  | .type t => t.visits
  | .typeArgs args => args.visits
  | .group g => g.visits
  | .intrinsic ⟨_, none, _, args, _⟩ => Expr.visitsAll args
  | .intrinsic ⟨_, some hint, _, args, _⟩ => hint.visits ++ Expr.visitsAll args
  | .anonymous body => body.visits
  | .localType decl => decl.visits

/-- The visit of the body of a type, with its constants and members below it.
Model of `walk_class_body`. -/
def ClassBody.visits : ClassBody → List Visit
  | ⟨constants, members, extent⟩ =>
    [.node (.classBody extent) (EnumConstant.visitsAll constants ++ Member.visitsAll members)]

/-- The visits of the arguments and the bodies of constants. -/
def EnumConstant.visitsAll : List EnumConstant → List Visit
  | [] => []
  | ⟨_, _, none, none⟩ :: rest => EnumConstant.visitsAll rest
  | ⟨_, _, some args, none⟩ :: rest => args.visits ++ EnumConstant.visitsAll rest
  | ⟨_, _, none, some body⟩ :: rest => body.visits ++ EnumConstant.visitsAll rest
  | ⟨_, _, some args, some body⟩ :: rest =>
    args.visits ++ body.visits ++ EnumConstant.visitsAll rest

/-- The visits of members in order. -/
def Member.visitsAll : List Member → List Visit
  | [] => []
  | m :: rest => Visit.node (.member m.sort) m.inner :: Member.visitsAll rest

/-- The visits below a member. Model of `walk_member`. -/
def Member.inner : Member → List Visit
  | .field f => f.visits
  | .method m => m.visits
  | .block _ body => body.visits
  | .nested decl => decl.visits

/-- The visit of fields, with their type and their values below it. Model of `walk_field`. -/
def FieldDecl.visits : FieldDecl → List Visit
  | ⟨modifiers, t, declarators, _⟩ =>
    [.node (.field (declarators.map (·.name.name)))
      (modifiers.visits ++ t.visits ++ Declarator.visitsAll declarators)]

/-- The visits of the values of fields. -/
def Declarator.visitsAll : List Declarator → List Visit
  | [] => []
  | ⟨_, _, none⟩ :: rest => Declarator.visitsAll rest
  | ⟨_, _, some value⟩ :: rest => value.visits ++ Declarator.visitsAll rest

/-- The visit of a method, with all its types and its body below it. Model of `walk_method`. -/
def MethodDecl.visits : MethodDecl → List Visit
  | ⟨modifiers, typeParams, returnType, name, params, _, throws, defaultValue, body, _⟩ =>
    [.node (.method name.name)
      (modifiers.visits
        ++ (match typeParams with
          | none => []
          | some ⟨entries, _⟩ => TypeParam.visitsAll entries)
        ++ (match returnType with
          | none => []
          | some t => t.visits)
        ++ Param.visitsAll params
        ++ TypeExpr.visitsAll throws
        ++ (match defaultValue with
          | none => []
          | some value => value.visits)
        ++ (match body with
          | none => []
          | some g => g.visits))]

/-- The visits of the modifiers and the types of parameters. -/
def Param.visitsAll : List Param → List Visit
  | [] => []
  | ⟨modifiers, t, _, _, _, _⟩ :: rest =>
    modifiers.visits ++ t.visits ++ Param.visitsAll rest

/-- The visit of a type declaration, with its header and its body below it.
Model of `walk_type_decl`. -/
def TypeDecl.visits : TypeDecl → List Visit
  | ⟨modifiers, _, name, typeParams, supertypes, interfaces, body, _⟩ =>
    [.node (.typeDecl name.name)
      (modifiers.visits
        ++ (match typeParams with
          | none => []
          | some ⟨entries, _⟩ => TypeParam.visitsAll entries)
        ++ TypeExpr.visitsAll supertypes
        ++ TypeExpr.visitsAll interfaces
        ++ body.visits)]

end

/-- The visits of the types of a file. The package and the imports are not visited.
Model of `walk_compilation_unit`. -/
def CompilationUnit.visits (u : CompilationUnit) : List Visit :=
  u.types.flatMap TypeDecl.visits

/-- The names that are elements of bodies, in the order of the walk. -/
def CompilationUnit.bodyNames (u : CompilationUnit) : List String :=
  (Visit.traceAll u.visits).filterMap fun
    | .ident name => some name
    | _ => none

end Stencil
