import Stencil.Visit

/-!
# The landmarks of a tree

Of the many sorts of nodes that a tree has, some stand out: annotations, type parameters, types,
groups, the names in bodies, declarations of types, and the bodies of types. Here they are listed from
the tree alone, each with its node, from the outside in and in the order of the text. No part of a
tree is left out, so the list is what a walk can be held against.

A walk over a tree passes over some annotations, and with them over all that stands in them: those of
the package, of the constants of enumerations, and of type parameters. The list has these landmarks too;
each landmark says whether it is in sight of the walk.
-/

namespace Stencil

/-- A node that stands out. -/
inductive Feature where
  | annotationUse (a : AnnotationUse)
  | typeParam (a : TypeParam)
  | type (t : TypeExpr)
  | group (g : Group)
  /-- A name that is an element of a body. -/
  | name (i : Ident)
  | typeDecl (d : TypeDecl)
  | classBody (b : ClassBody)

namespace Feature

/-- What a walk that comes upon the node tells. -/
def event : Feature → Event
  | .annotationUse a => .annotationUse a.name.name
  | .typeParam a => .typeParam a.name.name
  | .type t => .type t.extent
  | .group g => .group g.extent
  | .name i => .ident i.name
  | .typeDecl d => .typeDecl d.name.name
  | .classBody b => .classBody b.extent

/-- The code tokens of the node. -/
def extent : Feature → Extent
  | .annotationUse a => a.extent
  | .typeParam a => a.extent
  | .type t => t.extent
  | .group g => g.extent
  | .name i => ⟨i.position, i.position + 1⟩
  | .typeDecl d => d.extent
  | .classBody b => b.extent

/-- The annotations that a walk passes over at the node. -/
def passedOver : Feature → List AnnotationUse
  | .typeParam a => a.annotations
  | .classBody b => b.constants.flatMap (·.annotations)
  | _ => []

end Feature

/-- Is the event that of a node that stands out? -/
def Event.isOfFeature : Event → Bool
  | .member _ | .method _ | .field _ | .expr _ | .elem _ => false
  | _ => true

/-- A node that stands out, and whether a walk comes upon it. -/
structure Landmark where
  /-- The node. -/
  feature : Feature
  /-- Does a walk come upon it? -/
  inSight : Bool

/-- Does the first one stand in front of the other one, or around it? Then it begins earlier, or at
the same token and is the longer one of the two. -/
def Landmark.Precedes (x y : Landmark) : Prop :=
  x.feature.extent.first < y.feature.extent.first
    ∨ x.feature.extent.first = y.feature.extent.first
      ∧ y.feature.extent.stop < x.feature.extent.stop

/-! ## The landmarks of each part of a tree -/

mutual

/-- The landmarks of an annotation. -/
def AnnotationUse.landmarks (sight : Bool) : AnnotationUse → List Landmark
  | ⟨name, args, extent⟩ =>
    ⟨.annotationUse ⟨name, args, extent⟩, sight⟩ :: Group.landmarks? sight args

/-- The landmarks of annotations in order. -/
def AnnotationUse.landmarksAll (sight : Bool) : List AnnotationUse → List Landmark
  | [] => []
  | a :: rest => a.landmarks sight ++ AnnotationUse.landmarksAll sight rest

/-- The landmarks of a type. -/
def TypeExpr.landmarks (sight : Bool) : TypeExpr → List Landmark
  | ⟨annotations, core, dims, extent⟩ =>
    ⟨.type ⟨annotations, core, dims, extent⟩, sight⟩
      :: (AnnotationUse.landmarksAll sight annotations ++ core.landmarks sight)

/-- The landmarks of a type, if there is one. -/
def TypeExpr.landmarks? (sight : Bool) : Option TypeExpr → List Landmark
  | none => []
  | some t => t.landmarks sight

/-- The landmarks of types in order. -/
def TypeExpr.landmarksAll (sight : Bool) : List TypeExpr → List Landmark
  | [] => []
  | t :: rest => t.landmarks sight ++ TypeExpr.landmarksAll sight rest

/-- The landmarks in a type without annotations. -/
def TypeCore.landmarks (sight : Bool) : TypeCore → List Landmark
  | .primitive _ => []
  | .named segments => TypeSegment.landmarksAll sight segments

/-- The landmarks in the parts of a class name. -/
def TypeSegment.landmarksAll (sight : Bool) : List TypeSegment → List Landmark
  | [] => []
  | ⟨_, args⟩ :: rest => TypeArgs.landmarks? sight args ++ TypeSegment.landmarksAll sight rest

/-- The landmarks in type arguments. -/
def TypeArgs.landmarks (sight : Bool) : TypeArgs → List Landmark
  | ⟨entries, _⟩ => TypeArg.landmarksAll sight entries

/-- The landmarks in type arguments, if there are any. -/
def TypeArgs.landmarks? (sight : Bool) : Option TypeArgs → List Landmark
  | none => []
  | some args => args.landmarks sight

/-- The landmarks in the entries of type arguments. -/
def TypeArg.landmarksAll (sight : Bool) : List TypeArg → List Landmark
  | [] => []
  | a :: rest => a.landmarks sight ++ TypeArg.landmarksAll sight rest

/-- The landmarks in a type argument. -/
def TypeArg.landmarks (sight : Bool) : TypeArg → List Landmark
  | .type t => t.landmarks sight
  | .wildcard _ => []
  | .bounded _ t _ => t.landmarks sight

/-- The landmarks of a type parameter. Its annotations are passed over. -/
def TypeParam.landmarks (sight : Bool) : TypeParam → List Landmark
  | ⟨annotations, name, bounds, extent⟩ =>
    ⟨.typeParam ⟨annotations, name, bounds, extent⟩, sight⟩
      :: (AnnotationUse.landmarksAll false annotations ++ TypeExpr.landmarksAll sight bounds)

/-- The landmarks of type parameters in order. -/
def TypeParam.landmarksAll (sight : Bool) : List TypeParam → List Landmark
  | [] => []
  | a :: rest => a.landmarks sight ++ TypeParam.landmarksAll sight rest

/-- The landmarks of type parameters, if there are any. -/
def TypeParams.landmarks? (sight : Bool) : Option TypeParams → List Landmark
  | none => []
  | some ⟨entries, _⟩ => TypeParam.landmarksAll sight entries

/-- The landmarks in modifiers. -/
def Modifiers.landmarks (sight : Bool) : Modifiers → List Landmark
  | ⟨_, annotations⟩ => AnnotationUse.landmarksAll sight annotations

/-- The landmarks of a group. -/
def Group.landmarks (sight : Bool) : Group → List Landmark
  | ⟨delimiter, elems, extent⟩ =>
    ⟨.group ⟨delimiter, elems, extent⟩, sight⟩ :: Elem.landmarksAll sight elems

/-- The landmarks of a group, if there is one. -/
def Group.landmarks? (sight : Bool) : Option Group → List Landmark
  | none => []
  | some g => g.landmarks sight

/-- The landmarks in an expression. -/
def Expr.landmarks (sight : Bool) : Expr → List Landmark
  | ⟨elems, _⟩ => Elem.landmarksAll sight elems

/-- The landmarks in an expression, if there is one. -/
def Expr.landmarks? (sight : Bool) : Option Expr → List Landmark
  | none => []
  | some e => e.landmarks sight

/-- The landmarks in expressions in order. -/
def Expr.landmarksAll (sight : Bool) : List Expr → List Landmark
  | [] => []
  | e :: rest => e.landmarks sight ++ Expr.landmarksAll sight rest

/-- The landmarks of elements in order. -/
def Elem.landmarksAll (sight : Bool) : List Elem → List Landmark
  | [] => []
  | e :: rest => e.landmarks sight ++ Elem.landmarksAll sight rest

/-- The landmarks of an element. -/
def Elem.landmarks (sight : Bool) : Elem → List Landmark
  | .token _ => []
  | .ident i => [⟨.name i, sight⟩]
  | .type t => t.landmarks sight
  | .typeArgs args => args.landmarks sight
  | .group g => g.landmarks sight
  | .intrinsic call => call.landmarks sight
  | .anonymous body => body.landmarks sight
  | .localType decl => decl.landmarks sight

/-- The landmarks in an intrinsic call. -/
def IntrinsicCall.landmarks (sight : Bool) : IntrinsicCall → List Landmark
  | ⟨_, hint, _, args, _⟩ => TypeArgs.landmarks? sight hint ++ Expr.landmarksAll sight args

/-- The landmarks of the body of a type. -/
def ClassBody.landmarks (sight : Bool) : ClassBody → List Landmark
  | ⟨constants, members, extent⟩ =>
    ⟨.classBody ⟨constants, members, extent⟩, sight⟩
      :: (EnumConstant.landmarksAll sight constants ++ Member.landmarksAll sight members)

/-- The landmarks of the body of a type, if there is one. -/
def ClassBody.landmarks? (sight : Bool) : Option ClassBody → List Landmark
  | none => []
  | some b => b.landmarks sight

/-- The landmarks in a constant of an enumeration. Its annotations are passed over. -/
def EnumConstant.landmarks (sight : Bool) : EnumConstant → List Landmark
  | ⟨annotations, _, args, body⟩ =>
    AnnotationUse.landmarksAll false annotations ++ Group.landmarks? sight args
      ++ ClassBody.landmarks? sight body

/-- The landmarks in the constants of an enumeration. -/
def EnumConstant.landmarksAll (sight : Bool) : List EnumConstant → List Landmark
  | [] => []
  | c :: rest => c.landmarks sight ++ EnumConstant.landmarksAll sight rest

/-- The landmarks in members in order. -/
def Member.landmarksAll (sight : Bool) : List Member → List Landmark
  | [] => []
  | m :: rest => m.landmarks sight ++ Member.landmarksAll sight rest

/-- The landmarks in a member. -/
def Member.landmarks (sight : Bool) : Member → List Landmark
  | .field f => f.landmarks sight
  | .method d => d.landmarks sight
  | .block _ body => body.landmarks sight
  | .nested decl => decl.landmarks sight

/-- The landmarks in fields. -/
def FieldDecl.landmarks (sight : Bool) : FieldDecl → List Landmark
  | ⟨modifiers, t, declarators, _⟩ =>
    modifiers.landmarks sight ++ t.landmarks sight ++ Declarator.landmarksAll sight declarators

/-- The landmarks in the values of fields. -/
def Declarator.landmarksAll (sight : Bool) : List Declarator → List Landmark
  | [] => []
  | ⟨_, _, value⟩ :: rest => Expr.landmarks? sight value ++ Declarator.landmarksAll sight rest

/-- The landmarks in a method. -/
def MethodDecl.landmarks (sight : Bool) : MethodDecl → List Landmark
  | ⟨modifiers, typeParams, returnType, _, params, _, throws, defaultValue, body, _⟩ =>
    modifiers.landmarks sight ++ TypeParams.landmarks? sight typeParams
      ++ TypeExpr.landmarks? sight returnType ++ Param.landmarksAll sight params
      ++ TypeExpr.landmarksAll sight throws ++ Expr.landmarks? sight defaultValue
      ++ Group.landmarks? sight body

/-- The landmarks in parameters in order. -/
def Param.landmarksAll (sight : Bool) : List Param → List Landmark
  | [] => []
  | a :: rest => a.landmarks sight ++ Param.landmarksAll sight rest

/-- The landmarks in a parameter. -/
def Param.landmarks (sight : Bool) : Param → List Landmark
  | ⟨modifiers, t, _, _, _, _⟩ => modifiers.landmarks sight ++ t.landmarks sight

/-- The landmarks of a type declaration. -/
def TypeDecl.landmarks (sight : Bool) : TypeDecl → List Landmark
  | ⟨modifiers, kind, name, typeParams, supertypes, interfaces, body, extent⟩ =>
    ⟨.typeDecl ⟨modifiers, kind, name, typeParams, supertypes, interfaces, body, extent⟩, sight⟩
      :: (modifiers.landmarks sight ++ TypeParams.landmarks? sight typeParams
        ++ TypeExpr.landmarksAll sight supertypes ++ TypeExpr.landmarksAll sight interfaces
        ++ body.landmarks sight)

end

/-- The landmarks of type declarations in order. -/
def TypeDecl.landmarksAll (sight : Bool) : List TypeDecl → List Landmark
  | [] => []
  | d :: rest => d.landmarks sight ++ TypeDecl.landmarksAll sight rest

/-- The landmarks of the declaration of a package, if there is one. Its annotations are passed
over. -/
def PackageDecl.landmarks? : Option PackageDecl → List Landmark
  | none => []
  | some d => AnnotationUse.landmarksAll false d.annotations

/-- The landmarks of a file. Imports have none. -/
def CompilationUnit.landmarks (u : CompilationUnit) : List Landmark :=
  PackageDecl.landmarks? u.package ++ TypeDecl.landmarksAll true u.types

end Stencil
