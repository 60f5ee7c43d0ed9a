import Stencil.Proofs.Grammar.Strict

/-!
# The nodes of a tree

Under the many sorts of nodes a tree has only names, tokens, and phrases, which are nodes with other
nodes below them. Parts of a tree that have no extent of their own, such as modifiers or the
constants of an enumeration, are no nodes: what stands in them stands in the phrase around them.

Where nodes stand is said by a stretch again (`Node.laid`): each within its extent, one after the
other, and between them only tokens of the text. An empty expression stands at a token that is no
longer part of it. In a phrase it is therefore followed by at least one token (`Node.before`).

Results: nodes that are laid out one after the other are laid out together (`Node.laidAll_append`).
-/

namespace Stencil

open Stretch

/-- A node of a tree. -/
inductive Node where
  /-- A name. -/
  | name (i : Ident)
  /-- A token without further meaning. -/
  | token (position : Nat)
  /-- A node that covers the given tokens, with the nodes directly below it. -/
  | phrase (extent : Extent) (below : List Node)
  /-- An expression, with its elements below it. -/
  | expr (extent : Extent) (below : List Node)

namespace Node

/-- The code tokens of the node. -/
def extent : Node → Extent
  | .name i => ⟨i.position, i.position + 1⟩
  | .token position => ⟨position, position + 1⟩
  | .phrase extent _ => extent
  | .expr extent _ => extent

end Node

/-! ## The nodes of each part of a tree -/

/-- The node of a name with dots. -/
def QualifiedName.node (n : QualifiedName) : Node :=
  .phrase n.extent (n.segments.map .name)

mutual

/-- The node of an annotation. -/
def AnnotationUse.node : AnnotationUse → Node
  | ⟨name, args, extent⟩ => .phrase extent ([name.node] ++ Group.node? args)

/-- The nodes of annotations. -/
def AnnotationUse.nodes : List AnnotationUse → List Node
  | [] => []
  | a :: rest => a.node :: AnnotationUse.nodes rest

/-- The node of a type. -/
def TypeExpr.node : TypeExpr → Node
  | ⟨annotations, core, _, extent⟩ => .phrase extent (AnnotationUse.nodes annotations ++ core.nodes)

/-- The node of a type, if there is one. -/
def TypeExpr.node? : Option TypeExpr → List Node
  | none => []
  | some t => [t.node]

/-- The nodes of types. -/
def TypeExpr.nodes : List TypeExpr → List Node
  | [] => []
  | t :: rest => t.node :: TypeExpr.nodes rest

/-- The nodes in a type without annotations. -/
def TypeCore.nodes : TypeCore → List Node
  | .primitive _ => []
  | .named segments => TypeSegment.nodes segments

/-- The nodes in the parts of a class name. -/
def TypeSegment.nodes : List TypeSegment → List Node
  | [] => []
  | ⟨i, args⟩ :: rest => [.name i] ++ TypeArgs.node? args ++ TypeSegment.nodes rest

/-- The node of type arguments. -/
def TypeArgs.node : TypeArgs → Node
  | ⟨entries, extent⟩ => .phrase extent (TypeArg.nodes entries)

/-- The node of type arguments, if there are any. -/
def TypeArgs.node? : Option TypeArgs → List Node
  | none => []
  | some args => [args.node]

/-- The nodes of the entries of type arguments. -/
def TypeArg.nodes : List TypeArg → List Node
  | [] => []
  | a :: rest => a.node :: TypeArg.nodes rest

/-- The node of a type argument. A type that is an argument is the node itself. -/
def TypeArg.node : TypeArg → Node
  | .type t => t.node
  | .wildcard extent => .phrase extent []
  | .bounded _ t extent => .phrase extent [t.node]

/-- The node of a type parameter. -/
def TypeParam.node : TypeParam → Node
  | ⟨annotations, i, bounds, extent⟩ =>
    .phrase extent (AnnotationUse.nodes annotations ++ [.name i] ++ TypeExpr.nodes bounds)

/-- The nodes of the entries of type parameters. -/
def TypeParam.nodes : List TypeParam → List Node
  | [] => []
  | a :: rest => a.node :: TypeParam.nodes rest

/-- The node of type parameters, if there are any. -/
def TypeParams.node? : Option TypeParams → List Node
  | none => []
  | some ⟨entries, extent⟩ => [.phrase extent (TypeParam.nodes entries)]

/-- The nodes in modifiers. -/
def Modifiers.nodes : Modifiers → List Node
  | ⟨_, annotations⟩ => AnnotationUse.nodes annotations

/-- The node of a group. -/
def Group.node : Group → Node
  | ⟨_, elems, extent⟩ => .phrase extent (Elem.nodes elems)

/-- The node of a group, if there is one. -/
def Group.node? : Option Group → List Node
  | none => []
  | some g => [g.node]

/-- The node of an expression. -/
def Expr.node : Expr → Node
  | ⟨elems, extent⟩ => .expr extent (Elem.nodes elems)

/-- The node of an expression, if there is one. -/
def Expr.node? : Option Expr → List Node
  | none => []
  | some e => [e.node]

/-- The nodes of expressions. -/
def Expr.nodes : List Expr → List Node
  | [] => []
  | e :: rest => e.node :: Expr.nodes rest

/-- The nodes of elements. -/
def Elem.nodes : List Elem → List Node
  | [] => []
  | e :: rest => e.node :: Elem.nodes rest

/-- The node of an element. -/
def Elem.node : Elem → Node
  | .token position => .token position
  | .ident i => .name i
  | .type t => t.node
  | .typeArgs args => args.node
  | .group g => g.node
  | .intrinsic call => call.node
  | .anonymous body => body.node
  | .localType decl => decl.node

/-- The node of an intrinsic call. -/
def IntrinsicCall.node : IntrinsicCall → Node
  | ⟨receiver, hint, i, args, extent⟩ =>
    .phrase extent ([.name receiver] ++ TypeArgs.node? hint ++ [.name i] ++ Expr.nodes args)

/-- The node of the body of a type. -/
def ClassBody.node : ClassBody → Node
  | ⟨constants, members, extent⟩ =>
    .phrase extent (EnumConstant.nodesAll constants ++ Member.nodes members)

/-- The node of the body of a type, if there is one. -/
def ClassBody.node? : Option ClassBody → List Node
  | none => []
  | some b => [b.node]

/-- The nodes in a constant of an enumeration. -/
def EnumConstant.nodes : EnumConstant → List Node
  | ⟨annotations, i, args, body⟩ =>
    AnnotationUse.nodes annotations ++ [.name i] ++ Group.node? args ++ ClassBody.node? body

/-- The nodes in the constants of an enumeration. -/
def EnumConstant.nodesAll : List EnumConstant → List Node
  | [] => []
  | c :: rest => c.nodes ++ EnumConstant.nodesAll rest

/-- The nodes of members. -/
def Member.nodes : List Member → List Node
  | [] => []
  | m :: rest => m.node :: Member.nodes rest

/-- The node of a member. A block is its group. -/
def Member.node : Member → Node
  | .field f => f.node
  | .method m => m.node
  | .block _ body => body.node
  | .nested decl => decl.node

/-- The node of fields. -/
def FieldDecl.node : FieldDecl → Node
  | ⟨modifiers, t, declarators, extent⟩ =>
    .phrase extent (modifiers.nodes ++ [t.node] ++ Declarator.nodesAll declarators)

/-- The nodes in the name and the value of a field. -/
def Declarator.nodes : Declarator → List Node
  | ⟨i, _, value⟩ => [.name i] ++ Expr.node? value

/-- The nodes in the names and the values of fields. -/
def Declarator.nodesAll : List Declarator → List Node
  | [] => []
  | d :: rest => d.nodes ++ Declarator.nodesAll rest

/-- The node of a method. -/
def MethodDecl.node : MethodDecl → Node
  | ⟨modifiers, typeParams, returnType, i, params, _, throws, defaultValue, body, extent⟩ =>
    .phrase extent (modifiers.nodes ++ TypeParams.node? typeParams ++ TypeExpr.node? returnType
      ++ [.name i] ++ Param.nodes params ++ TypeExpr.nodes throws ++ Expr.node? defaultValue
      ++ Group.node? body)

/-- The nodes of parameters. -/
def Param.nodes : List Param → List Node
  | [] => []
  | a :: rest => a.node :: Param.nodes rest

/-- The node of a parameter. -/
def Param.node : Param → Node
  | ⟨modifiers, t, _, i, _, extent⟩ => .phrase extent (modifiers.nodes ++ [t.node] ++ [.name i])

/-- The node of a type declaration. -/
def TypeDecl.node : TypeDecl → Node
  | ⟨modifiers, _, i, typeParams, supertypes, interfaces, body, extent⟩ =>
    .phrase extent (modifiers.nodes ++ [.name i] ++ TypeParams.node? typeParams
      ++ TypeExpr.nodes supertypes ++ TypeExpr.nodes interfaces ++ [body.node])

end

/-- The node of the declaration of a package, if there is one. -/
def PackageDecl.node? : Option PackageDecl → List Node
  | none => []
  | some d => [.phrase d.extent (AnnotationUse.nodes d.annotations ++ [d.name.node])]

/-- The node of an import. -/
def ImportDecl.node (i : ImportDecl) : Node :=
  .phrase i.extent [i.name.node]

/-- The nodes in a file. -/
def CompilationUnit.nodes (u : CompilationUnit) : List Node :=
  PackageDecl.node? u.package ++ u.imports.map ImportDecl.node ++ u.types.map TypeDecl.node

/-! ## Where nodes stand -/

namespace Node

/-- What follows a node: an empty expression is never the last thing in a stretch. -/
def before : Node → Stretch → Stretch
  | .expr _ [], a => proper a
  | _, a => a

mutual

/-- The stretch of a node. -/
def laid (s : Script) : Node → Stretch
  | .name i => nameOf s i
  | .token position => within ⟨position, position + 1⟩ (wordOf s (· ≠ .eof))
  | .phrase extent below => within extent (proper (laidAll s below))
  | .expr extent below =>
    within extent (given (below = [] ↔ extent.first = extent.stop) (laidAll s below))

/-- Nodes in order, with any tokens between them. -/
def laidAll (s : Script) : List Node → Stretch
  | [] => run s (· ≠ .eof)
  | n :: rest => run s (· ≠ .eof) ++ n.laid s ++ n.before (laidAll s rest)

end

variable {s : Script} {p m q : Nat} {n : Node} {ns ms : List Node}

theorem of_before {a : Stretch} (h : n.before a p q) : a p q := by
  unfold before at h
  split at h
  · exact h.1
  · exact h

theorem before_of_lt {a : Stretch} (h : a p q) (hlt : p < q) : n.before a p q := by
  unfold before
  split
  · exact ⟨h, hlt⟩
  · exact h

/-- What follows a node may be made longer. -/
theorem before_mono {a b : Stretch} (h : n.before a p m) (hmq : m ≤ q) (hab : a p m → b p q) :
    n.before b p q := by
  unfold before at h ⊢
  split at h
  · exact ⟨hab h.1, Nat.lt_of_lt_of_le h.2 hmq⟩
  · exact hab h

theorem extent_of_laid (h : n.laid s p q) : n.extent = ⟨p, q⟩ := by
  cases n with
  | name i =>
    obtain ⟨-, rfl, rfl⟩ := h
    rfl
  | token position => exact h.2
  | phrase extent below => exact h.2
  | expr extent below => exact h.2

theorem laidAll_of_code (h : run s (· ≠ .eof) p m) (hns : laidAll s ns m q) :
    laidAll s ns p q := by
  cases ns with
  | nil => exact run_trans h hns
  | cons n ns =>
    obtain ⟨m₁, ⟨m₂, hcode, hn⟩, hns⟩ := hns
    exact ⟨m₁, ⟨m₂, run_trans h hcode, hn⟩, hns⟩

theorem laidAll_cons (hn : n.laid s p m) (hns : n.before (laidAll s ns) m q) :
    laidAll s (n :: ns) p q :=
  ⟨m, ⟨p, run_self, hn⟩, hns⟩

/-- A single node, unless it is an empty expression. -/
theorem laidAll_singleton (h : n.laid s p q) (hn : ∀ e, n ≠ .expr e []) : laidAll s [n] p q := by
  refine laidAll_cons h ?_
  unfold before
  split
  · exact absurd rfl (hn _)
  · exact run_self

theorem laidAll_append (hns : laidAll s ns p m) (hms : laidAll s ms m q) :
    laidAll s (ns ++ ms) p q := by
  induction ns generalizing p with
  | nil => exact laidAll_of_code hns hms
  | cons n ns ih =>
    obtain ⟨m₁, hn, hns⟩ := hns
    exact ⟨m₁, hn, before_mono hns ((laidAll s ms).le hms) ih⟩

end Node

end Stencil
