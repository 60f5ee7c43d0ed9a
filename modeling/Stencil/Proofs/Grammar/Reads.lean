import Stencil.Grammar.Bodies
import Stencil.Proofs.Grammar.Stretch

/-!
# What a tree says about its tokens

The grammar as a property of trees: `reads` is the stretch of code that a node stands for, told from
the node alone and without the rules that look for it. It fixes the kind of every token of the node,
where each name stands, and the extents of the node and of all nodes below it.

Results: the elements of two runs are read one after the other (`Elem.readsAll_append`).
-/

namespace Stencil

open Stretch

/-- A pair of square brackets for each array dimension. -/
def Stretch.dims (s : Script) (n : Nat) : Stretch :=
  times (word s .leftBracket ++ word s .rightBracket) n

/-- The keyword that a bound begins with. -/
def BoundKind.keyword : BoundKind → Kind
  | .upper => .kwExtends
  | .lower => .kwSuper

/-- The words that a declaration of a type begins with. -/
def DeclKind.words : DeclKind → List Kind
  | .ofClass => [.kwClass]
  | .ofInterface => [.kwInterface]
  | .ofEnum => [.kwEnum]
  | .ofAnnotationType => [.at, .kwInterface]

/-- Names, the first one behind the lead and each other one behind a dot. -/
def Ident.readsBehind (s : Script) (lead : Stretch) : List Ident → Stretch
  | [] => .empty
  | i :: rest => lead ++ nameOf s i ++ Ident.readsBehind s (word s .dot) rest

/-- `Name ('.' Name)*` -/
def QualifiedName.reads (s : Script) (q : QualifiedName) : Stretch :=
  within q.extent (given (q.segments ≠ []) (Ident.readsBehind s .empty q.segments))

/-- Is the kind that of a token without further meaning in a body? -/
def Kind.IsPlain (k : Kind) : Prop :=
  k ≠ .eof ∧ k ≠ .identifier ∧ k.isOpenDelimiter = false ∧ k.isCloseDelimiter = false

/-- Do lists of type arguments stand only behind a token, among elements with or without a token in front
of them? -/
def Elem.areOrderly (behindToken : Bool) : List Elem → Bool
  | [] => true
  | .typeArgs _ :: rest => behindToken && Elem.areOrderly false rest
  | .token _ :: rest => Elem.areOrderly true rest
  | _ :: rest => Elem.areOrderly false rest

mutual

/-- `'@' QualifiedName ('(' … ')')?` -/
def AnnotationUse.reads (s : Script) : AnnotationUse → Stretch
  | ⟨name, args, extent⟩ =>
    within extent (word s .at ++ name.reads s ++ Group.readsOr s .empty args)

/-- Annotations one after the other. -/
def AnnotationUse.readsAll (s : Script) : List AnnotationUse → Stretch
  | [] => .empty
  | a :: rest => a.reads s ++ AnnotationUse.readsAll s rest

/-- Annotations with the given modifiers among them. -/
def AnnotationUse.readsAmong (s : Script) : List AnnotationUse → List Kind → Stretch
  | [], flags => words s flags
  | a :: rest, flags =>
    any fun n => words s (flags.take n) ++ a.reads s
      ++ AnnotationUse.readsAmong s rest (flags.drop n)

/-- `Annotation* (Primitive | ClassType) ('[' ']')*` -/
def TypeExpr.reads (s : Script) : TypeExpr → Stretch
  | ⟨annotations, core, dims, extent⟩ =>
    within extent (AnnotationUse.readsAll s annotations ++ core.reads s ++ .dims s dims)

/-- A type, or no tokens if there is none. -/
def TypeExpr.reads? (s : Script) : Option TypeExpr → Stretch
  | none => .empty
  | some t => t.reads s

/-- Types, the first one behind the lead and each other one behind a separator. -/
def TypeExpr.readsBehind (s : Script) (lead : Stretch) (separator : Kind) :
    List TypeExpr → Stretch
  | [] => .empty
  | t :: rest => lead ++ t.reads s ++ TypeExpr.readsBehind s (word s separator) separator rest

/-- The keyword of a primitive type, or the parts of a class name with dots between them. -/
def TypeCore.reads (s : Script) : TypeCore → Stretch
  | .primitive kind => given (kind.isPrimitiveType = true) (word s kind)
  | .named segments => given (segments ≠ []) (TypeSegment.readsBehind s .empty segments)

/-- `Name TypeArgs?` for each part, the first one behind the lead and each other one behind a dot. -/
def TypeSegment.readsBehind (s : Script) (lead : Stretch) : List TypeSegment → Stretch
  | [] => .empty
  | ⟨i, args⟩ :: rest =>
    lead ++ nameOf s i ++ TypeArgs.reads? s args ++ TypeSegment.readsBehind s (word s .dot) rest

/-- `'<' (TypeArg (',' TypeArg)*)? '>'` -/
def TypeArgs.reads (s : Script) : TypeArgs → Stretch
  | ⟨entries, extent⟩ =>
    within extent (word s .less ++ TypeArg.readsBehind s .empty entries ++ word s .greater)

/-- Type arguments, or no tokens if there are none. -/
def TypeArgs.reads? (s : Script) : Option TypeArgs → Stretch
  | none => .empty
  | some args => args.reads s

/-- Type arguments, the first one behind the lead and each other one behind a comma. -/
def TypeArg.readsBehind (s : Script) (lead : Stretch) : List TypeArg → Stretch
  | [] => .empty
  | a :: rest => lead ++ a.reads s ++ TypeArg.readsBehind s (word s .comma) rest

/-- `Type | '?' (('extends' | 'super') Type)?` -/
def TypeArg.reads (s : Script) : TypeArg → Stretch
  | .type t => t.reads s
  | .wildcard extent => within extent (word s .question)
  | .bounded kind t extent => within extent (word s .question ++ word s kind.keyword ++ t.reads s)

/-- `Annotation* Name ('extends' Type ('&' Type)*)?` -/
def TypeParam.reads (s : Script) : TypeParam → Stretch
  | ⟨annotations, i, bounds, extent⟩ =>
    within extent (AnnotationUse.readsAll s annotations ++ nameOf s i
      ++ TypeExpr.readsBehind s (word s .kwExtends) .amp bounds)

/-- Type parameters, the first one behind the lead and each other one behind a comma. -/
def TypeParam.readsBehind (s : Script) (lead : Stretch) : List TypeParam → Stretch
  | [] => .empty
  | p :: rest => lead ++ p.reads s ++ TypeParam.readsBehind s (word s .comma) rest

/-- `'<' TypeParam (',' TypeParam)* '>'`, or no tokens if there are no type parameters. -/
def TypeParams.reads? (s : Script) : Option TypeParams → Stretch
  | none => .empty
  | some ⟨entries, extent⟩ =>
    within extent (given (entries ≠ [])
      (word s .less ++ TypeParam.readsBehind s .empty entries ++ word s .greater))

/-- Modifiers and annotations in any order. -/
def Modifiers.reads (s : Script) : Modifiers → Stretch
  | ⟨flags, annotations⟩ =>
    given (∀ k ∈ flags, k.isModifier = true) (AnnotationUse.readsAmong s annotations flags)

/-- The elements between a pair of brackets. -/
def Group.reads (s : Script) : Group → Stretch
  | ⟨delimiter, elems, extent⟩ =>
    within extent (word s delimiter.opening ++ Elem.readsAll s elems ++ word s delimiter.closing)

/-- A group, or another stretch if there is none. -/
def Group.readsOr (s : Script) (absent : Stretch) : Option Group → Stretch
  | none => absent
  | some g => g.reads s

/-- The elements of an expression, with lists of type arguments behind tokens. -/
def Expr.reads (s : Script) : Expr → Stretch
  | ⟨elems, extent⟩ =>
    within extent (given (Elem.areOrderly false elems = true) (Elem.readsAll s elems))

/-- An expression behind a lead, or no tokens if there is none. -/
def Expr.reads? (s : Script) (lead : Stretch) : Option Expr → Stretch
  | none => .empty
  | some e => lead ++ e.reads s

/-- Expressions, the first one behind the lead and each other one behind a comma. -/
def Expr.readsBehind (s : Script) (lead : Stretch) : List Expr → Stretch
  | [] => .empty
  | e :: rest => lead ++ e.reads s ++ Expr.readsBehind s (word s .comma) rest

/-- Elements without anything between them. -/
def Elem.readsAll (s : Script) : List Elem → Stretch
  | [] => .empty
  | e :: rest => e.reads s ++ Elem.readsAll s rest

/-- The tokens of an element. -/
def Elem.reads (s : Script) : Elem → Stretch
  | .token position => within ⟨position, position + 1⟩ (wordOf s Kind.IsPlain)
  | .ident i => nameOf s i
  | .type t => t.reads s
  | .typeArgs args => args.reads s
  | .group g => g.reads s
  | .intrinsic call => call.reads s
  | .anonymous body => body.reads s
  | .localType decl => decl.reads s

/-- `Receiver '.' TypeArgs? Name '(' (Expr (',' Expr)*)? ')'` -/
def IntrinsicCall.reads (s : Script) : IntrinsicCall → Stretch
  | ⟨receiver, hint, i, args, extent⟩ =>
    within extent (given (receiver.name = s.receiver)
      (nameOf s receiver ++ word s .dot ++ TypeArgs.reads? s hint ++ nameOf s i ++ word s .leftParen
        ++ Expr.readsBehind s .empty args ++ word s .rightParen))

/-- `'{' EnumConstants? Member* '}'`, where semicolons may stand in front of and behind members. -/
def ClassBody.reads (s : Script) : ClassBody → Stretch
  | ⟨constants, members, extent⟩ =>
    within extent (word s .leftBrace ++ EnumConstant.readsBehind s .empty constants
      ++ Member.readsAll s members ++ word s .rightBrace)

/-- The body of a type, or no tokens if there is none. -/
def ClassBody.reads? (s : Script) : Option ClassBody → Stretch
  | none => .empty
  | some b => b.reads s

/-- Constants, the first one behind the lead and each other one behind a comma. A comma may stand
behind the last one. -/
def EnumConstant.readsBehind (s : Script) (lead : Stretch) : List EnumConstant → Stretch
  | [] => optional lead
  | c :: rest => lead ++ c.reads s ++ EnumConstant.readsBehind s (word s .comma) rest

/-- `Annotation* Name Args? ClassBody?` -/
def EnumConstant.reads (s : Script) : EnumConstant → Stretch
  | ⟨annotations, i, args, body⟩ =>
    AnnotationUse.readsAll s annotations ++ nameOf s i ++ Group.readsOr s .empty args
      ++ ClassBody.reads? s body

/-- Members with any number of semicolons in front of each and at the end. -/
def Member.readsAll (s : Script) : List Member → Stretch
  | [] => run s (· = .semicolon)
  | m :: rest => run s (· = .semicolon) ++ m.reads s ++ Member.readsAll s rest

/-- The tokens of a member. -/
def Member.reads (s : Script) : Member → Stretch
  | .field f => f.reads s
  | .method m => m.reads s
  | .block ofType body => (if ofType then word s .kwStatic else .empty) ++ body.reads s
  | .nested decl => decl.reads s

/-- `Modifiers Type Declarator (',' Declarator)* ';'` -/
def FieldDecl.reads (s : Script) : FieldDecl → Stretch
  | ⟨modifiers, t, declarators, extent⟩ =>
    within extent (modifiers.reads s ++ t.reads s ++ Declarator.readsBehind s .empty declarators
      ++ word s .semicolon)

/-- Fields, the first one behind the lead and each other one behind a comma. -/
def Declarator.readsBehind (s : Script) (lead : Stretch) : List Declarator → Stretch
  | [] => .empty
  | d :: rest => lead ++ d.reads s ++ Declarator.readsBehind s (word s .comma) rest

/-- `Name ('[' ']')* ('=' Expr)?` -/
def Declarator.reads (s : Script) : Declarator → Stretch
  | ⟨i, dims, value⟩ => nameOf s i ++ .dims s dims ++ Expr.reads? s (word s .equal) value

/-- `Modifiers TypeParams? Type? Name '(' Params ')' ('[' ']')* ('throws' Types)?
('default' Expr)? (Block | ';')` -/
def MethodDecl.reads (s : Script) : MethodDecl → Stretch
  | ⟨modifiers, typeParams, returnType, i, params, dims, throws, defaultValue, body, extent⟩ =>
    within extent (modifiers.reads s ++ TypeParams.reads? s typeParams
      ++ TypeExpr.reads? s returnType ++ nameOf s i ++ word s .leftParen
      ++ Param.readsBehind s .empty params ++ word s .rightParen ++ .dims s dims
      ++ TypeExpr.readsBehind s (word s .kwThrows) .comma throws
      ++ Expr.reads? s (word s .kwDefault) defaultValue
      ++ Group.readsOr s (word s .semicolon) body)

/-- Parameters, the first one behind the lead and each other one behind a comma. -/
def Param.readsBehind (s : Script) (lead : Stretch) : List Param → Stretch
  | [] => .empty
  | a :: rest => lead ++ a.reads s ++ Param.readsBehind s (word s .comma) rest

/-- `Modifiers Type '...'? Name ('[' ']')*` -/
def Param.reads (s : Script) : Param → Stretch
  | ⟨modifiers, t, variadic, i, dims, extent⟩ =>
    within extent (modifiers.reads s ++ t.reads s
      ++ (if variadic then word s .ellipsis else .empty) ++ nameOf s i ++ .dims s dims)

/-- `Modifiers Keyword Name TypeParams? ('extends' Types)? ('implements' Types)? ClassBody` -/
def TypeDecl.reads (s : Script) : TypeDecl → Stretch
  | ⟨modifiers, kind, i, typeParams, supertypes, interfaces, body, extent⟩ =>
    within extent (modifiers.reads s ++ words s kind.words ++ nameOf s i
      ++ TypeParams.reads? s typeParams
      ++ TypeExpr.readsBehind s (word s .kwExtends) .comma supertypes
      ++ TypeExpr.readsBehind s (word s .kwImplements) .comma interfaces ++ body.reads s)

end

/-- `Annotation* 'package' QualifiedName ';'`, or no tokens if there is no package. -/
def PackageDecl.reads? (s : Script) : Option PackageDecl → Stretch
  | none => .empty
  | some p =>
    within p.extent (AnnotationUse.readsAll s p.annotations ++ word s .kwPackage ++ p.name.reads s
      ++ word s .semicolon)

/-- `'import' 'static'? QualifiedName ('.' '*')? ';'` -/
def ImportDecl.reads (s : Script) (i : ImportDecl) : Stretch :=
  within i.extent (word s .kwImport ++ (if i.ofMembers then word s .kwStatic else .empty)
    ++ i.name.reads s ++ (if i.onDemand then word s .dot ++ word s .star else .empty)
    ++ word s .semicolon)

/-- Imports one after the other. -/
def ImportDecl.readsAll (s : Script) : List ImportDecl → Stretch
  | [] => .empty
  | i :: rest => i.reads s ++ ImportDecl.readsAll s rest

/-- Type declarations with any number of semicolons in front of each and at the end. -/
def TypeDecl.readsAll (s : Script) : List TypeDecl → Stretch
  | [] => run s (· = .semicolon)
  | d :: rest => run s (· = .semicolon) ++ d.reads s ++ TypeDecl.readsAll s rest

/-- `PackageDecl? ImportDecl* (TypeDecl | ';')*` -/
def CompilationUnit.reads (s : Script) (u : CompilationUnit) : Stretch :=
  PackageDecl.reads? s u.package ++ ImportDecl.readsAll s u.imports ++ TypeDecl.readsAll s u.types

/-! ## Runs of elements -/

theorem Elem.readsAll_append {s : Script} {es fs : List Elem} {p m q : Nat}
    (he : Elem.readsAll s es p m) (hf : Elem.readsAll s fs m q) :
    Elem.readsAll s (es ++ fs) p q := by
  induction es generalizing p with
  | nil =>
    obtain rfl := Stretch.empty_iff.1 he
    exact hf
  | cons e es ih =>
    obtain ⟨n, he, hes⟩ := he
    exact ⟨n, he, ih hes⟩

@[simp] theorem Elem.readsAll_singleton {s : Script} {e : Elem} {p q : Nat} :
    Elem.readsAll s [e] p q ↔ e.reads s p q := by
  simp [Elem.readsAll]

end Stencil
