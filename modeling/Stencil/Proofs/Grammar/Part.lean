import Mathlib.Logic.Relation
import Stencil.Proofs.Grammar.Unit
import Stencil.Visit

/-!
# The parts of a tree

The nodes of a tree that other nodes can stand below, all as one type, and the step from a node to
those directly below it. What holds of a node at any depth is shown by this step: a node that reads
its tokens has only nodes below it that read theirs.

Results: where nodes read their tokens, so do the nodes at any depth below them
(`Part.AllRead.of_holds`).
-/

namespace Stencil

open Stretch

/-- A node of a tree that can have other nodes below it. -/
inductive Part where
  | annotationUse (a : AnnotationUse)
  | type (t : TypeExpr)
  | typeArgs (a : TypeArgs)
  | typeParam (a : TypeParam)
  | group (g : Group)
  | expr (e : Expr)
  | call (c : IntrinsicCall)
  | classBody (b : ClassBody)
  | enumConstant (c : EnumConstant)
  | member (m : Member)
  | declarator (d : Declarator)
  | param (a : Param)
  | typeDecl (d : TypeDecl)

/-- The part that an element is. A token and a name have nothing below them. -/
def Elem.part? : Elem → Option Part
  | .token _ => none
  | .ident _ => none
  | .type t => some (.type t)
  | .typeArgs a => some (.typeArgs a)
  | .group g => some (.group g)
  | .intrinsic c => some (.call c)
  | .anonymous b => some (.classBody b)
  | .localType d => some (.typeDecl d)

/-- The annotations among modifiers. -/
def Modifiers.parts (ms : Modifiers) : List Part :=
  ms.annotations.map .annotationUse

/-- The entries of type parameters, if there are any. -/
def TypeParams.parts? : Option TypeParams → List Part
  | none => []
  | some a => a.entries.map .typeParam

/-- The annotations of the package and the declarations of a file. Imports have nothing below them. -/
def CompilationUnit.parts (u : CompilationUnit) : List Part :=
  u.package.toList.flatMap (·.annotations.map .annotationUse) ++ u.types.map .typeDecl

namespace Part

/-- The nodes directly below the node. -/
def below : Part → List Part
  | .annotationUse a => a.args.toList.map .group
  | .type t =>
    t.annotations.map .annotationUse ++ t.segments.flatMap fun a => a.args.toList.map .typeArgs
  | .typeArgs a => a.entries.flatMap fun e => e.typeExpr?.toList.map .type
  | .typeParam a => a.annotations.map .annotationUse ++ a.bounds.map .type
  | .group g => g.elems.flatMap (·.part?.toList)
  | .expr e => e.elems.flatMap (·.part?.toList)
  | .call c => c.hint.toList.map .typeArgs ++ c.args.map .expr
  | .classBody b => b.constants.map .enumConstant ++ b.members.map .member
  | .enumConstant c =>
    c.annotations.map .annotationUse ++ c.args.toList.map .group ++ c.body.toList.map .classBody
  | .member (.field f) => f.modifiers.parts ++ [.type f.type] ++ f.declarators.map .declarator
  | .member (.method m) =>
    m.modifiers.parts ++ TypeParams.parts? m.typeParams ++ m.returnType.toList.map .type
      ++ m.params.map .param ++ m.throws.map .type ++ m.defaultValue.toList.map .expr
      ++ m.body.toList.map .group
  | .member (.block _ b) => [.group b]
  | .member (.nested d) => [.typeDecl d]
  | .declarator d => d.value.toList.map .expr
  | .param a => a.modifiers.parts ++ [.type a.type]
  | .typeDecl d =>
    d.modifiers.parts ++ TypeParams.parts? d.typeParams ++ d.supertypes.map .type
      ++ d.interfaces.map .type ++ [.classBody d.body]

/-- The type parameters of a declaration. -/
def typeParams? : Part → Option TypeParams
  | .member (.method m) => m.typeParams
  | .typeDecl d => d.typeParams
  | _ => none

/-- The second node is the first one or stands below it, at any depth. -/
def Holds : Part → Part → Prop :=
  Relation.ReflTransGen fun y x => x ∈ y.below

/-- The tokens of the node. -/
def reads (s : Script) : Part → Stretch
  | .annotationUse a => a.reads s
  | .type t => t.reads s
  | .typeArgs a => a.reads s
  | .typeParam a => a.reads s
  | .group g => g.reads s
  | .expr e => e.reads s
  | .call c => c.reads s
  | .classBody b => b.reads s
  | .enumConstant c => c.reads s
  | .member m => m.reads s
  | .declarator d => d.reads s
  | .param a => a.reads s
  | .typeDecl d => d.reads s

/-- Does each of the nodes read the code tokens from some position up to some other one? -/
def AllRead (s : Script) (xs : List Part) : Prop :=
  ∀ x ∈ xs, ∃ p q, x.reads s p q

end Part

/-! ## Lists of nodes -/

namespace Part

variable {s : Script} {p q : Nat} {x : Part} {xs ys : List Part}

theorem allRead_nil : AllRead s [] := by
  simp [AllRead]

theorem AllRead.append (hx : AllRead s xs) (hy : AllRead s ys) : AllRead s (xs ++ ys) := by
  intro y h
  exact (List.mem_append.1 h).elim (hx y) (hy y)

theorem AllRead.singleton (h : x.reads s p q) : AllRead s [x] := by
  intro y hy
  rw [List.mem_singleton.1 hy]
  exact ⟨p, q, h⟩

section Lists

variable {α : Type} {as : List α}

/-- The nodes in a list that is read entry by entry. -/
theorem allRead_flatMap {f : α → List Part} (R : List α → Stretch)
    (step : ∀ {p q a as}, R (a :: as) p q → AllRead s (f a) ∧ ∃ n, R as n q) (h : R as p q) :
    AllRead s (as.flatMap f) := by
  induction as generalizing p with
  | nil => exact allRead_nil
  | cons a as ih =>
    obtain ⟨ha, n, hrest⟩ := step h
    rw [List.flatMap_cons]
    exact ha.append (ih hrest)

/-- The nodes in a list whose entries stand behind leads. -/
theorem allRead_flatMap_behind {f : α → List Part} (R : Stretch → List α → Stretch)
    {lead : Stretch} (next : Stretch)
    (step : ∀ {lead p q a as}, R lead (a :: as) p q → AllRead s (f a) ∧ ∃ n, R next as n q)
    (h : R lead as p q) : AllRead s (as.flatMap f) := by
  cases as with
  | nil => exact allRead_nil
  | cons a as =>
    obtain ⟨ha, n, hrest⟩ := step h
    rw [List.flatMap_cons]
    exact ha.append (allRead_flatMap (R next) step hrest)

/-- Entries that are nodes themselves, each behind a lead. -/
theorem allRead_map_behind {f : α → Part} {R : Stretch → List α → Stretch} {lead next : Stretch}
    (cons : ∀ lead a as, R lead (a :: as) = lead ++ (f a).reads s ++ R next as)
    (h : R lead as p q) : AllRead s (as.map f) := by
  rw [List.map_eq_flatMap]
  refine allRead_flatMap_behind R next (fun {lead p q a as} h => ?_) h
  rw [cons] at h
  obtain ⟨n, ⟨m, -, ha⟩, hrest⟩ := h
  exact ⟨.singleton ha, n, hrest⟩

end Lists

theorem allRead_annotations {as : List AnnotationUse} (h : AnnotationUse.readsAll s as p q) :
    AllRead s (as.map .annotationUse) := by
  rw [List.map_eq_flatMap]
  exact allRead_flatMap (AnnotationUse.readsAll s)
    (fun ⟨n, ha, hrest⟩ => ⟨.singleton (x := .annotationUse _) ha, n, hrest⟩) h

theorem allRead_types {lead : Stretch} {k : Kind} {ts : List TypeExpr}
    (h : TypeExpr.readsBehind s lead k ts p q) : AllRead s (ts.map .type) :=
  allRead_map_behind (R := fun lead => TypeExpr.readsBehind s lead k) (fun _ _ _ => rfl) h

theorem allRead_exprs {lead : Stretch} {es : List Expr} (h : Expr.readsBehind s lead es p q) :
    AllRead s (es.map .expr) :=
  allRead_map_behind (fun _ _ _ => rfl) h

theorem allRead_typeParams {lead : Stretch} {as : List TypeParam}
    (h : TypeParam.readsBehind s lead as p q) : AllRead s (as.map .typeParam) :=
  allRead_map_behind (fun _ _ _ => rfl) h

theorem allRead_params {lead : Stretch} {as : List Param}
    (h : Param.readsBehind s lead as p q) : AllRead s (as.map .param) :=
  allRead_map_behind (fun _ _ _ => rfl) h

theorem allRead_declarators {lead : Stretch} {ds : List Declarator}
    (h : Declarator.readsBehind s lead ds p q) : AllRead s (ds.map .declarator) :=
  allRead_map_behind (fun _ _ _ => rfl) h

theorem allRead_constants {lead : Stretch} {cs : List EnumConstant}
    (h : EnumConstant.readsBehind s lead cs p q) : AllRead s (cs.map .enumConstant) :=
  allRead_map_behind (fun _ _ _ => rfl) h

theorem allRead_members {ms : List Member} (h : Member.readsAll s ms p q) :
    AllRead s (ms.map .member) := by
  rw [List.map_eq_flatMap]
  exact allRead_flatMap (Member.readsAll s)
    (fun ⟨n, ⟨_, _, hm⟩, hrest⟩ => ⟨.singleton (x := .member _) hm, n, hrest⟩) h

theorem allRead_elem {e : Elem} (h : e.reads s p q) : AllRead s e.part?.toList := by
  cases e with
  | token _ => exact allRead_nil
  | ident _ => exact allRead_nil
  | _ => exact .singleton h

theorem allRead_elems {es : List Elem} (h : Elem.readsAll s es p q) :
    AllRead s (es.flatMap (·.part?.toList)) :=
  allRead_flatMap (Elem.readsAll s) (fun ⟨n, he, hrest⟩ => ⟨allRead_elem he, n, hrest⟩) h

theorem allRead_modifiers {ms : Modifiers} (h : ms.reads s p q) : AllRead s ms.parts := by
  obtain ⟨flags, as⟩ := ms
  obtain ⟨-, h⟩ := h
  show AllRead s (as.map .annotationUse)
  induction as generalizing flags p with
  | nil => exact allRead_nil
  | cons a as ih =>
    obtain ⟨n, m', ⟨m, -, ha⟩, hrest⟩ := h
    rw [List.map_cons]
    exact AllRead.append (.singleton (x := .annotationUse a) ha) (ih _ hrest)

/-! ## Nodes that may be absent -/

theorem allRead_group? {absent : Stretch} {g : Option Group} (h : Group.readsOr s absent g p q) :
    AllRead s (g.toList.map .group) := by
  cases g with
  | none => exact allRead_nil
  | some g => exact .singleton h

theorem allRead_typeArgs? {a : Option TypeArgs} (h : TypeArgs.reads? s a p q) :
    AllRead s (a.toList.map .typeArgs) := by
  cases a with
  | none => exact allRead_nil
  | some a => exact .singleton h

theorem allRead_type? {t : Option TypeExpr} (h : TypeExpr.reads? s t p q) :
    AllRead s (t.toList.map .type) := by
  cases t with
  | none => exact allRead_nil
  | some t => exact .singleton h

theorem allRead_expr? {lead : Stretch} {e : Option Expr} (h : Expr.reads? s lead e p q) :
    AllRead s (e.toList.map .expr) := by
  cases e with
  | none => exact allRead_nil
  | some e =>
    obtain ⟨m, -, h⟩ := h
    exact .singleton h

theorem allRead_classBody? {b : Option ClassBody} (h : ClassBody.reads? s b p q) :
    AllRead s (b.toList.map .classBody) := by
  cases b with
  | none => exact allRead_nil
  | some b => exact .singleton h

theorem allRead_typeParams? {a : Option TypeParams} (h : TypeParams.reads? s a p q) :
    AllRead s (TypeParams.parts? a) := by
  cases a with
  | none => exact allRead_nil
  | some a =>
    obtain ⟨entries, extent⟩ := a
    obtain ⟨⟨-, _, ⟨m, -, h⟩, -⟩, -⟩ := h
    exact allRead_typeParams h

theorem allRead_segments {lead : Stretch} {as : List TypeSegment}
    (h : TypeSegment.readsBehind s lead as p q) :
    AllRead s (as.flatMap fun a => a.args.toList.map .typeArgs) := by
  refine allRead_flatMap_behind (TypeSegment.readsBehind s) (word s .dot) (fun {lead p q a as} h => ?_) h
  obtain ⟨i, args⟩ := a
  obtain ⟨n, ⟨_, -, hargs⟩, hrest⟩ := h
  exact ⟨allRead_typeArgs? hargs, n, hrest⟩

theorem allRead_typeArg {a : TypeArg} (h : a.reads s p q) :
    AllRead s (a.typeExpr?.toList.map .type) := by
  cases a with
  | type t => exact .singleton h
  | wildcard _ => exact allRead_nil
  | bounded _ t _ =>
    obtain ⟨⟨m, -, ht⟩, -⟩ := h
    exact .singleton ht

theorem allRead_typeArgEntries {lead : Stretch} {as : List TypeArg}
    (h : TypeArg.readsBehind s lead as p q) :
    AllRead s (as.flatMap fun a => a.typeExpr?.toList.map .type) :=
  allRead_flatMap_behind (TypeArg.readsBehind s) _
    (fun ⟨n, ⟨_, _, ha⟩, hrest⟩ => ⟨allRead_typeArg ha, n, hrest⟩) h

theorem allRead_compilationUnit {u : CompilationUnit} (h : u.reads s p q) : AllRead s u.parts := by
  obtain ⟨package, imports, types⟩ := u
  obtain ⟨m, ⟨_, hpackage, -⟩, htypes⟩ := h
  refine AllRead.append ?_ ?_
  · cases package with
    | none => exact allRead_nil
    | some d =>
      obtain ⟨⟨_, ⟨_, ⟨_, hannotations, -⟩, -⟩, -⟩, -⟩ := hpackage
      simpa using allRead_annotations hannotations
  · rw [List.map_eq_flatMap]
    exact allRead_flatMap (TypeDecl.readsAll s)
      (fun ⟨n, ⟨_, _, hd⟩, hrest⟩ => ⟨.singleton (x := .typeDecl _) hd, n, hrest⟩) htypes

/-! ## Nodes below a node -/

theorem allRead_below_member {m : Member} (h : m.reads s p q) : AllRead s (Part.member m).below := by
  cases m with
  | field f =>
    obtain ⟨modifiers, type, declarators, extent⟩ := f
    obtain ⟨⟨_, ⟨_, ⟨_, hmodifiers, ht⟩, hdeclarators⟩, -⟩, -⟩ := h
    exact ((allRead_modifiers hmodifiers).append (.singleton (x := .type type) ht)).append
      (allRead_declarators hdeclarators)
  | method m =>
    obtain ⟨modifiers, typeParams, returnType, i, params, dims, throws, defaultValue, body, extent⟩ := m
    obtain ⟨⟨_, ⟨_, ⟨_, ⟨_, ⟨_, ⟨_, ⟨_, ⟨_, ⟨_, ⟨_, hmodifiers, htypeParams⟩, hreturn⟩, -⟩, -⟩, hparams⟩,
      -⟩, -⟩, hthrows⟩, hdefault⟩, hbody⟩, -⟩ := h
    have hhead := ((allRead_modifiers hmodifiers).append (allRead_typeParams? htypeParams)).append
      (allRead_type? hreturn)
    have hsignature := (hhead.append (allRead_params hparams)).append (allRead_types hthrows)
    exact (hsignature.append (allRead_expr? hdefault)).append (allRead_group? hbody)
  | block ofType b =>
    obtain ⟨m, -, hb⟩ := h
    exact .singleton (x := .group b) hb
  | nested d => exact .singleton (x := .typeDecl d) h

/-- The nodes below a node that reads its tokens read theirs. -/
theorem allRead_below (h : x.reads s p q) : AllRead s x.below := by
  cases x with
  | annotationUse a =>
    obtain ⟨name, args, extent⟩ := a
    obtain ⟨⟨_, -, hargs⟩, -⟩ := h
    exact allRead_group? hargs
  | type t =>
    obtain ⟨annotations, core, dims, extent⟩ := t
    obtain ⟨⟨_, ⟨_, hannotations, hcore⟩, -⟩, -⟩ := h
    refine (allRead_annotations hannotations).append ?_
    cases core with
    | primitive k => exact allRead_nil
    | named segments => exact allRead_segments hcore.2
  | typeArgs a =>
    obtain ⟨entries, extent⟩ := a
    obtain ⟨⟨_, ⟨_, -, hentries⟩, -⟩, -⟩ := h
    exact allRead_typeArgEntries hentries
  | typeParam a =>
    obtain ⟨annotations, i, bounds, extent⟩ := a
    obtain ⟨⟨_, ⟨_, hannotations, -⟩, hbounds⟩, -⟩ := h
    exact (allRead_annotations hannotations).append (allRead_types hbounds)
  | group g =>
    obtain ⟨delimiter, elems, extent⟩ := g
    obtain ⟨⟨_, ⟨_, -, helems⟩, -⟩, -⟩ := h
    exact allRead_elems helems
  | expr e =>
    obtain ⟨elems, extent⟩ := e
    exact allRead_elems h.1.2
  | call c =>
    obtain ⟨receiver, hint, i, args, extent⟩ := c
    obtain ⟨⟨-, _, ⟨_, ⟨_, ⟨_, ⟨_, -, hhint⟩, -⟩, -⟩, hargs⟩, -⟩, -⟩ := h
    exact (allRead_typeArgs? hhint).append (allRead_exprs hargs)
  | classBody b =>
    obtain ⟨constants, members, extent⟩ := b
    obtain ⟨⟨_, ⟨_, ⟨_, -, hconstants⟩, hmembers⟩, -⟩, -⟩ := h
    exact (allRead_constants hconstants).append (allRead_members hmembers)
  | enumConstant c =>
    obtain ⟨annotations, i, args, body⟩ := c
    obtain ⟨_, ⟨_, ⟨_, hannotations, -⟩, hargs⟩, hbody⟩ := h
    exact ((allRead_annotations hannotations).append (allRead_group? hargs)).append
      (allRead_classBody? hbody)
  | member m => exact allRead_below_member h
  | declarator d =>
    obtain ⟨i, dims, value⟩ := d
    obtain ⟨_, -, hvalue⟩ := h
    exact allRead_expr? hvalue
  | param a =>
    obtain ⟨modifiers, type, variadic, i, dims, extent⟩ := a
    obtain ⟨⟨_, ⟨_, ⟨_, ⟨_, hmodifiers, ht⟩, -⟩, -⟩, -⟩, -⟩ := h
    exact (allRead_modifiers hmodifiers).append (.singleton (x := .type type) ht)
  | typeDecl d =>
    obtain ⟨modifiers, kind, i, typeParams, supertypes, interfaces, body, extent⟩ := d
    obtain ⟨⟨_, ⟨_, ⟨_, ⟨_, ⟨_, ⟨_, hmodifiers, -⟩, -⟩, htypeParams⟩, hsupertypes⟩, hinterfaces⟩,
      hbody⟩, -⟩ := h
    have hhead := (allRead_modifiers hmodifiers).append (allRead_typeParams? htypeParams)
    exact ((hhead.append (allRead_types hsupertypes)).append (allRead_types hinterfaces)).append
      (.singleton (x := .classBody body) hbody)

/-- A declaration that reads its tokens has type parameters that read theirs. -/
theorem exists_reads_typeParams {as : TypeParams} (h : x.reads s p q)
    (hx : x.typeParams? = some as) : ∃ m n, TypeParams.reads? s (some as) m n := by
  match x with
  | .member (.method ⟨_, typeParams, _, _, _, _, _, _, _, _⟩) =>
    obtain rfl : typeParams = some as := hx
    obtain ⟨⟨_, ⟨_, ⟨_, ⟨_, ⟨_, ⟨_, ⟨_, ⟨_, ⟨_, ⟨m, -, h⟩, -⟩, -⟩, -⟩, -⟩, -⟩, -⟩, -⟩, -⟩, -⟩, -⟩ := h
    exact ⟨m, _, h⟩
  | .typeDecl ⟨_, _, _, typeParams, _, _, _, _⟩ =>
    obtain rfl : typeParams = some as := hx
    obtain ⟨⟨_, ⟨_, ⟨_, ⟨m, -, h⟩, -⟩, -⟩, -⟩, -⟩ := h
    exact ⟨m, _, h⟩

/-- So do all nodes at any depth. -/
theorem AllRead.of_holds {y : Part} (h : AllRead s xs) (hy : y ∈ xs) (hyx : y.Holds x) :
    ∃ p q, x.reads s p q := by
  induction hyx with
  | refl => exact h y hy
  | tail _ hbelow ih =>
    obtain ⟨p, q, hread⟩ := ih
    exact allRead_below hread _ hbelow

end Part

end Stencil
