import Stencil.Proofs.Grammar.Part
import Stencil.Proofs.Rewrite.Places

/-!
# The places of the nodes of a tree

Whatever there is to rewrite in a node is also there in each node that it stands below. Only the hints of
calls are no places: a call is replaced with its hint.

Results: the places of a node below another one are among those of the other one, or the node is in a
hint (`places_subset_of_holds`), and the lists of types in a node are among its places
(`exists_typeArgs_mem_places`, `typeParams_mem_places`).
-/

namespace Stencil.Rewrite

open Outline (placesAll argPlaces paramPlaces operandPlaces)

/-- The places in a node. -/
def Part.places : Part → List Outline
  | .annotationUse a => placesAll (AnnotationUse.outline a)
  | .type t => placesAll (TypeExpr.outline t)
  | .typeArgs a => argPlaces (TypeArg.entries a.entries)
  | .typeParam a => placesAll (TypeParam.outline a)
  | .group g => placesAll (Group.outline g)
  | .expr e => placesAll (Expr.outline e)
  | .call c => .call c (Expr.entries c.args) :: operandPlaces (Expr.entries c.args)
  | .classBody b => placesAll (ClassBody.outline b)
  | .enumConstant c => placesAll (EnumConstant.outlines [c])
  | .member m => placesAll (Member.outline m)
  | .declarator d => placesAll (Declarator.outlines [d])
  | .param a => placesAll (Param.outlines [a])
  | .typeDecl d => placesAll (TypeDecl.outline d)

/-- Is the node in the hint of a call among the places? -/
def Part.IsInHint (ps : List Outline) (x : Part) : Prop :=
  ∃ c hint, .call c (Expr.entries c.args) ∈ ps ∧ c.hint = some hint ∧ (Part.typeArgs hint).Holds x

/-! ## Lists of nodes -/

variable {ps : List Outline}

/-- Are the places of all the nodes among the given ones? -/
def AllIn (ps : List Outline) (xs : List Part) : Prop :=
  ∀ x ∈ xs, Part.places x ⊆ ps

namespace AllIn

variable {xs ys : List Part} {qs : List Outline}

theorem nil : AllIn ps [] := by
  simp [AllIn]

theorem mono (h : AllIn ps xs) (hsub : ps ⊆ qs) : AllIn qs xs :=
  fun x hx => List.Subset.trans (h x hx) hsub

theorem append (hx : AllIn ps xs) (hy : AllIn qs ys) : AllIn (ps ++ qs) (xs ++ ys) := by
  intro x h
  rcases List.mem_append.1 h with h | h
  · exact hx.mono (List.subset_append_left _ _) x h
  · exact hy.mono (List.subset_append_right _ _) x h

/-- One more place. -/
theorem cons {o : Outline} (h : AllIn ps xs) : AllIn (o :: ps) xs :=
  h.mono (List.subset_cons_self _ _)

theorem single {x : Part} (h : Part.places x ⊆ ps) : AllIn ps [x] := by
  simpa [AllIn] using h

theorem self (x : Part) : AllIn (Part.places x) [x] :=
  .single (List.Subset.refl _)

end AllIn

/-- Nodes whose places come one after the other. -/
theorem allIn_map {α : Type} {f : α → Part} {O : List α → List Outline}
    (hcons : ∀ a rest, O (a :: rest) = Part.places (f a) ++ O rest) (as : List α) :
    AllIn (O as) (as.map f) := by
  induction as with
  | nil => exact .nil
  | cons a as ih =>
    rw [hcons, List.map_cons]
    exact (AllIn.self (f a)).append ih

theorem allIn_annotations (as : List AnnotationUse) :
    AllIn (placesAll (AnnotationUse.outlines as)) (as.map .annotationUse) :=
  allIn_map (O := fun as => placesAll (AnnotationUse.outlines as))
    (fun _ _ => Outline.placesAll_append _ _) as

theorem allIn_types (ts : List TypeExpr) : AllIn (placesAll (TypeExpr.outlines ts)) (ts.map .type) :=
  allIn_map (O := fun ts => placesAll (TypeExpr.outlines ts)) (fun _ _ => Outline.placesAll_append _ _) ts

theorem allIn_type? (t : Option TypeExpr) :
    AllIn (placesAll (TypeExpr.outline? t)) (t.toList.map .type) := by
  cases t with
  | none => exact .nil
  | some t => exact .self (.type t)

theorem allIn_entries (as : List TypeParam) :
    AllIn (paramPlaces (TypeParam.entries as)) (as.map .typeParam) :=
  allIn_map (O := fun as => paramPlaces (TypeParam.entries as)) (fun _ _ => rfl) as

theorem allIn_typeParams? (as : Option TypeParams) :
    AllIn (placesAll (TypeParams.outline? as)) (TypeParams.parts? as) := by
  cases as with
  | none => exact .nil
  | some as =>
    obtain ⟨entries, extent⟩ := as
    have hlist := AllIn.cons (o := .typeParams (TypeParam.entries entries) extent) (allIn_entries entries)
    exact hlist.mono (List.subset_append_left _ _)

theorem allIn_segments (ss : List TypeSegment) :
    AllIn (placesAll (TypeSegment.outlines ss)) (ss.flatMap fun a => a.args.toList.map .typeArgs) := by
  induction ss with
  | nil => exact .nil
  | cons a ss ih =>
    obtain ⟨i, args⟩ := a
    cases args with
    | none => exact ih.cons
    | some args =>
      obtain ⟨entries, extent⟩ := args
      exact AllIn.cons ((AllIn.self (.typeArgs ⟨entries, extent⟩)).cons.append ih)

theorem allIn_typeArgs (es : List TypeArg) :
    AllIn (argPlaces (TypeArg.entries es)) (es.flatMap fun e => e.typeExpr?.toList.map .type) := by
  induction es with
  | nil => exact .nil
  | cons e es ih =>
    cases e with
    | type t => exact (AllIn.self (.type t)).append ih
    | wildcard extent => exact ih
    | bounded kind t extent => exact (AllIn.self (.type t)).append ih

theorem allIn_group? (g : Option Group) :
    AllIn (placesAll (Group.outline? g)) (g.toList.map .group) := by
  cases g with
  | none => exact .nil
  | some g => exact .self (.group g)

theorem allIn_expr? (e : Option Expr) : AllIn (placesAll (Expr.outline? e)) (e.toList.map .expr) := by
  cases e with
  | none => exact .nil
  | some e => exact .self (.expr e)

theorem allIn_classBody? (b : Option ClassBody) :
    AllIn (placesAll (ClassBody.outline? b)) (b.toList.map .classBody) := by
  cases b with
  | none => exact .nil
  | some b => exact .self (.classBody b)

theorem allIn_operands (es : List Expr) :
    AllIn (operandPlaces (Expr.entries es)) (es.map .expr) :=
  allIn_map (O := fun es => operandPlaces (Expr.entries es)) (fun _ _ => rfl) es

theorem allIn_elems (es : List Elem) :
    AllIn (placesAll (Elem.outlines es)) (es.flatMap (·.part?.toList)) := by
  induction es with
  | nil => exact .nil
  | cons e es ih =>
    rw [Elem.outlines, Outline.placesAll_append, List.flatMap_cons]
    refine AllIn.append ?_ ih
    cases e with
    | token position => exact .nil
    | ident i => exact .nil
    | type t => exact .self (.type t)
    | typeArgs a =>
      obtain ⟨entries, extent⟩ := a
      exact ((AllIn.self (.typeArgs ⟨entries, extent⟩)).cons).mono (List.subset_append_left _ _)
    | group g => exact .self (.group g)
    | intrinsic c =>
      obtain ⟨receiver, hint, i, args, extent⟩ := c
      exact (AllIn.self (.call ⟨receiver, hint, i, args, extent⟩)).mono (List.subset_append_left _ _)
    | anonymous b => exact .self (.classBody b)
    | localType d => exact .self (.typeDecl d)

theorem allIn_modifiers (ms : Modifiers) : AllIn (placesAll (Modifiers.outline ms)) ms.parts := by
  obtain ⟨flags, annotations⟩ := ms
  exact allIn_annotations annotations

theorem allIn_constants (cs : List EnumConstant) :
    AllIn (placesAll (EnumConstant.outlines cs)) (cs.map .enumConstant) := by
  refine allIn_map (O := fun cs => placesAll (EnumConstant.outlines cs)) (fun c cs => ?_) cs
  obtain ⟨annotations, i, args, body⟩ := c
  simp [Part.places, EnumConstant.outlines, placesAll, Outline.placesAll_append]

theorem allIn_declarators (ds : List Declarator) :
    AllIn (placesAll (Declarator.outlines ds)) (ds.map .declarator) := by
  refine allIn_map (O := fun ds => placesAll (Declarator.outlines ds)) (fun d ds => ?_) ds
  obtain ⟨i, dims, value⟩ := d
  simp [Part.places, Declarator.outlines, placesAll, Outline.placesAll_append]

theorem allIn_params (as : List Param) :
    AllIn (placesAll (Param.outlines as)) (as.map .param) := by
  refine allIn_map (O := fun as => placesAll (Param.outlines as)) (fun a as => ?_) as
  obtain ⟨modifiers, t, variadic, i, dims, extent⟩ := a
  simp [Part.places, Param.outlines, placesAll, Outline.placesAll_append]

theorem allIn_members (ms : List Member) :
    AllIn (placesAll (Member.outlines ms)) (ms.map .member) :=
  allIn_map (O := fun ms => placesAll (Member.outlines ms)) (fun _ _ => Outline.placesAll_append _ _) ms

theorem allIn_typeDecls (ds : List TypeDecl) :
    AllIn (placesAll (TypeDecl.outlines ds)) (ds.map .typeDecl) :=
  allIn_map (O := fun ds => placesAll (TypeDecl.outlines ds)) (fun _ _ => Outline.placesAll_append _ _) ds

/-! ## Nodes below a node -/

theorem allIn_below_member (m : Member) : AllIn (Part.places (.member m)) (Part.member m).below := by
  cases m with
  | field f =>
    obtain ⟨modifiers, t, declarators, extent⟩ := f
    simp only [Part.places, Member.outline, FieldDecl.outline, Outline.placesAll_append]
    exact ((allIn_modifiers modifiers).append (.self (.type t))).append (allIn_declarators declarators)
  | method m =>
    obtain ⟨modifiers, typeParams, returnType, i, params, dims, throws, defaultValue, body, extent⟩ := m
    have hhead := ((allIn_modifiers modifiers).append (allIn_typeParams? typeParams)).append
      (allIn_type? returnType)
    have hrest := (((allIn_params params).append (allIn_types throws)).append
      (allIn_expr? defaultValue)).append (allIn_group? body)
    have hall := hhead.append (hrest.cons (o := .name i))
    simpa [Part.places, Part.below, Member.outline, MethodDecl.outline, Outline.placesAll_append, placesAll,
      Outline.places] using hall
  | block ofType b => exact .self (.group b)
  | nested d => exact .self (.typeDecl d)

/-- The places of a node directly below another one are among those of the other one, unless it is the
hint of a call. -/
theorem places_subset_of_below {x y : Part} (h : x ∈ y.below) : Part.places x ⊆ Part.places y
    ∨ ∃ c hint, y = .call c ∧ c.hint = some hint ∧ x = .typeArgs hint := by
  have all (hall : AllIn (Part.places y) y.below) : Part.places x ⊆ Part.places y
      ∨ ∃ c hint, y = .call c ∧ c.hint = some hint ∧ x = .typeArgs hint := .inl (hall x h)
  cases y with
  | annotationUse a =>
    obtain ⟨name, args, extent⟩ := a
    refine all ((allIn_group? args).mono ?_)
    simp [Part.places, AnnotationUse.outline, Outline.placesAll_append]
  | type t =>
    obtain ⟨annotations, core, dims, extent⟩ := t
    refine all ?_
    rw [Part.places, TypeExpr.outline, Outline.placesAll_append]
    refine (allIn_annotations annotations).append ?_
    cases core with
    | primitive kind => exact .nil
    | named segments => exact allIn_segments segments
  | typeArgs a => exact all (allIn_typeArgs a.entries)
  | typeParam a =>
    obtain ⟨annotations, i, bounds, extent⟩ := a
    refine all ?_
    rw [Part.places, TypeParam.outline, Outline.placesAll_append]
    exact (allIn_annotations annotations).append (allIn_types bounds).cons
  | group g =>
    obtain ⟨delimiter, elems, extent⟩ := g
    exact all (allIn_elems elems)
  | expr e =>
    obtain ⟨elems, extent⟩ := e
    exact all (allIn_elems elems)
  | call c =>
    rcases List.mem_append.1 h with h | h
    · obtain ⟨hint, hhint, rfl⟩ := List.mem_map.1 h
      exact .inr ⟨c, hint, rfl, by simpa using hhint, rfl⟩
    · exact .inl ((allIn_operands c.args).cons x h)
  | classBody b =>
    obtain ⟨constants, members, extent⟩ := b
    refine all ?_
    rw [Part.places, ClassBody.outline, Outline.placesAll_append]
    exact (allIn_constants constants).append (allIn_members members)
  | enumConstant c =>
    obtain ⟨annotations, i, args, body⟩ := c
    refine all ?_
    have hall := (allIn_annotations annotations).append
      (((allIn_group? args).append (allIn_classBody? body)).cons (o := .name i))
    simpa [Part.places, Part.below, EnumConstant.outlines, Outline.placesAll_append, placesAll,
      Outline.places] using hall
  | member m => exact all (allIn_below_member m)
  | declarator d =>
    obtain ⟨i, dims, value⟩ := d
    refine all ?_
    have hall := (allIn_expr? value).cons (o := .name i)
    simpa [Part.places, Part.below, Declarator.outlines, Outline.placesAll_append, placesAll,
      Outline.places] using hall
  | param a =>
    obtain ⟨modifiers, t, variadic, i, dims, extent⟩ := a
    refine all (((allIn_modifiers modifiers).append (.self (.type t))).mono ?_)
    simp [Part.places, Param.outlines, Outline.placesAll_append]
  | typeDecl d =>
    obtain ⟨modifiers, kind, i, typeParams, supertypes, interfaces, body, extent⟩ := d
    refine all ?_
    have hrest := (((allIn_typeParams? typeParams).append (allIn_types supertypes)).append
      (allIn_types interfaces)).append (.self (.classBody body))
    have hall := (allIn_modifiers modifiers).append (hrest.cons (o := .name i))
    simpa [Part.places, Part.below, TypeDecl.outline, Outline.placesAll_append, placesAll,
      Outline.places] using hall

/-- Nor does it matter how deep the node is. -/
theorem places_subset_of_holds {x y : Part} (h : y.Holds x) (hy : Part.places y ⊆ ps) :
    Part.places x ⊆ ps ∨ Part.IsInHint ps x := by
  induction h with
  | refl => exact .inl hy
  | tail _ hbelow ih =>
    rcases ih with hsub | ⟨c, hint, hc, hhint, hx⟩
    · rcases places_subset_of_below hbelow with hx | ⟨c, hint, rfl, hhint, rfl⟩
      · exact .inl (List.Subset.trans hx hsub)
      · exact .inr ⟨c, hint, hsub List.mem_cons_self, hhint, .refl⟩
    · exact .inr ⟨c, hint, hc, hhint, hx.tail hbelow⟩

/-! ## Lists of types -/

theorem typeArgs_mem_segments {a : TypeArgs} {ss : List TypeSegment}
    (h : ∃ s ∈ ss, s.args = some a) :
    ∃ owner, .typeArgs owner (TypeArg.entries a.entries) a.extent ∈ placesAll (TypeSegment.outlines ss) := by
  obtain ⟨s, hs, ha⟩ := h
  induction ss with
  | nil => cases hs
  | cons s' ss ih =>
    rcases List.mem_cons.1 hs with rfl | hs
    · obtain ⟨i, args⟩ := s
      obtain rfl : args = some a := ha
      obtain ⟨entries, extent⟩ := a
      exact ⟨some i.name, List.mem_cons_of_mem _ List.mem_cons_self⟩
    · obtain ⟨owner, hplace⟩ := ih hs
      obtain ⟨i, args⟩ := s'
      cases args with
      | none => exact ⟨owner, List.mem_cons_of_mem _ hplace⟩
      | some args =>
        obtain ⟨entries, extent⟩ := args
        have hbehind := List.mem_append_right (argPlaces (TypeArg.entries entries)) hplace
        exact ⟨owner, List.mem_cons_of_mem _ (List.mem_cons_of_mem _ hbehind)⟩

theorem typeArgs_mem_elems {a : TypeArgs} {es : List Elem} (h : .typeArgs a ∈ es) :
    .typeArgs none (TypeArg.entries a.entries) a.extent ∈ placesAll (Elem.outlines es) := by
  induction es with
  | nil => cases h
  | cons e es ih =>
    rw [Elem.outlines, Outline.placesAll_append]
    rcases List.mem_cons.1 h with rfl | h
    · obtain ⟨entries, extent⟩ := a
      exact List.mem_append_left _ List.mem_cons_self
    · exact List.mem_append_right _ (ih h)

theorem mem_of_part? {a : TypeArgs} {es : List Elem} (h : Part.typeArgs a ∈ es.flatMap (·.part?.toList)) :
    .typeArgs a ∈ es := by
  obtain ⟨e, he, ha⟩ := List.mem_flatMap.1 h
  cases e <;> simp [Elem.part?] at ha
  exact ha ▸ he

/-- Type arguments are among the places of the node that they are directly below of. -/
theorem typeArgs_mem_places_of_below {a : TypeArgs} {y : Part} (h : .typeArgs a ∈ y.below) :
    (∃ owner, .typeArgs owner (TypeArg.entries a.entries) a.extent ∈ Part.places y)
      ∨ ∃ c, y = .call c ∧ c.hint = some a := by
  cases y with
  | type t =>
    obtain ⟨annotations, core, dims, extent⟩ := t
    cases core with
    | primitive kind => simp [Part.below, TypeExpr.segments] at h
    | named segments =>
      have hmem : ∃ s ∈ segments, s.args = some a := by
        simpa [Part.below, TypeExpr.segments] using h
      obtain ⟨owner, hplace⟩ := typeArgs_mem_segments hmem
      rw [Part.places, TypeExpr.outline, Outline.placesAll_append]
      exact .inl ⟨owner, List.mem_append_right _ hplace⟩
  | group g =>
    obtain ⟨delimiter, elems, extent⟩ := g
    exact .inl ⟨none, typeArgs_mem_elems (mem_of_part? h)⟩
  | expr e =>
    obtain ⟨elems, extent⟩ := e
    exact .inl ⟨none, typeArgs_mem_elems (mem_of_part? h)⟩
  | call c => exact .inr ⟨c, rfl, by simpa [Part.below] using h⟩
  | member m =>
    cases m with
    | method m => cases hparams : m.typeParams <;>
        simp [Part.below, Modifiers.parts, TypeParams.parts?, hparams] at h
    | _ => simp [Part.below, Modifiers.parts] at h
  | typeDecl d =>
    cases hparams : d.typeParams <;> simp [Part.below, Modifiers.parts, TypeParams.parts?, hparams] at h
  | _ => simp [Part.below, Modifiers.parts] at h

/-- Type arguments below a node are among its places, or they are in a hint. -/
theorem exists_typeArgs_mem_places {a : TypeArgs} {y : Part} (h : y.Holds (.typeArgs a))
    (hne : y ≠ .typeArgs a) (hy : Part.places y ⊆ ps) :
    (∃ owner, .typeArgs owner (TypeArg.entries a.entries) a.extent ∈ ps)
      ∨ Part.IsInHint ps (.typeArgs a) := by
  rcases Relation.ReflTransGen.cases_tail h with heq | ⟨z, hz, hbelow⟩
  · exact absurd heq.symm hne
  · rcases places_subset_of_holds hz hy with hsub | ⟨c, hint, hc, hhint, hx⟩
    · rcases typeArgs_mem_places_of_below hbelow with ⟨owner, hplace⟩ | ⟨c, rfl, hhint⟩
      · exact .inl ⟨owner, hsub hplace⟩
      · exact .inr ⟨c, a, hsub List.mem_cons_self, hhint, .refl⟩
    · exact .inr ⟨c, hint, hc, hhint, hx.tail hbelow⟩

/-- The type parameters of a declaration are among its places. -/
theorem typeParams_mem_places {as : TypeParams} {y : Part} (h : y.typeParams? = some as) :
    .typeParams (TypeParam.entries as.entries) as.extent ∈ Part.places y := by
  obtain ⟨entries, extent⟩ := as
  match y with
  | .member (.method ⟨_, typeParams, _, _, _, _, _, _, _, _⟩) =>
    obtain rfl : typeParams = some ⟨entries, extent⟩ := h
    simp [Part.places, Member.outline, MethodDecl.outline, TypeParams.outline?, Outline.placesAll_append,
      placesAll, Outline.places]
  | .typeDecl ⟨_, _, _, typeParams, _, _, _, _⟩ =>
    obtain rfl : typeParams = some ⟨entries, extent⟩ := h
    simp [Part.places, TypeDecl.outline, TypeParams.outline?, Outline.placesAll_append, placesAll,
      Outline.places]

/-- The nodes of a file have their places among those of the file. -/
theorem allIn_parts (u : CompilationUnit) :
    AllIn (placesAll (CompilationUnit.outline u)) u.parts := by
  obtain ⟨package, imports, types⟩ := u
  have hpackage : AllIn (placesAll (PackageDecl.outline? package))
      (package.toList.flatMap (·.annotations.map .annotationUse)) := by
    cases package with
    | none => exact .nil
    | some d =>
      rw [PackageDecl.outline?, Outline.placesAll_append]
      simpa using (allIn_annotations d.annotations).mono (List.subset_append_left _ _)
  have himports : AllIn (placesAll (ImportDecl.outlines imports)) [] := .nil
  rw [CompilationUnit.outline, Outline.placesAll_append, Outline.placesAll_append]
  simpa [CompilationUnit.parts] using (hpackage.append himports).append (allIn_typeDecls types)

end Stencil.Rewrite
