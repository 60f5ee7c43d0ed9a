import Stencil.Proofs.Grammar.Shows
import Stencil.Proofs.Grammar.Unit

/-!
# What a walk over a tree comes upon

The events of a walk that are those of landmarks are held against the landmarks of the tree itself. They
agree part by part, and so do two questions about the landmarks: whether all of them are in sight, and
whether there is an annotation that the walk passes over. The second question is asked of the nodes
from the outside in: what stands in an annotation that is passed over decides nothing more.

Results: over the tree of a file that is read, a walk comes exactly upon the landmarks in sight, each
once and in the order of the text, and upon all landmarks if and only if there are no annotations of
the package, of a constant of an enumeration, or of a type parameter
(`ParsedFile.told_of_ofString`). It does not come upon all landmarks of every file
(`ParsedFile.not_told_of_ofString`).
-/

namespace Stencil

/-- The events of visits that are those of landmarks. -/
def Visit.told (vs : List Visit) : List Event :=
  (traceAll vs).filter Event.isOfFeature

/-- What visits tell of a part of a tree: the landmarks of the part that are in sight. In a part in
sight all of them are, unless there is one of the given annotations or an annotation that is passed
over at one of them. -/
structure Visit.Tell (sight : Bool) (vs : List Visit) (as : List AnnotationUse)
    (xs : List Landmark) : Prop where
  events : (xs.filter (·.inSight)).map (·.feature.event) = if sight then told vs else []
  inSight_iff : sight = true →
    ((∀ x ∈ xs, x.inSight) ↔ as = [] ∧ ∀ x ∈ xs, x.feature.passedOver = [])

namespace Visit.Tell

variable {sight : Bool} {vs ws : List Visit} {as bs : List AnnotationUse} {xs ys : List Landmark}

theorem nil : Tell sight [] [] [] :=
  ⟨by simp [told, traceAll], by simp⟩

theorem append (h : Tell sight vs as xs) (h' : Tell sight ws bs ys) :
    Tell sight (vs ++ ws) (as ++ bs) (xs ++ ys) := by
  refine ⟨?_, fun hsight => ?_⟩
  · rw [List.filter_append, List.map_append, h.events, h'.events]
    cases sight <;> simp [told, traceAll_append]
  · simp only [List.forall_mem_append, List.append_eq_nil_iff, h.inSight_iff hsight,
      h'.inSight_iff hsight]
    exact and_and_and_comm

/-- A landmark in front of all that is passed over at it and of all else in it. -/
theorem landmark {f : Feature} {e : Event} (hf : f.event = e) (he : e.isOfFeature = true)
    (has : f.passedOver = as) (h : Tell sight vs as xs) :
    Tell sight [.node e vs] [] (⟨f, sight⟩ :: xs) := by
  refine ⟨?_, fun hsight => ?_⟩
  · have := h.events
    cases sight <;> simp_all [told, traceAll, trace]
  · simp [h.inSight_iff hsight, has, hsight]

/-- A node that is no landmark. -/
theorem node {e : Event} (he : e.isOfFeature = false) (h : Tell sight vs as xs) :
    Tell sight [.node e vs] as xs := by
  refine ⟨?_, h.inSight_iff⟩
  rw [h.events]
  simp [told, traceAll, trace, he]

/-- No landmark of what is out of sight is in sight. -/
theorem not_inSight (h : Tell false vs as xs) : ∀ x ∈ xs, x.inSight = false := by
  simpa [List.filter_eq_nil_iff] using h.events

end Visit.Tell

open Visit (Tell)

/-! ## Visits of what need not be there -/

/-- The visits of type parameters, if there are any. -/
def TypeParams.visits? : Option TypeParams → List Visit
  | none => []
  | some ⟨entries, _⟩ => TypeParam.visitsAll entries

/-- The visit of a type, if there is one. -/
def TypeExpr.visits? : Option TypeExpr → List Visit
  | none => []
  | some t => t.visits

/-- The visit of an expression, if there is one. -/
def Expr.visits? : Option Expr → List Visit
  | none => []
  | some e => e.visits

/-- The visit of a group, if there is one. -/
def Group.visits? : Option Group → List Visit
  | none => []
  | some g => g.visits

/-- The visit of the body of a type, if there is one. -/
def ClassBody.visits? : Option ClassBody → List Visit
  | none => []
  | some b => b.visits

theorem EnumConstant.visitsAll_cons (c : EnumConstant) (rest : List EnumConstant) :
    EnumConstant.visitsAll (c :: rest)
      = Group.visits? c.args ++ ClassBody.visits? c.body ++ EnumConstant.visitsAll rest := by
  rcases c with ⟨_, _, _ | args, _ | body⟩ <;>
    simp [EnumConstant.visitsAll, Group.visits?, ClassBody.visits?]

theorem MethodDecl.visits_eq (d : MethodDecl) :
    d.visits = [.node (.method d.name.name) (d.modifiers.visits ++ TypeParams.visits? d.typeParams
      ++ TypeExpr.visits? d.returnType ++ Param.visitsAll d.params ++ TypeExpr.visitsAll d.throws
      ++ Expr.visits? d.defaultValue ++ Group.visits? d.body)] := by
  rcases d with ⟨_, _ | ⟨_, _⟩, _ | _, _, _, _, _, _ | _, _ | _, _⟩ <;> rfl

theorem TypeDecl.visits_eq (d : TypeDecl) :
    d.visits = [.node (.typeDecl d.name.name) (d.modifiers.visits
      ++ TypeParams.visits? d.typeParams ++ TypeExpr.visitsAll d.supertypes
      ++ TypeExpr.visitsAll d.interfaces ++ d.body.visits)] := by
  rcases d with ⟨_, _, _, _ | ⟨_, _⟩, _, _, _, _⟩ <;> rfl

/-! ## Parts of declarations and bodies -/

theorem AnnotationUse.landmarksAll_eq_nil_iff {sight : Bool} {as : List AnnotationUse} :
    AnnotationUse.landmarksAll sight as = [] ↔ as = [] := by
  cases as with
  | nil => simp [AnnotationUse.landmarksAll]
  | cons a as =>
    obtain ⟨name, args, extent⟩ := a
    simp [AnnotationUse.landmarksAll, AnnotationUse.landmarks]

/-- Of annotations that are passed over nothing is told. -/
theorem Visit.Tell.passOver {sight : Bool} {vs : List Visit} {as : List AnnotationUse}
    (h : Tell false vs [] (AnnotationUse.landmarksAll false as)) :
    Tell sight [] as (AnnotationUse.landmarksAll false as) := by
  have hout := h.not_inSight
  refine ⟨?_, fun _ => ⟨fun h => ?_, ?_⟩⟩
  · rw [List.filter_eq_nil_iff.2 (by simpa using hout)]
    simp [told, traceAll]
  · have hnil : AnnotationUse.landmarksAll false as = [] :=
      List.eq_nil_iff_forall_not_mem.2 fun x hx => by simpa [hout x hx] using h x hx
    exact ⟨AnnotationUse.landmarksAll_eq_nil_iff.1 hnil, by simp [hnil]⟩
  · rintro ⟨rfl, -⟩
    simp [AnnotationUse.landmarksAll]

mutual

theorem AnnotationUse.tell_visits {sight : Bool} :
    ∀ a : AnnotationUse, Tell sight a.visits [] (a.landmarks sight)
  | ⟨_, none, _⟩ => .landmark rfl rfl rfl .nil
  | ⟨_, some args, _⟩ => .landmark rfl rfl rfl args.tell_visits

theorem AnnotationUse.tell_visitsAll {sight : Bool} : ∀ as : List AnnotationUse,
    Tell sight (AnnotationUse.visitsAll as) [] (AnnotationUse.landmarksAll sight as)
  | [] => .nil
  | a :: rest => a.tell_visits.append (AnnotationUse.tell_visitsAll rest)

theorem TypeExpr.tell_visits {sight : Bool} :
    ∀ t : TypeExpr, Tell sight t.visits [] (t.landmarks sight)
  | ⟨annotations, core, _, _⟩ =>
    .landmark rfl rfl rfl ((AnnotationUse.tell_visitsAll annotations).append core.tell_visits)

theorem TypeExpr.tell_visits? {sight : Bool} : ∀ t : Option TypeExpr,
    Tell sight (TypeExpr.visits? t) [] (TypeExpr.landmarks? sight t)
  | none => .nil
  | some t => t.tell_visits

theorem TypeExpr.tell_visitsAll {sight : Bool} : ∀ ts : List TypeExpr,
    Tell sight (TypeExpr.visitsAll ts) [] (TypeExpr.landmarksAll sight ts)
  | [] => .nil
  | t :: rest => t.tell_visits.append (TypeExpr.tell_visitsAll rest)

theorem TypeCore.tell_visits {sight : Bool} :
    ∀ c : TypeCore, Tell sight c.visits [] (c.landmarks sight)
  | .primitive _ => .nil
  | .named segments => TypeSegment.tell_visitsAll segments

theorem TypeSegment.tell_visitsAll {sight : Bool} : ∀ ss : List TypeSegment,
    Tell sight (TypeSegment.visitsAll ss) [] (TypeSegment.landmarksAll sight ss)
  | [] => .nil
  | ⟨_, none⟩ :: rest => TypeSegment.tell_visitsAll rest
  | ⟨_, some args⟩ :: rest => args.tell_visits.append (TypeSegment.tell_visitsAll rest)

theorem TypeArgs.tell_visits {sight : Bool} :
    ∀ a : TypeArgs, Tell sight a.visits [] (a.landmarks sight)
  | ⟨entries, _⟩ => TypeArg.tell_visitsAll entries

theorem TypeArg.tell_visitsAll {sight : Bool} : ∀ as : List TypeArg,
    Tell sight (TypeArg.visitsAll as) [] (TypeArg.landmarksAll sight as)
  | [] => .nil
  | .type t :: rest => t.tell_visits.append (TypeArg.tell_visitsAll rest)
  | .wildcard _ :: rest => TypeArg.tell_visitsAll rest
  | .bounded _ t _ :: rest => t.tell_visits.append (TypeArg.tell_visitsAll rest)

theorem TypeParam.tell_visitsAll {sight : Bool} : ∀ as : List TypeParam,
    Tell sight (TypeParam.visitsAll as) [] (TypeParam.landmarksAll sight as)
  | [] => .nil
  | ⟨annotations, name, bounds, extent⟩ :: rest => by
    have hparam : Tell sight [.node (.typeParam name.name) (TypeExpr.visitsAll bounds)] []
        (TypeParam.landmarks sight ⟨annotations, name, bounds, extent⟩) := by
      refine .landmark rfl rfl (List.append_nil _).symm ?_
      exact (Tell.passOver (AnnotationUse.tell_visitsAll annotations)).append
        (TypeExpr.tell_visitsAll bounds)
    exact hparam.append (TypeParam.tell_visitsAll rest)

theorem TypeParams.tell_visits? {sight : Bool} : ∀ ps : Option TypeParams,
    Tell sight (TypeParams.visits? ps) [] (TypeParams.landmarks? sight ps)
  | none => .nil
  | some ⟨entries, _⟩ => TypeParam.tell_visitsAll entries

theorem Modifiers.tell_visits {sight : Bool} :
    ∀ ms : Modifiers, Tell sight ms.visits [] (ms.landmarks sight)
  | ⟨_, annotations⟩ => AnnotationUse.tell_visitsAll annotations

theorem Group.tell_visits {sight : Bool} :
    ∀ g : Group, Tell sight g.visits [] (g.landmarks sight)
  | ⟨_, elems, _⟩ => .landmark rfl rfl rfl (Elem.tell_visitsAll elems)

theorem Group.tell_visits? {sight : Bool} : ∀ g : Option Group,
    Tell sight (Group.visits? g) [] (Group.landmarks? sight g)
  | none => .nil
  | some g => g.tell_visits

theorem Expr.tell_visits {sight : Bool} :
    ∀ e : Expr, Tell sight e.visits [] (e.landmarks sight)
  | ⟨elems, _⟩ => .node rfl (Elem.tell_visitsAll elems)

theorem Expr.tell_visits? {sight : Bool} : ∀ e : Option Expr,
    Tell sight (Expr.visits? e) [] (Expr.landmarks? sight e)
  | none => .nil
  | some e => e.tell_visits

theorem Expr.tell_visitsAll {sight : Bool} : ∀ es : List Expr,
    Tell sight (Expr.visitsAll es) [] (Expr.landmarksAll sight es)
  | [] => .nil
  | e :: rest => e.tell_visits.append (Expr.tell_visitsAll rest)

theorem Elem.tell_visitsAll {sight : Bool} : ∀ es : List Elem,
    Tell sight (Elem.visitsAll es) [] (Elem.landmarksAll sight es)
  | [] => .nil
  | e :: rest => .append (.node rfl e.tell_inner) (Elem.tell_visitsAll rest)

theorem Elem.tell_inner {sight : Bool} : ∀ e : Elem, Tell sight e.inner [] (e.landmarks sight)
  | .token _ => .nil
  | .ident _ => .landmark rfl rfl rfl .nil
  | .type t => t.tell_visits
  | .typeArgs args => args.tell_visits
  | .group g => g.tell_visits
  | .intrinsic ⟨_, none, _, args, _⟩ => Expr.tell_visitsAll args
  | .intrinsic ⟨_, some hint, _, args, _⟩ => hint.tell_visits.append (Expr.tell_visitsAll args)
  | .anonymous body => body.tell_visits
  | .localType decl => decl.tell_visits

theorem ClassBody.tell_visits {sight : Bool} :
    ∀ b : ClassBody, Tell sight b.visits [] (b.landmarks sight)
  | ⟨constants, members, _⟩ => by
    refine .landmark rfl rfl (List.append_nil _).symm ?_
    exact (EnumConstant.tell_visitsAll constants).append (Member.tell_visitsAll members)

theorem ClassBody.tell_visits? {sight : Bool} : ∀ b : Option ClassBody,
    Tell sight (ClassBody.visits? b) [] (ClassBody.landmarks? sight b)
  | none => .nil
  | some b => b.tell_visits

theorem EnumConstant.tell_visitsAll {sight : Bool} : ∀ cs : List EnumConstant,
    Tell sight (EnumConstant.visitsAll cs) (cs.flatMap (·.annotations))
      (EnumConstant.landmarksAll sight cs)
  | [] => .nil
  | ⟨annotations, _, args, body⟩ :: rest => by
    have hannotations : Tell sight [] annotations (AnnotationUse.landmarksAll false annotations) :=
      .passOver (AnnotationUse.tell_visitsAll annotations)
    have hargs := hannotations.append (Group.tell_visits? args)
    have h := (hargs.append (ClassBody.tell_visits? body)).append (EnumConstant.tell_visitsAll rest)
    rw [EnumConstant.visitsAll_cons]
    simpa [EnumConstant.landmarksAll, EnumConstant.landmarks] using h

theorem Member.tell_visitsAll {sight : Bool} : ∀ ms : List Member,
    Tell sight (Member.visitsAll ms) [] (Member.landmarksAll sight ms)
  | [] => .nil
  | m :: rest => .append (.node rfl m.tell_inner) (Member.tell_visitsAll rest)

theorem Member.tell_inner {sight : Bool} :
    ∀ m : Member, Tell sight m.inner [] (m.landmarks sight)
  | .field f => f.tell_visits
  | .method d => d.tell_visits
  | .block _ body => body.tell_visits
  | .nested decl => decl.tell_visits

theorem FieldDecl.tell_visits {sight : Bool} :
    ∀ f : FieldDecl, Tell sight f.visits [] (f.landmarks sight)
  | ⟨modifiers, t, declarators, _⟩ =>
    .node rfl ((modifiers.tell_visits.append t.tell_visits).append
      (Declarator.tell_visitsAll declarators))

theorem Declarator.tell_visitsAll {sight : Bool} : ∀ ds : List Declarator,
    Tell sight (Declarator.visitsAll ds) [] (Declarator.landmarksAll sight ds)
  | [] => .nil
  | ⟨_, _, none⟩ :: rest => Declarator.tell_visitsAll rest
  | ⟨_, _, some value⟩ :: rest => value.tell_visits.append (Declarator.tell_visitsAll rest)

theorem MethodDecl.tell_visits {sight : Bool} :
    ∀ d : MethodDecl, Tell sight d.visits [] (d.landmarks sight)
  | ⟨modifiers, typeParams, returnType, _, params, _, throws, defaultValue, body, _⟩ => by
    have hmodifiers : Tell sight modifiers.visits [] (modifiers.landmarks sight) :=
      modifiers.tell_visits
    have hhead := (hmodifiers.append (TypeParams.tell_visits? typeParams)).append
      (TypeExpr.tell_visits? returnType)
    have hparams := (hhead.append (Param.tell_visitsAll params)).append (TypeExpr.tell_visitsAll throws)
    rw [MethodDecl.visits_eq]
    exact .node rfl ((hparams.append (Expr.tell_visits? defaultValue)).append
      (Group.tell_visits? body))

theorem Param.tell_visitsAll {sight : Bool} : ∀ as : List Param,
    Tell sight (Param.visitsAll as) [] (Param.landmarksAll sight as)
  | [] => .nil
  | ⟨modifiers, t, _, _, _, _⟩ :: rest =>
    (modifiers.tell_visits.append t.tell_visits).append (Param.tell_visitsAll rest)

theorem TypeDecl.tell_visits {sight : Bool} :
    ∀ d : TypeDecl, Tell sight d.visits [] (d.landmarks sight)
  | ⟨modifiers, _, _, typeParams, supertypes, interfaces, body, _⟩ => by
    have hmodifiers : Tell sight modifiers.visits [] (modifiers.landmarks sight) :=
      modifiers.tell_visits
    have hhead := hmodifiers.append (TypeParams.tell_visits? typeParams)
    have htypes := (hhead.append (TypeExpr.tell_visitsAll supertypes)).append
      (TypeExpr.tell_visitsAll interfaces)
    rw [TypeDecl.visits_eq]
    exact .landmark rfl rfl rfl (htypes.append body.tell_visits)

end

/-! ## Files -/

theorem TypeDecl.tell_visitsAll (ds : List TypeDecl) :
    Tell true (ds.flatMap TypeDecl.visits) [] (TypeDecl.landmarksAll true ds) := by
  induction ds with
  | nil => exact .nil
  | cons d ds ih => exact d.tell_visits.append ih

/-- The annotations of the package, if there is one. -/
def CompilationUnit.packageAnnotations (u : CompilationUnit) : List AnnotationUse :=
  u.package.elim [] PackageDecl.annotations

theorem CompilationUnit.tell_package (u : CompilationUnit) :
    Tell true [] u.packageAnnotations (PackageDecl.landmarks? u.package) := by
  rw [packageAnnotations]
  cases u.package with
  | none => exact .nil
  | some d => exact .passOver (AnnotationUse.tell_visitsAll d.annotations)

theorem CompilationUnit.tell_visits (u : CompilationUnit) :
    Tell true u.visits u.packageAnnotations u.landmarks := by
  simpa [visits, landmarks] using u.tell_package.append (TypeDecl.tell_visitsAll u.types)

/-- All landmarks are told of exactly if all of them are in sight. -/
theorem Visit.Tell.told_eq_iff {vs : List Visit} {as : List AnnotationUse} {xs : List Landmark}
    (h : Tell true vs as xs) :
    told vs = xs.map (·.feature.event) ↔ as = [] ∧ ∀ x ∈ xs, x.feature.passedOver = [] := by
  have htold : told vs = (xs.filter (·.inSight)).map (·.feature.event) := by simpa using h.events.symm
  rw [← h.inSight_iff rfl, htold]
  refine ⟨fun heq => ?_, fun hall => by rw [List.filter_eq_self.2 hall]⟩
  -- as many landmarks are in sight as there are
  have hlength := congrArg List.length heq
  simpa using hlength

namespace ParsedFile

variable {text intrinsics : String} {f : ParsedFile}

/-- A walk over the tree of a file comes upon the landmarks in sight, each once and in the order of
the text, and upon all of them exactly if there are no annotations of the package, of a constant of
an enumeration, or of a type parameter. -/
theorem told_of_ofString (h : ofString text intrinsics = .ok f) :
    Visit.told f.tree.visits
        = (f.tree.landmarks.filter (·.inSight)).map (·.feature.event)
      ∧ f.tree.landmarks.Pairwise Landmark.Precedes
      ∧ (Visit.told f.tree.visits = f.tree.landmarks.map (·.feature.event)
        ↔ f.tree.packageAnnotations = []
          ∧ ∀ x ∈ f.tree.landmarks, x.feature.passedOver = []) := by
  have htell := f.tree.tell_visits
  obtain ⟨-, -, q, hreads, -⟩ := reads_of_ofString h
  refine ⟨?_, (f.tree.shows_reads hreads).pairwise, htell.told_eq_iff⟩
  simpa using htell.events.symm

/-- Annotations, types, groups, names, and the declarations in them, wherever they stand, as long as
no annotation is passed over. -/
theorem told_of_ofString_sample : ∃ f, ofString
      "@A class C<T extends D<@A D>> \x7b D f = g(new D() \x7b\x7d); void m(@A D d) \x7b class K \x7b\x7d \x7d \x7d"
      "Intrinsics" = .ok f
    ∧ f.tree.landmarks.Pairwise Landmark.Precedes
    ∧ Visit.told f.tree.visits = f.tree.landmarks.map (·.feature.event)
    ∧ f.tree.landmarks.length = 19 := by
  obtain ⟨f, hf, hok⟩ := exists_ok_of_sees
    (x := ofString
      "@A class C<T extends D<@A D>> \x7b D f = g(new D() \x7b\x7d); void m(@A D d) \x7b class K \x7b\x7d \x7d \x7d"
      "Intrinsics")
    (fun f => f.tree.packageAnnotations.isEmpty && f.tree.landmarks.length == 19
        && f.tree.landmarks.all fun x => x.feature.passedOver.isEmpty)
    (by decide +kernel)
  simp only [Bool.and_eq_true, List.isEmpty_iff, beq_iff_eq, List.all_eq_true] at hok
  obtain ⟨⟨hpackage, hlength⟩, hall⟩ := hok
  obtain ⟨-, hordered, hiff⟩ := told_of_ofString hf
  exact ⟨f, hf, hordered, hiff.2 ⟨hpackage, hall⟩, hlength⟩

/-- A walk does not come upon all landmarks of every file: annotations of the package, of the
constants of enumerations, and of type parameters are passed over. -/
theorem not_told_of_ofString : ¬∀ text intrinsics f, ofString text intrinsics = .ok f →
    Visit.told f.tree.visits = f.tree.landmarks.map (·.feature.event) := by
  intro hall
  obtain ⟨f, hf, hne⟩ := exists_ok_of_sees
    (x := ofString "@A package p; enum E \x7b @B X \x7d class C<@D T> \x7b \x7d" "Intrinsics")
    (fun f => Visit.told f.tree.visits != f.tree.landmarks.map (·.feature.event))
    (by decide +kernel)
  simp [hall _ _ f hf] at hne

end ParsedFile

end Stencil
