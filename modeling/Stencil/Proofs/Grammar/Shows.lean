import Stencil.Proofs.Grammar.Strict
import Stencil.Proofs.Landmark

/-!
# Where the landmarks of a tree stand

A form shows landmarks if in every run of the form they stand in order: of two landmarks the one that
comes first in the list begins earlier, or at the same token and is the longer one. As no two of them
have the same extent, none is in the list twice.

A landmark comes in front of those in it, and these have to begin behind it or end in front of it. So
besides the forms that show landmarks there are those that hold them strictly inside.

Results: a form shows the landmarks of its parts one after the other (`Shows.append`), and every tree
shows in what it reads its landmarks (`shows_reads` for each sort, `CompilationUnit.shows_reads`).
-/

namespace Stencil

open Stretch

/-- Do the landmarks stand in order from one position up to another? -/
structure Landmark.InOrder (p q : Nat) (xs : List Landmark) : Prop where
  pairwise : xs.Pairwise Landmark.Precedes
  within : ∀ x ∈ xs, p ≤ x.feature.extent.first
    ∧ x.feature.extent.first < x.feature.extent.stop ∧ x.feature.extent.stop ≤ q

/-- Do the landmarks stand in order in every run of the form? -/
def Stretch.Shows (a : Stretch) (xs : List Landmark) : Prop :=
  ∀ ⦃p q⦄, a p q → Landmark.InOrder p q xs

/-- Do the landmarks stand in order in every run of the form, none of them from its beginning up to
its end? -/
def Stretch.Holds (a : Stretch) (xs : List Landmark) : Prop :=
  ∀ ⦃p q⦄, a p q → p < q ∧ Landmark.InOrder p q xs
    ∧ ∀ x ∈ xs, p < x.feature.extent.first ∨ x.feature.extent.stop < q

namespace Landmark.InOrder

variable {p p' m q q' : Nat} {x : Landmark} {xs ys : List Landmark}

theorem nil : InOrder p q [] :=
  ⟨.nil, by simp⟩

theorem mono (h : InOrder p q xs) (hp : p' ≤ p) (hq : q ≤ q') : InOrder p' q' xs := by
  refine ⟨h.pairwise, fun x hx => ?_⟩
  have := h.within x hx
  omega

theorem append (hx : InOrder p m xs) (hy : InOrder m q ys) (hpm : p ≤ m) (hmq : m ≤ q) :
    InOrder p q (xs ++ ys) := by
  refine ⟨List.pairwise_append.2 ⟨hx.pairwise, hy.pairwise, fun x hxs y hys => .inl ?_⟩, ?_⟩
  · have := hx.within x hxs
    have := hy.within y hys
    omega
  · intro x h
    rcases List.mem_append.1 h with h | h
    · exact (hx.mono p.le_refl hmq).within x h
    · exact (hy.mono hpm q.le_refl).within x h

/-- A landmark stands in front of those strictly inside it. -/
theorem cons (he : x.feature.extent = ⟨p, q⟩) (hpq : p < q) (h : InOrder p q xs)
    (hin : ∀ y ∈ xs, p < y.feature.extent.first ∨ y.feature.extent.stop < q) :
    InOrder p q (x :: xs) := by
  refine ⟨List.pairwise_cons.2 ⟨fun y hy => ?_, h.pairwise⟩, fun y hy => ?_⟩
  · have := h.within y hy
    have := hin y hy
    simp only [Precedes, he]
    omega
  · rcases List.mem_cons.1 hy with rfl | hy
    · simp only [he]
      omega
    · exact h.within y hy

end Landmark.InOrder

namespace Stretch

variable {a b : Stretch} {s : Script} {xs ys : List Landmark}

theorem shows_nil : a.Shows [] :=
  fun _ _ _ => .nil

theorem Shows.append (ha : a.Shows xs) (hb : b.Shows ys) : (a ++ b).Shows (xs ++ ys) :=
  fun _ _ ⟨_, h, h'⟩ => (ha h).append (hb h') (a.le h) (b.le h')

theorem Shows.lead (hb : b.Shows ys) : (a ++ b).Shows ys :=
  shows_nil.append hb

theorem Shows.trail (ha : a.Shows xs) : (a ++ b).Shows xs := by
  have h := ha.append (shows_nil (a := b))
  rwa [List.append_nil] at h

theorem Shows.given {c : Prop} (h : a.Shows xs) : (given c a).Shows xs :=
  fun _ _ ha => h ha.2

theorem Shows.within {e : Extent} (h : a.Shows xs) : (within e a).Shows xs :=
  fun _ _ ha => h ha.1

theorem shows_nameOf {i : Ident} {sight : Bool} : (nameOf s i).Shows [⟨.name i, sight⟩] := by
  rintro p q ⟨-, rfl, rfl⟩
  refine ⟨List.pairwise_singleton _ _, fun x hx => ?_⟩
  obtain rfl := List.mem_singleton.1 hx
  simp [Feature.extent]

/-! ### Landmarks strictly inside -/

theorem Strict.holds (h : a.Strict) : a.Holds [] :=
  fun _ _ ha => ⟨h ha, .nil, by simp⟩

theorem Holds.given {c : Prop} (h : a.Holds xs) : (given c a).Holds xs :=
  fun _ _ ha => h ha.2

theorem Holds.append (ha : a.Holds xs) (hb : b.Shows ys) : (a ++ b).Holds (xs ++ ys) := by
  rintro p q ⟨m, h, h'⟩
  have hmq := b.le h'
  obtain ⟨hpm, hx, hin⟩ := ha h
  refine ⟨Nat.lt_of_lt_of_le hpm hmq, hx.append (hb h') (a.le h) hmq, fun x hx' => ?_⟩
  rcases List.mem_append.1 hx' with hx' | hx'
  · have := hin x hx'
    omega
  · have := (hb h').within x hx'
    omega

theorem Holds.append_left (ha : a.Shows xs) (hb : b.Holds ys) : (a ++ b).Holds (xs ++ ys) := by
  rintro p q ⟨m, h, h'⟩
  have hpm := a.le h
  obtain ⟨hmq, hy, hin⟩ := hb h'
  refine ⟨Nat.lt_of_le_of_lt hpm hmq, (ha h).append hy hpm (b.le h'), fun x hx' => ?_⟩
  rcases List.mem_append.1 hx' with hx' | hx'
  · have := (ha h).within x hx'
    omega
  · have := hin x hx'
    omega

theorem Holds.trail (ha : a.Holds xs) : (a ++ b).Holds xs := by
  have h := ha.append (shows_nil (a := b))
  rwa [List.append_nil] at h

/-- A token behind the landmarks keeps them off the end. -/
theorem Holds.closed (ha : a.Shows xs) (hb : b.Strict) : (a ++ b).Holds xs := by
  have h := Holds.append_left ha hb.holds
  rwa [List.append_nil] at h

/-- What stands behind a token is strictly inside. -/
theorem Strict.lead (ha : a.Strict) (hb : b.Shows ys) : (a ++ b).Holds ys :=
  ha.holds.append hb

/-- What covers an extent is a landmark, in front of those strictly inside it. -/
theorem Shows.mark {e : Extent} {x : Landmark} (h : a.Holds xs) (he : x.feature.extent = e) :
    (Stretch.within e a).Shows (x :: xs) := by
  rintro p q ⟨ha, rfl⟩
  obtain ⟨hpq, hx, hin⟩ := h ha
  exact hx.cons he hpq hin

end Stretch

variable {s : Script}

/-! ## Parts of declarations and bodies -/

mutual

theorem AnnotationUse.shows_reads {sight : Bool} :
    ∀ a : AnnotationUse, (a.reads s).Shows (a.landmarks sight)
  | ⟨_, args, _⟩ => .mark (.append (.trail strict_word.holds) (Group.shows_readsOr args)) rfl

theorem AnnotationUse.shows_readsAll {sight : Bool} :
    ∀ as : List AnnotationUse,
      (AnnotationUse.readsAll s as).Shows (AnnotationUse.landmarksAll sight as)
  | [] => shows_nil
  | a :: rest => a.shows_reads.append (AnnotationUse.shows_readsAll rest)

theorem AnnotationUse.shows_readsAmong {sight : Bool} :
    ∀ (as : List AnnotationUse) (flags : List Kind),
    (AnnotationUse.readsAmong s as flags).Shows (AnnotationUse.landmarksAll sight as)
  | [], _ => shows_nil
  | a :: rest, flags => by
    intro p q h
    obtain ⟨n, h⟩ := h
    exact a.shows_reads.lead.append (AnnotationUse.shows_readsAmong rest (flags.drop n)) h

theorem TypeExpr.shows_reads {sight : Bool} : ∀ t : TypeExpr, (t.reads s).Shows (t.landmarks sight)
  | ⟨annotations, core, _, _⟩ =>
    .mark (.trail (.append_left (AnnotationUse.shows_readsAll annotations) core.holds_reads)) rfl

theorem TypeExpr.shows_reads? {sight : Bool} :
    ∀ t : Option TypeExpr, (TypeExpr.reads? s t).Shows (TypeExpr.landmarks? sight t)
  | none => shows_nil
  | some t => t.shows_reads

theorem TypeExpr.shows_readsBehind {sight : Bool} {lead : Stretch} {separator : Kind} :
    ∀ ts : List TypeExpr,
    (TypeExpr.readsBehind s lead separator ts).Shows (TypeExpr.landmarksAll sight ts)
  | [] => shows_nil
  | t :: rest => .append t.shows_reads.lead (TypeExpr.shows_readsBehind rest)

theorem TypeCore.holds_reads {sight : Bool} : ∀ c : TypeCore, (c.reads s).Holds (c.landmarks sight)
  | .primitive _ => .given strict_word.holds
  | .named [] => fun _ _ h => absurd rfl h.1
  | .named (⟨_, args⟩ :: rest) =>
    .given (.append (.append strict_nameOf.right.holds (TypeArgs.shows_reads? args))
      (TypeSegment.shows_readsBehind rest))

theorem TypeSegment.shows_readsBehind {sight : Bool} {lead : Stretch} : ∀ ss : List TypeSegment,
    (TypeSegment.readsBehind s lead ss).Shows (TypeSegment.landmarksAll sight ss)
  | [] => shows_nil
  | ⟨_, args⟩ :: rest =>
    .append (TypeArgs.shows_reads? args).lead (TypeSegment.shows_readsBehind rest)

theorem TypeArgs.shows_reads {sight : Bool} : ∀ a : TypeArgs, (a.reads s).Shows (a.landmarks sight)
  | ⟨entries, _⟩ => .within (.trail (.lead (TypeArg.shows_readsBehind entries)))

theorem TypeArgs.shows_reads? {sight : Bool} :
    ∀ a : Option TypeArgs, (TypeArgs.reads? s a).Shows (TypeArgs.landmarks? sight a)
  | none => shows_nil
  | some a => a.shows_reads

theorem TypeArg.shows_readsBehind {sight : Bool} {lead : Stretch} : ∀ as : List TypeArg,
    (TypeArg.readsBehind s lead as).Shows (TypeArg.landmarksAll sight as)
  | [] => shows_nil
  | a :: rest => .append a.shows_reads.lead (TypeArg.shows_readsBehind rest)

theorem TypeArg.shows_reads {sight : Bool} : ∀ a : TypeArg, (a.reads s).Shows (a.landmarks sight)
  | .type t => t.shows_reads
  | .wildcard _ => shows_nil
  | .bounded _ t _ => .within (.lead t.shows_reads)

theorem TypeParam.shows_reads {sight : Bool} :
    ∀ a : TypeParam, (a.reads s).Shows (a.landmarks sight)
  | ⟨annotations, _, bounds, _⟩ =>
    .mark (.append (.closed (AnnotationUse.shows_readsAll annotations) strict_nameOf)
      (TypeExpr.shows_readsBehind bounds)) rfl

theorem TypeParam.shows_readsBehind {sight : Bool} {lead : Stretch} : ∀ as : List TypeParam,
    (TypeParam.readsBehind s lead as).Shows (TypeParam.landmarksAll sight as)
  | [] => shows_nil
  | a :: rest => .append a.shows_reads.lead (TypeParam.shows_readsBehind rest)

theorem TypeParams.shows_reads? {sight : Bool} :
    ∀ a : Option TypeParams, (TypeParams.reads? s a).Shows (TypeParams.landmarks? sight a)
  | none => shows_nil
  | some ⟨entries, _⟩ => .within (.given (.trail (.lead (TypeParam.shows_readsBehind entries))))

theorem Modifiers.shows_reads {sight : Bool} :
    ∀ ms : Modifiers, (ms.reads s).Shows (ms.landmarks sight)
  | ⟨flags, annotations⟩ => .given (AnnotationUse.shows_readsAmong annotations flags)

theorem Group.shows_reads {sight : Bool} : ∀ g : Group, (g.reads s).Shows (g.landmarks sight)
  | ⟨_, elems, _⟩ => .mark (.trail (strict_word.lead (Elem.shows_readsAll elems))) rfl

theorem Group.shows_readsOr {sight : Bool} {absent : Stretch} :
    ∀ g : Option Group, (Group.readsOr s absent g).Shows (Group.landmarks? sight g)
  | none => shows_nil
  | some g => g.shows_reads

theorem Expr.shows_reads {sight : Bool} : ∀ e : Expr, (e.reads s).Shows (e.landmarks sight)
  | ⟨elems, _⟩ => .within (.given (Elem.shows_readsAll elems))

theorem Expr.shows_reads? {sight : Bool} {lead : Stretch} :
    ∀ e : Option Expr, (Expr.reads? s lead e).Shows (Expr.landmarks? sight e)
  | none => shows_nil
  | some e => e.shows_reads.lead

theorem Expr.shows_readsBehind {sight : Bool} {lead : Stretch} :
    ∀ es : List Expr, (Expr.readsBehind s lead es).Shows (Expr.landmarksAll sight es)
  | [] => shows_nil
  | e :: rest => .append e.shows_reads.lead (Expr.shows_readsBehind rest)

theorem Elem.shows_readsAll {sight : Bool} :
    ∀ es : List Elem, (Elem.readsAll s es).Shows (Elem.landmarksAll sight es)
  | [] => shows_nil
  | e :: rest => e.shows_reads.append (Elem.shows_readsAll rest)

theorem Elem.shows_reads {sight : Bool} : ∀ e : Elem, (e.reads s).Shows (e.landmarks sight)
  | .token _ => shows_nil
  | .ident _ => Stretch.shows_nameOf
  | .type t => t.shows_reads
  | .typeArgs args => args.shows_reads
  | .group g => g.shows_reads
  | .intrinsic call => call.shows_reads
  | .anonymous body => body.shows_reads
  | .localType decl => decl.shows_reads

theorem IntrinsicCall.shows_reads {sight : Bool} :
    ∀ c : IntrinsicCall, (c.reads s).Shows (c.landmarks sight)
  | ⟨_, hint, _, args, _⟩ =>
    .within (.given (.trail (.append (.trail (.trail (.lead (TypeArgs.shows_reads? hint))))
      (Expr.shows_readsBehind args))))

theorem ClassBody.shows_reads {sight : Bool} :
    ∀ b : ClassBody, (b.reads s).Shows (b.landmarks sight)
  | ⟨constants, members, _⟩ =>
    .mark (.trail (.append (strict_word.lead (EnumConstant.shows_readsBehind constants))
      (Member.shows_readsAll members))) rfl

theorem ClassBody.shows_reads? {sight : Bool} :
    ∀ b : Option ClassBody, (ClassBody.reads? s b).Shows (ClassBody.landmarks? sight b)
  | none => shows_nil
  | some b => b.shows_reads

theorem EnumConstant.shows_reads {sight : Bool} :
    ∀ c : EnumConstant, (c.reads s).Shows (c.landmarks sight)
  | ⟨annotations, _, args, body⟩ =>
    .append (.append (.trail (AnnotationUse.shows_readsAll annotations))
      (Group.shows_readsOr args)) (ClassBody.shows_reads? body)

theorem EnumConstant.shows_readsBehind {sight : Bool} {lead : Stretch} : ∀ cs : List EnumConstant,
    (EnumConstant.readsBehind s lead cs).Shows (EnumConstant.landmarksAll sight cs)
  | [] => shows_nil
  | c :: rest => .append c.shows_reads.lead (EnumConstant.shows_readsBehind rest)

theorem Member.shows_readsAll {sight : Bool} :
    ∀ ms : List Member, (Member.readsAll s ms).Shows (Member.landmarksAll sight ms)
  | [] => shows_nil
  | m :: rest => .append m.shows_reads.lead (Member.shows_readsAll rest)

theorem Member.shows_reads {sight : Bool} : ∀ m : Member, (m.reads s).Shows (m.landmarks sight)
  | .field f => f.shows_reads
  | .method d => d.shows_reads
  | .block _ body => body.shows_reads.lead
  | .nested decl => decl.shows_reads

theorem FieldDecl.shows_reads {sight : Bool} :
    ∀ f : FieldDecl, (f.reads s).Shows (f.landmarks sight)
  | ⟨modifiers, t, declarators, _⟩ =>
    .within (.trail (.append (modifiers.shows_reads.append t.shows_reads)
      (Declarator.shows_readsBehind declarators)))

theorem Declarator.shows_readsBehind {sight : Bool} {lead : Stretch} : ∀ ds : List Declarator,
    (Declarator.readsBehind s lead ds).Shows (Declarator.landmarksAll sight ds)
  | [] => shows_nil
  | ⟨_, _, value⟩ :: rest =>
    .append (Expr.shows_reads? value).lead.lead (Declarator.shows_readsBehind rest)

theorem MethodDecl.shows_reads {sight : Bool} :
    ∀ d : MethodDecl, (d.reads s).Shows (d.landmarks sight)
  | ⟨modifiers, typeParams, returnType, i, params, dims, throws, defaultValue, body, extent⟩ => by
    have hhead : (modifiers.reads s ++ TypeParams.reads? s typeParams
        ++ TypeExpr.reads? s returnType).Shows (modifiers.landmarks sight
          ++ TypeParams.landmarks? sight typeParams ++ TypeExpr.landmarks? sight returnType) :=
      (modifiers.shows_reads.append (TypeParams.shows_reads? typeParams)).append
        (TypeExpr.shows_reads? returnType)
    have hparams : (Param.readsBehind s .empty params).Shows (Param.landmarksAll sight params) :=
      Param.shows_readsBehind params
    exact .within (.append (.append (.append (.trail (.trail (.append (.trail (.trail hhead)) hparams)))
      (TypeExpr.shows_readsBehind throws)) (Expr.shows_reads? defaultValue))
      (Group.shows_readsOr body))

theorem Param.shows_readsBehind {sight : Bool} {lead : Stretch} : ∀ as : List Param,
    (Param.readsBehind s lead as).Shows (Param.landmarksAll sight as)
  | [] => shows_nil
  | a :: rest => .append a.shows_reads.lead (Param.shows_readsBehind rest)

theorem Param.shows_reads {sight : Bool} : ∀ a : Param, (a.reads s).Shows (a.landmarks sight)
  | ⟨modifiers, t, _, _, _, _⟩ =>
    .within (.trail (.trail (.trail (modifiers.shows_reads.append t.shows_reads))))

theorem TypeDecl.shows_reads {sight : Bool} : ∀ d : TypeDecl, (d.reads s).Shows (d.landmarks sight)
  | ⟨modifiers, kind, i, typeParams, supertypes, interfaces, body, extent⟩ => by
    have hname : (modifiers.reads s ++ words s kind.words ++ nameOf s i).Holds
        (modifiers.landmarks sight) :=
      Holds.closed modifiers.shows_reads.trail strict_nameOf
    exact .mark (.append (.append (.append (.append hname (TypeParams.shows_reads? typeParams))
      (TypeExpr.shows_readsBehind supertypes)) (TypeExpr.shows_readsBehind interfaces))
      body.shows_reads) rfl

end

/-! ## Files -/

theorem PackageDecl.shows_reads? :
    ∀ d : Option PackageDecl, (PackageDecl.reads? s d).Shows (PackageDecl.landmarks? d)
  | none => shows_nil
  | some d => .within (.trail (.trail (.trail (AnnotationUse.shows_readsAll d.annotations))))

theorem TypeDecl.shows_readsAll {sight : Bool} (ds : List TypeDecl) :
    (TypeDecl.readsAll s ds).Shows (TypeDecl.landmarksAll sight ds) := by
  induction ds with
  | nil => exact shows_nil
  | cons d ds ih => exact d.shows_reads.lead.append ih

/-- The landmarks of a file stand in its text in the order in which they are listed. -/
theorem CompilationUnit.shows_reads (u : CompilationUnit) : (u.reads s).Shows u.landmarks :=
  .append (.trail (PackageDecl.shows_reads? u.package)) (TypeDecl.shows_readsAll u.types)

end Stencil
