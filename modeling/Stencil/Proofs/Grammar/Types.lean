import Stencil.Grammar.Types
import Stencil.Proofs.Grammar.Outcome
import Stencil.Proofs.Grammar.Reads

/-!
# What the rules for types find

Every rule for names, annotations, groups and types finds a tree that reads the tokens which the rule
has passed, as long as the rules for nested text do.

Results: what is found for a qualified name, a group, an expression, an annotation, a type, and lists
of types, type arguments and type parameters reads the tokens passed (`reads_of_qualifiedName`,
`reads_of_group`, `reads_of_expr`, `readsAll_of_annotations`, `reads_of_type`, `reads_of_typeArgs`,
`reads_of_typeParams`).
-/

namespace Stencil.Grammar

open Rule Stretch

/-- Do the rules for nested text find what reads the tokens passed? -/
structure Nested.Sound (s : Script) (g : Nested) : Prop where
  type : ∀ {p q t}, g.type.run s p = .ok t q → t.reads s p q
  elems : ∀ {u p q es}, (g.elems u).run s p = .ok es q → Elem.readsAll s es p q
  orderly : ∀ {u p q es}, (g.elems u).run s p = .ok es q → Elem.areOrderly false es = true
  classBody : ∀ {e p q b}, (g.classBody e).run s p = .ok b q → b.reads s p q

variable {s : Script} {p q : Nat} {g : Nested}

/-! ## Names and brackets -/

theorem run_dotAndName {b : Bool} (h : dotAndName.run s p = .ok b q) :
    q = p ∧ (b = true → s.kind p = .dot ∧ s.kind (p + 1) = .identifier) := by
  simp [dotAndName, and_assoc] at h
  grind

theorem reads_of_qualifiedName {n : QualifiedName} (h : qualifiedName.run s p = .ok n q) :
    n.reads s p q := by
  simp [qualifiedName, and_assoc] at h
  obtain ⟨hp, rest, hr, rfl⟩ := h
  have hrest : Ident.readsBehind s (word s .dot) rest (p + 1) q := by
    refine manyWhile_induction (P := fun is => Ident.readsBehind s (word s .dot) is) ?_ ?_ hr
    · intro p q h
      exact (run_dotAndName h).1.symm
    · intro p m n q i is hm hi ih
      obtain ⟨rfl, hd⟩ := run_dotAndName hm
      obtain ⟨hdot, hname⟩ := hd rfl
      simp [run_advance_of_kind, hdot] at hi
      obtain ⟨-, rfl, rfl⟩ := hi
      simp [Ident.readsBehind, hdot, hname, ih]
  simp [QualifiedName.reads, Ident.readsBehind, hp, hrest]

theorem dims_of_dims {n : Nat} (h : dims.run s p = .ok n q) : Stretch.dims s n p q := by
  simp [dims] at h
  obtain ⟨pairs, h, rfl⟩ := h
  refine manyWhile_induction (P := fun us => Stretch.dims s us.length) ?_ ?_ h
  · intro p q h
    simp at h
    simp [Stretch.dims, times]
    grind
  · intro p m n q u us hm hu ih
    simp [and_assoc] at hm
    obtain ⟨hl, hr, rfl⟩ := hm
    simp [run_advance_of_kind, hl, hr] at hu
    subst hu
    simpa [Stretch.dims, times, hl, hr] using ih

theorem ofOpening?_eq_some {k : Kind} {d : Delimiter} :
    Delimiter.ofOpening? k = some d ↔ k = d.opening := by
  cases d <;> cases k <;> simp [Delimiter.ofOpening?, Delimiter.opening]

theorem opening_ne_eof (d : Delimiter) : d.opening ≠ .eof := by
  cases d <;> simp [Delimiter.opening]

theorem closing_ne_eof (d : Delimiter) : d.closing ≠ .eof := by
  cases d <;> simp [Delimiter.closing]

theorem reads_of_group (hg : g.Sound s) {b : Group} (h : (group g).run s p = .ok b q) :
    b.reads s p q := by
  simp [group, and_assoc] at h
  cases hd : Delimiter.ofOpening? (s.kind p) with
  | none => simp [hd] at h
  | some d =>
    have hp := ofOpening?_eq_some.1 hd
    simp only [hd] at h
    simp [run_advance_of_kind, hp, opening_ne_eof, closing_ne_eof, and_assoc] at h
    obtain ⟨es, m, he, hm, rfl, rfl⟩ := h
    simp [Group.reads, hp, hm, hg.elems he]

theorem reads_of_expr (hg : g.Sound s) {e : Expr} (h : (expr g).run s p = .ok e q) :
    e.reads s p q := by
  simp [expr, and_assoc] at h
  obtain ⟨es, he, rfl⟩ := h
  simp [Expr.reads, hg.elems he, hg.orderly he]

theorem reads_of_optionalGroup (hg : g.Sound s) {k : Kind} {b : Option Group}
    (h : (optionalGroup g k).run s p = .ok b q) : Group.readsOr s .empty b p q := by
  simp [optionalGroup, and_assoc] at h
  rcases h with ⟨-, b, hb, rfl⟩ | ⟨-, rfl, rfl⟩
  · exact reads_of_group hg hb
  · rfl

/-! ## Annotations -/

theorem run_annotationFollows {b : Bool} (h : annotationFollows.run s p = .ok b q) : q = p := by
  simp [annotationFollows, and_assoc] at h
  grind

theorem reads_of_annotationUse (hg : g.Sound s) {a : AnnotationUse}
    (h : (annotationUse g).run s p = .ok a q) : a.reads s p q := by
  simp [annotationUse, and_assoc] at h
  obtain ⟨hp, n, m, hn, args, ha, rfl⟩ := h
  simp [AnnotationUse.reads, hp]
  exact ⟨m, reads_of_qualifiedName hn, reads_of_optionalGroup hg ha⟩

theorem readsAll_of_annotations (hg : g.Sound s) {as : List AnnotationUse}
    (h : (annotations g).run s p = .ok as q) : AnnotationUse.readsAll s as p q := by
  refine manyWhile_induction (P := fun as => AnnotationUse.readsAll s as) ?_ ?_ h
  · intro p q h
    exact (run_annotationFollows h).symm
  · intro p m n q a as hm ha ih
    obtain rfl := run_annotationFollows hm
    exact ⟨n, reads_of_annotationUse hg ha, ih⟩

/-! ## Type arguments -/

theorem reads_of_typeArg (hg : g.Sound s) {a : TypeArg} (h : (typeArg g).run s p = .ok a q) :
    a.reads s p q := by
  simp [typeArg, and_assoc] at h
  rcases h with ⟨-, t, ht, rfl⟩ | ⟨hp, h⟩
  · exact hg.type ht
  · rcases h with ⟨-, ⟨-, rfl, rfl⟩ | ⟨hk, t, ht, rfl⟩⟩ | ⟨hk, t, ht, rfl⟩
    · simp [TypeArg.reads, hp]
    · simp [TypeArg.reads, BoundKind.keyword, hp, hk, hg.type ht]
    · simp [TypeArg.reads, BoundKind.keyword, hp, hk, hg.type ht]

theorem reads_of_typeArgs (hg : g.Sound s) {a : TypeArgs} (h : (typeArgs g).run s p = .ok a q) :
    a.reads s p q := by
  simp [typeArgs, and_assoc] at h
  obtain ⟨hp, ⟨hm, rfl, rfl⟩ | ⟨-, es, m, he, hm, rfl, rfl⟩⟩ := h
  · simp [TypeArgs.reads, TypeArg.readsBehind, hp, hm]
  · have hes := list_of_sepBy (R := TypeArg.readsBehind s) (by simp) (fun _ => rfl)
      (fun _ _ _ => rfl) (reads_of_typeArg hg) (Stretch.empty_iff.2 rfl) he
    simp [TypeArgs.reads, hp, hm, hes.2]

theorem reads_of_optionalTypeArgs (hg : g.Sound s) {a : Option TypeArgs}
    (h : (optionalTypeArgs g).run s p = .ok a q) : TypeArgs.reads? s a p q := by
  simp [optionalTypeArgs, and_assoc] at h
  rcases h with ⟨-, a, ha, rfl⟩ | ⟨-, rfl, rfl⟩
  · exact reads_of_typeArgs hg ha
  · rfl

/-! ## Types -/

theorem reads_of_typeSegment (hg : g.Sound s) {a : TypeSegment}
    (h : (typeSegment g).run s p = .ok a q) :
    (nameOf s a.name ++ TypeArgs.reads? s a.args) p q := by
  simp [typeSegment, and_assoc] at h
  obtain ⟨hp, args, ha, rfl⟩ := h
  simp [hp, reads_of_optionalTypeArgs hg ha]

theorem reads_of_typeSegments (hg : g.Sound s) {as : List TypeSegment}
    (h : (typeSegments g).run s p = .ok as q) : (TypeCore.named as).reads s p q := by
  simp [typeSegments] at h
  obtain ⟨a, m, ha, rest, hr, rfl⟩ := h
  have hrest : TypeSegment.readsBehind s (word s .dot) rest m q := by
    refine manyWhile_induction (P := fun as => TypeSegment.readsBehind s (word s .dot) as) ?_ ?_ hr
    · intro p q h
      exact (run_dotAndName h).1.symm
    · intro p m n q ⟨i, args⟩ as hm ha ih
      obtain ⟨rfl, hd⟩ := run_dotAndName hm
      have hdot := (hd rfl).1
      simp [run_advance_of_kind, hdot] at ha
      obtain ⟨m', hn, ha⟩ := reads_of_typeSegment hg ha
      exact ⟨n, ⟨m', ⟨m + 1, ⟨hdot, rfl⟩, hn⟩, ha⟩, ih⟩
  obtain ⟨i, args⟩ := a
  obtain ⟨m', hn, ha⟩ := reads_of_typeSegment hg ha
  exact ⟨by simp, m, ⟨m', ⟨p, rfl, hn⟩, ha⟩, hrest⟩

/-- A class has neither annotations nor dimensions before it is known what follows. -/
theorem exists_core_of_classType (hg : g.Sound s) {t : TypeExpr}
    (h : (classType g).run s p = .ok t q) :
    ∃ core : TypeCore, core.reads s p q ∧ t = ⟨[], core, 0, ⟨p, q⟩⟩ := by
  simp [classType, and_assoc] at h
  obtain ⟨as, ha, rfl⟩ := h
  exact ⟨.named as, reads_of_typeSegments hg ha, rfl⟩

theorem reads_of_core {core : TypeCore} {n m : Nat} (hc : core.reads s p m)
    (hn : Stretch.dims s n m q) : TypeExpr.reads s ⟨[], core, n, ⟨p, q⟩⟩ p q :=
  ⟨⟨m, ⟨p, rfl, hc⟩, hn⟩, rfl⟩

theorem reads_of_classType (hg : g.Sound s) {t : TypeExpr}
    (h : (classType g).run s p = .ok t q) : t.reads s p q := by
  obtain ⟨core, hc, rfl⟩ := exists_core_of_classType hg h
  exact reads_of_core hc rfl

theorem reads_of_type (hg : g.Sound s) {t : TypeExpr} (h : (type g).run s p = .ok t q) :
    t.reads s p q := by
  simp [type, and_assoc] at h
  obtain ⟨as, m, ha, ⟨hk, u, m', hu, n, hn, rfl⟩ | ⟨-, -, segments, m', hs, n, hn, rfl⟩⟩ := h
  · have hm : s.kind m ≠ .eof := by
      intro h
      simp [h, Kind.isPrimitiveType, Kind.primitiveTypes] at hk
    simp [run_advance_of_kind hm] at hu
    subst hu
    exact ⟨⟨m + 1, ⟨m, readsAll_of_annotations hg ha, hk, rfl, rfl⟩, dims_of_dims hn⟩, rfl⟩
  · exact ⟨⟨m', ⟨m, readsAll_of_annotations hg ha, reads_of_typeSegments hg hs⟩,
      dims_of_dims hn⟩, rfl⟩

/-- A list of types behind a lead. -/
theorem readsBehind_of_sepBy (hg : g.Sound s) {separator : Kind} (hk : separator ≠ .eof)
    {lead : Stretch} {ts : List TypeExpr} {m : Nat} (hl : lead p m)
    (h : (sepBy separator (type g)).run s m = .ok ts q) :
    TypeExpr.readsBehind s lead separator ts p q :=
  (list_of_sepBy (R := fun lead => TypeExpr.readsBehind s lead separator) hk (fun _ => rfl)
    (fun _ _ _ => rfl) (reads_of_type hg) hl h).2

theorem readsBehind_of_typesAfter (hg : g.Sound s) {keyword : Kind} (hk : keyword ≠ .eof)
    {ts : List TypeExpr} (h : (typesAfter g keyword).run s p = .ok ts q) :
    TypeExpr.readsBehind s (word s keyword) .comma ts p q := by
  simp [typesAfter, typeList, hk, and_assoc] at h
  rcases h with ⟨-, rfl, rfl⟩ | ⟨hp, ht⟩
  · rfl
  · exact readsBehind_of_sepBy hg (by simp) (by simp [hp]) ht

/-! ## Type parameters -/

theorem reads_of_typeParam (hg : g.Sound s) {a : TypeParam} (h : (typeParam g).run s p = .ok a q) :
    a.reads s p q := by
  simp [typeParam, and_assoc] at h
  obtain ⟨as, m, ha, hm, ⟨-, rfl, rfl⟩ | ⟨hk, ts, ht, rfl⟩⟩ := h
  · exact ⟨⟨m + 1, ⟨m, readsAll_of_annotations hg ha, hm, rfl, rfl⟩, rfl⟩, rfl⟩
  · have hts := readsBehind_of_sepBy hg (by simp) (word_iff.2 ⟨hk, rfl⟩) ht
    exact ⟨⟨m + 1, ⟨m, readsAll_of_annotations hg ha, hm, rfl, rfl⟩, hts⟩, rfl⟩

theorem reads_of_typeParams (hg : g.Sound s) {a : TypeParams}
    (h : (typeParams g).run s p = .ok a q) : TypeParams.reads? s (some a) p q := by
  simp [typeParams, and_assoc] at h
  obtain ⟨hp, es, m, he, hm, rfl, rfl⟩ := h
  have hes := list_of_sepBy (R := TypeParam.readsBehind s) (by simp) (fun _ => rfl)
    (fun _ _ _ => rfl) (reads_of_typeParam hg) (Stretch.empty_iff.2 rfl) he
  simp [TypeParams.reads?, hp, hm, hes]

theorem reads_of_optionalTypeParams (hg : g.Sound s) {a : Option TypeParams}
    (h : (optionalTypeParams g).run s p = .ok a q) : TypeParams.reads? s a p q := by
  simp [optionalTypeParams, and_assoc] at h
  rcases h with ⟨-, a, ha, rfl⟩ | ⟨-, rfl, rfl⟩
  · exact reads_of_typeParams hg ha
  · rfl

end Stencil.Grammar
