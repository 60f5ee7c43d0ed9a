import Stencil.Proofs.Grammar.Passed
import Stencil.Proofs.Grammar.Production

/-!
# Accepted input is balanced

Brackets are taken by groups, by the bodies of types, by parameters and arguments, by array dimensions
and, in types that are only tried, by the arguments of annotations. None of these rules passes a
bracket without its counterpart, and none looks at the brackets around it.

Results: whatever rule succeeds, on any tokens and from any position on, the round, square and curly
brackets it has passed are well nested, and a group is exactly an outermost pair with what is in it
(`wellNested_of_run`).
-/

namespace Stencil.Grammar

open Rule

variable {s : Script} {p q : Nat} {g : Nested}

theorem passed_of_intrinsicFollows (hg : g.Passes s) {c : Option IntrinsicCall}
    (h : (do when (← intrinsicFollows) (intrinsicCall g) : Rule (Option IntrinsicCall)).run s p
      = .ok c q) : Passed s p q := by
  simp only [run_bind, run_when] at h
  obtain ⟨b, m, hb, ⟨-, c, hc, -⟩ | ⟨-, -, rfl⟩⟩ := h
  · obtain rfl := (run_intrinsicFollows hb).1
    exact passed_of_intrinsicCall hg hc
  · exact (run_intrinsicFollows hb).1 ▸ .empty

theorem passed_of_elemFollows (hg : g.Passes s) {u : Bool} {es : List Elem}
    (h : (do if ← elemFollows u then elem g else return [] : Rule (List Elem)).run s p
      = .ok es q) : Passed s p q := by
  simp only [run_bind, run_ite, run_pure] at h
  obtain ⟨b, m, hb, ⟨rfl, hes⟩ | ⟨-, -, rfl⟩⟩ := h
  · obtain ⟨rfl, hk⟩ := run_elemFollows hb
    exact passed_of_elem hg (hk rfl).1 (hk rfl).2 hes
  · exact (run_elemFollows hb).1 ▸ .empty

/-- What a rule of the grammar passes, whatever nested text it reads. -/
theorem Yields.passed_of_run {α : Type} {rule : Nested → Rule α} {nodes : α → List Node} {t : α}
    (hy : Yields rule nodes) (hg : g.Passes s) (h : (rule g).run s p = .ok t q) : Passed s p q := by
  cases hy with
  | identifier => exact passed_of_identifier h
  | qualifiedName => exact passed_of_qualifiedName h
  | group => exact passed_of_group hg h
  | optionalGroup opening => exact passed_of_optionalGroup hg h
  | expr => exact passed_of_expr hg h
  | annotationUse => exact passed_of_annotationUse hg h
  | annotations => exact passed_of_annotations hg h
  | typeArg => exact passed_of_typeArg hg h
  | typeArgs => exact passed_of_typeArgs hg h
  | optionalTypeArgs => exact passed_of_optionalTypeArgs hg h
  | typeSegment => exact passed_of_typeSegment hg h
  | typeSegments => exact passed_of_typeSegments hg h
  | classType => exact passed_of_classType hg h
  | type => exact passed_of_type hg h
  | typeList => exact passed_of_typeList hg h
  | typeParam => exact passed_of_typeParam hg h
  | typeParams => exact passed_of_typeParams hg h
  | optionalTypeParams => exact passed_of_optionalTypeParams hg h
  | modifiers => exact passed_of_modifiers hg h
  | typeDecl => exact passed_of_typeDecl hg h
  | param => exact passed_of_param hg h
  | params => exact passed_of_params hg h
  | methodBody => exact passed_of_methodBody hg h
  | member => exact passed_of_member hg h
  | enumConstant => exact passed_of_enumConstant hg h
  | enumConstants => exact passed_of_enumConstants hg h
  | classBody isEnum => exact passed_of_classBody hg h
  | callArgs => exact passed_of_callArgs hg h
  | intrinsicCall => exact passed_of_intrinsicFollows hg h
  | genericType => exact passed_of_genericType hg h
  | genericType? => exact passed_of_genericType? hg h
  | creator => exact (passed_of_creator hg h).1
  | namedElem => exact passed_of_namedElem hg h
  | elem untilSeparator => exact passed_of_elemFollows hg h
  | elems untilSeparator => exact passed_of_elems hg h
  | packageDecl => exact passed_of_packageDecl hg h
  | importDecl => exact passed_of_importDecl h
  | compilationUnit => exact passed_of_compilationUnit hg h

/-- Whatever a rule is given to read, if it succeeds, the brackets among the tokens it has passed are
well nested, and so are those of the dimensions of an array. The first and the last token of a group
are an opening bracket and the closing one of the same shape, and the brackets in between are well
nested themselves, so that these two are the counterparts of each other. -/
theorem wellNested_of_run (s : Script) (p q : Nat) :
    (∀ {α : Type} {rule : Nested → Rule α} {nodes : α → List Node} {t : α}, Yields rule nodes →
      (complete rule).run s p = .ok t q → WellNested (s.brackets p q))
      ∧ (∀ n, dims.run s p = .ok n q → WellNested (s.brackets p q))
      ∧ ∀ b, (complete group).run s p = .ok b q → ∃ (d : Delimiter) (m : Nat),
        p < m ∧ q = m + 1 ∧ s.kind p = d.opening ∧ s.kind m = d.closing
          ∧ s.brackets p q = d.opening :: (s.brackets (p + 1) m ++ [d.closing])
          ∧ WellNested (s.brackets (p + 1) m) := by
  refine ⟨fun hy h => ?_, fun n h => (passed_of_dims h).wellNested, fun b h => ?_⟩
  · rw [run_complete] at h
    exact (hy.passed_of_run (passes_nested s _) h).wellNested
  · rw [run_complete] at h
    obtain ⟨d, es, m, hp, hes, hm, -, rfl⟩ := run_group.1 h
    have hinner := passed_of_elems (passes_nested s _) hes
    have hpm : p < m := hinner.le
    refine ⟨d, m, hpm, rfl, hp, hm, ?_, hinner.wellNested⟩
    rw [Script.brackets_of_opening hp (Nat.lt_succ_of_lt hpm), Script.brackets_of_closing hm hpm]

/-- The theorem at an expression whose brackets belong to a cast, an index, an anonymous class and a
type that is tried in vain. -/
theorem wellNested_of_run_anonymousClass : ∃ b q,
    (complete group).run
        (.ofSource (.ofString "((A<B[]>) a[0], new C() { int[] d() { } }, e<f[1])") "") 0 = .ok b q
      ∧ q = 36
      ∧ WellNested ((Script.ofSource
          (.ofString "((A<B[]>) a[0], new C() { int[] d() { } }, e<f[1])") "").brackets 0 36) := by
  obtain ⟨b, q, hrun, hq⟩ := exists_run_of_sees (r := complete group)
    (s := .ofSource (.ofString "((A<B[]>) a[0], new C() { int[] d() { } }, e<f[1])") "") (p := 0)
    (fun _ q => q == 36) (by decide +kernel)
  obtain rfl : q = 36 := by simpa using hq
  exact ⟨b, 36, hrun, rfl, (wellNested_of_run _ 0 36).1 .group hrun⟩

end Stencil.Grammar
