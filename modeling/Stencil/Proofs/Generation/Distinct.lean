import Stencil.Proofs.Generation.OutputPath
import Stencil.Proofs.Rewrite.Dissection

/-!
# Distinct output paths

The pieces of a name do not depend on the binding, and the class-name words of two types begin with
different letters. So the first letter that is written for a placeholder tells its type, and with it
where the next piece begins. A substituted name therefore tells the types of all placeholders in the
name, however often, in whatever order and how close to one another they stand there.

Results: two bindings of the same placeholders that write the same for the pieces of a name agree on
the placeholders among them (`resolve_eq_of_flatMap_text_eq`), and a template whose path mentions the
placeholders that it declares has a path of its own for each instantiation
(`Instantiation.pairwise_outputPath_expand`).
-/

namespace Stencil

variable {v : Vocabulary} {b b' : Binding} {p : Placeholder}

/-! ## Words -/

/-- Words in front of texts can be told apart. -/
theorem ConcreteType.append_boxedName_inj {t u : ConcreteType} {xs ys : List Char} :
    t.boxedName.toList ++ xs = u.boxedName.toList ++ ys ↔ t = u ∧ xs = ys := by
  constructor
  · intro h
    have hhead : t.boxedName.toList.head? = u.boxedName.toList.head? := by
      have hfirst (w : ConcreteType) (zs : List Char) :
          (w.boxedName.toList ++ zs).head? = w.boxedName.toList.head? := by
        cases w <;> rfl
      rw [← hfirst t xs, ← hfirst u ys, h]
    have htype : t = u := by
      revert hhead
      cases t <;> cases u <;> decide
    subst htype
    exact ⟨rfl, List.append_cancel_left h⟩
  · rintro ⟨rfl, rfl⟩
    rfl

/-! ## Names -/

/-- Bindings of the same placeholders that write the same for some pieces agree on the placeholders
among them. -/
theorem resolve_eq_of_flatMap_text_eq {pieces : List NamePiece}
    (hb : ∀ q, (b.resolve q).isSome = (b'.resolve q).isSome) (hp : (b.resolve p).isSome = true)
    (hm : .placeholder p ∈ pieces)
    (h : pieces.flatMap (NamePiece.text v b.resolve) = pieces.flatMap (NamePiece.text v b'.resolve)) :
    b.resolve p = b'.resolve p := by
  induction pieces with
  | nil => contradiction
  | cons piece pieces ih =>
    rw [List.flatMap_cons, List.flatMap_cons] at h
    cases piece with
    | char c =>
      have hbehind : .placeholder p ∈ pieces := by simpa using hm
      exact ih hbehind (List.append_cancel_left h)
    | placeholder q =>
      cases hq : b.resolve q with
      | none =>
        have hq' : b'.resolve q = none := by
          rw [← Option.not_isSome_iff_eq_none, ← hb, hq]
          exact Bool.false_ne_true
        have hpq : p ≠ q := by
          rintro rfl
          rw [hq] at hp
          contradiction
        have hbehind : .placeholder p ∈ pieces := by simpa [hpq] using hm
        simp only [NamePiece.text, hq, hq'] at h
        exact ih hbehind (List.append_cancel_left h)
      | some t =>
        obtain ⟨u, hq'⟩ := Option.isSome_iff_exists.1 ((hb q).symm.trans (hq ▸ rfl))
        simp only [NamePiece.text, hq, hq'] at h
        obtain ⟨rfl, hrest⟩ := ConcreteType.append_boxedName_inj.1 h
        by_cases hpq : p = q
        · rw [hpq, hq, hq']
        · have hbehind : .placeholder p ∈ pieces := by simpa [hpq] using hm
          exact ih hbehind hrest

/-! ## Paths -/

/-- If the path of a template mentions a placeholder, then its outputs tell the type. -/
theorem resolve_eq_of_same_outputPath {template : Path} {name : String} (hv : v.isPlain = true)
    (hb : ∀ q, (b.resolve q).isSome = (b'.resolve q).isSome) (hp : (b.resolve p).isSome = true)
    (hname : .normal name ∈ template.components) (hm : v.mentions name p = true)
    (h : (Instantiation.outputPath v ⟨template, b⟩).same (Instantiation.outputPath v ⟨template, b'⟩)
      = true) : b.resolve p = b'.resolve p := by
  rw [Path.same_iff, components_outputPath, components_outputPath, List.map_inj_left] at h
  have hsubstituted := Component.normal.inj (h _ hname)
  rw [← String.toList_inj, Rewrite.toList_substitute hv, Rewrite.toList_substitute hv] at hsubstituted
  exact resolve_eq_of_flatMap_text_eq hb hp ((Vocabulary.mentions_iff_mem_dissect hv).1 hm) hsubstituted

theorem Binding.ext_resolve (h : ∀ p, b.resolve p = b'.resolve p) : b = b' := by
  obtain ⟨t, t?⟩ := b
  obtain ⟨u, u?⟩ := b'
  obtain rfl : t = u := Option.some.inj (h .primary)
  obtain rfl : t? = u? := h .secondary
  rfl

/-- A template whose path mentions each placeholder that it declares in some of its names has eight
or sixty-four instantiations, and no two of them have the same output path. -/
theorem Instantiation.pairwise_outputPath_expand {template : Path} {a : Arity}
    (h : ∀ p, a.declares p = true → ∃ name, Component.normal name ∈ template.components
      ∧ ({} : Vocabulary).mentions name p = true) :
    (expand template a).length = (if a = .one then 8 else 64)
      ∧ (expand template a).Pairwise fun i j => (i.outputPath {}).same (j.outputPath {}) = false := by
  constructor
  · rw [expand, List.length_map]
    cases a with
    | one => exact Binding.length_allOf_one
    | two => exact Binding.length_allOf_two
  · rw [expand, List.pairwise_map]
    refine (Binding.nodup_allOf a).imp_of_mem fun {b b'} hb hb' hne => Bool.eq_false_iff.2 fun hsame => ?_
    rw [Binding.mem_allOf_iff] at hb hb'
    refine hne (Binding.ext_resolve fun p => ?_)
    by_cases hp : a.declares p = true
    · obtain ⟨name, hname, hm⟩ := h p hp
      exact resolve_eq_of_same_outputPath Vocabulary.isPlain_default
        (fun q => (hb q).trans (hb' q).symm) ((hb p).trans hp) hname hm hsame
    · have hnone {w : Binding} (hw : ∀ q, (w.resolve q).isSome = a.declares q) : w.resolve p = none :=
        Option.not_isSome_iff_eq_none.1 fun hsome => hp ((hw p).symm.trans hsome)
      rw [hnone hb, hnone hb']

/-- The theorem at a path whose directory has the placeholders the other way round and whose file name
repeats the primary one. -/
theorem Instantiation.pairwise_outputPath_expand_reversed :
    (expand ⟨"VTypeKType/KKTypeKTypes.java"⟩ .two).length = 64
      ∧ (expand ⟨"VTypeKType/KKTypeKTypes.java"⟩ .two).Pairwise fun i j =>
        (i.outputPath {}).same (j.outputPath {}) = false :=
  pairwise_outputPath_expand fun p _ => by
    cases p with
    | primary => exact ⟨"KKTypeKTypes.java", by decide, by decide⟩
    | secondary => exact ⟨"VTypeKType", by decide, by decide⟩

end Stencil
