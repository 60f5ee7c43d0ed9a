import Stencil.Proofs.Primitive
import Stencil.Proofs.Rewrite.LeftOut
import Stencil.Proofs.Rewrite.Parts

/-!
# Primitive types in the place of references

A type argument has to be a reference type, and so has the bound of a wildcard or of a type parameter.
Where a placeholder that is bound to a primitive type stands there, the keyword of its type must not.
Type arguments and wildcards are left out, however deep in other lists, in the bodies of methods and in
the arguments of calls they are. The bounds of a type parameter that stays are not: each of them becomes
the keyword.

Results: no part of a text stands for such a type argument or wildcard, and a keyword for each such bound
(`Template.elides_of_isPrimitive`), so a bound need not be left out (`Template.not_elides_bound`).
-/

namespace Stencil

open Rewrite
open Outline (placesAll argPlaces paramPlaces)

/-! ## Places of lists -/

namespace Rewrite

variable {v : Vocabulary} {b : Binding}

/-- A type argument that names a placeholder of a primitive type is left out, whatever its slot. -/
theorem mem_droppedArgs {as : List TypeArg} {a : TypeArg} {p : Placeholder} (ha : a ∈ as)
    (hp : placeholderOf? v a = some p) (hb : b.isPrimitive p = true) (slots : List Placeholder) :
    a.extent ∈ droppedArgs v b slots (TypeArg.entries as) := by
  induction as generalizing slots with
  | nil => cases ha
  | cons a' as ih =>
    rw [TypeArg.entries, droppedArgs]
    rcases List.mem_cons.1 ha with rfl | ha
    · rw [if_pos (by simpa only [isDropped, hp] using hb)]
      exact List.mem_cons_self
    · split
      · exact List.mem_cons_of_mem _ (ih ha _)
      · exact ih ha _

theorem mem_droppedParams {as : List TypeParam} {a : TypeParam} (ha : a ∈ as)
    (hdropped : isDroppedParam v b a = true) : a.extent ∈ droppedParams v b (TypeParam.entries as) := by
  induction as with
  | nil => cases ha
  | cons a' as ih =>
    rw [TypeParam.entries, droppedParams]
    rcases List.mem_cons.1 ha with rfl | ha
    · rw [if_pos hdropped]
      exact List.mem_cons_self
    · split
      · exact List.mem_cons_of_mem _ (ih ha)
      · exact ih ha

/-- A type that is a single name is a place. -/
theorem part_mem_places {e : TypeExpr} {i : Ident} (h : e.simpleName? = some i) :
    .part i [] ∈ placesAll (TypeExpr.outline e) := by
  obtain ⟨annotations, core, dims, extent⟩ := e
  cases core with
  | primitive kind => simp [TypeExpr.simpleName?, TypeExpr.segments] at h
  | named segments =>
    simp only [TypeExpr.simpleName?, TypeExpr.segments] at h
    split at h
    · cases h
      rw [TypeExpr.outline, Outline.placesAll_append]
      exact List.mem_append_right _ List.mem_cons_self
    · contradiction

theorem part_mem_paramPlaces {as : List TypeParam} {a : TypeParam} {e : TypeExpr} {i : Ident}
    (ha : a ∈ as) (he : e ∈ a.bounds) (h : e.simpleName? = some i) :
    .part i [] ∈ paramPlaces (TypeParam.entries as) := by
  refine allIn_entries as _ (List.mem_map_of_mem ha) ?_
  obtain ⟨annotations, name, bounds, extent⟩ := a
  rw [Part.places, TypeParam.outline, Outline.placesAll_append]
  refine List.mem_append_right _ (List.mem_cons_of_mem _ ?_)
  exact allIn_types bounds _ (List.mem_map_of_mem he) (part_mem_places h)

theorem exchange?_part {j : Job} {i : Ident} {p : Placeholder} {u : ConcreteType} {keyword : String}
    (hp : j.vocabulary.placeholder? i.name = some p) (hu : j.binding.resolve p = some u)
    (hk : u.keyword? = some keyword) :
    (Outline.part i []).exchange? j = some (j.exchange i keyword) := by
  simp [Outline.exchange?, renameSegment?, renameIdent?, hp, hu, hk]

end Rewrite

namespace Template

/-- What the text for a binding is put together from, and the tokens that all this stands for. -/
def traces (t : Template) (b : Binding) : List Trace :=
  (t.job b).woven t.file.source.whole.stop t.file.source.whole.start
    (Outline.tracedAll (t.job b) (Rewrite.CompilationUnit.outline t.file.tree))

/-- Does no part of the text stand for a token of the extent? -/
def Elides (t : Template) (b : Binding) (e : Extent) : Prop :=
  ∀ x ∈ t.traces b, ∀ i ∈ x.index?, ¬t.file.source.IsIn e i

/-- Is the node in the hint of a call, and does no part of the text stand for the hint? -/
def ElidesAround (t : Template) (b : Binding) (x : Part) : Prop :=
  ∃ c ∈ t.calls, ∃ hint ∈ c.hint, (Part.typeArgs hint).Holds x ∧ t.Elides b hint.extent

/-- Is the name in nothing that is left out, and in no call? -/
def IsOutside (t : Template) (b : Binding) (i : Ident) : Prop :=
  (∀ e ∈ Outline.leftOutAll t.vocabulary b (placesAll (Rewrite.CompilationUnit.outline t.file.tree)),
    ¬t.file.source.IsIn e (t.file.source.index i.position))
  ∧ ∀ c ∈ t.calls, ¬t.file.source.IsIn c.extent (t.file.source.index i.position)

variable {path : Path} {text out : String} {v : Vocabulary} {t : Template} {b : Binding}

theorem map_chunk_traces (t : Template) (b : Binding) : (t.traces b).map (·.chunk) = t.chunks b := by
  rw [traces, Job.map_chunk_woven, Outline.map_patch_tracedAll]
  rfl

/-- The walk over the whole file keeps its invariant. -/
theorem leaves_of_ofText (h : ofText path text v = .ok t) (hok : firstError? (t.steps b) = none) :
    ∃ q, Leaves (t.job b) 0 q (placesAll (Rewrite.CompilationUnit.outline t.file.tree))
        (Outline.tracedAll (t.job b) (Rewrite.CompilationUnit.outline t.file.tree))
      ∧ Ordered t.file.source.whole.start t.file.source.whole.stop
        ((Outline.tracedAll (t.job b) (Rewrite.CompilationUnit.outline t.file.tree)).map
          TracedPatch.patch) := by
  obtain ⟨-, -, -, q, hq, hlaid, -⟩ := laidAll_of_ofText h
  have hs : (t.job b).source.Indexed := indexed_of_ofText h
  have hfits := Outline.fits_stepsAll (j := t.job b) hs hq hlaid
  rw [Outline.agrees_stepsAll (j := t.job b) hs hq hlaid hok, ← Outline.map_patch_tracedAll] at hfits
  refine ⟨q, Outline.leaves_tracedAll hs hq hlaid hok, ordered_of_fits (j := t.job b) hs hq hfits fun e he => ?_⟩
  exact hfits.contains_whole hs (by rwa [editsBefore_editOf])

/-- What a place of the template leaves out is not in the text. -/
theorem elides_of_mem_leftOut (h : ofText path text v = .ok t) (hok : firstError? (t.steps b) = none)
    {o : Outline} (ho : o ∈ placesAll (Rewrite.CompilationUnit.outline t.file.tree)) {e : Extent}
    (he : e ∈ o.leftOut v b) : t.Elides b e := by
  obtain ⟨q, hleaves, hordered⟩ := leaves_of_ofText h hok
  obtain ⟨hv, -⟩ := laidAll_of_ofText h
  exact hleaves.omitted_woven hordered e (List.mem_flatMap.2 ⟨o, ho, by rwa [job, hv]⟩)

/-- What a name of the template is exchanged for is in the text, unless it is left out or in a call. -/
theorem exchange_mem_traces (h : ofText path text v = .ok t) (hok : firstError? (t.steps b) = none)
    {o : Outline} (ho : o ∈ placesAll (Rewrite.CompilationUnit.outline t.file.tree)) {i : Ident}
    {keyword : String} (hx : o.exchange? (t.job b) = some ((t.job b).exchange i keyword))
    (houtside : t.IsOutside b i) : (t.job b).exchange i keyword ∈ t.traces b := by
  obtain ⟨q, hleaves, -⟩ := leaves_of_ofText h hok
  rcases hleaves.exchanged o ho _ hx with hmem | ⟨i', hi, ⟨e, he, hin⟩ | ⟨c, args, hc, hin⟩⟩
  · exact subset_woven _ _ _ hmem
  · obtain rfl := Option.some.inj hi
    exact absurd hin (houtside.1 e he)
  · obtain rfl := Option.some.inj hi
    refine absurd hin (houtside.2 c (mem_calls_iff.2 ?_))
    rw [Outline.spotsAll_eq]
    exact List.mem_filterMap.2 ⟨_, hc, rfl⟩

/-- Nothing is left of the hints of calls. -/
theorem elidesAround_of_isInHint (h : ofText path text v = .ok t) (hok : firstError? (t.steps b) = none)
    {x : Part} (hx : Part.IsInHint (placesAll (Rewrite.CompilationUnit.outline t.file.tree)) x) :
    t.ElidesAround b x := by
  obtain ⟨c, hint, hc, hhint, hx⟩ := hx
  refine ⟨c, mem_calls_iff.2 ?_, hint, hhint, hx, elides_of_mem_leftOut h hok hc ?_⟩
  · rw [Outline.spotsAll_eq]
    exact List.mem_filterMap.2 ⟨_, hc, rfl⟩
  · simp [Outline.leftOut, hhint]

/-- Wherever a type argument is a placeholder of a primitive type, or a wildcard is bounded by one, no part
of the text stands for a token of it, nor does any for a token of a type parameter that is left out. But
where such a placeholder is the bound of a type parameter that stays, the text has the keyword of the
type in place of its token. Nothing is said of what is in the hint of a call, which goes as a whole. -/
theorem elides_of_isPrimitive (h : ofText path text v = .ok t) (hout : t.specialize b = .ok out) :
    out = (t.job b).chunksText ((t.traces b).map (·.chunk))
      ∧ ∀ y ∈ t.file.tree.parts,
        (∀ as, y.Holds (.typeArgs as) → ∀ a ∈ as.entries, ∀ p, placeholderOf? v a = some p →
          b.isPrimitive p = true → t.Elides b a.extent ∨ t.ElidesAround b (.typeArgs as))
        ∧ ∀ z as, y.Holds z → z.typeParams? = some as → t.ElidesAround b z ∨ ∀ a ∈ as.entries,
          (isDroppedParam v b a = true → t.Elides b a.extent)
          ∧ ∀ e ∈ a.bounds, ∀ i p u keyword, e.simpleName? = some i → v.placeholder? i.name = some p →
            b.resolve p = some u → u.keyword? = some keyword → t.IsOutside b i →
            (t.job b).exchange i keyword ∈ t.traces b := by
  have hspecialize := specialize_eq h b
  rw [hout] at hspecialize
  split at hspecialize
  · contradiction
  · rename_i hok
    obtain rfl := Except.ok.inj hspecialize
    obtain ⟨hv, -⟩ := laidAll_of_ofText h
    refine ⟨by rw [map_chunk_traces], fun y hy => ?_⟩
    have hplaces := allIn_parts t.file.tree y hy
    constructor
    · intro as has a ha p hp hb
      have hne : y ≠ .typeArgs as := by
        rintro rfl
        simp [CompilationUnit.parts] at hy
      rcases exists_typeArgs_mem_places has hne hplaces with ⟨owner, hlist⟩ | hhint
      · exact .inl (elides_of_mem_leftOut h hok hlist (mem_droppedArgs ha hp hb _))
      · exact .inr (elidesAround_of_isInHint h hok hhint)
    · intro z as hz has
      rcases places_subset_of_holds hz hplaces with hsub | hhint
      · have hlist := hsub (typeParams_mem_places has)
        refine .inr fun a ha => ⟨fun hdropped => ?_, fun e he i p u keyword hi hp hu hk houtside => ?_⟩
        · exact elides_of_mem_leftOut h hok hlist (mem_droppedParams ha hdropped)
        · have hpart := Outline.places_subset_placesAll hlist
            (List.mem_cons_of_mem _ (part_mem_paramPlaces ha he hi))
          exact exchange_mem_traces h hok hpart (exchange?_part (by rwa [job, hv]) hu hk) houtside
      · exact .inl (elidesAround_of_isInHint h hok hhint)

/-- The theorem at a wildcard and a type argument, and at a bound beside a type parameter that is left
out. -/
theorem elides_of_isPrimitive_sample : ∃ t out d as a e i, ofText ⟨"KTypeA.java"⟩
      "class KTypeA<KType, T extends KType> \x7b I<? super KType> f(J<T, K<KType>> a) \x7b \x7d \x7d" {} = .ok t
    ∧ t.specialize ⟨.int, none⟩ = .ok out
    ∧ out = "class IntA<T extends int> \x7b I f(J<T, K> a) \x7b \x7d \x7d"
    ∧ out = (t.job ⟨.int, none⟩).chunksText ((t.traces ⟨.int, none⟩).map (·.chunk))
    ∧ .typeDecl d ∈ t.file.tree.parts
    ∧ (∀ as, (Part.typeDecl d).Holds (.typeArgs as) → ∀ a ∈ as.entries, ∀ p,
        placeholderOf? {} a = some p → (⟨.int, none⟩ : Binding).isPrimitive p = true →
        t.Elides ⟨.int, none⟩ a.extent ∨ t.ElidesAround ⟨.int, none⟩ (.typeArgs as))
    ∧ d.typeParams = some as ∧ a ∈ as.entries ∧ e ∈ a.bounds ∧ e.simpleName? = some i
    ∧ t.IsOutside ⟨.int, none⟩ i
    ∧ (t.ElidesAround ⟨.int, none⟩ (.typeDecl d)
      ∨ (t.job ⟨.int, none⟩).exchange i "int" ∈ t.traces ⟨.int, none⟩) := by
  obtain ⟨t, ht, hok⟩ := exists_ok_of_sees
    (x := ofText ⟨"KTypeA.java"⟩
      "class KTypeA<KType, T extends KType> \x7b I<? super KType> f(J<T, K<KType>> a) \x7b \x7d \x7d" {})
    (fun t => (firstError? (t.steps ⟨.int, none⟩)).isNone
        && (t.job ⟨.int, none⟩).chunksText (t.chunks ⟨.int, none⟩)
          == "class IntA<T extends int> \x7b I f(J<T, K> a) \x7b \x7d \x7d"
        && t.file.tree.types.any fun d => d.typeParams.any fun as => as.entries.any fun a =>
          a.bounds.any fun e => e.simpleName?.any fun i =>
            ({} : Vocabulary).placeholder? i.name == some .primary && t.calls.isEmpty
            && (Outline.leftOutAll t.vocabulary ⟨.int, none⟩
              (placesAll (Rewrite.CompilationUnit.outline t.file.tree))).all fun e =>
                !(decide ((t.file.source.range e).start ≤ t.file.source.index i.position)
                  && decide (t.file.source.index i.position < (t.file.source.range e).stop)))
    (by decide +kernel)
  simp only [Bool.and_eq_true, Option.isNone_iff_eq_none, beq_iff_eq, List.any_eq_true, Option.any_eq_true,
    List.isEmpty_iff, List.all_eq_true, Bool.not_eq_true', Bool.and_eq_false_iff, decide_eq_false_iff_not] at hok
  obtain ⟨⟨hok, htext⟩, d, hd, as, has, a, ha, e, he, i, hi, ⟨hp, hcalls⟩, hleft⟩ := hok
  have hout := specialize_eq ht ⟨.int, none⟩
  rw [hok] at hout
  have hpart : .typeDecl d ∈ t.file.tree.parts := by
    simp [CompilationUnit.parts, hd]
  have houtside : t.IsOutside ⟨.int, none⟩ i := by
    refine ⟨fun e he hin => ?_, by simp [hcalls]⟩
    exact (hleft e he).elim (· hin.1) (· hin.2)
  obtain ⟨hchunks, hlists⟩ := elides_of_isPrimitive ht hout
  obtain ⟨hargs, hparams⟩ := hlists _ hpart
  exact ⟨t, _, d, as, a, e, i, ht, hout, htext, hchunks, hpart, hargs, has, ha, he, hi, houtside,
    (hparams _ as .refl has).imp_right fun h => (h a ha).2 e he i _ _ _ hi hp rfl rfl houtside⟩

/-- A bound of a type parameter is not left out: the text has the keyword there. -/
theorem not_elides_bound : ∃ (t : Template) (d : TypeDecl) (as : TypeParams) (a : TypeParam) (e : TypeExpr)
      (i : Ident), ofText ⟨"KTypeA.java"⟩ "class KTypeA<T extends KType> \x7b \x7d" {} = .ok t
    ∧ t.specialize ⟨.int, none⟩ = .ok "class IntA<T extends int> \x7b \x7d"
    ∧ .typeDecl d ∈ t.file.tree.parts ∧ d.typeParams = some as ∧ a ∈ as.entries ∧ e ∈ a.bounds
    ∧ e.simpleName? = some i ∧ ({} : Vocabulary).placeholder? i.name = some .primary
    ∧ (⟨.int, none⟩ : Binding).isPrimitive .primary = true
    ∧ (t.job ⟨.int, none⟩).exchange i "int" ∈ t.traces ⟨.int, none⟩
    ∧ ¬t.Elides ⟨.int, none⟩ e.extent := by
  obtain ⟨t, ht, hok⟩ := exists_ok_of_sees
    (x := ofText ⟨"KTypeA.java"⟩ "class KTypeA<T extends KType> \x7b \x7d" {})
    (fun t => (firstError? (t.steps ⟨.int, none⟩)).isNone
        && (t.job ⟨.int, none⟩).chunksText (t.chunks ⟨.int, none⟩) == "class IntA<T extends int> \x7b \x7d"
        && t.file.tree.types.any fun d => d.typeParams.any fun as => as.entries.any fun a =>
          a.bounds.any fun e => e.simpleName?.any fun i =>
            ({} : Vocabulary).placeholder? i.name == some .primary
            && (t.traces ⟨.int, none⟩).contains ((t.job ⟨.int, none⟩).exchange i "int")
            && decide ((t.file.source.range e.extent).start ≤ t.file.source.index i.position)
            && decide (t.file.source.index i.position < (t.file.source.range e.extent).stop))
    (by decide +kernel)
  simp only [Bool.and_eq_true, Option.isNone_iff_eq_none, beq_iff_eq, List.any_eq_true, Option.any_eq_true,
    List.contains_iff_mem, decide_eq_true_eq] at hok
  obtain ⟨⟨hok, htext⟩, d, hd, as, has, a, ha, e, he, i, hi, ⟨⟨hp, hmem⟩, hstart⟩, hstop⟩ := hok
  have hout := specialize_eq ht ⟨.int, none⟩
  rw [hok, htext] at hout
  have hpart : .typeDecl d ∈ t.file.tree.parts := by
    simp [CompilationUnit.parts, hd]
  refine ⟨t, d, as, a, e, i, ht, hout, hpart, has, ha, he, hi, hp, by decide, hmem, fun helides => ?_⟩
  exact helides _ hmem _ rfl ⟨hstart, hstop⟩

end Template

end Stencil
