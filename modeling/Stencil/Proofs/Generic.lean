import Stencil.Proofs.Frame
import Stencil.Proofs.Rewrite.Identifier

/-!
# Bindings to generic types

Where every placeholder that has a type is bound to the generic one, a template keeps its type
variables. A list of type arguments or type parameters has nothing to lose then, so it stays with its
brackets and all of its entries, and a name that is a placeholder stays too. What changes are longer
names, which get the word of the generic type, and intrinsic calls.

Results: every edit of a walk, at every depth, exchanges one name for another one or a whole call, and
all else is copied (`Template.keepsAll_of_allGeneric`).
-/

namespace Stencil

/-! ## What is decided -/

namespace Binding

variable {b : Binding}

theorem eq_generic_of_resolve {p : Placeholder} {t : ConcreteType} (hb : b.allGeneric = true)
    (h : b.resolve p = some t) : t = .generic := by
  rw [allGeneric, Bool.and_eq_true] at hb
  cases p with
  | primary =>
    rw [show b.primary = t from Option.some.inj h] at hb
    simpa [ConcreteType.isGeneric] using hb.1
  | secondary =>
    rw [show b.secondary = some t from h] at hb
    simpa [ConcreteType.isGeneric] using hb.2

theorem isPrimitive_of_allGeneric (hb : b.allGeneric = true) (p : Placeholder) :
    b.isPrimitive p = false := by
  rw [isPrimitive, Option.any_eq_false]
  intro t ht
  rw [eq_generic_of_resolve hb ht]
  decide

end Binding

namespace Rewrite

open Outline (placesAll)

variable {v : Vocabulary} {b : Binding} {j : Job} {e : Edit}

theorem isDropped_of_allGeneric (hb : b.allGeneric = true) (slot : Option Placeholder) (a : TypeArg) :
    isDropped v b slot a = false := by
  rw [isDropped]
  split
  · exact b.isPrimitive_of_allGeneric hb _
  · cases slot with
    | none => simp
    | some p => simp [b.isPrimitive_of_allGeneric hb p]

theorem anyDropped_of_allGeneric (hb : b.allGeneric = true) (slots : List Placeholder)
    (as : List TypeArg) : anyDropped v b slots as = false := by
  induction as generalizing slots with
  | nil => rfl
  | cons a as ih => rw [anyDropped, isDropped_of_allGeneric hb, ih, Bool.or_self]

theorem keepsDiamond_of_allGeneric (hb : b.allGeneric = true) (owner : Option String) :
    keepsDiamond v b owner = true := by
  rw [keepsDiamond]
  cases slotsOf v owner with
  | nil => rfl
  | cons p slots => simp [b.isPrimitive_of_allGeneric hb p]

theorem isDroppedParam_of_allGeneric (hb : b.allGeneric = true) (p : TypeParam) :
    isDroppedParam v b p = false := by
  rw [isDroppedParam, Option.any_eq_false]
  intro q _
  rw [b.isPrimitive_of_allGeneric hb q]

theorem any_isDroppedParam_of_allGeneric (hb : b.allGeneric = true)
    (entries : List (TypeParam × List Outline)) : entries.any (fun e => isDroppedParam v b e.1) = false := by
  rw [List.any_eq_false]
  intro x _
  rw [isDroppedParam_of_allGeneric hb]
  exact Bool.false_ne_true

/-- No placeholder becomes a keyword. -/
theorem keyword?_of_allGeneric {p : Placeholder} {t : ConcreteType} (hb : b.allGeneric = true)
    (h : b.resolve p = some t) : t.keyword? = none := by
  rw [Binding.eq_generic_of_resolve hb h]
  rfl

/-! ## The walk -/

/-- The steps of type arguments are those of the entries. -/
theorem steps_typeArgs_of_allGeneric (hb : j.binding.allGeneric = true) {owner : Option String}
    {entries : List (TypeArg × List Outline)} {extent : Extent} :
    (Outline.typeArgs owner entries extent).steps j = Outline.argSteps j entries := by
  cases entries <;>
    simp [Outline.steps, keepsDiamond_of_allGeneric hb, anyDropped_of_allGeneric hb, Outline.argSteps]

/-- The steps of type parameters are those of the entries. -/
theorem steps_typeParams_of_allGeneric (hb : j.binding.allGeneric = true)
    {entries : List (TypeParam × List Outline)} {extent : Extent} :
    (Outline.typeParams entries extent).steps j = Outline.paramSteps j entries := by
  simp [Outline.steps, any_isDroppedParam_of_allGeneric hb]

/-- Is the edit that of a name or of a call? -/
def Outline.Exchanges (j : Job) (e : Edit) : Outline → Prop
  | .name i => e.range = j.source.single i.position
      ∧ renameIdent? j.vocabulary j.binding i.name = some e.text
  | .part i args => e.range = j.source.single i.position
      ∧ renameSegment? j.vocabulary j.binding i.name args = some e.text
  | .typeArgs _ _ _ => False
  | .typeParams _ _ => False
  | .call c _ => e.range = j.source.range c.extent

theorem of_mem_renamed {i : Ident} {text : Option String} (h : .ok e ∈ j.renamed i text) :
    e.range = j.source.single i.position ∧ text = some e.text := by
  cases text with
  | none => simp [Job.renamed] at h
  | some t =>
    simp only [Job.renamed, List.mem_singleton, Except.ok.injEq] at h
    exact ⟨by rw [h], by rw [h]⟩

theorem Outline.exchanges_of_mem_ownSteps (hb : j.binding.allGeneric = true) {o : Outline}
    (h : .ok e ∈ o.ownSteps j) : o.Exchanges j e := by
  cases o with
  | name i => exact of_mem_renamed h
  | part i args => exact of_mem_renamed h
  | typeArgs owner entries extent =>
    rw [Outline.ownSteps, anyDropped_of_allGeneric hb, Bool.or_false] at h
    split at h
    · rename_i hempty
      obtain rfl := List.isEmpty_iff.1 hempty
      rw [steps_typeArgs_of_allGeneric hb] at h
      cases h
    · cases h
  | typeParams entries extent =>
    rw [Outline.ownSteps, any_isDroppedParam_of_allGeneric hb] at h
    cases h
  | call c args => exact range_of_mem_call h

theorem Outline.exists_exchanges_of_mem_stepsAll (hb : j.binding.allGeneric = true) {os : List Outline}
    (h : .ok e ∈ Outline.stepsAll j os) : ∃ o ∈ placesAll os, o.Exchanges j e := by
  obtain ⟨o, ho, hstep⟩ := Outline.exists_own_of_mem_stepsAll h
  exact ⟨o, ho, Outline.exchanges_of_mem_ownSteps hb hstep⟩

end Rewrite

/-! ## Templates -/

open Rewrite

namespace Template

variable {path : Path} {text : String} {v : Vocabulary} {t : Template} {b : Binding}

/-- What an edit exchanges: an identifier that is no placeholder for another one, or a call. -/
inductive Exchanges (t : Template) (e : Edit) : Prop where
  | name (kind : (t.file.source.tokenAt e.range.start).kind = .identifier)
    (stop : e.range.stop = e.range.start + 1)
    (placeholder : t.vocabulary.placeholder? (t.file.source.tokenAt e.range.start).text = none)
    (isName : isName e.text = true)
    (changed : e.text ≠ (t.file.source.tokenAt e.range.start).text)
  | call {c : IntrinsicCall} (call : c ∈ t.calls) (range : e.range = t.file.source.range c.extent)

/-- Is the token outside of all calls in the range? -/
def IsOutsideCalls (t : Template) (range : TokenRange) (i : Nat) : Prop :=
  ∀ c ∈ t.calls, range.contains (t.file.source.range c.extent) = true →
    i < (t.file.source.range c.extent).start ∨ (t.file.source.range c.extent).stop ≤ i

/-- A rendering whose edits exchange names and calls only. Every other token outside of the calls that
it renders is written as it stands, unless it is a comment, and so is every placeholder. -/
structure KeepsAll (t : Template) (b : Binding) (r : TokenRange × List Step) : Prop where
  exchanges : ∀ e, .ok e ∈ r.2 → t.Exchanges e
  finish_eq : (t.job b).finish r.1 (editsBefore r.2) = .ok (String.join
    ((t.file.source.indices r.1).map ((t.job b).written (editsBefore r.2))))
  written_eq : ∀ i ∈ t.file.source.indices r.1, t.IsOutsideCalls r.1 i →
    (t.file.source.tokenAt i).kind ≠ .identifier
      ∨ (t.vocabulary.placeholder? (t.file.source.tokenAt i).text).isSome = true →
    (t.file.source.tokenAt i).kind.channel ≠ .comment →
    (t.job b).written (editsBefore r.2) i = (t.file.source.tokenAt i).text

/-- A name among the places of the template is a name. -/
theorem isName_of_mem_places (h : ofText path text v = .ok t) {i : Ident}
    (hi : .name i ∈ t.places ∨ ∃ args, .part i args ∈ t.places) : isName i.name = true := by
  obtain ⟨hp, hkind, htext⟩ := exists_token_of_mem_places h hi
  have hmem : t.file.source.codeToken i.position ∈ t.file.source.tokens := by
    rw [Source.codeToken, Source.tokenAt_of_lt ((indexed_of_ofText h).index_lt_size hp)]
    exact Array.getElem_mem _
  rw [(laidAll_of_ofText h).2.1] at hmem hkind htext
  exact htext ▸ (Source.isSpelled_of_mem_tokens hmem).name hkind

theorem exchanges_of_outline (h : ofText path text v = .ok t) (hb : b.allGeneric = true) {e : Edit}
    {o : Outline} (ho : o ∈ t.places) (hx : o.Exchanges (t.job b) e) : t.Exchanges e := by
  have name {i : Ident} (rename : String → Option String)
      (hi : .name i ∈ t.places ∨ ∃ args, .part i args ∈ t.places)
      (hcases : ∀ out, rename i.name = some out →
        (∃ p u, t.vocabulary.placeholder? i.name = some p ∧ b.resolve p = some u ∧ u.keyword? = some out)
          ∨ t.vocabulary.placeholder? i.name = none ∧ isName out = true ∧ out ≠ i.name)
      (hrange : e.range = t.file.source.single i.position) (hrename : rename i.name = some e.text) :
      t.Exchanges e := by
    obtain ⟨-, hkind, htext⟩ := exists_token_of_mem_places h hi
    have hstart : t.file.source.tokenAt e.range.start = t.file.source.codeToken i.position := by
      rw [hrange]
      rfl
    rcases hcases _ hrename with ⟨p, u, -, hu, hk⟩ | ⟨hp, hname, hne⟩
    · rw [keyword?_of_allGeneric hb hu] at hk
      contradiction
    · refine .name ?_ (by rw [hrange]; rfl) ?_ hname ?_
      · rw [hstart, hkind]
      · rw [hstart, htext, hp]
      · rw [hstart, htext]
        exact hne
  cases o with
  | name i =>
    exact name (renameIdent? t.vocabulary b) (.inl ho)
      (fun _ => renameIdent?_cases (isName_of_mem_places h (.inl ho))) hx.1 hx.2
  | part i args =>
    exact name (fun name => renameSegment? t.vocabulary b name args) (.inr ⟨args, ho⟩)
      (fun _ => renameSegment?_cases (isName_of_mem_places h (.inr ⟨args, ho⟩))) hx.1 hx.2
  | typeArgs owner entries extent => exact hx.elim
  | typeParams entries extent => exact hx.elim
  | call c args =>
    refine .call (mem_calls_iff.2 ?_) hx
    rw [Outline.spotsAll_eq]
    exact List.mem_filterMap.2 ⟨_, ho, rfl⟩

theorem keepsAll_of_mem_renderings (h : ofText path text v = .ok t) (hb : b.allGeneric = true)
    {r : TokenRange × List Step} (hr : r ∈ t.renderings b) : t.KeepsAll b r := by
  have hframed := framed_of_mem_renderings h hr
  obtain ⟨⟨os, hsteps, hplaces⟩, -, hcontains⟩ := exists_fits_of_mem_renderings h hr
  have hexchanges (e : Edit) (he : .ok e ∈ r.2) : t.Exchanges e := by
    rw [hsteps] at he
    obtain ⟨o, ho, hx⟩ := Outline.exists_exchanges_of_mem_stepsAll hb he
    exact exchanges_of_outline h hb (hplaces ho) hx
  refine ⟨hexchanges, hframed.finish_eq, fun i hi houtside hkept hkind => ?_⟩
  refine hframed.written_eq i hi (fun e he => ?_) hkind
  rw [Bool.eq_false_iff, Ne, Edit.covers_iff]
  rintro ⟨hstart, hstop⟩
  cases hexchanges e (mem_of_mem_editsBefore he) with
  | name hidentifier hone hplaceholder _ _ =>
    obtain rfl : e.range.start = i := by omega
    rw [hplaceholder] at hkept
    exact hkept.elim (fun hne => hne hidentifier) (by simp)
  | call hcall hrange =>
    have hcall := houtside _ hcall (hrange ▸ hcontains e he)
    rw [← hrange] at hcall
    omega

/-- Where every placeholder that has a type is bound to the generic one, nothing is dropped: the edits
of every rendering exchange names and calls only, and the steps of each list are those of all its
entries. -/
theorem keepsAll_of_allGeneric (h : ofText path text v = .ok t) (hb : b.allGeneric = true) :
    (∀ r ∈ t.renderings b, t.KeepsAll b r)
      ∧ (∀ owner entries extent, .typeArgs owner entries extent ∈ t.places →
        keepsDiamond t.vocabulary b owner = true
          ∧ (∀ x ∈ entries, ∀ slot, isDropped t.vocabulary b slot x.1 = false)
          ∧ (Outline.typeArgs owner entries extent).steps (t.job b) = Outline.argSteps (t.job b) entries)
      ∧ ∀ entries extent, .typeParams entries extent ∈ t.places →
        (∀ x ∈ entries, isDroppedParam t.vocabulary b x.1 = false)
          ∧ (Outline.typeParams entries extent).steps (t.job b)
            = Outline.paramSteps (t.job b) entries := by
  refine ⟨fun r hr => keepsAll_of_mem_renderings h hb hr, fun owner entries extent _ => ?_,
    fun entries extent _ => ?_⟩
  · exact ⟨keepsDiamond_of_allGeneric hb owner, fun x _ slot => isDropped_of_allGeneric hb slot x.1,
      steps_typeArgs_of_allGeneric hb⟩
  · exact ⟨fun x _ => isDroppedParam_of_allGeneric hb x.1, steps_typeParams_of_allGeneric hb⟩

/-- The theorem at a template with lists in a bound and in the argument of a call. -/
theorem keepsAll_of_allGeneric_sample : ∃ t, ofText ⟨"A.java"⟩
      "class KTypeVTypeA<KType, V extends I<?>> \x7b KType f = Intrinsics.<VType>cast(new KTypeB<>(KType.n)); \x7d" {} = .ok t
    ∧ (⟨.generic, some .generic⟩ : Binding).allGeneric = true
    ∧ t.specialize ⟨.generic, some .generic⟩ = .ok
      "class ObjectObjectA<KType, V extends I<?>> \x7b KType f = ((VType) new ObjectB<>(KType.n)); \x7d"
    ∧ (∀ r ∈ t.renderings ⟨.generic, some .generic⟩, t.KeepsAll ⟨.generic, some .generic⟩ r)
    ∧ ∀ entries extent, .typeParams entries extent ∈ t.places →
        (∀ x ∈ entries, isDroppedParam t.vocabulary ⟨.generic, some .generic⟩ x.1 = false)
          ∧ (Outline.typeParams entries extent).steps (t.job ⟨.generic, some .generic⟩)
            = Outline.paramSteps (t.job ⟨.generic, some .generic⟩) entries := by
  obtain ⟨t, ht, hok⟩ := exists_ok_of_sees
    (x := ofText ⟨"A.java"⟩
      "class KTypeVTypeA<KType, V extends I<?>> \x7b KType f = Intrinsics.<VType>cast(new KTypeB<>(KType.n)); \x7d" {})
    (fun t => (firstError? (t.steps ⟨.generic, some .generic⟩)).isNone
        && String.join ((t.file.source.indices t.file.source.whole).map
          ((t.job ⟨.generic, some .generic⟩).written (editsBefore (t.steps ⟨.generic, some .generic⟩))))
          == "class ObjectObjectA<KType, V extends I<?>> \x7b KType f = ((VType) new ObjectB<>(KType.n)); \x7d")
    (by decide +kernel)
  have hb : (⟨.generic, some .generic⟩ : Binding).allGeneric = true := by decide
  obtain ⟨hkeeps, -, hparams⟩ := keepsAll_of_allGeneric ht hb
  simp only [Bool.and_eq_true, Option.isNone_iff_eq_none, beq_iff_eq] at hok
  refine ⟨t, ht, hb, ?_, hkeeps, hparams⟩
  have hfinish := (hkeeps _ List.mem_cons_self).finish_eq
  rw [hok.2] at hfinish
  simp only [specialize, hok.1]
  exact hfinish

end Template

end Stencil
