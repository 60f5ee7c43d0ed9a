import Stencil.Proofs.Rewrite.Places
import Stencil.Proofs.Rewrite.Renamed

/-!
# What brings edits about

An edit is made for a reason that stands in the template: a name that mentions a placeholder, a list
with an entry that names one or behind the name of a class that mentions one, or a call. It covers
what it is about, and the edit that leaves nothing of a list of type parameters may cover the blank
behind it too.

Results: every edit of a walk is one that a place of the outline makes itself
(`Outline.exists_own_of_mem_stepsAll`), and so brings about (`Outline.exists_causes_of_mem_stepsAll`), the places of what is rendered on its own are those of the
whole (`Outline.placesAll_subset_of_mem_partsAll`), and where no name mentions a placeholder and there
are no calls, nothing is brought about (`Stem.not_causes`).
-/

namespace Stencil

/-- A placeholder mentions itself. -/
theorem Vocabulary.mentionsAny_of_placeholder? {v : Vocabulary} {name : String} {p : Placeholder}
    (h : v.placeholder? name = some p) : v.mentionsAny name = true := by
  obtain rfl := v.name_of_placeholder? h
  exact List.any_eq_true.2 ⟨p, by cases p <;> simp [Placeholder.both],
    Text.occursIn_iff.2 (List.infix_refl _)⟩

namespace Rewrite

open Outline (placesAll argPlaces paramPlaces operandPlaces)

variable {j : Job} {v : Vocabulary} {b : Binding} {e : Edit}

/-! ## Reasons for edits -/

theorem mentionsAny_of_renameIdent? {name text : String} (h : renameIdent? v b name = some text) :
    v.mentionsAny name = true := by
  simp only [renameIdent?] at h
  split at h
  · rename_i p hp
    exact Vocabulary.mentionsAny_of_placeholder? hp
  · split at h
    · assumption
    · contradiction

theorem mentionsAny_of_renameSegment? {name text : String} {args : List TypeArg}
    (h : renameSegment? v b name args = some text) : v.mentionsAny name = true := by
  simp only [renameSegment?] at h
  split at h
  · exact mentionsAny_of_renameIdent? h
  · split at h
    · assumption
    · contradiction

theorem mentionsAny_of_slotsOf {owner : Option String} (h : slotsOf v owner ≠ []) :
    owner.any v.mentionsAny = true := by
  cases owner with
  | none => exact absurd rfl h
  | some name =>
    obtain ⟨p, hp⟩ := List.exists_mem_of_ne_nil _ h
    obtain ⟨hboth, hp⟩ := List.mem_filter.1 hp
    exact List.any_eq_true.2 ⟨p, hboth, hp⟩

/-- An entry is left out because it names a placeholder, or with the slot in which it stands. -/
theorem exists_of_anyDropped {slots : List Placeholder} {as : List TypeArg}
    (h : anyDropped v b slots as = true) :
    slots ≠ [] ∨ ∃ a ∈ as, (placeholderOf? v a).isSome = true := by
  induction as generalizing slots with
  | nil => simp [anyDropped] at h
  | cons a as ih =>
    simp only [anyDropped, Bool.or_eq_true] at h
    rcases h with h | h
    · simp only [isDropped] at h
      split at h
      · rename_i p hp
        exact .inr ⟨a, List.mem_cons_self, by simp [hp]⟩
      · cases slots with
        | nil => simp at h
        | cons slot slots => exact .inl (List.cons_ne_nil slot slots)
    · rcases ih h with hslots | ⟨x, hx, hp⟩
      · refine .inl fun hnil => hslots ?_
        rw [hnil, List.tail_nil]
      · exact .inr ⟨x, List.mem_cons_of_mem a hx, hp⟩

theorem absorbBlank_cases (r : TokenRange) : j.absorbBlank r = r
    ∨ j.absorbBlank r = ⟨r.start, r.stop + 1⟩ ∧ (j.source.tokenAt r.stop).kind = .whitespace := by
  simp only [Job.absorbBlank]
  split
  · rename_i h
    simp only [Bool.and_eq_true, beq_iff_eq] at h
    exact .inr ⟨rfl, h.2⟩
  · exact .inl rfl

/-! ## Edits and places -/

/-- Is the edit one that the place brings about? -/
def Outline.Causes (v : Vocabulary) (s : Source) (e : Edit) : Outline → Prop
  | .name i => v.mentionsAny i.name = true ∧ e.range = s.single i.position
  | .part i _ => v.mentionsAny i.name = true ∧ e.range = s.single i.position
  | .typeArgs owner entries extent =>
    (owner.any v.mentionsAny = true ∨ ∃ x ∈ entries, (placeholderOf? v x.1).isSome = true)
      ∧ e.range = s.range extent
  | .typeParams entries extent =>
    (∃ x ∈ entries, (v.placeholder? x.1.name.name).isSome = true)
      ∧ (e.range = s.range extent
        ∨ e.text = "" ∧ e.range = ⟨(s.range extent).start, (s.range extent).stop + 1⟩
          ∧ (s.tokenAt (s.range extent).stop).kind = .whitespace)
  | .call c _ => e.range = s.range c.extent

theorem exists_of_mem_renamed {i : Ident} {text : Option String} (h : .ok e ∈ j.renamed i text) :
    ∃ t, text = some t ∧ e.range = j.source.single i.position := by
  cases text with
  | none => simp [Job.renamed] at h
  | some t =>
    simp only [Job.renamed, List.mem_singleton, Except.ok.injEq] at h
    exact ⟨t, rfl, by rw [h]⟩

theorem range_of_mem_keepArgs {extent : Extent} {kept : Except SpecializeError (List String)}
    (h : .ok e ∈ j.keepArgs extent kept) : e.range = j.source.range extent := by
  cases kept with
  | error err => simp [Job.keepArgs] at h
  | ok kept =>
    simp only [Job.keepArgs, List.mem_singleton, Except.ok.injEq] at h
    rw [h]

/-- An edit of type parameters reaches past them only if it leaves nothing of them. -/
theorem range_of_mem_keepParams {extent : Extent} {kept : Except SpecializeError (List String)}
    (h : .ok e ∈ j.keepParams extent kept) : e.range = j.source.range extent
      ∨ e.text = "" ∧ e.range = ⟨(j.source.range extent).start, (j.source.range extent).stop + 1⟩
        ∧ (j.source.tokenAt (j.source.range extent).stop).kind = .whitespace := by
  cases kept with
  | error err => simp [Job.keepParams] at h
  | ok kept =>
    simp only [Job.keepParams, List.mem_singleton, Except.ok.injEq] at h
    subst h
    cases kept with
    | cons text kept => exact .inl rfl
    | nil => exact (absorbBlank_cases (j.source.range extent)).imp_right fun h => ⟨rfl, h⟩

theorem range_of_mem_call {c : IntrinsicCall} {operands : Except SpecializeError (List Operand)}
    (h : .ok e ∈ j.call c operands) : e.range = j.source.range c.extent := by
  rw [call_eq] at h
  dsimp only at h
  split at h
  · simp at h
  · simp at h
  · split at h
    · simp at h
    · rw [List.mem_singleton, Except.ok.injEq] at h
      rw [h]

/-- The steps that the place makes itself. Where all entries of a list stay, it leaves them to these. -/
def Outline.ownSteps (j : Job) : Outline → List Step
  | .typeArgs owner entries extent =>
    if entries.isEmpty
        || anyDropped j.vocabulary j.binding (slotsOf j.vocabulary owner) (entries.map (·.1)) then
      (Outline.typeArgs owner entries extent).steps j
    else []
  | .typeParams entries extent =>
    if entries.any (fun e => isDroppedParam j.vocabulary j.binding e.1) then
      (Outline.typeParams entries extent).steps j
    else []
  | o => o.steps j

mutual

theorem Outline.exists_own_of_mem_steps : ∀ {o : Outline}, .ok e ∈ o.steps j →
    ∃ o' ∈ o.places, .ok e ∈ o'.ownSteps j
  | .name _, h => ⟨_, List.mem_cons_self, h⟩
  | .part _ _, h => ⟨_, List.mem_cons_self, h⟩
  | .typeArgs owner entries extent, h => by
    by_cases hown : (entries.isEmpty || anyDropped j.vocabulary j.binding (slotsOf j.vocabulary owner)
        (entries.map (·.1))) = true
    · exact ⟨_, List.mem_cons_self, by rwa [Outline.ownSteps, if_pos hown]⟩
    · rw [Bool.or_eq_true, not_or] at hown
      simp only [Outline.steps, if_neg hown.1, if_neg hown.2] at h
      obtain ⟨o, ho, hstep⟩ := Outline.exists_own_of_mem_argSteps h
      exact ⟨o, List.mem_cons_of_mem _ ho, hstep⟩
  | .typeParams entries extent, h => by
    by_cases hown : entries.any (fun e => isDroppedParam j.vocabulary j.binding e.1) = true
    · exact ⟨_, List.mem_cons_self, by rwa [Outline.ownSteps, if_pos hown]⟩
    · rw [Outline.steps, if_neg hown] at h
      obtain ⟨o, ho, hstep⟩ := Outline.exists_own_of_mem_paramSteps h
      exact ⟨o, List.mem_cons_of_mem _ ho, hstep⟩
  | .call _ _, h => ⟨_, List.mem_cons_self, h⟩

theorem Outline.exists_own_of_mem_stepsAll : ∀ {os : List Outline}, .ok e ∈ Outline.stepsAll j os →
    ∃ o ∈ placesAll os, .ok e ∈ o.ownSteps j
  | _ :: _, h => by
    rcases List.mem_append.1 h with h | h
    · obtain ⟨o, ho, hstep⟩ := Outline.exists_own_of_mem_steps h
      exact ⟨o, List.mem_append_left _ ho, hstep⟩
    · obtain ⟨o, ho, hstep⟩ := Outline.exists_own_of_mem_stepsAll h
      exact ⟨o, List.mem_append_right _ ho, hstep⟩

theorem Outline.exists_own_of_mem_argSteps : ∀ {es : List (TypeArg × List Outline)},
    .ok e ∈ Outline.argSteps j es → ∃ o ∈ argPlaces es, .ok e ∈ o.ownSteps j
  | _ :: _, h => by
    rcases List.mem_append.1 h with h | h
    · obtain ⟨o, ho, hstep⟩ := Outline.exists_own_of_mem_stepsAll h
      exact ⟨o, List.mem_append_left _ ho, hstep⟩
    · obtain ⟨o, ho, hstep⟩ := Outline.exists_own_of_mem_argSteps h
      exact ⟨o, List.mem_append_right _ ho, hstep⟩

theorem Outline.exists_own_of_mem_paramSteps : ∀ {es : List (TypeParam × List Outline)},
    .ok e ∈ Outline.paramSteps j es → ∃ o ∈ paramPlaces es, .ok e ∈ o.ownSteps j
  | _ :: _, h => by
    rcases List.mem_append.1 h with h | h
    · obtain ⟨o, ho, hstep⟩ := Outline.exists_own_of_mem_stepsAll h
      exact ⟨o, List.mem_append_left _ ho, hstep⟩
    · obtain ⟨o, ho, hstep⟩ := Outline.exists_own_of_mem_paramSteps h
      exact ⟨o, List.mem_append_right _ ho, hstep⟩

end

theorem Outline.causes_of_mem_ownSteps {o : Outline} (h : .ok e ∈ o.ownSteps j) :
    o.Causes j.vocabulary j.source e := by
  cases o with
  | name i =>
    obtain ⟨t, ht, he⟩ := exists_of_mem_renamed h
    exact ⟨mentionsAny_of_renameIdent? ht, he⟩
  | part i args =>
    obtain ⟨t, ht, he⟩ := exists_of_mem_renamed h
    exact ⟨mentionsAny_of_renameSegment? ht, he⟩
  | typeArgs owner entries extent =>
    rw [Outline.ownSteps] at h
    split at h
    · rename_i hown
      simp only [Outline.steps] at h
      split at h
      · split at h
        · cases h
        · rename_i hdiamond
          have hslots : slotsOf j.vocabulary owner ≠ [] := by
            rintro hnil
            simp [keepsDiamond, hnil] at hdiamond
          rw [List.mem_singleton, Except.ok.injEq] at h
          exact ⟨.inl (mentionsAny_of_slotsOf hslots), by rw [h]; rfl⟩
      · rename_i hne
        have hdropped := (Bool.or_eq_true_iff.1 hown).resolve_left hne
        rw [if_pos hdropped] at h
        refine ⟨(exists_of_anyDropped hdropped).imp mentionsAny_of_slotsOf ?_, range_of_mem_keepArgs h⟩
        rintro ⟨a, ha, hp⟩
        obtain ⟨x, hx, rfl⟩ := List.mem_map.1 ha
        exact ⟨x, hx, hp⟩
    · cases h
  | typeParams entries extent =>
    rw [Outline.ownSteps] at h
    split at h
    · rename_i hdropped
      rw [Outline.steps, if_pos hdropped] at h
      obtain ⟨x, hx, hp⟩ := List.any_eq_true.1 hdropped
      exact ⟨⟨x, hx, Option.isSome_of_any hp⟩, range_of_mem_keepParams h⟩
    · cases h
  | call c args => exact range_of_mem_call h

theorem Outline.exists_causes_of_mem_stepsAll {os : List Outline} (h : .ok e ∈ Outline.stepsAll j os) :
    ∃ o ∈ placesAll os, o.Causes j.vocabulary j.source e := by
  obtain ⟨o, ho, hstep⟩ := Outline.exists_own_of_mem_stepsAll h
  exact ⟨o, ho, Outline.causes_of_mem_ownSteps hstep⟩

theorem mem_of_mem_editsBefore {xs : List Step} (h : e ∈ editsBefore xs) : .ok e ∈ xs := by
  induction xs with
  | nil => simp [editsBefore] at h
  | cons x xs ih =>
    cases x with
    | error err => simp [editsBefore] at h
    | ok f =>
      rcases List.mem_cons.1 h with rfl | h
      · exact List.mem_cons_self
      · exact List.mem_cons_of_mem _ (ih h)

/-! ## Places of what is rendered on its own -/

mutual

theorem Outline.placesAll_subset_of_mem_parts {x : Extent × List Outline} : ∀ {o : Outline},
    x ∈ o.parts → placesAll x.2 ⊆ o.places
  | .typeArgs _ _ _, h =>
    List.Subset.trans (Outline.placesAll_subset_of_mem_argParts h) (List.subset_cons_self _ _)
  | .typeParams _ _, h =>
    List.Subset.trans (Outline.placesAll_subset_of_mem_paramParts h) (List.subset_cons_self _ _)
  | .call _ _, h =>
    List.Subset.trans (Outline.placesAll_subset_of_mem_operandParts h) (List.subset_cons_self _ _)

theorem Outline.placesAll_subset_of_mem_partsAll {x : Extent × List Outline} :
    ∀ {os : List Outline}, x ∈ Outline.partsAll os → placesAll x.2 ⊆ placesAll os
  | _ :: _, h => by
    rcases List.mem_append.1 h with h | h
    · exact List.Subset.trans (Outline.placesAll_subset_of_mem_parts h)
        (List.subset_append_left _ _)
    · exact List.Subset.trans (Outline.placesAll_subset_of_mem_partsAll h)
        (List.subset_append_right _ _)

theorem Outline.placesAll_subset_of_mem_argParts {x : Extent × List Outline} :
    ∀ {es : List (TypeArg × List Outline)}, x ∈ Outline.argParts es → placesAll x.2 ⊆ argPlaces es
  | (_, _) :: _, h => by
    simp only [Outline.argParts, List.mem_cons, List.mem_append] at h
    rcases h with rfl | h | h
    · exact List.subset_append_left _ _
    · exact List.Subset.trans (Outline.placesAll_subset_of_mem_partsAll h)
        (List.subset_append_left _ _)
    · exact List.Subset.trans (Outline.placesAll_subset_of_mem_argParts h)
        (List.subset_append_right _ _)

theorem Outline.placesAll_subset_of_mem_paramParts {x : Extent × List Outline} :
    ∀ {es : List (TypeParam × List Outline)}, x ∈ Outline.paramParts es →
      placesAll x.2 ⊆ paramPlaces es
  | (_, _) :: _, h => by
    simp only [Outline.paramParts, List.mem_cons, List.mem_append] at h
    rcases h with rfl | h | h
    · exact List.subset_append_left _ _
    · exact List.Subset.trans (Outline.placesAll_subset_of_mem_partsAll h)
        (List.subset_append_left _ _)
    · exact List.Subset.trans (Outline.placesAll_subset_of_mem_paramParts h)
        (List.subset_append_right _ _)

theorem Outline.placesAll_subset_of_mem_operandParts {x : Extent × List Outline} :
    ∀ {es : List (Expr × List Outline)}, x ∈ Outline.operandParts es →
      placesAll x.2 ⊆ operandPlaces es
  | (_, _) :: _, h => by
    simp only [Outline.operandParts, List.mem_cons, List.mem_append] at h
    rcases h with rfl | h | h
    · exact List.subset_append_left _ _
    · exact List.Subset.trans (Outline.placesAll_subset_of_mem_partsAll h)
        (List.subset_append_left _ _)
    · exact List.Subset.trans (Outline.placesAll_subset_of_mem_operandParts h)
        (List.subset_append_right _ _)

end

/-! ## Where nothing is brought about -/

theorem placesAll_subset_argPlaces {as : List TypeArg} {a : TypeArg} (h : a ∈ as) :
    placesAll (TypeArg.outline a) ⊆ argPlaces (TypeArg.entries as) := by
  induction as with
  | nil => simp at h
  | cons x as ih =>
    rcases List.mem_cons.1 h with rfl | h
    · exact List.subset_append_left _ _
    · exact List.Subset.trans (ih h) (List.subset_append_right _ _)

theorem placesAll_subset_paramPlaces {as : List TypeParam} {a : TypeParam} (h : a ∈ as) :
    placesAll (TypeParam.outline a) ⊆ paramPlaces (TypeParam.entries as) := by
  induction as with
  | nil => simp at h
  | cons x as ih =>
    rcases List.mem_cons.1 h with rfl | h
    · exact List.subset_append_left _ _
    · exact List.Subset.trans (ih h) (List.subset_append_right _ _)

theorem mem_entries_args {as : List TypeArg} {x : TypeArg × List Outline}
    (h : x ∈ TypeArg.entries as) : x.1 ∈ as := by
  induction as with
  | nil => simp [TypeArg.entries] at h
  | cons a as ih =>
    rcases List.mem_cons.1 h with rfl | h
    · exact List.mem_cons_self
    · exact List.mem_cons_of_mem _ (ih h)

theorem mem_entries_params {as : List TypeParam} {x : TypeParam × List Outline}
    (h : x ∈ TypeParam.entries as) : x.1 ∈ as := by
  induction as with
  | nil => simp [TypeParam.entries] at h
  | cons a as ih =>
    rcases List.mem_cons.1 h with rfl | h
    · exact List.mem_cons_self
    · exact List.mem_cons_of_mem _ (ih h)

/-- The placeholder that an argument names is a name in the argument. -/
theorem exists_part_of_placeholderOf? {a : TypeArg} (h : (placeholderOf? v a).isSome = true) :
    ∃ i, .part i [] ∈ placesAll (TypeArg.outline a) ∧ v.mentionsAny i.name = true := by
  have part {t : Stencil.TypeExpr} (ht : (t.simpleName?.bind fun i => v.placeholder? i.name).isSome) :
      ∃ i, .part i [] ∈ placesAll (TypeExpr.outline t) ∧ v.mentionsAny i.name = true := by
    obtain ⟨annotations, core, dims, extent⟩ := t
    simp only [Stencil.TypeExpr.simpleName?, Stencil.TypeExpr.segments] at ht
    split at ht
    · rename_i i hsegments
      cases core with
      | primitive kind => simp at hsegments
      | named segments =>
        simp only at hsegments
        subst hsegments
        obtain ⟨p, hp⟩ := Option.isSome_iff_exists.1 ht
        refine ⟨i, ?_, Vocabulary.mentionsAny_of_placeholder? hp⟩
        simp [TypeExpr.outline, TypeCore.outline, TypeSegment.outlines, Outline.placesAll_append,
          placesAll, Outline.places]
    · simp at ht
  cases a with
  | type t => exact part h
  | wildcard extent => simp [placeholderOf?, TypeArg.typeExpr?] at h
  | bounded kind t extent => exact part h

theorem mem_placesAll_typeParam (a : TypeParam) : .name a.name ∈ placesAll (TypeParam.outline a) := by
  obtain ⟨annotations, i, bounds, extent⟩ := a
  simp [TypeParam.outline, Outline.placesAll_append, placesAll, Outline.places]

/-- Where no name mentions a placeholder and there are no calls, nothing is brought about. -/
theorem Stem.not_causes {xs : List Landmark} {os : List Outline} (h : Stems xs os)
    (hnames : ∀ i, .name i ∈ placesAll os → v.mentionsAny i.name = false)
    (hparts : ∀ i args, .part i args ∈ placesAll os → v.mentionsAny i.name = false)
    (hcalls : ∀ c args, .call c args ∉ placesAll os) {s : Source} {o : Outline}
    (ho : o ∈ placesAll os) : ¬o.Causes v s e := by
  cases o with
  | name i => exact fun hc => Bool.false_ne_true ((hnames i ho).symm.trans hc.1)
  | part i args => exact fun hc => Bool.false_ne_true ((hparts i args ho).symm.trans hc.1)
  | typeArgs owner entries extent =>
    rintro ⟨howner | ⟨x, hx, hp⟩, -⟩
    · obtain ⟨n, rfl, hn⟩ := (Option.any_eq_true _ _).1 howner
      obtain ⟨i, args, hi, rfl⟩ := h.owner ho
      exact Bool.false_ne_true ((hparts i args hi).symm.trans hn)
    · obtain ⟨as, -, rfl, -⟩ := h.typeArgs ho
      obtain ⟨i, hi, hmentions⟩ := exists_part_of_placeholderOf? hp
      have hi : .part i [] ∈ placesAll os := Outline.places_subset_placesAll ho
        (List.mem_cons_of_mem _ (placesAll_subset_argPlaces (mem_entries_args hx) hi))
      exact Bool.false_ne_true ((hparts i [] hi).symm.trans hmentions)
  | typeParams entries extent =>
    rintro ⟨⟨x, hx, hp⟩, -⟩
    obtain ⟨as, -, rfl, -⟩ := h.typeParams ho
    obtain ⟨p, hp⟩ := Option.isSome_iff_exists.1 hp
    have hi : .name x.1.name ∈ placesAll os := Outline.places_subset_placesAll ho
      (List.mem_cons_of_mem _
        (placesAll_subset_paramPlaces (mem_entries_params hx) (mem_placesAll_typeParam x.1)))
    exact Bool.false_ne_true
      ((hnames _ hi).symm.trans (Vocabulary.mentionsAny_of_placeholder? hp))
  | call c args => exact absurd ho (hcalls c args)

end Rewrite

end Stencil
