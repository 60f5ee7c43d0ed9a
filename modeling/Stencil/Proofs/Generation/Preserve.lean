import Stencil.Proofs.Edits
import Stencil.Proofs.Generation.OutputPath
import Stencil.Generation.Run

/-!
# Outputs of broken templates

A template that can no longer be used claims the outputs that its file name promises. Earlier it may
have declared more placeholders than its file name mentions. Then its outputs are claimed only if
the bindings of the other placeholder do not show in their paths, and they do show if a directory is
named after it.

Results: what a template claims is no orphan (`Settings.not_same_of_mem_orphans`), and the exact
condition under which a broken template claims every output that it once had
(`Settings.claims_expansion_iff`).
-/

namespace Stencil

namespace Settings

variable {s : Settings} {files : FileTree} {rel : Path} {text : String} {t : Template}

/-! ## Claims keep outputs -/

/-- An output that one of the templates claims is not deleted. -/
theorem not_same_of_mem_orphans {templates : List Path} {plan : Plan} {c : Claim} {p : Path}
    (hplan : s.plan files = .ok plan) (htemplates : s.templates files = .ok templates)
    (hrel : rel ∈ templates) (hc : c ∈ (s.process files rel).claims)
    (hp : p ∈ plan.settlement.orphans) : c.path.same p = false := by
  simp only [Settings.plan, htemplates, Except.ok.injEq] at hplan
  subst hplan
  refine not_same_of_mem_orphansOf hp ?_
  simp only [Contribution.join, List.mem_flatMap, List.mem_map]
  exact ⟨_, ⟨rel, hrel, rfl⟩, hc⟩

/-! ## Broken templates -/

/-- Is there no template at the path: can the file not be read, or is its text no template? -/
def IsBroken (s : Settings) (files : FileTree) (rel : Path) : Prop :=
  ∀ text, files.read (s.templateRoot.join rel) = .ok text →
    ∃ e, Template.ofText rel text s.vocabulary = .error e

theorem claims_process_of_isBroken (h : s.IsBroken files rel) :
    (s.process files rel).claims = s.preserved rel := by
  unfold process
  dsimp only
  split
  · rfl
  · rename_i text hread
    obtain ⟨e, he⟩ := h text hread
    rw [he]

/-- Is there an output of two bound placeholders that is not also the output of a bound primary
placeholder alone? -/
def ShowsSecondary (s : Settings) (rel : Path) : Prop :=
  ∃ t u, ∀ t', (s.outputOf ⟨rel, ⟨t', none⟩⟩).same (s.outputOf ⟨rel, ⟨t, some u⟩⟩) = false

theorem normal_mem_inner_iff {name : String} :
    .normal name ∈ rel.inner ↔ .normal name ∈ rel.components := by
  rw [Path.components_eq, List.mem_append]
  refine ⟨.inr, fun h => h.resolve_left fun hstart => ?_⟩
  obtain h | h | h := rel.isStart_start <;> simp [h] at hstart

/-- In a plain vocabulary the secondary placeholder shows if a name on the path mentions it. -/
theorem showsSecondary_iff (h : s.vocabulary.isPlain = true) :
    s.ShowsSecondary rel
      ↔ ∃ name, .normal name ∈ rel.components ∧ s.vocabulary.mentions name .secondary = true := by
  constructor
  · rintro ⟨t, u, hshows⟩
    refine Classical.byContradiction fun hnone => ?_
    have hsame : (s.outputOf ⟨rel, ⟨t, none⟩⟩).same (s.outputOf ⟨rel, ⟨t, some u⟩⟩) = true := by
      refine same_join_outputPath_iff.2 fun c hc => ?_
      cases c with
      | normal name =>
        have hname : s.vocabulary.mentions name .secondary = false :=
          Bool.eq_false_iff.2 fun hm => hnone ⟨name, normal_mem_inner_iff.1 hc, hm⟩
        -- what the primary placeholder becomes does not bring the secondary one in
        have hone : s.vocabulary.mentions (Rewrite.substituteOne s.vocabulary
            (Binding.resolve ⟨t, some u⟩) .primary name) .secondary = false := by
          rw [Bool.eq_false_iff]
          intro hm
          have hin := Vocabulary.mentions_of_mentions_substituteOne h hm
          exact Bool.eq_false_iff.1 hname hin
        simp only [outputComponent, Rewrite.substitute_eq]
        rw [Vocabulary.substituteOne_of_not_mentions hone, Rewrite.substituteOne_of_eq_none rfl]
        rfl
      | _ => rfl
    exact Bool.eq_false_iff.1 (hshows t) hsame
  · rintro ⟨name, hname, hm⟩
    refine ⟨.generic, .generic, fun t' => Bool.eq_false_iff.2 fun hsame => ?_⟩
    have heq := same_join_outputPath_iff.1 hsame _ (normal_mem_inner_iff.2 hname)
    simp only [outputComponent, Component.normal.injEq] at heq
    have hkept : s.vocabulary.mentions (Rewrite.substitute s.vocabulary
        (Binding.resolve ⟨t', none⟩) name) .secondary = true := by
      rw [Rewrite.substitute_eq, Rewrite.substituteOne_of_eq_none rfl]
      exact Vocabulary.mentions_substituteOne_primary h hm
    have hbound : Binding.resolve ⟨.generic, some .generic⟩ .secondary = some .generic := rfl
    rw [heq] at hkept
    exact Bool.eq_false_iff.1 (Vocabulary.not_mentions_substitute h hbound) hkept

/-! ## What the file name promises -/

theorem mem_expand_one_iff {i : Instantiation} :
    i ∈ Instantiation.expand rel .one ↔ ∃ t, i = ⟨rel, ⟨t, none⟩⟩ := by
  simp only [Instantiation.expand, Binding.allOf, List.mem_map]
  constructor
  · rintro ⟨b, ⟨t, -, rfl⟩, rfl⟩
    exact ⟨t, rfl⟩
  · rintro ⟨t, rfl⟩
    exact ⟨_, ⟨t, t.mem_all, rfl⟩, rfl⟩

theorem mem_expand_two_iff {i : Instantiation} :
    i ∈ Instantiation.expand rel .two ↔ ∃ t u, i = ⟨rel, ⟨t, some u⟩⟩ := by
  simp only [Instantiation.expand, Binding.allOf, List.mem_map, List.mem_flatMap]
  constructor
  · rintro ⟨b, ⟨t, -, u, -, rfl⟩, rfl⟩
    exact ⟨t, u, rfl⟩
  · rintro ⟨t, u, rfl⟩
    exact ⟨_, ⟨t, t.mem_all, u, u.mem_all, rfl⟩, rfl⟩

/-- A template has the arity that its file name promises, or it has two placeholders where one is
promised. -/
theorem arity_cases (hrel : s.isTemplate rel = true)
    (ht : Template.ofText rel text s.vocabulary = .ok t) :
    t.instantiations = Instantiation.expand rel t.arity
      ∧ ∃ promised, Arity.ofFileName? s.vocabulary (rel.fileName?.getD "") = some promised
        ∧ (t.arity = promised ∨ t.arity = .two ∧ promised = .one) := by
  simp only [isTemplate, Bool.and_eq_true, Option.any_eq_true] at hrel
  obtain ⟨-, name, hname, hprimary⟩ := hrel
  simp only [Template.ofText] at ht
  split at ht
  · contradiction
  · rename_i file _
    split at ht
    · rename_i arity harity
      cases ht
      refine ⟨rfl, ?_⟩
      simp only [Arity.ofFileName?, hname, Option.getD_some, hprimary, Bool.not_true, Bool.false_eq_true,
        if_false]
      split
      · rename_i hsecondary
        have hmem : Placeholder.secondary ∈ declaredPlaceholders s.vocabulary rel file.tree := by
          simp [declaredPlaceholders, hname, Vocabulary.mem_mentioned.2 hsecondary]
        simp only [Arity.ofDeclared?, List.contains_iff_mem.2 hmem, if_true] at harity
        split at harity
        · contradiction
        · cases harity
          exact ⟨.two, rfl, .inl rfl⟩
      · refine ⟨.one, rfl, ?_⟩
        cases arity with
        | one => exact .inl rfl
        | two => exact .inr ⟨rfl, rfl⟩
    · split at ht <;> contradiction

/-- A template that was accepted and is broken now claims all its earlier outputs, unless it had two
placeholders, its file name promises one, and the other one shows in the paths of its outputs. In a
plain vocabulary it shows if a directory on the template's path is named after it. -/
theorem claims_expansion_iff (hrel : s.isTemplate rel = true)
    (ht : Template.ofText rel text s.vocabulary = .ok t) (hbroken : s.IsBroken files rel) :
    ((∀ i ∈ t.instantiations, ∃ c ∈ (s.process files rel).claims, c.path.same (s.outputOf i) = true)
        ↔ ¬(t.arity = .two ∧ Arity.ofFileName? s.vocabulary (rel.fileName?.getD "") = some .one
          ∧ s.ShowsSecondary rel))
      ∧ (s.vocabulary.isPlain = true → (s.ShowsSecondary rel
        ↔ ∃ name, .normal name ∈ rel.components ∧ s.vocabulary.mentions name .secondary = true)) := by
  refine ⟨?_, showsSecondary_iff⟩
  obtain ⟨hexpand, promised, hpromised, harity⟩ := arity_cases hrel ht
  have hclaims : (s.process files rel).claims
      = (Instantiation.expand rel promised).map fun i => s.claim i .preserve := by
    rw [claims_process_of_isBroken hbroken]
    unfold preserved
    rw [hpromised]
  rw [hclaims, hexpand, hpromised]
  rcases harity with harity | ⟨harity, rfl⟩
  · constructor
    · rintro - ⟨htwo, hone, -⟩
      cases harity.symm.trans htwo
      contradiction
    · intro _ i hi
      rw [harity] at hi
      exact ⟨_, List.mem_map_of_mem hi, Path.same_iff.2 rfl⟩
  · rw [harity]
    constructor
    · rintro hclaimed ⟨-, -, u, w, hshows⟩
      obtain ⟨c, hc, hsame⟩ := hclaimed ⟨rel, ⟨u, some w⟩⟩ (mem_expand_two_iff.2 ⟨u, w, rfl⟩)
      obtain ⟨i, hi, rfl⟩ := List.mem_map.1 hc
      obtain ⟨t', rfl⟩ := mem_expand_one_iff.1 hi
      exact Bool.eq_false_iff.1 (hshows t') hsame
    · intro hhidden i hi
      obtain ⟨u, w, rfl⟩ := mem_expand_two_iff.1 hi
      refine Classical.byContradiction fun hnone => hhidden ⟨rfl, rfl, u, w, fun t' => ?_⟩
      refine Bool.eq_false_iff.2 fun hsame => hnone ⟨s.claim ⟨rel, ⟨t', none⟩⟩ .preserve, ?_, hsame⟩
      exact List.mem_map_of_mem (mem_expand_one_iff.2 ⟨t', rfl⟩)

/-- A run over a template in a directory that is named after the second placeholder. -/
def sample : Settings :=
  { templateRoot := ⟨"t"⟩, outputRoot := ⟨"o"⟩ }

/-- The files of this run after the text of the template has been cut off in its middle. -/
def cutOff : FileTree :=
  { entries :=
      [(["t"], .directory), (["t", "VTypeDir"], .directory),
        (["t", "VTypeDir", "KTypeA.java"], .file ⟨some "class KTypeA<KType, VType> \x7b", 1⟩)]
    working := []
    clock := 2 }

/-- The theorem at this template: some of the outputs that it had are not claimed while it is cut
off. -/
theorem claims_expansion_cutOff : ∃ t, Template.ofText ⟨"VTypeDir/KTypeA.java"⟩
      "class KTypeA<KType, VType> { }" sample.vocabulary = .ok t
    ∧ sample.IsBroken cutOff ⟨"VTypeDir/KTypeA.java"⟩
    ∧ ¬∀ i ∈ t.instantiations, ∃ c ∈ (sample.process cutOff ⟨"VTypeDir/KTypeA.java"⟩).claims,
        c.path.same (sample.outputOf i) = true := by
  have hread : cutOff.read (sample.templateRoot.join ⟨"VTypeDir/KTypeA.java"⟩)
      = .ok "class KTypeA<KType, VType> \x7b" := by
    rfl
  have hfault : (Template.ofText ⟨"VTypeDir/KTypeA.java"⟩ "class KTypeA<KType, VType> \x7b"
      sample.vocabulary).isOk = false := by
    decide +kernel
  have hbroken : sample.IsBroken cutOff ⟨"VTypeDir/KTypeA.java"⟩ := by
    intro text htext
    cases hread.symm.trans htext
    cases h : Template.ofText ⟨"VTypeDir/KTypeA.java"⟩ "class KTypeA<KType, VType> \x7b"
        sample.vocabulary with
    | error e => exact ⟨e, rfl⟩
    | ok t => simp [h, Except.isOk, Except.toBool] at hfault
  have htwo : (Template.ofText ⟨"VTypeDir/KTypeA.java"⟩ "class KTypeA<KType, VType> { }"
      sample.vocabulary).toOption.map (·.arity) = some .two := by
    decide +kernel
  cases h : Template.ofText ⟨"VTypeDir/KTypeA.java"⟩ "class KTypeA<KType, VType> { }"
      sample.vocabulary with
  | error e => simp [h, Except.toOption] at htwo
  | ok t =>
    refine ⟨t, rfl, hbroken, fun hclaimed => ?_⟩
    obtain ⟨hiff, hshows⟩ := claims_expansion_iff (by decide +kernel) h hbroken
    refine hiff.1 hclaimed ⟨by simpa [h, Except.toOption] using htwo, by decide +kernel, ?_⟩
    exact (hshows (by decide)).2 ⟨"VTypeDir", by decide +kernel, by decide +kernel⟩

end Settings

end Stencil
