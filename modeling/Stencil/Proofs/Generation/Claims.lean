import Mathlib.Data.List.Forall2
import Stencil.Proofs.Generation.Found
import Stencil.Proofs.Generation.Settlement

/-!
# The claims of a run

Every claim of a run comes from a template that was found, and it is on the output of one of its
instantiations. As a template has a name with the extension of the run, so has every output, if no
placeholder is in the extension.

Results: where a claim comes from (`Settings.Stems`, `Settings.exists_stems_of_mem_claims`), that no
two texts are written to one place (`Settings.pairwise_destination_writes`), and that a claim is on
names behind the root of the outputs, with the extension of the run
(`Settings.exists_names_of_mem_claims`).
-/

namespace Stencil

/-! ## Contributions -/

/-- Contributions whose claims correspond, one after the other. -/
theorem Contribution.forall₂_join {α : Type} {R : Claim → Claim → Prop} {xs : List α}
    {f g : α → Contribution}
    (h : ∀ x ∈ xs, List.Forall₂ R (f x).claims (g x).claims ∧ (f x).errors = (g x).errors) :
    List.Forall₂ R (join (xs.map f)).claims (join (xs.map g)).claims
      ∧ (join (xs.map f)).errors = (join (xs.map g)).errors := by
  simp only [join]
  induction xs with
  | nil => exact ⟨.nil, rfl⟩
  | cons x xs ih =>
    rw [List.forall_mem_cons] at h
    obtain ⟨hclaims, herrors⟩ := ih h.2
    simp only [List.map_cons, List.flatMap_cons]
    exact ⟨List.rel_append h.1.1 hclaims, by rw [h.1.2, herrors]⟩

namespace Settings

variable {s : Settings} {t : FileTree} {p rel : Path} {names : Location} {c : Claim} {i : Instantiation}

/-- The claims of a run, in the order in which they are made. -/
def claims (s : Settings) (t : FileTree) : List Claim :=
  match s.templates t with
  | .error _ => []
  | .ok templates => (Contribution.join (templates.map (s.process t))).claims

theorem claims_eq {templates : List Path} (h : s.templates t = .ok templates) :
    s.claims t = (Contribution.join (templates.map (s.process t))).claims := by
  unfold claims
  rw [h]

/-- The first half of a run settles its claims, and tells first what is wrong with the templates. -/
theorem plan_eq {templates : List Path} (h : s.templates t = .ok templates) :
    s.plan t = .ok ⟨templates.length, .settle (s.existingOutputs t) (s.claims t),
      (Contribution.join (templates.map (s.process t))).errors
        ++ (duplicatesAfter [] (s.claims t)).map .duplicate⟩ := by
  unfold plan
  rw [h, claims_eq h]
  rfl

/-- Is the text that of an instantiation of a template which has been read? -/
def IsTextOf (s : Settings) (t : FileTree) (i : Instantiation) (text : String) : Prop :=
  ∃ source template body, t.read (s.templateRoot.join i.template) = .ok source
    ∧ Template.ofText i.template source s.vocabulary = .ok template
    ∧ i ∈ template.instantiations ∧ template.specialize i.binding = .ok body
    ∧ text = s.outputText i body

/-- Is the claim that of an instantiation, with its text if it is to be written? -/
def Stems (s : Settings) (t : FileTree) (i : Instantiation) (c : Claim) : Prop :=
  c = s.claim i c.action ∧ ∀ text, c.action = .write text → s.IsTextOf t i text

theorem stems_preserve : s.Stems t i (s.claim i .preserve) :=
  ⟨rfl, fun _ h => Action.noConfusion h⟩

/-! ## Claims of one template -/

theorem stems_of_mem_preserved (h : c ∈ s.preserved rel) : ∃ i, i.template = rel ∧ s.Stems t i c := by
  unfold preserved at h
  split at h
  · contradiction
  · obtain ⟨i, hi, rfl⟩ := List.mem_map.1 h
    obtain ⟨b, -, rfl⟩ := List.mem_map.1 hi
    exact ⟨_, rfl, stems_preserve⟩

theorem path_of_ofText {path : Path} {text : String} {v : Vocabulary} {template : Template}
    (h : Template.ofText path text v = .ok template) : template.path = path := by
  simp only [Template.ofText] at h
  split at h
  · contradiction
  · split at h
    · cases h
      rfl
    · split at h <;> contradiction

theorem stems_of_mem_process (h : c ∈ (s.process t rel).claims) :
    ∃ i, i.template = rel ∧ s.Stems t i c := by
  unfold process at h
  simp only at h
  split at h
  · exact stems_of_mem_preserved h
  · rename_i source hread
    split at h
    · exact stems_of_mem_preserved h
    · rename_i template htemplate
      simp only [Contribution.join, List.mem_flatMap, List.mem_map] at h
      obtain ⟨_, ⟨i, hi, rfl⟩, hc⟩ := h
      have hrel : i.template = rel := by
        obtain ⟨b, -, rfl⟩ := List.mem_map.1 hi
        exact path_of_ofText htemplate
      refine ⟨i, hrel, ?_⟩
      unfold instantiate at hc
      split at hc
      · rw [List.mem_singleton] at hc
        subst hc
        exact ⟨rfl, fun _ h => Action.noConfusion h⟩
      · split at hc
        · rename_i body hbody
          rw [List.mem_singleton] at hc
          subst hc
          refine ⟨rfl, fun text htext => ?_⟩
          cases htext
          exact ⟨source, template, body, hrel ▸ hread, hrel ▸ htemplate, hi, hbody, rfl⟩
        · rw [List.mem_singleton] at hc
          subst hc
          exact stems_preserve

/-! ## Claims of a run -/

/-- A claim stems from an instantiation of a template that was found. -/
theorem exists_stems_of_mem_claims (h : c ∈ s.claims t) :
    ∃ templates, s.templates t = .ok templates
      ∧ ∃ i, i.template ∈ templates ∧ c ∈ (s.process t i.template).claims ∧ s.Stems t i c := by
  unfold claims at h
  split at h
  · contradiction
  · rename_i templates htemplates
    simp only [Contribution.join, List.mem_flatMap, List.mem_map] at h
    obtain ⟨_, ⟨rel, hrel, rfl⟩, hc⟩ := h
    obtain ⟨i, rfl, hstems⟩ := stems_of_mem_process hc
    exact ⟨templates, htemplates, i, hrel, hc, hstems⟩

/-- A file can not be read by its path with a slash behind. -/
theorem read_join_empty {r : Path} (hr : r.text ≠ "") (text : String) :
    t.read (r.join ⟨""⟩) ≠ .ok text := by
  intro hread
  unfold FileTree.read at hread
  split at hread
  · contradiction
  · contradiction
  · rename_i l f hentry
    obtain ⟨hlocate, -, hfile⟩ := FileTree.of_entry hentry
    obtain ⟨front, -, -, hpieces, -⟩ := Path.splitSlashes_join (p := ⟨""⟩) hr rfl
    rw [FileTree.locate] at hlocate
    split at hlocate
    · contradiction
    · rw [hpieces] at hlocate
      obtain ⟨d, hd, hl⟩ := FileTree.Sound.follow_append hlocate
      obtain rfl : l = d := hl
      cases hd.symm.trans hfile

/-- A root that is itself a file is no template, so that there are no claims for it. -/
theorem claims_process_root (hv : s.vocabulary = {}) (hroot : s.templateRoot.text ≠ "") :
    (s.process t ⟨""⟩).claims = [] := by
  have hpreserved : s.preserved ⟨""⟩ = [] := by
    have harity : Arity.ofFileName? s.vocabulary (Path.fileName? ⟨""⟩ |>.getD "") = none := by
      rw [hv]
      decide
    unfold preserved
    rw [harity]
  unfold process
  simp only
  split
  · exact hpreserved
  · rename_i source hread
    exact absurd hread (read_join_empty hroot source)

/-- A template that was found lies behind the root of the templates, and has the extension of the
run. -/
theorem exists_names_of_mem_templates (hs : t.Sound) {templates : List Path}
    (h : s.templates t = .ok templates) (hrel : rel ∈ templates) :
    s.templateRoot.text ≠ "" ∧ ∃ names, rel = .ofNames names ∧ (∀ name ∈ names, IsName name.toList)
      ∧ extensionAt (s.templateLocation t ++ names) = some s.extension := by
  unfold Settings.templates at h
  split at h
  · contradiction
  · rename_i found hfound
    cases h
    simp only [List.mem_filter, Bool.and_eq_true] at hrel
    obtain ⟨hrel, htemplate, -⟩ := hrel
    obtain ⟨names, rfl, hfile⟩ := (hs.mem_filesBelow_iff hfound).1 hrel
    have hnames : ∀ name ∈ names, IsName name.toList := hs.isName_of_file? hfile
    have hext := hasExtension_of_isTemplate htemplate
    rw [FileTree.below_ofNames hnames, hasExtension,
      hs.extension?_behind (FileTree.isThere_iff_filesBelow.2 ⟨found, hfound⟩) hfile,
      beq_iff_eq] at hext
    refine ⟨fun hempty => ?_, names, rfl, hnames, hext⟩
    rw [FileTree.filesBelow, FileTree.entry, FileTree.locate, hempty] at hfound
    contradiction

/-- The output of an instantiation, by the names of its template. -/
theorem outputOf_ofNames (hnames : ∀ name ∈ names, IsName name.toList) (hne : names ≠ [])
    (b : Binding) :
    s.outputOf ⟨.ofNames names, b⟩
      = s.outputRoot.behind (names.map (Rewrite.substitute s.vocabulary b.resolve)) := by
  have hpath : Instantiation.outputPath s.vocabulary ⟨.ofNames names, b⟩
      = .ofNames (names.map (Rewrite.substitute s.vocabulary b.resolve)) := by
    rw [Instantiation.outputPath, Path.components_ofNames hnames, List.map_map]
    simp only [Path.ofNames, List.map_map]
    rfl
  rw [outputOf, hpath, Path.behind, if_neg]
  simpa using hne

/-! ## Where outputs are written -/

/-- The outputs of a template that can be read, by the names of the template. -/
theorem exists_names_of_read (hs : t.Sound) {templates : List Path}
    (htemplates : s.templates t = .ok templates) (hrel : rel ∈ templates) {source : String}
    (hread : t.read (s.templateRoot.join rel) = .ok source) :
    ∃ names, rel = .ofNames names ∧ names ≠ [] ∧ (∀ name ∈ names, IsName name.toList)
      ∧ ∀ b : Binding, s.outputOf ⟨rel, b⟩
        = s.outputRoot.behind (names.map (Rewrite.substitute s.vocabulary b.resolve)) := by
  obtain ⟨hroot, names, rfl, hnames, -⟩ := exists_names_of_mem_templates hs htemplates hrel
  have hne : names ≠ [] := by
    rintro rfl
    exact read_join_empty hroot source hread
  exact ⟨names, rfl, hne, hnames, fun b => outputOf_ofNames hnames hne b⟩

theorem isName_of_mem_substituted (hnames : ∀ name ∈ names, IsName name.toList) {b : Binding} :
    ∀ name ∈ names.map (Rewrite.substitute s.vocabulary b.resolve), IsName name.toList := by
  intro name hname
  obtain ⟨n, hn, rfl⟩ := List.mem_map.1 hname
  exact isName_substitute (hnames n hn)

/-- What is written is on names behind the root of the outputs. -/
theorem exists_names_of_write (hs : t.Sound) (hc : c ∈ s.claims t) {text : String}
    (hwrite : c.action = .write text) :
    ∃ names, c.path = s.outputRoot.behind names ∧ ∀ name ∈ names, IsName name.toList := by
  obtain ⟨templates, htemplates, ⟨rel, b⟩, hrel, -, hstems, htext⟩ := exists_stems_of_mem_claims hc
  obtain ⟨source, -, -, hread, -⟩ := htext text hwrite
  obtain ⟨names, rfl, -, hnames, houtput⟩ := exists_names_of_read hs htemplates hrel hread
  rw [hstems]
  exact ⟨_, houtput b, isName_of_mem_substituted hnames⟩

/-- No two texts are written to one place. -/
theorem pairwise_destination_writes (hs : t.Sound) :
    ((winners (s.claims t)).filterMap Claim.write?).Pairwise fun o o' =>
      o.1.destination t.working ≠ o'.1.destination t.working := by
  have hwrites {c : Claim} {o : Path × String} (hc : c ∈ winners (s.claims t))
      (ho : c.write? = some o) :
      o.1 = c.path ∧ ∃ names, c.path = s.outputRoot.behind names
        ∧ ∀ name ∈ names, IsName name.toList := by
    obtain ⟨hwrite, hpath⟩ := Claim.write?_eq_some_iff.1 ho
    exact ⟨hpath.symm, exists_names_of_write hs (mem_of_mem_winners hc) hwrite⟩
  have hpairs : (winners (s.claims t)).Pairwise fun c d =>
      ∀ o, c.write? = some o → ∀ o', d.write? = some o' →
        o.1.destination t.working ≠ o'.1.destination t.working := by
    refine pairwise_winners.imp_of_mem fun {c d} hc hd hne o ho o' ho' heq => hne ?_
    obtain ⟨hpath, names, hnames, hall⟩ := hwrites hc ho
    obtain ⟨hpath', names', hnames', hall'⟩ := hwrites hd ho'
    rw [hpath, hpath', hnames, hnames', Path.destination_behind hall, Path.destination_behind hall',
      List.append_cancel_left_eq] at heq
    rw [hnames, hnames', heq]
  exact hpairs.filterMap _ fun c d hcd o ho o' ho' => hcd o ho o' ho'

/-- A claim is on names behind the root of the outputs, with the extension of the run at their end. -/
theorem exists_names_of_mem_claims (hs : t.Sound) (hv : s.vocabulary = {})
    (hext : s.vocabulary.mentionsAny s.extension = false) (h : c ∈ s.claims t) :
    ∃ names, c.path = s.outputRoot.behind names ∧ (∀ name ∈ names, IsName name.toList)
      ∧ names ≠ [] ∧ extensionAt names = some s.extension := by
  obtain ⟨templates, htemplates, ⟨rel, b⟩, hrel, hc, hstems, -⟩ := exists_stems_of_mem_claims h
  obtain ⟨hroot, names, rfl, hnames, hextension⟩ := exists_names_of_mem_templates hs htemplates hrel
  have hne : names ≠ [] := by
    rintro rfl
    have hnone := claims_process_root (t := t) hv hroot
    rw [show Path.ofNames [] = ⟨""⟩ from rfl, hnone] at hc
    contradiction
  refine ⟨names.map (Rewrite.substitute s.vocabulary b.resolve), ?_, ?_, by simpa using hne, ?_⟩
  · rw [hstems]
    exact outputOf_ofNames hnames hne b
  · intro name hname
    obtain ⟨n, hn, rfl⟩ := List.mem_map.1 hname
    exact isName_substitute (hnames n hn)
  · rw [extensionAt_append hne] at hextension
    obtain ⟨front, last, rfl⟩ := List.eq_nil_or_concat names |>.resolve_left hne
    rw [List.concat_eq_append, extensionAt_concat_iff] at hextension
    rw [List.concat_eq_append, List.map_append, List.map_singleton, extensionAt_concat_iff]
    refine extensionOf?_substitute (fun p => ?_) (fun p => ?_) hextension
    · rw [hv]
      cases p <;> decide
    · simp only [Vocabulary.mentionsAny, List.any_eq_false] at hext
      exact Bool.eq_false_iff.2 (hext p (by cases p <;> decide))

end Settings

end Stencil
