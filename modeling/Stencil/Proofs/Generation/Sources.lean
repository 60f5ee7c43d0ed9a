import Stencil.Proofs.Generation.Repeat

/-!
# Sources stay

The files in the template tree are written by hand. A run deletes none of them, unless the output tree
is below the template tree and the file is in both, and it neither writes nor deletes a template. That
holds of every run, whether it has errors, is stopped, or is incremental. But which files are in the
template tree is seen from their paths as they are written, so it takes that the spelling of the roots
shows it.

Results: sources stay where the spelling of the roots shows them (`Settings.sourcesStay`), which it does
if both roots begin alike and are written without double dots (`Settings.showsSources_of_parent_notMem`).
Other spellings lose sources (`Settings.not_sourcesStay`).
-/

namespace Stencil

/-! ## Paths without double dots -/

namespace Path

variable {p q : Path} {w : Location}

/-- Where paths that begin alike are written without double dots, one begins with the other exactly if
it leads behind it. -/
theorem startsWith_iff_destination (hstart : p.start = q.start) (hp : .parent ∉ p.components)
    (hq : .parent ∉ q.components) :
    p.startsWith q = true ↔ q.destination w <+: p.destination w := by
  obtain ⟨names, hnames⟩ := exists_names_inner hp
  obtain ⟨more, hmore⟩ := exists_names_inner hq
  rw [startsWith, List.isPrefixOf_iff_prefix, components_eq p, components_eq q, destination,
    destination, isAbsolute_congr hstart, hstart, hnames, hmore, foldl_lead_names, foldl_lead_names,
    List.prefix_append_right_inj, List.prefix_append_right_inj]
  exact List.prefix_map_iff_of_injective fun _ _ => Component.normal.inj

theorem same_iff_destination (hstart : p.start = q.start) (hp : .parent ∉ p.components)
    (hq : .parent ∉ q.components) : p.same q = true ↔ p.destination w = q.destination w := by
  obtain ⟨names, hnames⟩ := exists_names_inner hp
  obtain ⟨more, hmore⟩ := exists_names_inner hq
  rw [same_iff, components_eq p, components_eq q, destination, destination, isAbsolute_congr hstart,
    hstart, hnames, hmore, foldl_lead_names, foldl_lead_names, List.append_cancel_left_eq,
    List.append_cancel_left_eq]
  exact List.map_inj_right fun _ _ => Component.normal.inj

end Path

/-! ## What writes and deletions leave alone -/

namespace FileTree

variable {t : FileTree} {l : Location} {f : File} {p : Path} {text : String}

/-- A write leaves a file where there is one. -/
theorem isSome_file?_write (h : (t.file? l).isSome = true) :
    ((t.write p text).1.file? l).isSome = true := by
  have hgrows := grows_makeDirectories (t := t) (c := p.components.dropLast.reverse)
  rw [← hgrows.file?_eq l] at h
  unfold write place
  split
  · rename_i t₁ hmake
    rw [hmake] at h
    unfold putFile
    split
    · exact h
    · rename_i k hlocate
      split
      · exact h
      · rename_i hdir
        have hne : k ≠ [] := by
          rintro rfl
          exact hdir find?_nil
        rw [file?_put hne]
        split
        · rfl
        · rwa [file?_stampAbove]
  · exact h

theorem working_delete : (t.delete p).1.working = t.working := by
  unfold delete
  split <;> rfl

theorem find?_delete_of_ne (h : p.destination t.working ≠ l) :
    (t.delete p).1.find? l = t.find? l := by
  unfold delete
  split
  · rfl
  · rfl
  · rename_i k f hentry
    obtain ⟨-, rfl, hfile⟩ := of_entry hentry
    rw [find?_stamp, find?_erase (ne_nil_of_file? (file?_eq_some_iff.2 hfile)), if_neg (Ne.symm h)]

end FileTree

namespace Progress

variable {p : Progress} {outputs : List (Path × String)} {orphans : List Path} {failFast : Bool}
  {l : Location} {f : File}

theorem working_foldl_write : (outputs.foldl write p).tree.working = p.tree.working := by
  induction outputs generalizing p with
  | nil => rfl
  | cons output rest ih =>
    rw [List.foldl_cons, ih, tree_write, FileTree.working_write]

theorem isSome_file?_foldl_write (h : (p.tree.file? l).isSome = true) :
    ((outputs.foldl write p).tree.file? l).isSome = true := by
  induction outputs generalizing p with
  | nil => exact h
  | cons output rest ih =>
    apply ih
    rw [tree_write]
    exact FileTree.isSome_file?_write h

/-- Writes leave a file alone that is not where one of them leads. -/
theorem file?_foldl_write (h : p.tree.file? l = some f)
    (hl : ∀ o ∈ outputs, o.1.destination p.tree.working ≠ l) :
    (outputs.foldl write p).tree.file? l = some f := by
  induction outputs generalizing p with
  | nil => exact h
  | cons output rest ih =>
    rw [List.forall_mem_cons] at hl
    apply ih
    · rw [tree_write, FileTree.file?_eq_some_iff]
      exact FileTree.find?_write (FileTree.file?_eq_some_iff.1 h) (.inr (Ne.symm hl.1))
    · rw [tree_write, FileTree.working_write]
      exact hl.2

/-- Deletions leave alone whatever is not where one of them leads. -/
theorem file?_deleteAll (hl : ∀ o ∈ orphans, o.destination p.tree.working ≠ l) :
    (p.deleteAll failFast orphans).tree.file? l = p.tree.file? l := by
  induction orphans generalizing p with
  | nil => rfl
  | cons orphan rest ih =>
    rw [List.forall_mem_cons] at hl
    rw [deleteAll]
    split
    · rfl
    · rw [ih]
      · unfold FileTree.file?
        rw [tree_delete, FileTree.find?_delete_of_ne hl.1]
      · rw [tree_delete, FileTree.working_delete]
        exact hl.2

end Progress

namespace Settings

variable {s : Settings} {t : FileTree} {l : Location} {f : File} {p rel : Path} {c : Claim}
  {templates : List Path}

/-! ## What a run leaves alone -/

/-- A run leaves the files as they are, or as its second half leaves them. -/
theorem tree_run : (s.run t).2 = t ∨ ∃ templates errors, s.templates t = .ok templates
    ∧ (s.run t).2 = (Plan.execute s ⟨templates.length, .settle (s.existingOutputs t) (s.claims t),
        errors⟩ t).tree := by
  cases hfound : s.templates t with
  | error e =>
    left
    rw [run_of_scan_error]
    rw [Settings.plan, hfound]
  | ok templates =>
    have hplan := plan_eq hfound
    cases hstopped : s.stopped? ((Contribution.join (templates.map (s.process t))).errors
        ++ (duplicatesAfter [] (s.claims t)).map .duplicate) with
    | some e => exact .inl (congrArg Prod.snd (run_of_stopped hplan hstopped))
    | none => exact .inr ⟨templates, _, rfl, congrArg Prod.snd (run_of_plan hplan hstopped)⟩

/-- A file that is not where an orphan is is still a file after a run. -/
theorem isSome_file?_run (h : (t.file? l).isSome = true)
    (horphans : ∀ p ∈ s.existingOutputs t, p.destination t.working ≠ l) :
    ((s.run t).2.file? l).isSome = true := by
  rcases tree_run (s := s) (t := t) with hrun | ⟨templates, errors, -, hrun⟩
  · rwa [hrun]
  · rw [hrun, Plan.execute, Progress.file?_deleteAll]
    · exact Progress.isSome_file?_foldl_write h
    · intro p hp
      rw [Progress.working_foldl_write]
      exact horphans p (mem_of_mem_orphansOf hp)

/-- A file that is neither where an orphan is nor where something is written is what it was. -/
theorem file?_run (h : t.file? l = some f)
    (horphans : ∀ p ∈ s.existingOutputs t, p.destination t.working ≠ l)
    (hclaims : ∀ c ∈ s.claims t, ∀ text, c.action = .write text → c.path.destination t.working ≠ l) :
    (s.run t).2.file? l = some f := by
  rcases tree_run (s := s) (t := t) with hrun | ⟨templates, errors, -, hrun⟩
  · rwa [hrun]
  · rw [hrun, Plan.execute, Progress.file?_deleteAll]
    · refine Progress.file?_foldl_write h fun o ho => ?_
      obtain ⟨c, hc, hco⟩ := List.mem_filterMap.1 ho
      obtain ⟨hwrite, hpath⟩ := Claim.write?_eq_some_iff.1 hco
      rw [← hpath]
      exact hclaims c (mem_of_mem_winners hc) o.2 hwrite
    · intro p hp
      rw [Progress.working_foldl_write]
      exact horphans p (mem_of_mem_orphansOf hp)

/-! ## Sources -/

/-- Is the output tree below the template tree? -/
def NestsOutputs (s : Settings) (t : FileTree) : Prop :=
  s.templateLocation t <+: s.outputLocation t ∧ s.outputLocation t ≠ s.templateLocation t

instance : Decidable (s.NestsOutputs t) :=
  inferInstanceAs (Decidable (_ ∧ _))

/-- Does the spelling of the roots show which files are in the template tree, and that the output tree is
below it? -/
structure ShowsSources (s : Settings) (t : FileTree) : Prop where
  /-- Where the root of the outputs leads to a file in the template tree, the path of the file begins as
  the root of the templates does. -/
  source : ∀ names, (t.file? (s.outputLocation t ++ names)).isSome = true →
    s.templateLocation t <+: s.outputLocation t ++ names →
    (s.outputRoot.behind names).startsWith s.templateRoot = true
  /-- A root of the outputs that is written as a path below the templates leads there. -/
  nested : s.isNested = true → s.NestsOutputs t

/-- Roots that begin alike and are written without double dots show which files are sources. -/
theorem showsSources_of_parent_notMem (hs : t.Sound)
    (hstart : s.templateRoot.start = s.outputRoot.start)
    (htemplates : .parent ∉ s.templateRoot.components) (houtputs : .parent ∉ s.outputRoot.components) :
    s.ShowsSources t := by
  constructor
  · intro names hfile hbehind
    have hnames := hs.isName_of_file? hfile
    have hparent : .parent ∉ (s.outputRoot.behind names).components := by
      rw [Path.components_behind hnames, List.mem_append, not_or]
      exact ⟨houtputs, by simp⟩
    have hbegin := (Path.start_inner_behind (r := s.outputRoot) hnames).1.trans hstart.symm
    rw [Path.startsWith_iff_destination (w := t.working) hbegin hparent htemplates,
      Path.destination_behind hnames]
    exact hbehind
  · intro hnested
    rw [isNested, Bool.and_eq_true, Bool.not_eq_true', Bool.eq_false_iff,
      Path.startsWith_iff_destination (w := t.working) hstart.symm houtputs htemplates, ne_eq,
      Path.same_iff_destination (w := t.working) hstart.symm houtputs htemplates] at hnested
    exact ⟨hnested.2, hnested.1⟩

/-- What may be deleted is not in the template tree, unless the output tree is below it. -/
theorem destination_ne_of_source (hs : t.Sound) (h : s.ShowsSources t)
    (hp : p ∈ s.existingOutputs t) (hl : s.templateLocation t <+: l)
    (hnot : ¬(s.NestsOutputs t ∧ s.outputLocation t <+: l)) : p.destination t.working ≠ l := by
  obtain ⟨-, names, rfl, hout, hdeletable⟩ := (mem_existingOutputs_iff hs).1 hp
  rw [Path.destination_behind (isName_of_isOutput hs hout)]
  rintro rfl
  have hbegins := h.source names hout.2.2 hl
  rw [isDeletable, hbegins, Bool.not_true, Bool.false_or, Bool.and_eq_true] at hdeletable
  exact hnot ⟨h.nested hdeletable.1, List.prefix_append _ _⟩

/-! ## Templates -/

/-- Where a template is, by its path from the root of all templates. -/
def sourceAt (s : Settings) (t : FileTree) (rel : Path) : Location :=
  (s.templateRoot.join rel).destination t.working

theorem sourceAt_ofNames {names : List String} (hnames : ∀ name ∈ names, IsName name.toList) :
    s.sourceAt t (.ofNames names) = s.templateLocation t ++ names := by
  obtain ⟨hstart, hinner⟩ := Path.start_inner_join_ofNames (r := s.templateRoot) hnames
  rw [sourceAt, Path.destination, hinner, Path.isAbsolute_congr hstart, List.foldl_append,
    Path.foldl_lead_names]
  rfl

/-- The path of a template ends in the name of its file. -/
theorem fileName?_template {names : List String} (hs : t.Sound) (hfound : s.templates t = .ok templates)
    (hfile : (t.file? (s.templateLocation t ++ names)).isSome = true) :
    (s.templateRoot.behind names).fileName? = (s.templateLocation t ++ names).getLast? :=
  hs.fileName?_behind (exists_templates_iff.1 ⟨templates, hfound⟩) hfile

/-- Nothing is written where a template is, since no output has the name of a template. -/
theorem destination_ne_of_template {names : List String} {text : String} (hs : t.Sound)
    (hv : s.vocabulary = {}) (hfound : s.templates t = .ok templates)
    (hfile : (t.file? (s.templateLocation t ++ names)).isSome = true)
    (htemplate : s.isTemplate (s.templateRoot.behind names) = true) (hc : c ∈ s.claims t)
    (hwrite : c.action = .write text) :
    c.path.destination t.working ≠ s.templateLocation t ++ names := by
  intro heq
  have hnamed : s.NamesTemplate (s.templateLocation t ++ names) = true := by
    rw [isTemplate, Bool.and_eq_true, fileName?_template hs hfound hfile] at htemplate
    exact htemplate.2
  obtain ⟨templates', hfound', ⟨rel, b⟩, hrel, -, hstems, htext⟩ := exists_stems_of_mem_claims hc
  obtain ⟨source, -, -, hread, -⟩ := htext text hwrite
  obtain ⟨front, rfl, hne, hfront, houtput⟩ := exists_names_of_read hs hfound' hrel hread
  rw [← heq, hstems, claim, houtput b, Path.destination_behind (isName_of_mem_substituted hfront),
    not_namesTemplate_substituted hv hne] at hnamed
  contradiction

/-- What may be deleted is no template. -/
theorem destination_ne_of_existing {names : List String} (hs : t.Sound) (h : s.ShowsSources t)
    (hfound : s.templates t = .ok templates)
    (hfile : (t.file? (s.templateLocation t ++ names)).isSome = true)
    (htemplate : s.isTemplate (s.templateRoot.behind names) = true) (hp : p ∈ s.existingOutputs t) :
    p.destination t.working ≠ s.templateLocation t ++ names := by
  obtain ⟨hthere, more, rfl, hout, hdeletable⟩ := (mem_existingOutputs_iff hs).1 hp
  rw [Path.destination_behind (isName_of_isOutput hs hout)]
  intro heq
  have hbegins := h.source more hout.2.2 ⟨names, heq.symm⟩
  -- seen from both roots, the file has one name
  have hname : (s.outputRoot.behind more).fileName? = (s.templateRoot.behind names).fileName? := by
    rw [fileName?_template hs hfound hfile, ← heq]
    exact hs.fileName?_behind hthere hout.2.2
  rw [isDeletable, hbegins, Bool.not_true, Bool.false_or, isTemplate_congr hname, htemplate,
    Bool.not_true, Bool.and_false] at hdeletable
  contradiction

/-! ## Whole runs -/

/-- Does a run delete no file in the template tree, but for those in an output tree below it, and leave
every template as it was? -/
structure SourcesStay (s : Settings) (t : FileTree) : Prop where
  /-- Files in the template tree are not deleted, unless they are in an output tree below it. -/
  source : ∀ l, s.templateLocation t <+: l → (t.file? l).isSome = true →
    ¬(s.NestsOutputs t ∧ s.outputLocation t <+: l) → ((s.run t).2.file? l).isSome = true
  /-- Templates are neither written nor deleted. -/
  template : ∀ templates, s.templates t = .ok templates → ∀ rel ∈ templates,
    (s.run t).2.file? (s.sourceAt t rel) = t.file? (s.sourceAt t rel)

/-- Sources stay in every run, if the spelling of the roots shows which files are sources. -/
theorem sourcesStay (hs : t.Sound) (hv : s.vocabulary = {}) (h : s.ShowsSources t) :
    s.SourcesStay t := by
  constructor
  · intro l hl hfile hnot
    exact isSome_file?_run hfile fun p hp => destination_ne_of_source hs h hp hl hnot
  · intro templates hfound rel hrel
    obtain ⟨names, rfl, hfile, htemplate, -⟩ := (mem_templates_iff hs hfound).1 hrel
    obtain ⟨f, hf⟩ := Option.isSome_iff_exists.1 hfile
    rw [sourceAt_ofNames (hs.isName_of_file? hfile), hf]
    refine file?_run hf (fun p hp => ?_) fun c hc text hwrite => ?_
    · exact destination_ne_of_existing hs h hfound hfile htemplate hp
    · exact destination_ne_of_template hs hv hfound hfile htemplate hc hwrite

/-- The files of a run whose outputs are in a directory below the templates: beside a template there is
a source that is none, and an output is left over. -/
def handWritten : FileTree :=
  { entries :=
      [(["t"], .directory), (["t", "KTypeA.java"], .file ⟨some "class KTypeA \x7b \x7d", 1⟩),
        (["t", "Util.java"], .file ⟨some "class Util \x7b \x7d", 1⟩), (["t", "gen"], .directory),
        (["t", "gen", "Stray.java"], .file ⟨some "", 1⟩)]
    working := []
    clock := 2 }

theorem sourcesStay_handWritten : handWritten.Sound ∧ inside.vocabulary = {}
    ∧ inside.ShowsSources handWritten ∧ inside.SourcesStay handWritten := by
  have hsound : handWritten.Sound := ⟨by decide, by decide, by decide⟩
  have hshows : inside.ShowsSources handWritten :=
    showsSources_of_parent_notMem hsound (by decide) (by decide) (by decide)
  exact ⟨hsound, rfl, hshows, sourcesStay hsound rfl hshows⟩

/-- A run whose outputs are written as a path below the templates, and are beside them. -/
def backAgain : Settings :=
  { templateRoot := ⟨"t"⟩, outputRoot := ⟨"t/../t"⟩ }

/-- The files of this run: a source that is no template. -/
def backAgainFiles : FileTree :=
  { entries := [(["t"], .directory), (["t", "Util.java"], .file ⟨some "class Util \x7b \x7d", 1⟩)]
    working := []
    clock := 2 }

/-- Other spellings lose sources: in one case the path of a template is not seen to be one, so that the
template is deleted, and in the other one the output tree is taken to be below the template tree. -/
theorem not_sourcesStay :
    (aroundFiles.Sound ∧ around.vocabulary = {} ∧ ¬around.SourcesStay aroundFiles)
      ∧ backAgainFiles.Sound ∧ backAgain.vocabulary = {}
      ∧ ¬backAgain.SourcesStay backAgainFiles := by
  have haround : aroundFiles.Sound := ⟨by decide, by decide, by decide⟩
  have hbackAgain : backAgainFiles.Sound := ⟨by decide, by decide, by decide⟩
  refine ⟨⟨haround, rfl, fun h => ?_⟩, hbackAgain, rfl, fun h => ?_⟩
  · obtain ⟨templates, hfound⟩ :=
      exists_templates_iff.2 (show aroundFiles.isThere around.templateRoot = true by decide)
    have hmem : .ofNames ["KTypeA.java"] ∈ templates :=
      (ofNames_mem_templates_iff haround hfound (by decide)).2
        ⟨by decide, by decide +kernel, by decide +kernel⟩
    have hstays := h.template templates hfound _ hmem
    have hlost : (around.run aroundFiles).2.file? ["t", "a", "KTypeA.java"]
        ≠ aroundFiles.file? ["t", "a", "KTypeA.java"] := by
      decide +kernel
    exact hlost hstays
  · have hstays := h.source ["t", "Util.java"] (by decide) (by decide) (by decide)
    have hgone : ((backAgain.run backAgainFiles).2.file? ["t", "Util.java"]).isSome = false := by
      decide +kernel
    rw [hgone] at hstays
    contradiction

end Settings

end Stencil
