import Mathlib.Data.List.Pairwise
import Stencil.Proofs.Generation.Clean
import Stencil.Proofs.Rewrite.Name

/-!
# The second run

An incremental run that follows a run without errors finds the same templates and makes the same
claims, each of which keeps what is there. It has nothing to write and nothing to delete.

No output has the name of a template, so what the first run writes is not taken for a template. That
no template has been deleted, and that no output which the first run has not seen is deleted by the
second one, is assumed here (`ShowsTemplates`, `ShowsOutputs`). So is that a directory in place of an
output, which is kept for its time, does not become older than the template when the run writes or
deletes in it (`ChangesNewer`).

Results: the templates of the second run are those of the first one (`Follows.exists_templates`), its
claims keep what the first one keeps or writes (`Follows.exists_keeps`), and it does nothing
(`Follows.run_eq`).
-/

namespace Stencil

open List (Forall₂)

namespace Settings

variable {s : Settings} {t t' t₂ : FileTree} {l : Location} {c d : Claim} {p rel : Path}
  {names more : List String} {templates : List Path} {told : Summary} {report : Report}

/-! ## The templates of a tree -/

theorem exists_templates_iff : (∃ templates, s.templates t = .ok templates)
    ↔ t.isThere s.templateRoot = true := by
  rw [FileTree.isThere_iff_filesBelow]
  unfold Settings.templates
  cases t.filesBelow s.templateRoot <;> simp

/-- Templates can be found only where their root is there. -/
theorem exists_templateRoot (h : s.templates t = .ok templates) :
    ∃ e, t.locate s.templateRoot = .ok (s.templateLocation t)
      ∧ t.find? (s.templateLocation t) = some e := by
  have hthere := exists_templates_iff.1 ⟨templates, h⟩
  rw [FileTree.isThere] at hthere
  cases hentry : t.entry s.templateRoot with
  | error e =>
    rw [hentry] at hthere
    contradiction
  | ok x =>
    obtain ⟨l, e⟩ := x
    obtain ⟨hlocate, hl, he⟩ := FileTree.of_entry hentry
    obtain rfl : l = s.templateLocation t := hl
    exact ⟨e, hlocate, he⟩

/-- The templates are the files behind their root that have the names of templates, but for nested
outputs. -/
theorem mem_templates_iff (hs : t.Sound) (h : s.templates t = .ok templates) :
    rel ∈ templates ↔ ∃ names, rel = .ofNames names
      ∧ (t.file? (s.templateLocation t ++ names)).isSome = true
      ∧ s.isTemplate (s.templateRoot.behind names) = true
      ∧ s.isNestedOutput (s.templateRoot.behind names) = false := by
  unfold Settings.templates at h
  split at h
  · contradiction
  · rename_i found hfound
    cases h
    rw [List.mem_filter, hs.mem_filesBelow_iff hfound]
    simp only [Bool.and_eq_true, Bool.not_eq_true']
    constructor
    · rintro ⟨⟨names, rfl, hfile⟩, htemplate, hnested⟩
      rw [FileTree.below_ofNames (hs.isName_of_file? hfile)] at htemplate hnested
      exact ⟨names, rfl, hfile, htemplate, hnested⟩
    · rintro ⟨names, rfl, hfile, htemplate, hnested⟩
      rw [FileTree.below_ofNames (hs.isName_of_file? hfile)]
      exact ⟨⟨names, rfl, hfile⟩, htemplate, hnested⟩

/-- The names of a template are those of a file behind the root. -/
theorem ofNames_mem_templates_iff (hs : t.Sound) (h : s.templates t = .ok templates)
    (hnames : ∀ name ∈ names, IsName name.toList) : .ofNames names ∈ templates
      ↔ (t.file? (s.templateLocation t ++ names)).isSome = true
        ∧ s.isTemplate (s.templateRoot.behind names) = true
        ∧ s.isNestedOutput (s.templateRoot.behind names) = false := by
  rw [mem_templates_iff hs h]
  constructor
  · rintro ⟨names', heq, hfile, hkind⟩
    obtain rfl := (Path.ofNames_inj hnames (hs.isName_of_file? hfile)).1 heq
    exact ⟨hfile, hkind⟩
  · exact fun hmem => ⟨names, rfl, hmem⟩

/-- No template is found twice. -/
theorem nodup_templates (hs : t.Sound) (h : s.templates t = .ok templates) : templates.Nodup := by
  unfold Settings.templates at h
  split at h
  · contradiction
  · rename_i found hfound
    cases h
    refine List.filter_sublist.nodup ?_
    rw [FileTree.filesBelow] at hfound
    split at hfound
    · contradiction
    · rename_i l e hentry
      cases hfound
      rw [(List.mergeSort_perm _ _).nodup_iff, List.Nodup, List.pairwise_map]
      have hbelow : (t.entries.filterMap (FileTree.namesBelow? l)).Nodup := by
        have hnodup := hs.nodup
        rw [List.Nodup, List.pairwise_map] at hnodup
        refine hnodup.filterMap _ fun x y hxy names hx names' hy heq => hxy ?_
        obtain ⟨f, rfl⟩ := FileTree.Sound.namesBelow?_eq_some_iff.1 hx
        obtain ⟨g, rfl⟩ := FileTree.Sound.namesBelow?_eq_some_iff.1 hy
        rw [heq]
      refine hbelow.imp_of_mem fun {names names'} hnames hnames' hne heq => hne ?_
      have hvalid {names : List String} (h : names ∈ t.entries.filterMap (FileTree.namesBelow? l)) :
          ∀ name ∈ names, IsName name.toList := by
        obtain ⟨x, hx, hbelow⟩ := List.mem_filterMap.1 h
        obtain ⟨f, rfl⟩ := FileTree.Sound.namesBelow?_eq_some_iff.1 hbelow
        exact fun name hn => hs.isName _ hx name (List.mem_append_right l hn)
      exact (Path.ofNames_inj (hvalid hnames) (hvalid hnames')).1 heq

/-! ## What a second run needs -/

/-- Is every output that the run writes at least as new as its template? -/
def WritesNewer (s : Settings) (t : FileTree) : Prop :=
  ∀ templates, s.templates t = .ok templates → ∀ rel ∈ templates,
    ∀ c ∈ (s.process t rel).claims, ∀ text, c.action = .write text →
      ∀ modified, t.modified? (s.templateRoot.join rel) = some modified → modified ≤ t.clock

/-- Is every directory in place of an output in which the run makes or deletes something at least as new
as the template afterwards? -/
def ChangesNewer (s : Settings) (t t' : FileTree) : Prop :=
  ∀ templates, s.templates t = .ok templates → ∀ rel ∈ templates,
    ∀ c ∈ (s.process t rel).claims, t.find? (c.path.destination t.working) = some .directory →
      t'.stampAt (c.path.destination t.working) ≠ t.stampAt (c.path.destination t.working) →
      ∀ modified, t.modified? (s.templateRoot.join rel) = some modified →
        modified ≤ t'.stampAt (c.path.destination t.working)

/-- Do templates, and the root of the templates if it is a file, show that they are no outputs: where
the root of the outputs leads to them, do their paths begin as the root of the templates does? -/
def ShowsTemplates (s : Settings) (t : FileTree) : Prop :=
  ∀ names more, (t.file? (s.templateLocation t ++ names)).isSome = true →
    names = [] ∨ (∃ templates, s.templates t = .ok templates ∧ .ofNames names ∈ templates) →
    s.templateLocation t ++ names = s.outputLocation t ++ more →
    (s.outputRoot.behind more).startsWith s.templateRoot = true

/-- Is the root of the outputs there already, if it is there in the second tree and has outputs behind
it? -/
def ShowsOutputs (s : Settings) (t t' : FileTree) : Prop :=
  (∃ l, s.IsOutput t l) → t'.isThere s.outputRoot = true → t.isThere s.outputRoot = true

/-- A tree, and the tree that a second run finds after a run over the first one without errors. -/
structure Follows (s : Settings) (t t₂ : FileTree) (templates : List Path) (told : Summary) : Prop where
  sound : t.Sound
  sound₂ : t₂.Sound
  vocabulary : s.vocabulary = {}
  incremental : s.incremental = true
  found : s.templates t = .ok templates
  errors : ∀ rel ∈ templates, (s.process t rel).errors = []
  pairwise : (s.claims t).Pairwise fun c d => c.path.components ≠ d.path.components
  settled : s.Settled t t₂ told
  newer : s.WritesNewer t
  changesNewer : s.ChangesNewer t t₂
  showsTemplates : s.ShowsTemplates t
  showsOutputs : s.ShowsOutputs t t₂

/-- Does the second claim keep what the first one keeps or writes? -/
def Keeps (c d : Claim) : Prop :=
  d.path = c.path ∧ c.action.state.isGenerated = true ∧ d.action = .keep

/-! ## Names of templates -/

/-- Does the name at the end of a location mention the primary placeholder? -/
def NamesTemplate (s : Settings) (l : Location) : Bool :=
  l.getLast?.any fun name => s.vocabulary.mentions name .primary

theorem isTemplate_congr {q : Path} (h : p.fileName? = q.fileName?) : s.isTemplate p = s.isTemplate q := by
  rw [isTemplate, isTemplate, hasExtension, hasExtension, Path.extension?, Path.extension?, h]

theorem namesTemplate_of_isTemplate (hnames : ∀ name ∈ names, IsName name.toList) (hne : names ≠ [])
    (h : s.isTemplate (s.templateRoot.behind names) = true) : s.NamesTemplate (l ++ names) = true := by
  rw [isTemplate, Bool.and_eq_true, Path.fileName?_behind hnames hne] at h
  rw [NamesTemplate, List.getLast?_append_of_ne_nil l hne]
  exact h.2

/-- An output does not have the name of a template. -/
theorem not_namesTemplate_substituted (hv : s.vocabulary = {}) (hne : names ≠ []) (b : Binding) :
    s.NamesTemplate (l ++ names.map (Rewrite.substitute s.vocabulary b.resolve)) = false := by
  obtain ⟨front, last, rfl⟩ := List.eq_nil_or_concat names |>.resolve_left hne
  rw [List.concat_eq_append, List.map_append, List.map_singleton, ← List.append_assoc, NamesTemplate,
    List.getLast?_concat, hv]
  exact Vocabulary.not_mentions_substitute Vocabulary.isPlain_default rfl

namespace Follows

variable (h : s.Follows t t₂ templates told)
include h

theorem templateLocation_eq : s.templateLocation t₂ = s.templateLocation t := by
  rw [templateLocation, templateLocation, h.settled.working]

theorem outputLocation_eq : s.outputLocation t₂ = s.outputLocation t := by
  rw [outputLocation, outputLocation, h.settled.working]

/-- A template has been read, and lies behind its root. -/
theorem exists_names_of_mem (hrel : rel ∈ templates) :
    ∃ names, rel = .ofNames names ∧ names ≠ [] ∧ (∀ name ∈ names, IsName name.toList)
      ∧ ∀ b : Binding, s.outputOf ⟨rel, b⟩
        = s.outputRoot.behind (names.map (Rewrite.substitute s.vocabulary b.resolve)) := by
  obtain ⟨source, -, hread, -⟩ := exists_template_of_errors_nil (h.errors rel hrel)
  exact exists_names_of_read h.sound h.found hrel hread

theorem exists_names_of_claim (hc : c ∈ s.claims t) :
    ∃ (names : List String) (b : Binding), .ofNames names ∈ templates ∧ names ≠ []
      ∧ (∀ name ∈ names, IsName name.toList)
      ∧ c.path = s.outputRoot.behind (names.map (Rewrite.substitute s.vocabulary b.resolve)) := by
  obtain ⟨templates', hfound, ⟨rel, b⟩, hrel, -, hstems, -⟩ := exists_stems_of_mem_claims hc
  cases h.found.symm.trans hfound
  obtain ⟨names, rfl, hne, hnames, houtput⟩ := h.exists_names_of_mem hrel
  refine ⟨names, b, hrel, hne, hnames, ?_⟩
  rw [hstems]
  exact houtput b

/-- No claim is on a location that has the name of a template. -/
theorem destination_ne_of_namesTemplate (hc : c ∈ s.claims t) (hl : s.NamesTemplate l = true) :
    c.path.destination t.working ≠ l := by
  rintro rfl
  obtain ⟨names, b, -, hne, hnames, hpath⟩ := h.exists_names_of_claim hc
  rw [hpath, Path.destination_behind (isName_of_mem_substituted hnames),
    not_namesTemplate_substituted h.vocabulary hne] at hl
  contradiction

/-! ## Templates stay -/

/-- No orphan is the root of the templates, if that is a file: the root of the outputs would have to be
written as a path behind the file. -/
theorem destination_ne_templateLocation {f : File}
    (hlocate : t.locate s.templateRoot = .ok (s.templateLocation t))
    (hfile : t.find? (s.templateLocation t) = some (.file f))
    (hp : p ∈ orphansOf (s.existingOutputs t) (s.claims t)) :
    p.destination t.working ≠ s.templateLocation t := by
  intro heq
  obtain ⟨hout, more, hp', hisOutput, hdeletable⟩ :=
    (mem_existingOutputs_iff h.sound).1 (mem_of_mem_orphansOf hp)
  rw [hp', Path.destination_behind (isName_of_isOutput h.sound hisOutput)] at heq
  have hsome : (t.file? (s.templateLocation t ++ [])).isSome = true := by
    rw [List.append_nil, FileTree.file?_eq_some_iff.2 hfile]
    rfl
  have hbegins := h.showsTemplates [] more hsome (.inl rfl) (by rw [List.append_nil]; exact heq.symm)
  rw [isDeletable, hp', hbegins, Bool.not_true, Bool.false_or, Bool.and_eq_true, isNested,
    Bool.and_eq_true, Bool.not_eq_true'] at hdeletable
  obtain ⟨⟨hdiffers, hnested⟩, -⟩ := hdeletable
  have htext : s.templateRoot.text ≠ "" := by
    intro hempty
    rw [FileTree.locate, hempty] at hlocate
    contradiction
  have hmissing := FileTree.isThere_behind_file htext hfile hnested fun hsame => by
    rw [Path.same, hsame, beq_self_eq_true] at hdiffers
    contradiction
  rw [hout] at hmissing
  contradiction

/-- The root of the templates is there after the first run, and the same as before. -/
theorem templateRoot_stays : ∃ e, t.locate s.templateRoot = .ok (s.templateLocation t)
    ∧ t.find? (s.templateLocation t) = some e
    ∧ t₂.locate s.templateRoot = .ok (s.templateLocation t)
    ∧ t₂.find? (s.templateLocation t) = some e := by
  obtain ⟨e, hlocate, he⟩ := exists_templateRoot h.found
  have hlocate₂ := FileTree.locate_of_directories h.settled.working h.settled.directory hlocate
  refine ⟨e, hlocate, he, hlocate₂, ?_⟩
  cases e with
  | directory => exact h.settled.directory _ he
  | file f =>
    have hfile := FileTree.file?_eq_some_iff.2 he
    rw [← FileTree.file?_eq_some_iff, ← hfile]
    refine h.settled.others _ (fun c hc => ?_) fun p hp =>
      h.destination_ne_templateLocation hlocate he hp
    -- a claim comes from a template behind the root, which would be a directory
    obtain ⟨names, b, hrel, hne, hnames, -⟩ := h.exists_names_of_claim hc
    obtain ⟨hbehind, -⟩ := (ofNames_mem_templates_iff h.sound h.found hnames).1 hrel
    obtain ⟨g, hg⟩ := Option.isSome_iff_exists.1 hbehind
    rw [h.sound.find?_of_append (FileTree.file?_eq_some_iff.1 hg) hne] at he
    cases he

/-- The file of a template is after the first run what it was before. -/
theorem file?_template (hnames : ∀ name ∈ names, IsName name.toList)
    (hrel : .ofNames names ∈ templates) :
    t₂.file? (s.templateLocation t ++ names) = t.file? (s.templateLocation t ++ names) := by
  obtain ⟨names', heq, hne, hnames', -⟩ := h.exists_names_of_mem hrel
  obtain rfl := (Path.ofNames_inj hnames hnames').1 heq
  obtain ⟨hfile, htemplate, -⟩ := (ofNames_mem_templates_iff h.sound h.found hnames).1 hrel
  have hnamed : s.NamesTemplate (s.templateLocation t ++ names) = true :=
    namesTemplate_of_isTemplate hnames hne htemplate
  refine h.settled.others _ (fun c hc _ _ => h.destination_ne_of_namesTemplate hc hnamed)
    fun p hp heq => ?_
  -- an orphan there would be a template by its path too
  obtain ⟨hthere, more, hp', hisOutput, hdeletable⟩ :=
    (mem_existingOutputs_iff h.sound).1 (mem_of_mem_orphansOf hp)
  rw [hp', Path.destination_behind (isName_of_isOutput h.sound hisOutput)] at heq
  have hbegins := h.showsTemplates names more hfile (.inr ⟨templates, h.found, hrel⟩) heq.symm
  rw [isDeletable, hp', hbegins, Bool.not_true, Bool.false_or, Bool.and_eq_true,
    Bool.not_eq_true'] at hdeletable
  have hname := h.sound.fileName?_behind hthere hisOutput.2.2
  rw [show s.outputRoot.destination t.working ++ more = s.templateLocation t ++ names from heq,
    List.getLast?_append_of_ne_nil _ hne, ← Path.fileName?_behind (r := s.templateRoot) hnames hne]
    at hname
  rw [isTemplate_congr hname, htemplate] at hdeletable
  exact Bool.noConfusion hdeletable.2

/-- A file with the name of a template is no new one. -/
theorem isSome_file?_of_isTemplate (hfile : (t₂.file? (s.templateLocation t ++ names)).isSome = true)
    (htemplate : s.isTemplate (s.templateRoot.behind names) = true) :
    (t.file? (s.templateLocation t ++ names)).isSome = true := by
  by_cases hne : names = []
  · obtain ⟨e, -, he, -, he₂⟩ := h.templateRoot_stays
    rw [hne, List.append_nil] at hfile ⊢
    rw [FileTree.file?, he]
    rwa [FileTree.file?, he₂] at hfile
  · have hnamed := namesTemplate_of_isTemplate (l := s.templateLocation t)
      (h.sound₂.isName_of_file? hfile) hne htemplate
    rw [h.settled.others _ (fun c hc _ _ => h.destination_ne_of_namesTemplate hc hnamed) fun p hp heq => ?_]
      at hfile
    · exact hfile
    · rw [← heq, h.settled.gone p hp] at hfile
      contradiction

/-- The second run finds the same templates. -/
theorem exists_templates : ∃ templates₂, s.templates t₂ = .ok templates₂ ∧ templates₂.Perm templates := by
  obtain ⟨e, -, -, hlocate, he⟩ := h.templateRoot_stays
  have hthere : t₂.isThere s.templateRoot = true := by
    simp only [FileTree.isThere, FileTree.entry, hlocate, he]
    rfl
  obtain ⟨templates₂, hfound₂⟩ := exists_templates_iff.2 hthere
  refine ⟨templates₂, hfound₂, ?_⟩
  rw [List.perm_ext_iff_of_nodup (nodup_templates h.sound₂ hfound₂) (nodup_templates h.sound h.found)]
  intro rel
  rw [mem_templates_iff h.sound₂ hfound₂, h.templateLocation_eq]
  constructor
  · rintro ⟨names, rfl, hfile, htemplate, hnested⟩
    rw [ofNames_mem_templates_iff h.sound h.found (h.sound₂.isName_of_file? hfile)]
    exact ⟨h.isSome_file?_of_isTemplate hfile htemplate, htemplate, hnested⟩
  · intro hrel
    obtain ⟨names, rfl, -, hnames, -⟩ := h.exists_names_of_mem hrel
    obtain ⟨hfile, hkind⟩ := (ofNames_mem_templates_iff h.sound h.found hnames).1 hrel
    rw [← h.file?_template hnames hrel] at hfile
    exact ⟨names, rfl, hfile, hkind⟩

/-! ## Outputs stay -/

/-- The file at the path of a template is read again as it was. -/
theorem read_template {source : String} (hrel : rel ∈ templates)
    (hread : t.read (s.templateRoot.join rel) = .ok source) :
    t₂.read (s.templateRoot.join rel) = .ok source
      ∧ t₂.modified? (s.templateRoot.join rel) = t.modified? (s.templateRoot.join rel) := by
  obtain ⟨l, f, hlocate, hfile, htext⟩ := FileTree.read_eq_ok_iff.1 hread
  have hlocate₂ := FileTree.locate_of_directories h.settled.working h.settled.directory hlocate
  have hfile₂ : t₂.find? l = some (.file f) := by
    obtain ⟨names, rfl, hne, hnames, -⟩ := h.exists_names_of_mem hrel
    have hl : l = s.templateLocation t ++ names := by
      rw [FileTree.eq_destination_of_locate hlocate, templateLocation, ← Path.destination_behind hnames,
        Path.behind, if_neg (by simpa using hne)]
    rw [← FileTree.file?_eq_some_iff, hl, h.file?_template hnames hrel, ← hl,
      FileTree.file?_eq_some_iff]
    exact hfile
  refine ⟨FileTree.read_eq_ok_iff.2 ⟨l, f, hlocate₂, hfile₂, htext⟩, ?_⟩
  simp only [FileTree.modified?, FileTree.entry, hlocate, hfile, hlocate₂, hfile₂]

/-- No two claims are on one location. -/
theorem eq_of_destination_eq (hc : c ∈ s.claims t) (hd : d ∈ s.claims t)
    (heq : c.path.destination t.working = d.path.destination t.working) : c = d := by
  obtain ⟨names, b, -, -, hnames, hpath⟩ := h.exists_names_of_claim hc
  obtain ⟨names', b', -, -, hnames', hpath'⟩ := h.exists_names_of_claim hd
  rw [hpath, hpath', Path.destination_behind (isName_of_mem_substituted hnames),
    Path.destination_behind (isName_of_mem_substituted hnames'), List.append_cancel_left_eq] at heq
  have : Std.Symm fun c d : Claim => c.path.components ≠ d.path.components := ⟨fun _ _ => Ne.symm⟩
  by_contra hne
  refine h.pairwise.forall hc hd hne ?_
  rw [hpath, hpath', heq]

/-- What is kept by the first run is up to date for the second one. -/
theorem isUpToDate_of_keep (hrel : rel ∈ templates) (hc : c ∈ (s.process t rel).claims)
    (hclaims : c ∈ s.claims t) (hkeep : c.action = .keep)
    (hfresh : t.isUpToDate c.path (t.modified? (s.templateRoot.join rel)) = true) :
    t₂.isUpToDate c.path (t.modified? (s.templateRoot.join rel)) = true := by
  cases hmodified : t.modified? (s.templateRoot.join rel) with
  | none => simp [hmodified, FileTree.isUpToDate] at hfresh
  | some m =>
    rw [hmodified] at hfresh
    cases hentry : t.entry c.path with
    | error e => simp [FileTree.isUpToDate, FileTree.modified?, hentry] at hfresh
    | ok x =>
      obtain ⟨l, e⟩ := x
      obtain ⟨hlocate, rfl, he⟩ := FileTree.of_entry hentry
      have hlocate₂ := FileTree.locate_of_directories h.settled.working h.settled.directory hlocate
      cases e with
      | directory =>
        have he₂ := h.settled.directory _ he
        simp only [FileTree.isUpToDate, FileTree.modified?, FileTree.entry, hlocate, he, hlocate₂, he₂,
          decide_eq_true_eq] at hfresh ⊢
        by_cases hsame : t₂.stampAt (c.path.destination t.working) = t.stampAt (c.path.destination t.working)
        · rw [hsame]
          exact hfresh
        · exact h.changesNewer templates h.found rel hrel c hc he hsame m hmodified
      | file f =>
        have hsame : t₂.file? (c.path.destination t.working) = t.file? (c.path.destination t.working) := by
          obtain ⟨names, b, -, -, hnames, hpath⟩ := h.exists_names_of_claim hclaims
          refine h.settled.others _ (fun d hd text hwrite heq => ?_)
            fun p hp => destination_ne_of_mem_orphansOf h.sound hp hclaims hpath
              (isName_of_mem_substituted hnames)
          rw [h.eq_of_destination_eq hd hclaims heq, hkeep] at hwrite
          exact Action.noConfusion hwrite
        have he₂ : t₂.find? (c.path.destination t.working) = some (.file f) := by
          rw [← FileTree.file?_eq_some_iff, hsame, FileTree.file?_eq_some_iff]
          exact he
        simpa only [FileTree.isUpToDate, FileTree.modified?, FileTree.entry, hlocate, he, hlocate₂, he₂]
          using hfresh

/-- What is written by the first run is up to date for the second one. -/
theorem isUpToDate_of_write {source text : String} (hrel : rel ∈ templates)
    (hread : t.read (s.templateRoot.join rel) = .ok source) (hc : c ∈ (s.process t rel).claims)
    (hclaims : c ∈ s.claims t) (hwrite : c.action = .write text) :
    t₂.isUpToDate c.path (t.modified? (s.templateRoot.join rel)) = true := by
  obtain ⟨l, f, hlocate, hfile, -⟩ := FileTree.read_eq_ok_iff.1 hread
  have hmodified : t.modified? (s.templateRoot.join rel) = some f.modified := by
    simp only [FileTree.modified?, FileTree.entry, hlocate, hfile]
  have hnewer := h.newer templates h.found rel hrel c hc text hwrite f.modified hmodified
  obtain ⟨hlocate₂, hfile₂⟩ := h.settled.written c hclaims text hwrite
  rw [FileTree.file?_eq_some_iff] at hfile₂
  have hmodified₂ : t₂.modified? c.path = some t.clock := by
    simp only [FileTree.modified?, FileTree.entry, hlocate₂, hfile₂]
  simp only [FileTree.isUpToDate, hmodified, hmodified₂, decide_eq_true_eq]
  exact hnewer

/-! ## The claims of the second run -/

/-- One template makes the same claims again, and each of them keeps its output. -/
theorem keeps_process (hrel : rel ∈ templates) :
    Forall₂ Keeps (s.process t rel).claims (s.process t₂ rel).claims
      ∧ (s.process t rel).errors = (s.process t₂ rel).errors := by
  obtain ⟨source, template, hread, htemplate, hprocess, herrors⟩ :=
    exists_template_of_errors_nil (h.errors rel hrel)
  obtain ⟨hread₂, hmodified⟩ := h.read_template hrel hread
  have hprocess₂ : s.process t₂ rel = .join (template.instantiations.map
      (s.instantiate t₂ template (t.modified? (s.templateRoot.join rel)))) := by
    unfold process
    simp only [hread₂, htemplate, hmodified]
  have hmem {c : Claim} (hc : c ∈ (s.process t rel).claims) : c ∈ s.claims t := by
    rw [claims_eq h.found]
    simp only [Contribution.join, List.mem_flatMap, List.mem_map]
    exact ⟨_, ⟨rel, hrel, rfl⟩, hc⟩
  rw [hprocess₂, hprocess]
  refine Contribution.forall₂_join fun i hi => ?_
  obtain ⟨action, hclaims, haction⟩ := instantiate_of_errors_nil (herrors i hi)
  have hin : s.claim i action ∈ (s.process t rel).claims := by
    rw [hprocess]
    simp only [Contribution.join, List.mem_flatMap, List.mem_map]
    refine ⟨_, ⟨i, hi, rfl⟩, ?_⟩
    rw [hclaims]
    exact List.mem_singleton_self _
  have hfresh : t₂.isUpToDate (s.outputOf i) (t.modified? (s.templateRoot.join rel)) = true := by
    rcases haction with ⟨rfl, hkept⟩ | ⟨body, rfl⟩
    · exact h.isUpToDate_of_keep (c := s.claim i .keep) hrel hin (hmem hin) rfl hkept
    · exact h.isUpToDate_of_write (c := s.claim i _) hrel hread hin (hmem hin) rfl
  have hkeep : s.instantiate t₂ template (t.modified? (s.templateRoot.join rel)) i
      = ⟨[s.claim i .keep], []⟩ := by
    rw [instantiate, h.incremental, hfresh, Bool.and_self, if_pos rfl]
  rw [hkeep, hclaims, herrors i hi]
  refine ⟨.cons ⟨rfl, ?_, rfl⟩ .nil, rfl⟩
  rcases haction with ⟨rfl, -⟩ | ⟨body, rfl⟩ <;> rfl

/-- The second run makes the same claims, perhaps in another order. -/
theorem exists_keeps : ∃ templates₂, s.templates t₂ = .ok templates₂
    ∧ templates₂.length = templates.length
    ∧ (∀ rel ∈ templates₂, (s.process t₂ rel).errors = [])
    ∧ ∃ kept : List Claim, Forall₂ Keeps (s.claims t) kept ∧ (s.claims t₂).Perm kept := by
  obtain ⟨templates₂, hfound₂, hperm⟩ := h.exists_templates
  refine ⟨templates₂, hfound₂, hperm.length_eq, fun rel hrel => ?_,
    (Contribution.join (templates.map (s.process t₂))).claims, ?_, ?_⟩
  · rw [← (h.keeps_process (hperm.mem_iff.1 hrel)).2]
    exact h.errors rel (hperm.mem_iff.1 hrel)
  · rw [claims_eq h.found]
    exact (Contribution.forall₂_join fun rel hrel => h.keeps_process hrel).1
  · rw [claims_eq hfound₂]
    exact (hperm.map (s.process t₂)).flatMap_right _

/-! ## The second run -/

/-- Every output that the second run finds is claimed. -/
theorem exists_claim_of_mem_existingOutputs (hp : p ∈ s.existingOutputs t₂) :
    ∃ c ∈ s.claims t, c.path.components = p.components := by
  obtain ⟨hthere, names, rfl, hout, hdeletable⟩ := (mem_existingOutputs_iff h.sound₂).1 hp
  have hnames := isName_of_isOutput h.sound₂ hout
  rw [h.outputLocation_eq] at hout
  by_cases hwritten : ∃ c ∈ s.claims t, ∃ text, c.action = .write text
      ∧ c.path.destination t.working = s.outputLocation t ++ names
  · obtain ⟨c, hc, -, -, hl⟩ := hwritten
    obtain ⟨names', b, -, -, hnames', hpath⟩ := h.exists_names_of_claim hc
    rw [hpath, Path.destination_behind (isName_of_mem_substituted hnames'), outputLocation,
      List.append_cancel_left_eq] at hl
    exact ⟨c, hc, by rw [hpath, hl]⟩
  · -- the output was there before the first run, which would have deleted it as an orphan
    by_contra hunclaimed
    have hother : ∀ p ∈ orphansOf (s.existingOutputs t) (s.claims t),
        p.destination t.working ≠ s.outputLocation t ++ names := by
      intro p hp heq
      have hgone := h.settled.gone p hp
      have hfile := hout.2.2
      rw [← heq, hgone] at hfile
      contradiction
    have hfile := h.settled.others _ (fun c hc text hwrite hl => hwritten ⟨c, hc, text, hwrite, hl⟩) hother
    have hbefore : s.IsOutput t (s.outputLocation t ++ names) :=
      ⟨List.prefix_append _ _, hout.2.1, by rw [← hfile]; exact hout.2.2⟩
    have hexisting : s.outputRoot.behind names ∈ s.existingOutputs t :=
      (mem_existingOutputs_iff h.sound).2
        ⟨h.showsOutputs ⟨_, hbefore⟩ hthere, names, rfl, hbefore, hdeletable⟩
    obtain ⟨q, hq, hsame⟩ := exists_mem_orphansOf hexisting fun c hc heq => hunclaimed ⟨c, hc, heq⟩
    refine hother q hq ?_
    rw [Path.destination_congr hsame, Path.destination_behind hnames]
    rfl

end Follows

/-- A run of which every claim keeps its output, and which finds no orphan, does nothing. -/
theorem run_of_keeps (hfound : s.templates t = .ok templates)
    (herrors : ∀ rel ∈ templates, (s.process t rel).errors = [])
    (hpairwise : (s.claims t).Pairwise fun c d => c.path.components ≠ d.path.components)
    (hkeep : ∀ c ∈ s.claims t, c.action = .keep)
    (horphans : orphansOf (s.existingOutputs t) (s.claims t) = []) :
    s.run t = (.ok
      { errors := []
        summary :=
          { templates := templates.length
            generated := (s.claims t).length
            updated := 0
            deleted := 0 } }, t) := by
  have hplan := plan_eq hfound
  have hnone : (Contribution.join (templates.map (s.process t))).errors = [] := by
    simp only [Contribution.join, List.flatMap_eq_nil_iff, List.forall_mem_map]
    exact herrors
  have hunique : duplicatesAfter [] (s.claims t) = [] :=
    duplicatesAfter_eq_nil_iff.2 ⟨fun _ hf => absurd hf List.not_mem_nil, hpairwise⟩
  rw [hnone, hunique, List.map_nil, List.append_nil] at hplan
  have hstopped : s.stopped? [] = none := stopped?_eq_none_iff.2 (.inr rfl)
  have hwrites : (winners (s.claims t)).filterMap Claim.write? = [] := by
    rw [winners_eq_self hpairwise, List.filterMap_eq_nil_iff]
    intro c hc
    simp only [Claim.write?, hkeep c hc]
  have hdone : Plan.execute s ⟨templates.length, .settle (s.existingOutputs t) (s.claims t), []⟩ t
      = ⟨t, .settle (s.existingOutputs t) (s.claims t), []⟩ := by
    simp only [Plan.execute, Settlement.settle, hwrites, horphans]
    rfl
  have hsettled : Settlement.settle (s.existingOutputs t) (s.claims t)
      = (orphansOf (s.existingOutputs t) (s.claims t)).foldl (fun s p => s.mark p .deleted)
        (.settle (s.existingOutputs t) (s.claims t)) := by
    rw [horphans]
    rfl
  obtain ⟨hgenerated, hwritten, hdeleted⟩ := counts_deleted hpairwise hsettled
  rw [List.countP_eq_length.2 fun c hc => by rw [hkeep c hc]; rfl] at hgenerated
  rw [List.countP_eq_zero.2 fun c hc => by rw [hkeep c hc]; decide] at hwritten
  rw [horphans, List.length_nil] at hdeleted
  rw [run_of_plan hplan hstopped, hdone, hstopped]
  simp only [Progress.report, hgenerated, hwritten, hdeleted]

/-- Claims that are kept are on the same paths, and all of them keep their outputs. -/
theorem of_keeps {cs ds : List Claim} (h : Forall₂ Keeps cs ds) :
    ds.map (·.path) = cs.map (·.path) ∧ (∀ c ∈ cs, c.action.state.isGenerated = true)
      ∧ ∀ d ∈ ds, d.action = .keep := by
  induction h with
  | nil => simp
  | cons hcd _ ih =>
    obtain ⟨hpath, hgenerated, hkeep⟩ := hcd
    simp only [List.map_cons, hpath, ih.1, List.forall_mem_cons]
    exact ⟨trivial, ⟨hgenerated, ih.2.1⟩, hkeep, ih.2.2⟩

/-- The second run does nothing. -/
theorem Follows.run_eq (h : s.Follows t t₂ templates told) :
    s.run t₂ = (.ok
      { errors := []
        summary :=
          { templates := templates.length
            generated := told.generated
            updated := 0
            deleted := 0 } }, t₂) := by
  obtain ⟨templates₂, hfound₂, hlength, herrors, kept, hkeeps, hperm⟩ := h.exists_keeps
  obtain ⟨hpaths, hgenerated, hkeep⟩ := of_keeps hkeeps
  have hpairwise : (s.claims t₂).Pairwise fun c d => c.path.components ≠ d.path.components := by
    have hmap := h.pairwise
    rw [hperm.pairwise_iff fun hne => hne.symm]
    rw [← List.pairwise_map (f := fun c : Claim => c.path) (R := fun p q => p.components ≠ q.components)]
      at hmap ⊢
    rwa [hpaths]
  have horphans : orphansOf (s.existingOutputs t₂) (s.claims t₂) = [] := by
    rw [List.eq_nil_iff_forall_not_mem]
    intro p hp
    obtain ⟨c, hc, hsame⟩ := h.exists_claim_of_mem_existingOutputs (mem_of_mem_orphansOf hp)
    have hmem : c.path ∈ kept.map (·.path) := hpaths ▸ List.mem_map_of_mem hc
    obtain ⟨d, hd, hpath⟩ := List.mem_map.1 hmem
    have hnot := not_same_of_mem_orphansOf hp (hperm.mem_iff.2 hd)
    rw [hpath, Path.same, hsame, beq_self_eq_true] at hnot
    contradiction
  have hcount : told.generated = (s.claims t₂).length := by
    rw [h.settled.told_eq.1, List.countP_eq_length.2 hgenerated, hperm.length_eq]
    exact hkeeps.length_eq
  rw [run_of_keeps hfound₂ herrors hpairwise (fun c hc => hkeep c (hperm.mem_iff.1 hc)) horphans,
    hlength, hcount]

end Settings

end Stencil
