import Mathlib.Data.List.Basic
import Stencil.Generation.Run
import Stencil.Proofs.Files.Sound
import Stencil.Proofs.Generation.OutputPath

/-!
# What a run finds

The existing outputs are all files with the extension of the run that lie where the root of the
outputs leads, if this root is there and is not written as a path into the templates. The templates
are files behind the root of the templates, and their paths have the extension of the files.

Results: which existing outputs are found (`Settings.mem_existingOutputs_iff`,
`Settings.Reaches.mem_existingOutputs_iff`), and that for the latter it is
enough that the roots are apart where they are written without double dots
(`Settings.reaches_of_parent_notMem`).
-/

namespace Stencil

/-- The extension of the name that a location ends in. -/
def extensionAt (l : Location) : Option String :=
  l.getLast?.bind fun name => (Path.extensionOf? name.toList).map String.ofList

theorem extensionAt_append {l names : Location} (hne : names ≠ []) :
    extensionAt (l ++ names) = extensionAt names := by
  unfold extensionAt
  rw [List.getLast?_append_of_ne_nil l hne]

theorem extensionAt_concat_iff {front : Location} {name extension : String} :
    extensionAt (front ++ [name]) = some extension
      ↔ Path.extensionOf? name.toList = some extension.toList := by
  unfold extensionAt
  rw [List.getLast?_concat, Option.bind_some, Option.map_eq_some_iff]
  constructor
  · rintro ⟨cs, hcs, rfl⟩
    rw [hcs, String.toList_ofList]
  · exact fun h => ⟨_, h, String.ofList_toList⟩

/-! ## Files below a root -/

namespace FileTree

variable {t : FileTree} {r p : Path} {names : List String} {found : List Path} {extension : String}

theorem below_ofNames (h : ∀ name ∈ names, IsName name.toList) :
    Settings.below r (.ofNames names) = r.behind names := by
  have hiff : (Path.ofNames names).text.isEmpty = names.isEmpty := by
    rw [Bool.eq_iff_iff, String.isEmpty_iff, List.isEmpty_iff]
    exact Path.text_ofNames_eq_iff h
  rw [Settings.below, Path.behind, hiff]

/-- The path of a file that is found ends in the name of its location. -/
theorem Sound.fileName?_behind (hs : t.Sound) (hfound : t.isThere r = true)
    (hfile : (t.file? (r.destination t.working ++ names)).isSome = true) :
    (r.behind names).fileName? = (r.destination t.working ++ names).getLast? := by
  obtain ⟨f, hf⟩ := Option.isSome_iff_exists.1 hfile
  rw [file?_eq_some_iff] at hf
  by_cases hne : names = []
  · subst hne
    rw [List.append_nil] at hf ⊢
    rw [isThere] at hfound
    cases hentry : t.entry r with
    | error e =>
      rw [hentry] at hfound
      contradiction
    | ok x =>
      obtain ⟨-, hl, he⟩ := of_entry hentry
      rw [hl, hf] at he
      cases x
      cases he
      exact (hs.fileName?_of_entry hentry).trans (congrArg List.getLast? hl)
  · have hnames := hs.isName_of_find? hf
    rw [Path.fileName?_behind (fun name hn => hnames name (List.mem_append_right _ hn)) hne]
    rw [List.getLast?_append_of_ne_nil _ hne]

/-- The path of a file that is found has the extension of its location. -/
theorem Sound.extension?_behind (hs : t.Sound) (hfound : t.isThere r = true)
    (hfile : (t.file? (r.destination t.working ++ names)).isSome = true) :
    (r.behind names).extension? = extensionAt (r.destination t.working ++ names) := by
  rw [Path.extension?, hs.fileName?_behind hfound hfile]
  rfl

/-- Files are found below a root exactly if it is there. -/
theorem isThere_iff_filesBelow : t.isThere r = true ↔ ∃ found, t.filesBelow r = .ok found := by
  rw [isThere, filesBelow]
  cases t.entry r <;> simp [Except.toOption]

end FileTree

namespace Settings

variable {s : Settings} {t : FileTree} {p rel : Path} {l names : Location} {c : Claim}

/-! ## Existing outputs -/

/-- Where the root of the outputs leads. -/
def outputLocation (s : Settings) (t : FileTree) : Location :=
  s.outputRoot.destination t.working

/-- Where the root of the templates leads. -/
def templateLocation (s : Settings) (t : FileTree) : Location :=
  s.templateRoot.destination t.working

/-- Is there a file with the extension of the run at the location, behind the root of the outputs? -/
def IsOutput (s : Settings) (t : FileTree) (l : Location) : Prop :=
  s.outputLocation t <+: l ∧ extensionAt l = some s.extension ∧ (t.file? l).isSome = true

/-- Do the roots lead to places apart from each other, and can the outputs be told by their paths?
The root of the outputs is not written as a path into the templates, and it is there if there are
files behind it. -/
structure Reaches (s : Settings) (t : FileTree) : Prop where
  apart : ¬s.templateLocation t <+: s.outputLocation t ∧ ¬s.outputLocation t <+: s.templateLocation t
  notBelow : s.outputRoot.startsWith s.templateRoot = false
  isThere : ∀ l, s.IsOutput t l → t.isThere s.outputRoot = true

/-- No path behind the root of the outputs begins as the root of the templates does. -/
theorem Reaches.not_startsWith (h : s.Reaches t) (hnames : ∀ name ∈ names, IsName name.toList) :
    (s.outputRoot.behind names).startsWith s.templateRoot = false := by
  rw [Bool.eq_false_iff]
  intro hbegins
  rw [Path.startsWith, List.isPrefixOf_iff_prefix, Path.components_behind hnames] at hbegins
  rcases List.prefix_or_prefix_of_prefix hbegins (List.prefix_append _ _) with hroot | ⟨more, hmore⟩
  · have hnot := h.notBelow
    rw [Path.startsWith, Bool.eq_false_iff] at hnot
    exact hnot (List.isPrefixOf_iff_prefix.2 hroot)
  · -- the root of the templates would lead to a place behind the root of the outputs
    rw [← hmore, List.prefix_append_right_inj, List.prefix_map_iff] at hbegins
    obtain ⟨front, hfront, rfl⟩ := hbegins
    have hnames' : ∀ name ∈ front, IsName name.toList := fun name hn => hnames name (hfront.subset hn)
    rw [← Path.components_behind hnames'] at hmore
    refine h.apart.2 ⟨front, ?_⟩
    rw [outputLocation, templateLocation, ← Path.destination_behind hnames']
    exact Path.destination_congr hmore

theorem isName_of_isOutput (hs : t.Sound) (h : s.IsOutput t (s.outputLocation t ++ names)) :
    ∀ name ∈ names, IsName name.toList :=
  hs.isName_of_file? h.2.2

/-- An existing output that may be deleted is a file with the extension of the run behind the root of
the outputs, if this root is there. -/
theorem mem_existingOutputs_iff (hs : t.Sound) : p ∈ s.existingOutputs t
    ↔ t.isThere s.outputRoot = true ∧ ∃ names, p = s.outputRoot.behind names
      ∧ s.IsOutput t (s.outputLocation t ++ names) ∧ s.isDeletable p = true := by
  rw [existingOutputs, FileTree.filesWithExtension, List.mem_filter]
  cases hfound : t.filesBelow s.outputRoot with
  | error fault =>
    have hmissing : ¬t.isThere s.outputRoot = true := by
      rw [FileTree.isThere_iff_filesBelow, hfound]
      simp
    simp [hmissing]
  | ok found =>
    have hthere := FileTree.isThere_iff_filesBelow.2 ⟨found, hfound⟩
    have hmem := fun q => hs.mem_filesBelow_iff (p := q) hfound
    simp only [List.mem_mergeSort, List.mem_filter, List.mem_map, hmem, beq_iff_eq, hthere, true_and]
    constructor
    · rintro ⟨⟨⟨_, ⟨names, rfl, hfile⟩, rfl⟩, hext⟩, hdeletable⟩
      rw [FileTree.below_ofNames (hs.isName_of_file? hfile)] at hext hdeletable ⊢
      rw [hs.extension?_behind hthere hfile] at hext
      exact ⟨names, rfl, ⟨List.prefix_append _ _, hext, hfile⟩, hdeletable⟩
    · rintro ⟨names, rfl, ⟨-, hext, hfile⟩, hdeletable⟩
      have hnames := hs.isName_of_file? hfile
      refine ⟨⟨⟨_, ⟨names, rfl, hfile⟩, FileTree.below_ofNames hnames⟩, ?_⟩, hdeletable⟩
      exact (hs.extension?_behind hthere hfile).trans hext

/-- Where the outputs can be told by their paths, all of them may be deleted. -/
theorem Reaches.mem_existingOutputs_iff (hs : t.Sound) (h : s.Reaches t) :
    p ∈ s.existingOutputs t
      ↔ ∃ names, p = s.outputRoot.behind names ∧ s.IsOutput t (s.outputLocation t ++ names) := by
  rw [Settings.mem_existingOutputs_iff hs]
  constructor
  · rintro ⟨-, names, rfl, hout, -⟩
    exact ⟨names, rfl, hout⟩
  · rintro ⟨names, rfl, hout⟩
    refine ⟨h.isThere _ hout, names, rfl, hout, ?_⟩
    rw [isDeletable, h.not_startsWith (isName_of_isOutput hs hout)]
    rfl

/-! ## Roots without double dots -/

/-- A root that is written without double dots is there if there are outputs behind it. -/
theorem isThere_of_isOutput (hs : t.Sound) (houtputs : s.outputRoot.text ≠ "")
    (hparent : .parent ∉ s.outputRoot.components) (hroot : t.file? (s.outputLocation t) = none)
    (h : s.IsOutput t l) : t.isThere s.outputRoot = true := by
  obtain ⟨⟨names, rfl⟩, -, hfile⟩ := h
  obtain ⟨f, hf⟩ := Option.isSome_iff_exists.1 hfile
  have hne : names ≠ [] := by
    rintro rfl
    rw [List.append_nil, hroot] at hf
    contradiction
  exact hs.isThere_of_find? houtputs hparent (FileTree.file?_eq_some_iff.1 hf) hne

/-- Where the root of the outputs is a directory that is written without double dots, it is enough
that the two roots lead to places apart from each other. -/
theorem reaches_of_parent_notMem (hs : t.Sound) (htemplates : s.templateRoot.text ≠ "")
    (houtputs : s.outputRoot.text ≠ "") (hparent : .parent ∉ s.outputRoot.components)
    (hroot : t.file? (s.outputLocation t) = none)
    (hapart : ¬s.templateLocation t <+: s.outputLocation t
      ∧ ¬s.outputLocation t <+: s.templateLocation t) :
    s.Reaches t := by
  refine ⟨hapart, ?_, fun l hl => isThere_of_isOutput hs houtputs hparent hroot hl⟩
  rw [Bool.eq_false_iff]
  intro hbegins
  obtain ⟨names, hnames⟩ :=
    Path.exists_names_of_startsWith (w := t.working) htemplates hparent hbegins
  exact hapart.1 ⟨names, hnames.symm⟩

end Settings

end Stencil
