import Stencil.Proofs.Generation.Leaves
import Stencil.Proofs.Generation.SecondRun

/-!
# Running twice

A run after a run without errors does nothing, if the spelling of the two roots shows which files are
templates and which are outputs. Paths are compared by their components, as they are written. So a
root that is written in another way than the templates' root may lead to templates, and the first run
takes them for outputs. A root that can not be followed before the first run has made a directory has
no files below it, and the second run is the first one to see them. Neither is possible with roots that
are written without dots.

A directory in place of an output counts as the output, and is kept if it is new enough. It bears the time
of the run once the run has deleted an orphan in it. If that is earlier than the time of the template, the
second run tries to write the output.

Results: a second run does nothing (`Settings.repeatIsIdle`), and does something for some spellings of
the roots and for some directories in place of outputs (`Settings.not_repeatIsIdle`).
-/

namespace Stencil

namespace FileTree

variable {t : FileTree} {l : Location} {p : Path}

/-! ## Trees at another time -/

variable {now : Nat}

theorem follow_withClock (pieces : List (List Char)) :
    ({ t with clock := now } : FileTree).follow l pieces = t.follow l pieces := by
  induction pieces generalizing l with
  | nil => rfl
  | cons piece rest ih =>
    rw [follow, follow, show ({ t with clock := now } : FileTree).find? l = t.find? l from rfl]
    split
    · rfl
    · rfl
    · exact ih

theorem locate_withClock : ({ t with clock := now } : FileTree).locate p = t.locate p := by
  rw [locate, locate, follow_withClock]

/-- What is there does not depend on the time. -/
theorem isThere_withClock : ({ t with clock := now } : FileTree).isThere p = t.isThere p := by
  rw [isThere, isThere, entry, entry, locate_withClock]
  rfl

end FileTree

namespace Settings

variable {s : Settings} {t t' : FileTree} {report : Report}

/-- Does a second run do nothing, whenever it is started after a run that has told no error? -/
def RepeatIsIdle (s : Settings) (t : FileTree) : Prop :=
  ∀ report t', s.run t = (.ok report, t') → report.errors = [] → s.WritesNewer t →
    ∀ now, t.clock ≤ now →
      s.run { t' with clock := now } = (.ok
        { errors := []
          summary :=
            { templates := report.summary.templates
              generated := report.summary.generated
              updated := 0
              deleted := 0 } }, { t' with clock := now })

/-- What a second run finds is sound. -/
theorem sound_again {now : Nat} (hs : t.Sound) (hrun : s.run t = (.ok report, t')) :
    ({ t' with clock := now } : FileTree).Sound := by
  have hsound := sound_run (s := s) hs
  rw [hrun] at hsound
  exact ⟨hsound.isName, hsound.nodup, hsound.above⟩

/-- An incremental run after a run without errors does nothing, if every output that was written is at
least as new as its template, and so is every directory in place of an output that was changed, and the
spelling of the roots shows which files are templates and which are outputs. -/
theorem repeatIsIdle (hs : t.Sound) (hv : s.vocabulary = {}) (hi : s.incremental = true)
    (htemplates : s.ShowsTemplates t) (houtputs : s.ShowsOutputs t (s.run t).2)
    (hchanges : s.ChangesNewer t (s.run t).2) : s.RepeatIsIdle t := by
  intro report t' hrun hclean hnewer now _
  obtain ⟨templates, hfound, hnumber, herrors, hpairwise, hsettled⟩ := settled_run hs hrun hclean
  rw [hrun] at houtputs hchanges
  have hfollows : s.Follows t { t' with clock := now } templates report.summary :=
    { sound := hs
      sound₂ := sound_again hs hrun
      vocabulary := hv
      incremental := hi
      found := hfound
      errors := herrors
      pairwise := hpairwise
      settled :=
        { working := hsettled.working
          directory := hsettled.directory
          written := fun c hc text hwrite =>
            ⟨FileTree.locate_withClock.trans (hsettled.written c hc text hwrite).1,
              (hsettled.written c hc text hwrite).2⟩
          gone := hsettled.gone
          others := hsettled.others
          told_eq := hsettled.told_eq }
      newer := hnewer
      changesNewer := hchanges
      showsTemplates := htemplates
      showsOutputs := fun hout hthere => by
        rw [FileTree.isThere_withClock] at hthere
        exact houtputs hout hthere }
  rw [hfollows.run_eq, hnumber]

/-! ## Roots without dots -/

/-- Templates show that they are no outputs where both roots begin alike and are written without double
dots. -/
theorem showsTemplates_of_parent_notMem (hs : t.Sound)
    (hstart : s.templateRoot.start = s.outputRoot.start)
    (htemplates : .parent ∉ s.templateRoot.components) (houtputs : .parent ∉ s.outputRoot.components) :
    s.ShowsTemplates t := by
  intro names more hfile _ hsame
  have hmore : ∀ name ∈ more, IsName name.toList := by
    rw [hsame] at hfile
    exact hs.isName_of_file? hfile
  obtain ⟨front, hfront⟩ := Path.exists_names_inner htemplates
  obtain ⟨back, hback⟩ := Path.exists_names_inner houtputs
  rw [templateLocation, outputLocation, Path.destination, Path.destination, hfront, hback,
    Path.isAbsolute_congr hstart, Path.foldl_lead_names, Path.foldl_lead_names, List.append_assoc,
    List.append_assoc, List.append_cancel_left_eq] at hsame
  rw [Path.startsWith, List.isPrefixOf_iff_prefix, Path.components_behind hmore, Path.components_eq,
    Path.components_eq s.outputRoot, hfront, hback, hstart, List.append_assoc, ← List.map_append,
    ← hsame, List.map_append]
  exact List.prefix_append_right_inj _ |>.2 (List.prefix_append _ _)

/-- A root of the outputs that is no file and is written without double dots is there before the first
run, if it has outputs behind it. -/
theorem showsOutputs_of_parent_notMem (hs : t.Sound) (hroot : s.outputRoot.text ≠ "")
    (houtputs : .parent ∉ s.outputRoot.components) (hfile : t.file? (s.outputLocation t) = none) :
    s.ShowsOutputs t t' := by
  rintro ⟨l, hl⟩ -
  exact isThere_of_isOutput hs hroot houtputs hfile hl

/-- Nothing was changed later than now, if no file and no directory bears a time that is still to come. -/
theorem modified?_le_clock {p : Path} {modified : Nat}
    (hfiles : ∀ l f, (l, .file f) ∈ t.entries → f.modified ≤ t.clock)
    (hstamps : ∀ l, t.stampAt l ≤ t.clock) (h : t.modified? p = some modified) :
    modified ≤ t.clock := by
  rw [FileTree.modified?] at h
  split at h
  · rename_i l f hentry
    cases h
    obtain ⟨-, -, hfile⟩ := FileTree.of_entry hentry
    have hne : l ≠ [] := by
      rintro rfl
      rw [FileTree.find?, if_pos rfl] at hfile
      exact Entry.noConfusion (Option.some.inj hfile)
    exact hfiles l f (FileTree.mem_of_find? hfile hne)
  · cases h
    exact hstamps _
  · contradiction

/-- What is written or changed is at least as new as its template, if nothing bears a time that is still
to come. -/
theorem newer_of_forall (hfiles : ∀ l f, (l, .file f) ∈ t.entries → f.modified ≤ t.clock)
    (hstamps : ∀ l, t.stampAt l ≤ t.clock) : s.WritesNewer t ∧ s.ChangesNewer t (s.run t).2 := by
  refine ⟨fun _ _ _ _ _ _ _ _ _ h => modified?_le_clock hfiles hstamps h, ?_⟩
  intro templates _ rel _ c _ _ hchanged modified hmodified
  rw [(changesNow_run.stampAt _).resolve_left hchanged]
  exact modified?_le_clock hfiles hstamps hmodified

/-- A run that keeps every output writes none that is older than its template. -/
theorem writesNewer_of_keeps (h : ∀ c ∈ s.claims t, c.action = .keep) : s.WritesNewer t := by
  intro templates hfound rel hrel c hc text hwrite
  have hmem : c ∈ s.claims t := by
    rw [claims_eq hfound]
    simp only [Contribution.join, List.mem_flatMap, List.mem_map]
    exact ⟨_, ⟨rel, hrel, rfl⟩, hc⟩
  rw [h c hmem] at hwrite
  contradiction

/-- A run without errors after which something can be seen. -/
theorem exists_run_of_sees (sees : Report → FileTree → Bool)
    (h : (match s.run t with
      | (.ok report, t') => report.errors.isEmpty && sees report t'
      | (.error _, _) => false) = true) :
    ∃ report t', s.run t = (.ok report, t') ∧ report.errors = [] ∧ sees report t' = true := by
  split at h
  · rename_i report t' hrun
    rw [Bool.and_eq_true, List.isEmpty_iff] at h
    exact ⟨report, t', hrun, h.1, h.2⟩
  · contradiction

/-- A run whose outputs are in a directory below the templates. -/
def inside : Settings :=
  { templateRoot := ⟨"t"⟩, outputRoot := ⟨"t/gen"⟩ }

/-- The files of this run. -/
def insideFiles : FileTree :=
  { entries := [(["t"], .directory), (["t", "KTypeA.java"], .file ⟨some "class KTypeA { }", 1⟩)]
    working := []
    clock := 2 }

theorem repeatIsIdle_inside : ∃ report t', inside.run insideFiles = (.ok report, t')
    ∧ report.errors = [] ∧ (t'.file? ["t", "gen", "IntA.java"]).isSome = true
    ∧ inside.WritesNewer insideFiles ∧ inside.RepeatIsIdle insideFiles := by
  have hsound : insideFiles.Sound := ⟨by decide, by decide, by decide⟩
  have htemplates : inside.ShowsTemplates insideFiles :=
    showsTemplates_of_parent_notMem hsound (by decide) (by decide) (by decide)
  have houtputs : inside.ShowsOutputs insideFiles (inside.run insideFiles).2 :=
    showsOutputs_of_parent_notMem hsound (by decide) (by decide) (by decide)
  obtain ⟨report, t', hrun, hclean, hwritten⟩ := exists_run_of_sees (s := inside) (t := insideFiles)
    (fun _ t' => (t'.file? ["t", "gen", "IntA.java"]).isSome) (by decide +kernel)
  obtain ⟨hnewer, hchanges⟩ := newer_of_forall (s := inside) (t := insideFiles)
    (by simp [insideFiles]) (by simp [insideFiles, FileTree.stampAt])
  exact ⟨report, t', hrun, hclean, hwritten, hnewer,
    repeatIsIdle hsound rfl rfl htemplates houtputs hchanges⟩

/-! ## Roots with dots -/

/-- A second run that does nothing finds as many templates as the first one, and a claim on every
existing output. -/
theorem RepeatIsIdle.finds (now : Nat) (h : s.RepeatIsIdle t) (hs : t.Sound)
    (hrun : s.run t = (.ok report, t')) (hclean : report.errors = []) (hnewer : s.WritesNewer t)
    (hnow : t.clock ≤ now) :
    (∃ templates, s.templates { t' with clock := now } = .ok templates
        ∧ templates.length = report.summary.templates)
      ∧ ∀ p ∈ s.existingOutputs { t' with clock := now },
        ∃ c ∈ s.claims { t' with clock := now }, c.path.components = p.components := by
  have hsound : ({ t' with clock := now } : FileTree).Sound := sound_again hs hrun
  have hsecond := h report t' hrun hclean hnewer now hnow
  obtain ⟨templates, hfound, hnumber, -, -, hsettled⟩ := settled_run hsound hsecond rfl
  refine ⟨⟨templates, hfound, hnumber.symm⟩, fun p hp => ?_⟩
  by_contra hunclaimed
  obtain ⟨q, hq, hsame⟩ := exists_mem_orphansOf hp fun c hc heq => hunclaimed ⟨c, hc, heq⟩
  obtain ⟨-, names, rfl, hout, -⟩ := (mem_existingOutputs_iff hsound).1 hp
  -- the second run has deleted the orphan, but leaves the tree that it has found
  have hgone := hsettled.gone q hq
  rw [Path.destination_congr hsame, Path.destination_behind (isName_of_isOutput hsound hout)] at hgone
  have hfile := hout.2.2
  rw [outputLocation, hgone] at hfile
  contradiction

/-- A run whose outputs are around the templates, but whose root is not written as the beginning of
theirs. -/
def around : Settings :=
  { templateRoot := ⟨"t/a"⟩, outputRoot := ⟨"./t"⟩ }

/-- The files of this run. -/
def aroundFiles : FileTree :=
  { entries :=
      [(["t"], .directory), (["t", "a"], .directory),
        (["t", "a", "KTypeA.java"], .file ⟨some "class KTypeA { }", 1⟩)]
    working := []
    clock := 2 }

/-- Files of a run at a time before that of the template. All outputs are up to date, but they are
directories, and there is an orphan in one of them. -/
def shelved : FileTree :=
  { entries :=
      [(["t"], .directory), (["t", "KTypeA.java"], .file ⟨some "class KTypeA { }", 5⟩),
        (["o"], .directory), (["o", "IntA.java", "Stray.java"], .file ⟨some "", 1⟩)]
      ++ ConcreteType.all.map fun u => (["o", u.boxedName ++ "A.java"], .directory)
    working := []
    clock := 3
    stamps := ConcreteType.all.map fun u => (["o", u.boxedName ++ "A.java"], 6) }

/-- The root of the outputs leads to a template, which the first run takes for an output. -/
theorem not_repeatIsIdle_around : ¬around.RepeatIsIdle aroundFiles := by
  intro h
  have hsound : aroundFiles.Sound := ⟨by decide, by decide, by decide⟩
  obtain ⟨hnewer, -⟩ := newer_of_forall (s := around) (t := aroundFiles) (by simp [aroundFiles])
    (by simp [aroundFiles, FileTree.stampAt])
  obtain ⟨report, t', hrun, hclean, hsees⟩ := exists_run_of_sees (s := around) (t := aroundFiles)
    (fun report t' => (around.templates { t' with clock := 3 }).toOption.map List.length
      != some report.summary.templates) (by decide +kernel)
  obtain ⟨⟨templates, hfound, hnumber⟩, -⟩ := h.finds 3 hsound hrun hclean hnewer (by decide)
  simp [hfound, hnumber, Except.toOption] at hsees

/-- The root of the outputs can be followed for the first time by the second run, which finds an output
there that nobody claims. -/
theorem not_repeatIsIdle_through : ¬through.RepeatIsIdle throughFiles := by
  intro h
  have hsound : throughFiles.Sound := ⟨by decide, by decide, by decide⟩
  have hfiles : ∀ l f, (l, .file f) ∈ throughFiles.entries → f.modified ≤ throughFiles.clock := by
    intro l f hfile
    simp only [throughFiles, List.mem_cons, Prod.mk.injEq, Entry.file.injEq, reduceCtorEq, and_false,
      List.not_mem_nil, or_false, false_or] at hfile
    rcases hfile with ⟨-, rfl⟩ | ⟨-, rfl⟩ <;> decide
  obtain ⟨hnewer, -⟩ := newer_of_forall (s := through) (t := throughFiles) hfiles
    (by simp [throughFiles, FileTree.stampAt])
  obtain ⟨report, t', hrun, hclean, hsees⟩ := exists_run_of_sees (s := through) (t := throughFiles)
    (fun _ t' => ({ t' with clock := 3 } : FileTree).isThere through.outputRoot
      && (({ t' with clock := 3 } : FileTree).file?
        (through.outputLocation { t' with clock := 3 } ++ ["Stray.java"])).isSome
      && (through.claims { t' with clock := 3 }).all fun c =>
        c.path.components != (through.outputRoot.behind ["Stray.java"]).components)
    (by decide +kernel)
  simp only [Bool.and_eq_true, List.all_eq_true, bne_iff_ne] at hsees
  obtain ⟨-, hclaimed⟩ := h.finds 3 hsound hrun hclean hnewer (by decide)
  have hstray : through.outputRoot.behind ["Stray.java"]
      ∈ through.existingOutputs { t' with clock := 3 } :=
    (mem_existingOutputs_iff (sound_again hsound hrun)).2 ⟨hsees.1.1, ["Stray.java"], rfl,
      ⟨List.prefix_append _ _, extensionAt_concat_iff.2 (by decide), hsees.1.2⟩, by decide⟩
  obtain ⟨c, hc, hsame⟩ := hclaimed _ hstray
  exact hsees.2 c hc hsame

/-- The first run deletes the orphan in a directory that it keeps in place of an output, and the second
run finds the directory too old. -/
theorem not_repeatIsIdle_shelved : ¬fresh.RepeatIsIdle shelved := by
  intro h
  have hkept : ((fresh.claims shelved).all fun c => c.action == .keep) = true := by
    decide +kernel
  have hnewer : fresh.WritesNewer shelved := by
    refine writesNewer_of_keeps fun c hc => ?_
    simpa using List.all_eq_true.1 hkept c hc
  obtain ⟨report, t', hrun, hclean, hsees⟩ := exists_run_of_sees (s := fresh) (t := shelved)
    (fun _ t' => (fresh.run { t' with clock := 4 }).1.toOption.map (·.errors.isEmpty) != some true)
    (by decide +kernel)
  have hsecond := h report t' hrun hclean hnewer 4 (by decide)
  simp [hsecond, Except.toOption] at hsees

/-- It is not enough that a run has no errors, whether it is the spelling of the roots or the time of a
directory that leads the second run astray. -/
theorem not_repeatIsIdle :
    (aroundFiles.Sound ∧ around.vocabulary = {} ∧ around.incremental = true
      ∧ ¬around.RepeatIsIdle aroundFiles)
    ∧ (throughFiles.Sound ∧ through.vocabulary = {} ∧ through.incremental = true
      ∧ ¬through.RepeatIsIdle throughFiles)
    ∧ shelved.Sound ∧ fresh.vocabulary = {} ∧ fresh.incremental = true
      ∧ ¬fresh.RepeatIsIdle shelved := by
  refine ⟨⟨?_, rfl, rfl, not_repeatIsIdle_around⟩, ⟨?_, rfl, rfl, not_repeatIsIdle_through⟩, ?_, rfl, rfl,
    not_repeatIsIdle_shelved⟩
  · exact ⟨by decide, by decide, by decide⟩
  · exact ⟨by decide, by decide, by decide⟩
  · exact ⟨by decide +kernel, by decide +kernel, by decide +kernel⟩

end Settings

end Stencil
