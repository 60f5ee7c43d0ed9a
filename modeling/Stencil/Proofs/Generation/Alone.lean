import Stencil.Proofs.Files.Without
import Stencil.Proofs.Generation.FailFast
import Stencil.Proofs.Generation.Leaves
import Stencil.Proofs.Generation.Sources
import Stencil.Proofs.Rewrite.Comment

/-!
# Templates do not interfere

What becomes of the outputs of a template, and what is told of it, does not depend on the other
templates, however broken they are, as long as they claim none of its outputs. So it is the same in a
run over the same files without the other templates.

The reason is that the claims of a template depend on its own file and on its own outputs only, that
claims on other paths change neither which claim on a path is the first one nor which claims are
duplicates, and that no orphan is where a claim is.

Results: the outputs and the errors of a template in a run without the others (`Settings.alone_run`).
-/

namespace Stencil

/-- What comes from one of several sources can be told apart by a test that only this one passes. -/
theorem filter_flatMap_of_nodup {α β : Type} {xs : List α} {a : α} {f : α → List β} {test : β → Bool}
    (hn : xs.Nodup) (ha : a ∈ xs) (hown : ∀ b ∈ f a, test b = true)
    (hothers : ∀ x ∈ xs, x ≠ a → ∀ b ∈ f x, test b = false) :
    (xs.flatMap f).filter test = f a := by
  induction xs with
  | nil => contradiction
  | cons x rest ih =>
    rw [List.nodup_cons] at hn
    rw [List.forall_mem_cons] at hothers
    rw [List.flatMap_cons, List.filter_append]
    by_cases hx : x = a
    · subst hx
      have hrest : (rest.flatMap f).filter test = [] := by
        rw [List.filter_eq_nil_iff]
        intro b hb
        obtain ⟨y, hy, hb⟩ := List.mem_flatMap.1 hb
        have hne : y ≠ x := by
          rintro rfl
          exact hn.1 hy
        simp [hothers.2 y hy hne b hb]
      rw [hrest, List.append_nil, List.filter_eq_self]
      exact hown
    · have hfirst : (f x).filter test = [] := by
        rw [List.filter_eq_nil_iff]
        intro b hb
        simp [hothers.1 hx b hb]
      rw [hfirst, List.nil_append]
      exact ih hn.2 ((List.mem_cons.1 ha).resolve_left (Ne.symm hx)) hothers.2

theorem Contribution.join_singleton (c : Contribution) : join [c] = c := by
  simp [join]

/-! ## Claims on some paths only -/

section SomePaths

variable {before claims : List Claim} {c d : Claim} {test : Path → Bool}

/-- Of the claims on some paths, the same ones are duplicates if there are no other claims. -/
theorem filter_duplicatesAfter (htest : ∀ p q : Path, p.components = q.components → test p = test q) :
    (duplicatesAfter before claims).filter (fun d => test d.path)
      = duplicatesAfter (before.filter fun c => test c.path) (claims.filter fun c => test c.path) := by
  induction claims generalizing before with
  | nil => rfl
  | cons c rest ih =>
    cases hc : test c.path with
    | true =>
      have hfind : (before.filter fun c => test c.path).find? (fun f => f.path.same c.path)
          = before.find? fun f => f.path.same c.path := by
        rw [List.find?_filter]
        refine List.find?_congr fun f _ => ?_
        rw [Bool.eq_iff_iff]
        simp only [decide_eq_true_eq, and_iff_right_iff_imp]
        intro hsame
        rw [htest _ _ (Path.same_iff.1 hsame), hc]
      rw [duplicatesAfter, List.filter_cons_of_pos (by exact hc), duplicatesAfter, hfind]
      have happend : (before ++ [c]).filter (fun c => test c.path)
          = before.filter (fun c => test c.path) ++ [c] := by
        rw [List.filter_append, List.filter_cons_of_pos (by exact hc), List.filter_nil]
      split
      · rw [List.filter_cons_of_pos (by exact hc), ih, happend]
      · rw [ih, happend]
    | false =>
      have happend : (before ++ [c]).filter (fun c => test c.path)
          = before.filter (fun c => test c.path) := by
        rw [List.filter_append, List.filter_cons_of_neg (by simp [hc]), List.filter_nil, List.append_nil]
      rw [duplicatesAfter, List.filter_cons_of_neg (by simp [hc])]
      split
      · rw [List.filter_cons_of_neg (by simp [hc]), ih, happend]
      · rw [ih, happend]

/-- Of the claims on some paths, the same ones hold if there are no other claims. -/
theorem mem_winners_filter_iff
    (htest : ∀ p q : Path, p.components = q.components → test p = test q) (hc : test c.path = true) :
    c ∈ winners (claims.filter fun c => test c.path) ↔ c ∈ winners claims := by
  rw [mem_winners_iff, mem_winners_iff, List.find?_filter]
  refine Eq.congr (List.find?_congr fun d _ => ?_) rfl
  rw [Bool.eq_iff_iff]
  simp only [decide_eq_true_eq, and_iff_right_iff_imp, beq_iff_eq]
  intro hsame
  rw [htest _ _ hsame, hc]

end SomePaths

/-- What an accepted action leaves of the file that was there. -/
def Action.leave (a : Action) (clock : Nat) (old : Option File) : Option File :=
  match a with
  | .write text => some ⟨some text, clock⟩
  | _ => old

namespace Settings

variable {s : Settings} {t t' : FileTree} {rel other : Path} {templates : List Path} {c d : Claim}
  {names : List String} {report : Report} {l : Location}

/-! ## Accepted runs -/

/-- A run that does not end at its first error comes to its end, if the templates can be found. -/
theorem exists_run (hfast : s.failFast = false) (hfound : s.templates t = .ok templates) :
    ∃ report t', s.run t = (.ok report, t') := by
  have hstopped (errors : List RunError) : s.stopped? errors = none :=
    stopped?_eq_none_iff.2 (.inl hfast)
  rw [run_of_plan (plan_eq hfound) (hstopped _), hstopped]
  exact ⟨_, _, rfl⟩

/-- What an accepted run tells, and how its tree has come about. -/
theorem of_accepted_run (hfast : s.failFast = false) (hfound : s.templates t = .ok templates)
    (hrun : s.run t = (.ok report, t')) (haccepted : ∀ e ∈ report.errors, e.isRefusal = false) :
    report.errors = (s.begun t templates).errors ∧ ∃ between after : Progress,
      (s.begun t templates).Wrote (Settlement.settle (s.existingOutputs t) (s.claims t)).writes between
        ∧ between.Deleted (orphansOf (s.existingOutputs t) (s.claims t)) after ∧ t' = after.tree := by
  obtain ⟨templates', hfound', done, hdone, rfl, rfl⟩ := of_run hfast hrun
  cases hfound.symm.trans hfound'
  have hdeleted := Progress.deleted_deleteAll (hdone ▸ haccepted)
  rw [← hdone] at hdeleted
  have hbetween : ((Settlement.settle (s.existingOutputs t) (s.claims t)).writes.foldl Progress.write
      (s.begun t templates)).IsAccepted := by
    intro e he
    rw [← hdeleted.errors] at he
    exact haccepted e he
  have hwrote := Progress.wrote_foldl hbetween
  exact ⟨hdeleted.errors.trans hwrote.errors, _, _, hwrote, hdeleted, rfl⟩

/-- Where a claim holds, an accepted run leaves what the claim says. -/
theorem file?_of_accepted_run (hs : t.Sound) (hfast : s.failFast = false)
    (hfound : s.templates t = .ok templates) (hrun : s.run t = (.ok report, t'))
    (haccepted : ∀ e ∈ report.errors, e.isRefusal = false) (hd : d ∈ winners (s.claims t))
    (hpath : d.path = s.outputRoot.behind names) (hnames : ∀ name ∈ names, IsName name.toList) :
    t'.file? (d.path.destination t.working)
      = d.action.leave t.clock (t.file? (d.path.destination t.working)) := by
  obtain ⟨-, between, after, hwrote, hdeleted, rfl⟩ := of_accepted_run hfast hfound hrun haccepted
  have hworking : between.tree.working = t.working := hwrote.working
  have hlate : after.tree.file? (d.path.destination t.working)
      = between.tree.file? (d.path.destination t.working) := by
    unfold FileTree.file?
    rw [hdeleted.others _ fun p hp => ?_]
    rw [hworking]
    exact destination_ne_of_mem_orphansOf hs hp (mem_of_mem_winners hd) hpath hnames
  rw [hlate]
  by_cases hwrite : ∃ text, d.action = .write text
  · obtain ⟨text, hwrite⟩ := hwrite
    rw [hwrite]
    refine hwrote.written (pairwise_destination_writes hs) (d.path, text) ?_
    exact List.mem_filterMap.2 ⟨d, hd, Claim.write?_eq_some_iff.2 ⟨hwrite, rfl⟩⟩
  · have hleave : d.action.leave t.clock (t.file? (d.path.destination t.working))
        = t.file? (d.path.destination t.working) := by
      unfold Action.leave
      split
      · rename_i text htext
        exact absurd ⟨text, htext⟩ hwrite
      · rfl
    rw [hleave]
    refine hwrote.others _ fun o ho heq => hwrite ?_
    -- a text that is written there would be that of the claim that holds
    obtain ⟨w, hw, hwo⟩ := List.mem_filterMap.1 ho
    obtain ⟨haction, hwpath⟩ := Claim.write?_eq_some_iff.1 hwo
    obtain ⟨names', hpath', hnames'⟩ := exists_names_of_write hs (mem_of_mem_winners hw) haction
    rw [← hwpath, hpath, hpath'] at heq
    have hsame := heq
    rw [show (s.begun t templates).tree = t from rfl, Path.destination_behind hnames,
      Path.destination_behind hnames', List.append_cancel_left_eq] at hsame
    rw [mem_winners_iff] at hd hw
    rw [hpath', hsame, ← hpath, hd] at hw
    cases hw
    exact ⟨o.2, haction⟩

/-! ## The tree without the other templates -/

/-- Where the other templates are. -/
def otherSources (s : Settings) (t : FileTree) (rel : Path) : List Location :=
  match s.templates t with
  | .error _ => []
  | .ok templates => (templates.filter (· != rel)).map (s.sourceAt t)

/-- The tree without the other templates. -/
def alone (s : Settings) (t : FileTree) (rel : Path) : FileTree :=
  t.without (s.otherSources t rel)

section Alone

variable (hs : t.Sound) (hfound : s.templates t = .ok templates)

include hfound in
theorem mem_otherSources_iff : l ∈ s.otherSources t rel
    ↔ ∃ other ∈ templates, other ≠ rel ∧ s.sourceAt t other = l := by
  rw [otherSources, hfound]
  simp only [List.mem_map, List.mem_filter, bne_iff_ne, and_assoc]

include hs hfound

theorem hasFiles_otherSources : t.HasFiles (s.otherSources t rel) := by
  intro l hl
  obtain ⟨other, hother, -, rfl⟩ := (mem_otherSources_iff hfound).1 hl
  obtain ⟨names, rfl, hfile, -⟩ := (mem_templates_iff hs hfound).1 hother
  rw [sourceAt_ofNames (hs.isName_of_file? hfile)]
  exact hfile

/-- Only the other templates are taken out. -/
theorem notMem_otherSources (hrel : rel ∈ templates) : s.sourceAt t rel ∉ s.otherSources t rel := by
  intro hmem
  obtain ⟨other, hother, hne, heq⟩ := (mem_otherSources_iff hfound).1 hmem
  obtain ⟨names, rfl, hfile, -⟩ := (mem_templates_iff hs hfound).1 hrel
  obtain ⟨names', rfl, hfile', -⟩ := (mem_templates_iff hs hfound).1 hother
  rw [sourceAt_ofNames (hs.isName_of_file? hfile), sourceAt_ofNames (hs.isName_of_file? hfile'),
    List.append_cancel_left_eq] at heq
  exact hne (congrArg Path.ofNames heq)

theorem sound_alone : (s.alone t rel).Sound :=
  FileTree.Sound.without (hasFiles_otherSources hs hfound) hs

/-- A template that is itself the root of the templates is the only one. -/
theorem alone_of_root (hrel : .ofNames [] ∈ templates) : s.alone t (.ofNames []) = t := by
  have hnone : s.otherSources t (.ofNames []) = [] := by
    rw [List.eq_nil_iff_forall_not_mem]
    intro l hl
    obtain ⟨other, hother, hne, -⟩ := (mem_otherSources_iff hfound).1 hl
    obtain ⟨names, rfl, hfile, -⟩ := (mem_templates_iff hs hfound).1 hother
    obtain ⟨hroot, -⟩ := (ofNames_mem_templates_iff hs hfound (by simp)).1 hrel
    obtain ⟨f, hf⟩ := Option.isSome_iff_exists.1 hfile
    obtain ⟨g, hg⟩ := Option.isSome_iff_exists.1 hroot
    rw [FileTree.file?_eq_some_iff] at hf hg
    rw [List.append_nil, hs.find?_of_append hf fun h => hne (congrArg Path.ofNames h)] at hg
    cases hg
  rw [alone, hnone, FileTree.without_nil]

/-- The templates of a tree without the others. -/
theorem templates_alone (hrel : rel ∈ templates) : s.templates (s.alone t rel) = .ok [rel] := by
  have hfiles : t.HasFiles (s.otherSources t rel) := hasFiles_otherSources hs hfound
  have hsound : (s.alone t rel).Sound := sound_alone hs hfound
  obtain ⟨names, hnames, hfile, hkind⟩ := (mem_templates_iff hs hfound).1 hrel
  have hthere : (s.alone t rel).isThere s.templateRoot = true := by
    by_cases hne : names = []
    · subst hne
      rw [hnames, alone_of_root hs hfound (hnames ▸ hrel)]
      exact exists_templates_iff.1 ⟨templates, hfound⟩
    · obtain ⟨f, hf⟩ := Option.isSome_iff_exists.1 hfile
      have hdir := hs.find?_of_append (FileTree.file?_eq_some_iff.1 hf) hne
      obtain ⟨-, hroot, -⟩ := exists_templateRoot hfound
      have hlocate := (FileTree.locate_without_eq_ok_iff hfiles).2 hroot
      simp only [FileTree.isThere, FileTree.entry, alone, hlocate, hfiles.directory_iff.2 hdir]
      rfl
  obtain ⟨templates₁, hfound₁⟩ := exists_templates_iff.2 hthere
  have hmem (x : Path) : x ∈ templates₁ ↔ x ∈ [rel] := by
    rw [List.mem_singleton, mem_templates_iff hsound hfound₁]
    constructor
    · rintro ⟨names', rfl, hfile', hkind'⟩
      have hnames' := hsound.isName_of_file? hfile'
      rw [alone, hfiles.file?_without] at hfile'
      split at hfile'
      · contradiction
      · rename_i hnot
        by_contra hne
        refine hnot ((mem_otherSources_iff hfound).2 ⟨_, ?_, hne, sourceAt_ofNames hnames'⟩)
        exact (mem_templates_iff hs hfound).2 ⟨names', rfl, hfile', hkind'⟩
    · rintro rfl
      refine ⟨names, hnames, ?_, hkind⟩
      have hnot := notMem_otherSources hs hfound hrel
      rw [hnames, sourceAt_ofNames (hs.isName_of_file? hfile), ← hnames] at hnot
      rw [alone, hfiles.file?_without]
      exact (if_neg hnot).symm ▸ hfile
  have hperm := (List.perm_ext_iff_of_nodup (nodup_templates hsound hfound₁) (by simp)).2 hmem
  rw [hfound₁, List.perm_singleton.1 hperm]

/-- The file of a template is the same in a tree without the others. -/
theorem read_alone (hrel : rel ∈ templates) :
    (s.alone t rel).read (s.templateRoot.join rel) = t.read (s.templateRoot.join rel)
      ∧ (s.alone t rel).modified? (s.templateRoot.join rel)
        = t.modified? (s.templateRoot.join rel) := by
  have hfiles : t.HasFiles (s.otherSources t rel) := hasFiles_otherSources hs hfound
  have hnot := notMem_otherSources hs hfound hrel
  refine ⟨?_, FileTree.modified?_without hfiles hnot⟩
  obtain ⟨names, hnames, hfile, -⟩ := (mem_templates_iff hs hfound).1 hrel
  by_cases hne : names = []
  · subst hne
    rw [hnames, alone_of_root hs hfound (hnames ▸ hrel)]
  · obtain ⟨f, hf⟩ := Option.isSome_iff_exists.1 hfile
    obtain ⟨-, hroot, -⟩ := exists_templateRoot hfound
    have hlocate := hs.locate_join_ofNames hroot (FileTree.file?_eq_some_iff.1 hf) hne
    rw [← sourceAt_ofNames (hs.isName_of_file? hfile), ← hnames] at hlocate
    rw [FileTree.read, FileTree.read, alone, FileTree.entry_without hfiles hlocate hnot]

/-! ### Roots that are apart -/

section Apart

variable (hapart : ¬s.templateLocation t <+: s.outputLocation t
  ∧ ¬s.outputLocation t <+: s.templateLocation t)
include hapart

/-- There is no source behind the root of the outputs. -/
theorem notMem_otherSources_of_output (hl : s.outputLocation t <+: l) :
    l ∉ s.otherSources t rel := by
  intro hmem
  obtain ⟨other, hother, -, rfl⟩ := (mem_otherSources_iff hfound).1 hmem
  obtain ⟨names, rfl, hfile, -⟩ := (mem_templates_iff hs hfound).1 hother
  rw [sourceAt_ofNames (hs.isName_of_file? hfile)] at hl
  rcases List.prefix_or_prefix_of_prefix hl (List.prefix_append _ _) with h | h
  · exact hapart.2 h
  · exact hapart.1 h

/-- Outputs are of the same age in a tree without the other templates. -/
theorem modified?_output_alone (hnames : ∀ name ∈ names, IsName name.toList) :
    (s.alone t rel).modified? (s.outputRoot.behind names) = t.modified? (s.outputRoot.behind names) := by
  refine FileTree.modified?_without (hasFiles_otherSources hs hfound) ?_
  rw [Path.destination_behind hnames]
  exact notMem_otherSources_of_output hs hfound hapart (List.prefix_append _ _)

/-- A template contributes the same in a tree without the others. -/
theorem process_alone (hrel : rel ∈ templates) :
    s.process (s.alone t rel) rel = s.process t rel := by
  obtain ⟨hread, hmodified⟩ := read_alone hs hfound hrel
  unfold process
  simp only [hread, hmodified]
  cases hsource : t.read (s.templateRoot.join rel) with
  | error fault => rfl
  | ok source =>
    cases htemplate : Template.ofText rel source s.vocabulary with
    | error e => simp only [htemplate]
    | ok template =>
      obtain ⟨names, -, -, hnames, houtput⟩ := exists_names_of_read hs hfound hrel hsource
      simp only [htemplate]
      refine congrArg Contribution.join (List.map_congr_left fun i hi => ?_)
      obtain ⟨b, -, rfl⟩ := List.mem_map.1 hi
      have houtput' : s.outputOf ⟨template.path, b⟩
          = s.outputRoot.behind (names.map (Rewrite.substitute s.vocabulary b.resolve)) := by
        rw [path_of_ofText htemplate, houtput]
      unfold instantiate FileTree.isUpToDate
      rw [houtput', modified?_output_alone hs hfound hapart (isName_of_mem_substituted hnames)]

theorem claims_alone (hrel : rel ∈ templates) :
    s.claims (s.alone t rel) = (s.process t rel).claims := by
  rw [claims_eq (templates_alone hs hfound hrel), List.map_singleton, Contribution.join_singleton,
    process_alone hs hfound hapart hrel]

end Apart

end Alone

/-! ## Outputs and errors of one template -/

/-- Does the template claim the path? -/
def isOutputOf (s : Settings) (t : FileTree) (rel p : Path) : Bool :=
  (s.process t rel).claims.any fun c => c.path.same p

theorem isOutputOf_congr {p q : Path} (h : p.components = q.components) :
    s.isOutputOf t rel p = s.isOutputOf t rel q := by
  simp only [isOutputOf, Path.same, h]

theorem isOutputOf_of_mem (hc : c ∈ (s.process t rel).claims) : s.isOutputOf t rel c.path = true :=
  List.any_eq_true.2 ⟨c, hc, Path.same_iff.2 rfl⟩

/-- Is the error about the template, one of its instantiations, or one of the outputs that it claims? -/
def isErrorOf (s : Settings) (t : FileTree) (rel : Path) : RunError → Bool
  | .read path _ => path == s.templateRoot.join rel
  | .template error => error.path == rel
  | .specialize i _ => i.template == rel
  | .duplicate d => s.isOutputOf t rel d.path
  | .write path _ => s.isOutputOf t rel path
  | .delete .. | .scan .. => false

/-- Does no other template claim an output of the template? -/
def OwnsOutputs (s : Settings) (t : FileTree) (rel : Path) : Prop :=
  ∀ templates, s.templates t = .ok templates → ∀ other ∈ templates, other ≠ rel →
    ∀ d ∈ (s.process t other).claims, s.isOutputOf t rel d.path = false

section OwnsOutputs

variable (hs : t.Sound) (hfound : s.templates t = .ok templates) (hrel : rel ∈ templates)
include hs hfound hrel

theorem filter_claims (howns : s.OwnsOutputs t rel) :
    (s.claims t).filter (fun c => s.isOutputOf t rel c.path) = (s.process t rel).claims := by
  rw [claims_eq hfound, Contribution.join, List.flatMap_map]
  refine filter_flatMap_of_nodup (nodup_templates hs hfound) hrel (fun c hc => isOutputOf_of_mem hc) ?_
  exact fun other hother hne d hd => howns templates hfound other hother hne d hd

/-- The errors of a template are those that the template has contributed. -/
theorem filter_errors :
    (Contribution.join (templates.map (s.process t))).errors.filter (s.isErrorOf t rel)
      = (s.process t rel).errors := by
  simp only [Contribution.join, List.flatMap_map]
  refine filter_flatMap_of_nodup (nodup_templates hs hfound) hrel (fun e he => ?_)
    fun other hother hne e he => ?_
  · rcases of_mem_errors_process he with ⟨_, rfl⟩ | ⟨_, rfl⟩ | ⟨i, _, rfl, rfl⟩ <;> simp [isErrorOf]
  · rcases of_mem_errors_process he with ⟨_, rfl⟩ | ⟨_, rfl⟩ | ⟨i, _, rfl, rfl⟩
    · rw [isErrorOf, beq_eq_false_iff_ne]
      intro hjoin
      refine notMem_otherSources hs hfound hrel ((mem_otherSources_iff hfound).2 ?_)
      exact ⟨other, hother, hne, congrArg (Path.destination t.working) hjoin⟩
    · simpa [isErrorOf] using hne
    · simpa [isErrorOf] using hne

/-- What an accepted run tells of a template is what is told in a run without the others. -/
theorem filter_errors_begun (howns : s.OwnsOutputs t rel)
    (hapart : ¬s.templateLocation t <+: s.outputLocation t
      ∧ ¬s.outputLocation t <+: s.templateLocation t) :
    (s.begun t templates).errors.filter (s.isErrorOf t rel)
      = (s.begun (s.alone t rel) [rel]).errors := by
  have hduplicates : (duplicatesAfter [] (s.claims t)).filter (fun d => s.isOutputOf t rel d.path)
      = duplicatesAfter [] (s.process t rel).claims := by
    rw [filter_duplicatesAfter fun p q => isOutputOf_congr, filter_claims hs hfound hrel howns]
    rfl
  have hmap : ((duplicatesAfter [] (s.claims t)).map RunError.duplicate).filter (s.isErrorOf t rel)
      = (duplicatesAfter [] (s.process t rel).claims).map .duplicate := by
    rw [List.filter_map, ← hduplicates]
    rfl
  simp only [begun, Settlement.settle, List.filter_append]
  rw [filter_errors hs hfound hrel, hmap, claims_alone hs hfound hapart hrel, List.map_singleton,
    Contribution.join_singleton, process_alone hs hfound hapart hrel]

/-- A template that is not the root itself has the same outputs in accepted runs with and without the
others. -/
theorem file?_alone {report₁ : Report} {t₁ : FileTree} (hfast : s.failFast = false)
    (hapart : ¬s.templateLocation t <+: s.outputLocation t
      ∧ ¬s.outputLocation t <+: s.templateLocation t)
    (howns : s.OwnsOutputs t rel) (hrun : s.run t = (.ok report, t'))
    (haccepted : ∀ e ∈ report.errors, e.isRefusal = false)
    (hrun₁ : s.run (s.alone t rel) = (.ok report₁, t₁))
    (haccepted₁ : ∀ e ∈ report₁.errors, e.isRefusal = false) (hc : c ∈ (s.process t rel).claims) :
    t'.file? (c.path.destination t.working) = t₁.file? (c.path.destination t.working) := by
  obtain ⟨names, hnames, hfile, -⟩ := (mem_templates_iff hs hfound).1 hrel
  have hvalid := hs.isName_of_file? hfile
  by_cases hne : names = []
  · subst hne
    rw [hnames, alone_of_root hs hfound (hnames ▸ hrel), hrun] at hrun₁
    cases hrun₁
    rfl
  · -- the first claim on the path holds in both runs
    obtain ⟨d, hd⟩ : ∃ d, (s.process t rel).claims.find?
        (fun d => d.path.components == c.path.components) = some d := by
      refine Option.isSome_iff_exists.1 (List.find?_isSome.2 ⟨c, hc, ?_⟩)
      rw [beq_self_eq_true]
    have hmem := List.mem_of_find?_eq_some hd
    have hsame : d.path.components = c.path.components := by simpa using List.find?_some hd
    rw [← hsame, ← mem_winners_iff] at hd
    have hall : d ∈ winners (s.claims t) := by
      rw [← mem_winners_filter_iff (fun p q => isOutputOf_congr) (isOutputOf_of_mem hmem),
        filter_claims hs hfound hrel howns]
      exact hd
    rw [← claims_alone hs hfound hapart hrel] at hd
    obtain ⟨i, hi, hstems, -⟩ := stems_of_mem_process hmem
    have hpath : d.path
        = s.outputRoot.behind (names.map (Rewrite.substitute s.vocabulary i.binding.resolve)) := by
      rw [hstems, ← outputOf_ofNames hvalid hne, ← hnames, ← hi]
      rfl
    have hout := isName_of_mem_substituted (s := s) (b := i.binding) hvalid
    have hlocation : (s.alone t rel).file? (d.path.destination t.working)
        = t.file? (d.path.destination t.working) := by
      rw [hpath, Path.destination_behind hout, alone, (hasFiles_otherSources hs hfound).file?_without]
      exact if_neg (notMem_otherSources_of_output hs hfound hapart (List.prefix_append _ _))
    have hwith := file?_of_accepted_run hs hfast hfound hrun haccepted hall hpath hout
    have hwithout := file?_of_accepted_run (sound_alone hs hfound) hfast (templates_alone hs hfound hrel)
      hrun₁ haccepted₁ hd hpath hout
    rw [← Path.destination_congr hsame, hwith, ← hlocation]
    exact hwithout.symm

end OwnsOutputs

/-- A template whose outputs no other template claims has the same outputs, and is told to have the same
errors, in a run over the same files without the other templates. Both runs end, if the placeholders have
names, so that the loop over each comment does. -/
theorem alone_run (hs : t.Sound) (hnames : ∀ p, s.vocabulary.name p ≠ "") (hfast : s.failFast = false)
    (hapart : ¬s.templateLocation t <+: s.outputLocation t
      ∧ ¬s.outputLocation t <+: s.templateLocation t)
    (hfound : s.templates t = .ok templates) (hrel : rel ∈ templates)
    (howns : s.OwnsOutputs t rel) :
    (∀ b, Rewrite.EndsComments s.vocabulary b)
      ∧ ∃ report t' report₁ t₁, s.run t = (.ok report, t') ∧ s.run (s.alone t rel) = (.ok report₁, t₁)
        ∧ s.claims (s.alone t rel) = (s.process t rel).claims
        ∧ ((∀ e ∈ report.errors, e.isRefusal = false) → (∀ e ∈ report₁.errors, e.isRefusal = false) →
          (∀ c ∈ (s.process t rel).claims,
            t'.file? (c.path.destination t.working) = t₁.file? (c.path.destination t.working))
          ∧ report₁.errors = report.errors.filter (s.isErrorOf t rel)) := by
  have hfound₁ := templates_alone hs hfound hrel
  obtain ⟨report, t', hrun⟩ := exists_run hfast hfound
  obtain ⟨report₁, t₁, hrun₁⟩ := exists_run hfast hfound₁
  refine ⟨fun _ => Rewrite.endsComments_of_isNamed fun p _ => hnames p, report, t', report₁, t₁, hrun, hrun₁,
    claims_alone hs hfound hapart hrel, ?_⟩
  intro haccepted haccepted₁
  constructor
  · intro c hc
    exact file?_alone hs hfound hrel hfast hapart howns hrun haccepted hrun₁ haccepted₁ hc
  · rw [(of_accepted_run hfast hfound hrun haccepted).1,
      (of_accepted_run hfast hfound₁ hrun₁ haccepted₁).1,
      filter_errors_begun hs hfound hrel howns hapart]

/-- The files of a run over a good template, and over one that has been cut off and has an output
already. -/
def mixed : FileTree :=
  { entries :=
      [(["t"], .directory), (["t", "KTypeA.java"], .file ⟨some "class KTypeA \x7b \x7d", 1⟩),
        (["t", "KTypeB.java"], .file ⟨some "class KTypeB \x7b", 1⟩),
        (["o"], .directory), (["o", "IntB.java"], .file ⟨some "class IntB \x7b \x7d", 1⟩)]
    working := []
    clock := 2 }

theorem templates_mixed : fresh.templates mixed = .ok [⟨"KTypeA.java"⟩, ⟨"KTypeB.java"⟩] := by
  have hbelow : mixed.filesBelow fresh.templateRoot
      = .ok ([⟨"KTypeA.java"⟩, ⟨"KTypeB.java"⟩].mergeSort Path.le) := by
    rfl
  rw [Settings.templates, hbelow, List.mergeSort_of_pairwise (by decide)]
  decide +kernel

theorem ownsOutputs_mixed : fresh.OwnsOutputs mixed ⟨"KTypeA.java"⟩ := by
  have houtputs : ∀ c ∈ (fresh.process mixed ⟨"KTypeA.java"⟩).claims,
      c.path ∈ ConcreteType.all.map fun t => ⟨"o/" ++ t.boxedName ++ "A.java"⟩ := by
    decide +kernel
  have hothers : ∀ d ∈ (fresh.process mixed ⟨"KTypeB.java"⟩).claims,
      d.path ∈ ConcreteType.all.map fun t => ⟨"o/" ++ t.boxedName ++ "B.java"⟩ := by
    decide +kernel
  have hne : ∀ t ∈ ConcreteType.all, ∀ u ∈ ConcreteType.all,
      Path.same ⟨"o/" ++ t.boxedName ++ "A.java"⟩ ⟨"o/" ++ u.boxedName ++ "B.java"⟩ = false := by
    decide +kernel
  intro templates hfound other hother hdiffers d hd
  cases templates_mixed.symm.trans hfound
  have hcut : other = ⟨"KTypeB.java"⟩ := by simpa [hdiffers] using hother
  subst hcut
  obtain ⟨u, humem, hu⟩ := List.mem_map.1 (hothers d hd)
  rw [isOutputOf, List.any_eq_false]
  intro c hc
  obtain ⟨t, htmem, ht⟩ := List.mem_map.1 (houtputs c hc)
  rw [← hu, ← ht, hne t htmem u humem]
  exact Bool.false_ne_true

/-- Both runs are accepted, with and without the other template. -/
theorem accepted_mixed :
    (∃ report t', fresh.run mixed = (.ok report, t') ∧ ∀ e ∈ report.errors, e.isRefusal = false)
      ∧ ∃ report t', fresh.run (fresh.alone mixed ⟨"KTypeA.java"⟩) = (.ok report, t')
        ∧ ∀ e ∈ report.errors, e.isRefusal = false := by
  have htold (p : Progress) (n : Nat) : (p.report n).errors = p.errors := rfl
  constructor
  · have hrun := run_of_plan (plan_eq templates_mixed) rfl
    rw [claims_eq templates_mixed] at hrun
    refine ⟨_, _, hrun, ?_⟩
    rw [htold]
    decide +kernel
  · have halone : fresh.alone mixed ⟨"KTypeA.java"⟩ = mixed.without [["t", "KTypeB.java"]] := by
      rw [alone, otherSources, templates_mixed]
      rfl
    rw [halone]
    have hok : (match (fresh.run (mixed.without [["t", "KTypeB.java"]])).1 with
      | .ok report => report.errors.all fun e => !e.isRefusal
      | .error _ => false) = true := by
      decide +kernel
    cases hrun : fresh.run (mixed.without [["t", "KTypeB.java"]]) with
    | mk result t' =>
      cases result with
      | error e => simp [hrun] at hok
      | ok report => exact ⟨report, t', rfl, by simpa [hrun] using hok⟩

theorem alone_run_mixed : mixed.Sound ∧ (∀ p, fresh.vocabulary.name p ≠ "") ∧ fresh.failFast = false
    ∧ (¬fresh.templateLocation mixed <+: fresh.outputLocation mixed
      ∧ ¬fresh.outputLocation mixed <+: fresh.templateLocation mixed)
    ∧ fresh.templates mixed = .ok [⟨"KTypeA.java"⟩, ⟨"KTypeB.java"⟩]
    ∧ fresh.OwnsOutputs mixed ⟨"KTypeA.java"⟩
    ∧ ∃ report t' report₁ t₁, fresh.run mixed = (.ok report, t')
      ∧ fresh.run (fresh.alone mixed ⟨"KTypeA.java"⟩) = (.ok report₁, t₁)
      ∧ (∀ e ∈ report.errors, e.isRefusal = false) ∧ (∀ e ∈ report₁.errors, e.isRefusal = false)
      ∧ (∀ c ∈ (fresh.process mixed ⟨"KTypeA.java"⟩).claims,
        t'.file? (c.path.destination mixed.working) = t₁.file? (c.path.destination mixed.working))
      ∧ report₁.errors = report.errors.filter (fresh.isErrorOf mixed ⟨"KTypeA.java"⟩) := by
  have hsound : mixed.Sound := ⟨by decide, by decide, by decide⟩
  have hapart : ¬fresh.templateLocation mixed <+: fresh.outputLocation mixed
      ∧ ¬fresh.outputLocation mixed <+: fresh.templateLocation mixed := by
    decide
  obtain ⟨⟨report, t', hrun, haccepted⟩, report₁, t₁, hrun₁, haccepted₁⟩ := accepted_mixed
  have hnames : ∀ p, fresh.vocabulary.name p ≠ "" :=
    Vocabulary.name_ne_empty Vocabulary.isPlain_default
  obtain ⟨-, r, u, r₁, u₁, hr, hr₁, -, hsame⟩ :=
    alone_run hsound hnames rfl hapart templates_mixed List.mem_cons_self ownsOutputs_mixed
  cases hrun.symm.trans hr
  cases hrun₁.symm.trans hr₁
  obtain ⟨houtputs, herrors⟩ := hsame haccepted haccepted₁
  exact ⟨hsound, hnames, rfl, hapart, templates_mixed, ownsOutputs_mixed, report, t', report₁, t₁, hrun, hrun₁,
    haccepted, haccepted₁, houtputs, herrors⟩

end Settings

end Stencil
