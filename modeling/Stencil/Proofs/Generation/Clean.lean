import Stencil.Proofs.Generation.Claims
import Stencil.Proofs.Generation.Execute

/-!
# Runs without errors

A run that tells no error has read and specialized every template, no two of its claims are on one
path, and no write and no deletion has been refused. So what it leaves can be read off its claims:
every text that was to be written is there, orphans are gone, and all other files are as they were.

Results:
* `Settings.settled_run`: what such a run leaves and tells;
* `Settings.exists_template_of_errors_nil`: what its templates contribute.
-/

namespace Stencil

/-! ## Claims on different paths -/

variable {before claims : List Claim}

theorem duplicatesAfter_eq_nil_iff : duplicatesAfter before claims = []
    ↔ (∀ f ∈ before, ∀ c ∈ claims, f.path.components ≠ c.path.components)
      ∧ claims.Pairwise fun c d => c.path.components ≠ d.path.components := by
  induction claims generalizing before with
  | nil => simp [duplicatesAfter]
  | cons c rest ih =>
    rw [duplicatesAfter, List.pairwise_cons]
    split
    · rename_i f hfound
      have hsame : f.path.components = c.path.components := by
        simpa [Path.same] using List.find?_some hfound
      refine iff_of_false (List.cons_ne_nil _ _) ?_
      rintro ⟨hbefore, -⟩
      exact hbefore f (List.mem_of_find?_eq_some hfound) c List.mem_cons_self hsame
    · rename_i hnone
      have hfirst : ∀ f ∈ before, f.path.components ≠ c.path.components := by
        simpa [Path.same] using hnone
      rw [ih]
      simp only [List.mem_append, List.mem_singleton, List.forall_mem_cons]
      constructor
      · rintro ⟨hbefore, hpairwise⟩
        refine ⟨fun f hf => ⟨hfirst f hf, fun d hd => hbefore f (.inl hf) d hd⟩, ?_, hpairwise⟩
        exact fun d hd => hbefore c (.inr rfl) d hd
      · rintro ⟨hbefore, hrest, hpairwise⟩
        refine ⟨?_, hpairwise⟩
        rintro f (hf | rfl) d hd
        · exact (hbefore f hf).2 d hd
        · exact hrest d hd

/-- Claims on different paths all hold. -/
theorem winners_eq_self (h : claims.Pairwise fun c d => c.path.components ≠ d.path.components) :
    winners claims = claims := by
  induction claims with
  | nil => rfl
  | cons c rest ih =>
    rw [List.pairwise_cons] at h
    have hfilter : rest.filter (fun d => decide (d.path.same c.path = false)) = rest := by
      rw [List.filter_eq_self]
      intro d hd
      simpa [Path.same] using (h.1 d hd).symm
    rw [winners, List.eraseDupsBy_cons, hfilter]
    exact congrArg (c :: ·) (ih h.2)

/-- The numbers after the orphans have been deleted, where no two claims are on one path. -/
theorem counts_deleted {existing : List Path} {settled : Settlement}
    (h : claims.Pairwise fun c d => c.path.components ≠ d.path.components)
    (hsettled : settled = (orphansOf existing claims).foldl (fun s p => s.mark p .deleted)
      (.settle existing claims)) :
    settled.generated = claims.countP (fun c => c.action.state.isGenerated)
      ∧ settled.count .written = claims.countP (fun c => c.action.state == .written)
      ∧ settled.count .deleted = (orphansOf existing claims).length := by
  have hcount := Settlement.countP_deleted existing claims
  rw [← hsettled, winners_eq_self h] at hcount
  have hnone : claims.countP (fun c => c.action.state == .deleted) = 0 := by
    rw [List.countP_eq_zero]
    intro c _
    cases c.action <;> simp [Action.state]
  have hgenerated := hcount OutputState.isGenerated
  have hwritten := hcount (· == .written)
  have hdeleted := hcount (· == .deleted)
  rw [if_neg (by decide), Nat.add_zero] at hgenerated hwritten
  rw [if_pos (by decide), hnone, Nat.zero_add] at hdeleted
  exact ⟨hgenerated, hwritten, hdeleted⟩

/-! ## Progress without errors -/

namespace Progress

variable {p : Progress} {orphan : Path} {orphans : List Path} {failFast : Bool}

theorem errors_prefix_delete : p.errors <+: (p.delete orphan).errors := by
  unfold delete
  split
  · exact List.prefix_refl p.errors
  · exact List.prefix_append p.errors _

/-- Deletions without errors come after writes without errors, and none of them is left out. -/
theorem of_deleteAll_errors (h : (p.deleteAll failFast orphans).errors = []) :
    p.errors = [] ∧ p.deleteAll failFast orphans = p.deleteAll false orphans := by
  induction orphans generalizing p with
  | nil => exact ⟨h, rfl⟩
  | cons orphan rest ih =>
    rw [deleteAll] at h ⊢
    split at h
    · rename_i hstop
      simp [h] at hstop
    · rename_i hstop
      obtain ⟨hnil, heq⟩ := ih h
      rw [if_neg hstop, heq]
      exact ⟨List.prefix_nil.1 (hnil ▸ errors_prefix_delete), rfl⟩

theorem isAccepted_of_errors (h : p.errors = []) : p.IsAccepted := by
  intro e he
  rw [h] at he
  exact absurd he List.not_mem_nil

end Progress

namespace Settings

variable {s : Settings} {t t' : FileTree} {l : Location} {c : Claim} {p rel : Path}
  {report : Report} {templates : List Path}

/-! ## What a template contributes without errors -/

theorem exists_template_of_errors_nil (h : (s.process t rel).errors = []) :
    ∃ source template, t.read (s.templateRoot.join rel) = .ok source
      ∧ Template.ofText rel source s.vocabulary = .ok template
      ∧ s.process t rel = .join (template.instantiations.map
          (s.instantiate t template (t.modified? (s.templateRoot.join rel))))
      ∧ ∀ i ∈ template.instantiations,
          (s.instantiate t template (t.modified? (s.templateRoot.join rel)) i).errors = [] := by
  unfold process at h ⊢
  simp only at h ⊢
  cases hread : t.read (s.templateRoot.join rel) with
  | error fault => simp [hread] at h
  | ok source =>
    simp only [hread] at h ⊢
    cases htemplate : Template.ofText rel source s.vocabulary with
    | error e => simp [htemplate] at h
    | ok template =>
      simp only [htemplate, Contribution.join, List.flatMap_eq_nil_iff, List.forall_mem_map] at h
      exact ⟨source, template, rfl, htemplate, rfl, h⟩

/-- An instantiation without errors keeps its output, or writes its text. -/
theorem instantiate_of_errors_nil {template : Template} {modified : Option Nat} {i : Instantiation}
    (h : (s.instantiate t template modified i).errors = []) :
    ∃ action, (s.instantiate t template modified i).claims = [s.claim i action]
      ∧ (action = .keep ∧ t.isUpToDate (s.outputOf i) modified = true
        ∨ ∃ body, action = .write (s.outputText i body)) := by
  unfold instantiate at h ⊢
  split at h
  · rename_i hkeep
    rw [Bool.and_eq_true] at hkeep
    rw [if_pos (by simpa using hkeep)]
    exact ⟨.keep, rfl, .inl ⟨rfl, hkeep.2⟩⟩
  · rename_i hkeep
    rw [if_neg hkeep]
    cases hbody : template.specialize i.binding with
    | error e => simp [hbody] at h
    | ok body => exact ⟨_, rfl, .inr ⟨body, rfl⟩⟩

/-! ## Orphans and claims -/

/-- A claim on an output is not where an orphan is. -/
theorem destination_ne_of_mem_orphansOf (hs : t.Sound) {names : List String}
    (hp : p ∈ orphansOf (s.existingOutputs t) (s.claims t)) (hc : c ∈ s.claims t)
    (hpath : c.path = s.outputRoot.behind names) (hnames : ∀ name ∈ names, IsName name.toList) :
    p.destination t.working ≠ c.path.destination t.working := by
  obtain ⟨-, names', hp', hout, -⟩ :=
    (mem_existingOutputs_iff hs).1 (mem_of_mem_orphansOf hp)
  intro heq
  rw [hpath, hp', Path.destination_behind (isName_of_isOutput hs hout),
    Path.destination_behind hnames, List.append_cancel_left_eq] at heq
  have hnot := not_same_of_mem_orphansOf hp hc
  rw [hpath, hp', heq, Path.same, beq_self_eq_true] at hnot
  contradiction

/-! ## What a run without errors leaves -/

/-- What a run without errors leaves, and what it tells. -/
structure Settled (s : Settings) (t t' : FileTree) (told : Summary) : Prop where
  working : t'.working = t.working
  /-- Directories stay. -/
  directory : ∀ l, t.find? l = some .directory → t'.find? l = some .directory
  /-- What is to be written is there, and its path leads to it. -/
  written : ∀ c ∈ s.claims t, ∀ text, c.action = .write text →
    t'.locate c.path = .ok (c.path.destination t.working)
      ∧ t'.file? (c.path.destination t.working) = some ⟨some text, t.clock⟩
  /-- Orphans are gone. -/
  gone : ∀ p ∈ orphansOf (s.existingOutputs t) (s.claims t),
    t'.file? (p.destination t.working) = none
  /-- All other files are as they were. -/
  others : ∀ l, (∀ c ∈ s.claims t, ∀ text, c.action = .write text →
      c.path.destination t.working ≠ l) →
    (∀ p ∈ orphansOf (s.existingOutputs t) (s.claims t), p.destination t.working ≠ l) →
    t'.file? l = t.file? l
  /-- The numbers are those of the claims. -/
  told_eq : told.generated = (s.claims t).countP (fun c => c.action.state.isGenerated)
    ∧ told.updated = (s.claims t).countP (fun c => c.action.state == .written)
    ∧ told.deleted = (orphansOf (s.existingOutputs t) (s.claims t)).length

/-- A run without errors has nothing to tell of its first half, and none of its operations is refused. -/
theorem of_run_errors (h : s.run t = (.ok report, t')) (hclean : report.errors = []) :
    ∃ templates, s.templates t = .ok templates
      ∧ (∀ rel ∈ templates, (s.process t rel).errors = [])
      ∧ ((s.claims t).Pairwise fun c d => c.path.components ≠ d.path.components)
      ∧ ∃ between after : Progress,
        Progress.Wrote ⟨t, .settle (s.existingOutputs t) (s.claims t), []⟩
          ((winners (s.claims t)).filterMap Claim.write?) between
        ∧ between.Deleted (orphansOf (s.existingOutputs t) (s.claims t)) after
        ∧ (∀ o ∈ (winners (s.claims t)).filterMap Claim.write?,
            between.tree.locate o.1 = .ok (o.1.destination t.working))
        ∧ (∀ l, t.find? l = some .directory → between.tree.find? l = some .directory)
        ∧ (∀ l, between.tree.find? l = some .directory → after.tree.find? l = some .directory)
        ∧ after.tree = t' ∧ report = after.report templates.length := by
  cases htemplates : s.templates t with
  | error e =>
    have hplan : s.plan t = .error e := by
      unfold plan
      rw [htemplates]
    rw [run_of_scan_error hplan] at h
    cases h
  | ok templates =>
    have hplan := plan_eq htemplates
    generalize hall : (Contribution.join (templates.map (s.process t))).errors
      ++ (duplicatesAfter [] (s.claims t)).map .duplicate = errors at hplan
    cases hstopped : s.stopped? errors with
    | some e =>
      rw [run_of_stopped hplan hstopped] at h
      cases h
    | none =>
      rw [run_of_plan hplan hstopped] at h
      cases hdone : s.stopped? (Plan.execute s ⟨templates.length,
        .settle (s.existingOutputs t) (s.claims t), errors⟩ t).errors with
      | some e =>
        rw [hdone] at h
        cases h
      | none =>
        rw [hdone] at h
        cases h
        -- no error at the end means no error at any time before
        obtain ⟨hbetween, hdelete⟩ := Progress.of_deleteAll_errors hclean
        have haccepted := Progress.isAccepted_of_errors hbetween
        have hwrote := Progress.wrote_foldl haccepted
        have herrors : errors = [] := hwrote.errors.symm.trans hbetween
        subst herrors
        rw [List.append_eq_nil_iff, List.map_eq_nil_iff, duplicatesAfter_eq_nil_iff] at hall
        have hafter := Progress.isAccepted_of_errors hclean
        unfold Plan.execute at hafter ⊢
        rw [hdelete] at hafter ⊢
        refine ⟨templates, rfl, fun rel hrel => ?_, hall.2.2, _, _, hwrote,
          Progress.deleted_deleteAll hafter, fun o ho => Progress.locate_foldl_write haccepted ho,
          fun l hl => Progress.directory_foldl_write hl,
          fun l hl => Progress.directory_deleteAll hl, rfl, rfl⟩
        have hnil := hall.1
        simp only [Contribution.join, List.flatMap_eq_nil_iff, List.forall_mem_map] at hnil
        exact hnil rel hrel

/-- What a run without errors leaves and tells. -/
theorem settled_run (hs : t.Sound) (h : s.run t = (.ok report, t')) (hclean : report.errors = []) :
    ∃ templates, s.templates t = .ok templates ∧ report.summary.templates = templates.length
      ∧ (∀ rel ∈ templates, (s.process t rel).errors = [])
      ∧ ((s.claims t).Pairwise fun c d => c.path.components ≠ d.path.components)
      ∧ s.Settled t t' report.summary := by
  obtain ⟨templates, htemplates, herrors, hpairwise, between, after, hwrote, hdeleted, hlocate,
    hbefore, hbehind, rfl, rfl⟩ := of_run_errors h hclean
  have hdestinations := pairwise_destination_writes (s := s) hs
  rw [winners_eq_self hpairwise] at hwrote hlocate hdestinations
  have hsettlement : after.settlement = (orphansOf (s.existingOutputs t) (s.claims t)).foldl
      (fun s p => s.mark p .deleted) (.settle (s.existingOutputs t) (s.claims t)) := by
    rw [hdeleted.settlement, hwrote.settlement]
  have hworking : between.tree.working = t.working := hwrote.working
  have hmem {c : Claim} {text : String} (hc : c ∈ s.claims t) (hwrite : c.action = .write text) :
      (c.path, text) ∈ (s.claims t).filterMap Claim.write? :=
    List.mem_filterMap.2 ⟨c, hc, Claim.write?_eq_some_iff.2 ⟨hwrite, rfl⟩⟩
  have hlate (l : Location) (hl : ∀ p ∈ orphansOf (s.existingOutputs t) (s.claims t),
      p.destination t.working ≠ l) : after.tree.file? l = between.tree.file? l := by
    unfold FileTree.file?
    rw [hdeleted.others l fun p hp => ?_]
    rw [hworking]
    exact hl p hp
  refine ⟨templates, htemplates, rfl, herrors, hpairwise, ?_⟩
  constructor
  · exact hdeleted.working.trans hworking
  · exact fun l hl => hbehind l (hbefore l hl)
  · intro c hc text hwrite
    obtain ⟨names, hpath, hnames⟩ := exists_names_of_write hs hc hwrite
    constructor
    · refine FileTree.locate_of_directories hdeleted.working hbehind ?_
      exact hlocate _ (hmem hc hwrite)
    · have hwritten := hwrote.written hdestinations (c.path, text) (hmem hc hwrite)
      rw [hlate _ fun p hp => destination_ne_of_mem_orphansOf hs hp hc hpath hnames]
      exact hwritten
  · intro p hp
    have hgone := hdeleted.gone p hp
    rw [hworking] at hgone
    unfold FileTree.file?
    rw [hgone]
  · intro l hclaims horphans
    rw [hlate l horphans]
    refine hwrote.others l fun o ho => ?_
    obtain ⟨c, hc, hco⟩ := List.mem_filterMap.1 ho
    obtain ⟨hwrite, hpath⟩ := Claim.write?_eq_some_iff.1 hco
    rw [← hpath]
    exact hclaims c hc o.2 hwrite
  · exact counts_deleted hpairwise hsettlement

end Settings

end Stencil
