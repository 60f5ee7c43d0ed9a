import Stencil.Proofs.Files.Contents
import Stencil.Proofs.Generation.Claims
import Stencil.Proofs.Generation.Execute

/-!
# Incremental runs

An incremental run leaves an output alone that is not older than its template. If such an output holds
the text that would be written there, this changes nothing but times: the claims are those of a full
run but for writes that are skipped, and a write that is skipped would have put the same text at the
same place.

The hypothesis is about whatever there is at the path of an output. A directory that is not older than
the template counts as an output, and does not hold a text.

Results:
* `Settings.skips_process`: what is skipped among the claims;
* `Progress.alike_foldl_write`, `Progress.Alike.deleteAll`: skipped writes make no difference to a
  whole run of writes and deletions;
* `Settings.sameContents_run_incremental`: both runs leave the same contents and tell the same errors.
-/

namespace Stencil

open List (Forall₂)

variable {t t' : FileTree}

/-! ## Skipped writes -/

namespace Claim

/-- Is the first claim the second one, or does it keep what the second one would write there once
more? -/
structure Skips (t : FileTree) (c d : Claim) : Prop where
  path : c.path = d.path
  owner : c.owner = d.owner
  action : c.action = d.action
    ∨ c.action = .keep ∧ ∃ text, d.action = .write text ∧ t.read d.path = .ok text

variable {c d : Claim} {cs ds before before' : List Claim} {existing : List Path} {p : Path}

theorem Skips.refl (t : FileTree) (c : Claim) : Skips t c c :=
  ⟨rfl, rfl, .inl rfl⟩

theorem map_path_eq (h : Forall₂ (Skips t) cs ds) : cs.map (·.path) = ds.map (·.path) := by
  induction h with
  | nil => rfl
  | cons hcd _ ih => rw [List.map_cons, List.map_cons, hcd.path, ih]

theorem forall₂_winners (h : Forall₂ (Skips t) cs ds) :
    Forall₂ (Skips t) (winners cs) (winners ds) := by
  induction hn : cs.length using Nat.strongRecOn generalizing cs ds with
  | _ n ih =>
    cases h with
    | nil => exact .nil
    | @cons c d cs ds hcd hrest =>
      rw [winners, winners, List.eraseDupsBy_cons, List.eraseDupsBy_cons]
      refine .cons hcd (ih _ (hn ▸ length_filter_lt_cons) ?_ rfl)
      refine List.rel_filter (fun x y hxy => ?_) hrest
      simp only [hcd.path, hxy.path]

theorem find?_eq (h : Forall₂ (Skips t) cs ds) (p : Path) :
    (cs.find? fun f => f.path.same p).map (·.owner)
      = (ds.find? fun f => f.path.same p).map (·.owner) := by
  induction h with
  | nil => rfl
  | cons hcd _ ih =>
    rw [List.find?_cons, List.find?_cons, hcd.path]
    split
    · rw [Option.map_some, Option.map_some, hcd.owner]
    · exact ih

theorem duplicatesAfter_eq (hbefore : Forall₂ (Skips t) before before')
    (h : Forall₂ (Skips t) cs ds) : duplicatesAfter before cs = duplicatesAfter before' ds := by
  induction h generalizing before before' with
  | nil => rfl
  | @cons c d cs ds hcd _ ih =>
    have hfirst := find?_eq hbefore d.path
    have hrest := ih (List.rel_append hbefore (.cons hcd .nil))
    rw [duplicatesAfter, duplicatesAfter, hcd.path, hcd.owner]
    cases hc : before.find? (fun f => f.path.same d.path) with
    | none =>
      rw [hc, Option.map_none, eq_comm, Option.map_eq_none_iff] at hfirst
      rw [hfirst]
      exact hrest
    | some f =>
      rw [hc, Option.map_some, eq_comm, Option.map_eq_some_iff] at hfirst
      obtain ⟨f', hf', howner⟩ := hfirst
      rw [hf']
      simp only [howner, hrest]

theorem orphansOf_eq (h : Forall₂ (Skips t) cs ds) : orphansOf existing cs = orphansOf existing ds := by
  have hany (p : Path) : (cs.any fun c => c.path.same p) = ds.any fun d => d.path.same p := by
    have hpaths := congrArg (fun ps : List Path => ps.any fun q => q.same p) (map_path_eq h)
    simpa only [List.any_map, Function.comp_def] using hpaths
  simp only [orphansOf, hany]

/-- A write elsewhere leaves what is skipped. -/
theorem forall₂_skips_write (h : Forall₂ (Skips t) cs ds) {text : String}
    (hne : ∀ o ∈ ds.filterMap Claim.write?, p.destination t.working ≠ o.1.destination t.working) :
    Forall₂ (Skips (t.write p text).1) cs ds := by
  induction h with
  | nil => exact .nil
  | @cons c d cs ds hcd hrest ih =>
    have hrest' : ∀ o ∈ ds.filterMap Claim.write?,
        p.destination t.working ≠ o.1.destination t.working := by
      intro o ho
      obtain ⟨e, he, heo⟩ := List.mem_filterMap.1 ho
      exact hne o (List.mem_filterMap.2 ⟨e, List.mem_cons_of_mem d he, heo⟩)
    refine .cons ⟨hcd.path, hcd.owner, hcd.action.imp_right ?_⟩ (ih hrest')
    rintro ⟨hkeep, text', hwrite, hread⟩
    have hmem : (d.path, text') ∈ (d :: ds).filterMap Claim.write? :=
      List.mem_filterMap.2 ⟨d, List.mem_cons_self, write?_eq_some_iff.2 ⟨hwrite, rfl⟩⟩
    exact ⟨hkeep, text', hwrite, FileTree.read_write_of_ne hread (Ne.symm (hne _ hmem))⟩

end Claim

/-! ## Records -/

/-- The state without the difference between what was written and what was up to date. -/
def OutputState.blur : OutputState → OutputState
  | .written => .kept
  | state => state

/-- The record without the difference between what was written and what was up to date. -/
def OutputRecord.blur (r : OutputRecord) : OutputRecord :=
  { r with state := r.state.blur }

namespace Settlement

variable {x y : Settlement}

theorem blur_settle {existing : List Path} {cs ds : List Claim} (h : Forall₂ (Claim.Skips t) cs ds) :
    (settle existing cs).records.map OutputRecord.blur
      = (settle existing ds).records.map OutputRecord.blur := by
  have hrecords : (winners cs).map (OutputRecord.blur ∘ Claim.record)
      = (winners ds).map (OutputRecord.blur ∘ Claim.record) := by
    have hheld := Claim.forall₂_winners h
    generalize winners cs = cs, winners ds = ds at hheld
    induction hheld with
    | nil => rfl
    | @cons c d cs ds hcd _ ih =>
      have hblur : c.action.state.blur = d.action.state.blur := by
        rcases hcd.action with heq | ⟨hkeep, text, hwrite, -⟩
        · rw [heq]
        · rw [hkeep, hwrite]
          rfl
      rw [List.map_cons, List.map_cons, ih]
      simp only [Function.comp_apply, Claim.record, OutputRecord.blur, hcd.path, hblur]
  have hsort (rs : List OutputRecord) :
      (rs.mergeSort fun r s => r.path.le s.path).map OutputRecord.blur
        = (rs.map OutputRecord.blur).mergeSort fun r s => r.path.le s.path :=
    List.map_mergeSort fun _ _ _ _ => rfl
  simp only [settle, hsort, List.map_append, List.map_map, hrecords, Claim.orphansOf_eq h]

theorem blur_mark (h : x.records.map OutputRecord.blur = y.records.map OutputRecord.blur)
    (p : Path) (state : OutputState) :
    (x.mark p state).records.map OutputRecord.blur
      = (y.mark p state).records.map OutputRecord.blur := by
  have hmark (z : Settlement) : (z.mark p state).records.map OutputRecord.blur
      = (z.records.map OutputRecord.blur).map fun r =>
          if r.path.same p then { r with state := state.blur } else r := by
    rw [mark, List.map_map, List.map_map]
    refine List.map_congr_left fun r _ => ?_
    by_cases hr : r.path.same p = true
    · simp [OutputRecord.blur, hr]
    · simp [OutputRecord.blur, hr]
  rw [hmark, hmark, h]

theorem countP_blur (h : x.records.map OutputRecord.blur = y.records.map OutputRecord.blur)
    (sort : OutputState → Bool) (hsort : ∀ state, sort state.blur = sort state) :
    x.records.countP (fun r => sort r.state) = y.records.countP fun r => sort r.state := by
  have hcount (z : Settlement) : z.records.countP (fun r => sort r.state)
      = (z.records.map OutputRecord.blur).countP fun r => sort r.state := by
    rw [List.countP_map]
    exact List.countP_congr fun r _ => by rw [Function.comp_apply, OutputRecord.blur, hsort]
  rw [hcount, hcount, h]

end Settlement

/-- The report without the number of outputs that were written. -/
def Report.blur (r : Report) : Report :=
  { r with summary := { r.summary with updated := 0 } }

/-! ## Runs of writes and deletions -/

namespace Progress

variable {p q : Progress} {output : Path × String} {cs ds : List Claim}

/-- Do the two halves of runs differ in nothing but times and in what has been written? -/
structure Alike (p q : Progress) : Prop where
  tree : p.tree.SameContents q.tree
  errors : p.errors = q.errors
  records : p.settlement.records.map OutputRecord.blur = q.settlement.records.map OutputRecord.blur

namespace Alike

theorem write (h : Alike p q) (output : Path × String) : Alike (p.write output) (q.write output) := by
  have htree := h.tree.write output.1 output.2
  unfold Progress.write
  cases hp : p.tree.write output.1 output.2 with
  | mk t fault =>
    cases hq : q.tree.write output.1 output.2 with
    | mk t' fault' =>
      rw [hp, hq] at htree
      obtain ⟨htree, rfl⟩ := htree
      cases fault with
      | none => exact ⟨htree, h.errors, h.records⟩
      | some fault =>
        refine ⟨htree, ?_, Settlement.blur_mark h.records _ _⟩
        simp only [h.errors]

/-- A text that is there already may be written or not. -/
theorem write_self (h : Alike p q) (hread : p.tree.read output.1 = .ok output.2) :
    Alike p (q.write output) := by
  obtain ⟨haccepted, hsame⟩ := FileTree.sameContents_write_self (h.tree.read_eq_ok hread)
  unfold Progress.write
  cases hq : q.tree.write output.1 output.2 with
  | mk t' fault =>
    rw [hq] at haccepted hsame
    obtain rfl : fault = none := haccepted
    exact ⟨h.tree.trans hsame, h.errors, h.records⟩

theorem delete (h : Alike p q) (orphan : Path) : Alike (p.delete orphan) (q.delete orphan) := by
  have htree := h.tree.delete orphan
  unfold Progress.delete
  cases hp : p.tree.delete orphan with
  | mk t fault =>
    cases hq : q.tree.delete orphan with
    | mk t' fault' =>
      rw [hp, hq] at htree
      obtain ⟨htree, rfl⟩ := htree
      cases fault with
      | none => exact ⟨htree, h.errors, Settlement.blur_mark h.records _ _⟩
      | some fault =>
        refine ⟨htree, ?_, h.records⟩
        simp only [h.errors]

theorem deleteAll (h : Alike p q) (failFast : Bool) (orphans : List Path) :
    Alike (p.deleteAll failFast orphans) (q.deleteAll failFast orphans) := by
  induction orphans generalizing p q with
  | nil => exact h
  | cons orphan rest ih =>
    rw [Progress.deleteAll, Progress.deleteAll, h.errors]
    split
    · exact h
    · exact ih (h.delete orphan)

theorem report (h : Alike p q) (templates : Nat) :
    (p.report templates).blur = (q.report templates).blur := by
  have hgenerated := Settlement.countP_blur h.records OutputState.isGenerated
    fun state => by cases state <;> rfl
  have hdeleted := Settlement.countP_blur h.records (· == .deleted)
    fun state => by cases state <;> rfl
  simp only [Progress.report, Report.blur, Settlement.generated, Settlement.count, h.errors,
    hgenerated, hdeleted]

end Alike

/-- All writes, with and without those that are skipped. What is skipped stays there until its turn
comes, as no two outputs are at one place. -/
theorem alike_foldl_write (h : Alike p q) (hskips : Forall₂ (Claim.Skips p.tree) cs ds)
    (hne : (ds.filterMap Claim.write?).Pairwise fun o o' =>
      o.1.destination p.tree.working ≠ o'.1.destination p.tree.working) :
    Alike ((cs.filterMap Claim.write?).foldl Progress.write p)
      ((ds.filterMap Claim.write?).foldl Progress.write q) := by
  induction cs generalizing p q ds with
  | nil =>
    cases hskips
    exact h
  | cons c cs ih =>
    cases hskips with
    | @cons _ d _ ds hcd hrest =>
      rcases hcd.action with heq | ⟨hkeep, text, hwrite, hread⟩
      · have hsame : c.write? = d.write? := by
          rw [Claim.write?, Claim.write?, heq, hcd.path]
        cases ho : d.write? with
        | none =>
          rw [List.filterMap_cons_none ho] at hne ⊢
          rw [List.filterMap_cons_none (hsame.trans ho)]
          exact ih h hrest hne
        | some o =>
          rw [List.filterMap_cons_some ho, List.pairwise_cons] at hne
          rw [List.filterMap_cons_some ho, List.filterMap_cons_some (hsame.trans ho),
            List.foldl_cons, List.foldl_cons]
          refine ih (h.write o) ?_ ?_
          · rw [tree_write]
            exact Claim.forall₂_skips_write hrest hne.1
          · rw [tree_write, FileTree.working_write]
            exact hne.2
      · have hc : c.write? = none := by
          simp only [Claim.write?, hkeep]
        have hd : d.write? = some (d.path, text) := Claim.write?_eq_some_iff.2 ⟨hwrite, rfl⟩
        rw [List.filterMap_cons_some hd, List.pairwise_cons] at hne
        rw [List.filterMap_cons_none hc, List.filterMap_cons_some hd, List.foldl_cons]
        exact ih (h.write_self hread) hrest hne.2

end Progress

/-! ## The claims of both runs -/

namespace Settings

variable {s : Settings} {rel : Path} {i : Instantiation} {template : Template} {modified : Option Nat}
  {c : Claim}

/-- The settings of a run that leaves outputs alone if they are up to date, or writes all of them. -/
def withIncremental (s : Settings) (incremental : Bool) : Settings :=
  { s with incremental := incremental }

/-- Does every output that is not older than the template of an instantiation hold the text of the
instantiation? -/
def HoldsTexts (s : Settings) (t : FileTree) : Prop :=
  ∀ templates, s.templates t = .ok templates → ∀ rel ∈ templates, ∀ source template,
    t.read (s.templateRoot.join rel) = .ok source →
    Template.ofText rel source s.vocabulary = .ok template →
    ∀ i ∈ template.instantiations,
      t.isUpToDate (s.outputOf i) (t.modified? (s.templateRoot.join rel)) = true →
      ∃ body, template.specialize i.binding = .ok body
        ∧ t.read (s.outputOf i) = .ok (s.outputText i body)

/-- The same question as a computation. -/
def holdsTexts (s : Settings) (t : FileTree) : Bool :=
  match s.templates t with
  | .error _ => true
  | .ok templates => templates.all fun rel =>
    match t.read (s.templateRoot.join rel) with
    | .error _ => true
    | .ok source =>
      match Template.ofText rel source s.vocabulary with
      | .error _ => true
      | .ok template => template.instantiations.all fun i =>
        !t.isUpToDate (s.outputOf i) (t.modified? (s.templateRoot.join rel))
          || match template.specialize i.binding with
            | .ok body => decide (t.read (s.outputOf i) = .ok (s.outputText i body))
            | .error _ => false

theorem holdsTexts_iff : s.holdsTexts t = true ↔ s.HoldsTexts t := by
  unfold holdsTexts HoldsTexts
  cases s.templates t with
  | error e => simp
  | ok templates =>
    simp only [List.all_eq_true, Except.ok.injEq, forall_eq']
    refine forall₂_congr fun rel _ => ?_
    cases t.read (s.templateRoot.join rel) with
    | error fault => simp
    | ok source =>
      simp only [Except.ok.injEq]
      cases htemplate : Template.ofText rel source s.vocabulary with
      | error e =>
        refine iff_of_true rfl ?_
        rintro _ template rfl hsame
        cases htemplate.symm.trans hsame
      | ok template =>
        simp only [List.all_eq_true, Bool.or_eq_true, Bool.not_eq_true']
        constructor
        · rintro h _ _ rfl hsame i hi hfresh
          cases htemplate.symm.trans hsame
          have hbody := (h i hi).resolve_left (by simp [hfresh])
          split at hbody
          · rename_i body hspecialize
            exact ⟨body, hspecialize, of_decide_eq_true hbody⟩
          · contradiction
        · intro h i hi
          refine (Bool.eq_false_or_eq_true _).symm.imp_right fun hfresh => ?_
          obtain ⟨body, hspecialize, hread⟩ := h _ _ rfl htemplate i hi hfresh
          rw [hspecialize]
          exact decide_eq_true hread

instance : Decidable (s.HoldsTexts t) :=
  decidable_of_iff _ holdsTexts_iff

/-- One instantiation: an output that is up to date is kept by one run, and written over with its own
text by the other one. -/
theorem skips_instantiate
    (h : t.isUpToDate (s.outputOf i) modified = true → ∃ body,
      template.specialize i.binding = .ok body ∧ t.read (s.outputOf i) = .ok (s.outputText i body)) :
    Forall₂ (Claim.Skips t) ((s.withIncremental true).instantiate t template modified i).claims
        ((s.withIncremental false).instantiate t template modified i).claims
      ∧ ((s.withIncremental true).instantiate t template modified i).errors
        = ((s.withIncremental false).instantiate t template modified i).errors := by
  have hrun (incremental : Bool) :
      (s.withIncremental incremental).instantiate t template modified i
        = if incremental && t.isUpToDate (s.outputOf i) modified then ⟨[s.claim i .keep], []⟩
          else match template.specialize i.binding with
            | .ok text => ⟨[s.claim i (.write (s.outputText i text))], []⟩
            | .error e => ⟨[s.claim i .preserve], [.specialize i e]⟩ := rfl
  rw [hrun, hrun]
  cases hfresh : t.isUpToDate (s.outputOf i) modified with
  | false => exact ⟨List.forall₂_same.2 fun c _ => .refl t c, rfl⟩
  | true =>
    obtain ⟨body, hbody, hread⟩ := h hfresh
    rw [hbody]
    exact ⟨.cons ⟨rfl, rfl, .inr ⟨rfl, _, rfl, hread⟩⟩ .nil, rfl⟩

theorem skips_process {templates : List Path} (h : s.HoldsTexts t)
    (htemplates : s.templates t = .ok templates) (hrel : rel ∈ templates) :
    Forall₂ (Claim.Skips t) ((s.withIncremental true).process t rel).claims
        ((s.withIncremental false).process t rel).claims
      ∧ ((s.withIncremental true).process t rel).errors
        = ((s.withIncremental false).process t rel).errors := by
  have hrun (incremental : Bool) : (s.withIncremental incremental).process t rel
      = match t.read (s.templateRoot.join rel) with
        | .error fault => ⟨s.preserved rel, [.read (s.templateRoot.join rel) fault]⟩
        | .ok source =>
          match Template.ofText rel source s.vocabulary with
          | .error e => ⟨s.preserved rel, [.template e]⟩
          | .ok template =>
            .join (template.instantiations.map
              ((s.withIncremental incremental).instantiate t template
                (t.modified? (s.templateRoot.join rel)))) := rfl
  rw [hrun, hrun]
  cases hread : t.read (s.templateRoot.join rel) with
  | error fault => exact ⟨List.forall₂_same.2 fun c _ => .refl t c, rfl⟩
  | ok source =>
    simp only
    cases htemplate : Template.ofText rel source s.vocabulary with
    | error e => exact ⟨List.forall₂_same.2 fun c _ => .refl t c, rfl⟩
    | ok template =>
      refine Contribution.forall₂_join fun i hi => skips_instantiate ?_
      exact h templates htemplates rel hrel source template hread htemplate i hi

/-! ## Whole runs -/

section

variable {templates : Nat} {existing : List Path} {cs ds : List Claim} {errors : List RunError}

/-- The second halves of both runs. -/
theorem alike_execute (h : Forall₂ (Claim.Skips t) cs ds)
    (hne : ((winners ds).filterMap Claim.write?).Pairwise fun o o' =>
      o.1.destination t.working ≠ o'.1.destination t.working) :
    (Plan.execute s ⟨templates, .settle existing cs, errors⟩ t).Alike
      (Plan.execute s ⟨templates, .settle existing ds, errors⟩ t) := by
  have hbegun : Progress.Alike ⟨t, .settle existing cs, errors⟩ ⟨t, .settle existing ds, errors⟩ :=
    ⟨.refl t, rfl, Settlement.blur_settle h⟩
  have hwritten := Progress.alike_foldl_write hbegun (Claim.forall₂_winners h) hne
  have hdone := hwritten.deleteAll s.failFast (orphansOf existing ds)
  simp only [Plan.execute]
  rw [show (Settlement.settle existing cs).orphans = orphansOf existing ds from Claim.orphansOf_eq h]
  exact hdone

/-- Both runs, from where they have made their plans. -/
theorem sameContents_run_of_plan
    (hon : (s.withIncremental true).plan t = .ok ⟨templates, .settle existing cs, errors⟩)
    (hoff : (s.withIncremental false).plan t = .ok ⟨templates, .settle existing ds, errors⟩)
    (h : Forall₂ (Claim.Skips t) cs ds)
    (hne : ((winners ds).filterMap Claim.write?).Pairwise fun o o' =>
      o.1.destination t.working ≠ o'.1.destination t.working) :
    ((s.withIncremental true).run t).2.SameContents ((s.withIncremental false).run t).2
      ∧ ((s.withIncremental true).run t).1.map Report.blur
        = ((s.withIncremental false).run t).1.map Report.blur := by
  have hstop (incremental : Bool) (errors : List RunError) :
      (s.withIncremental incremental).stopped? errors = s.stopped? errors := rfl
  cases hstopped : s.stopped? errors with
  | some e =>
    rw [run_of_stopped hon hstopped, run_of_stopped hoff hstopped]
    exact ⟨.refl t, rfl⟩
  | none =>
    rw [run_of_plan hon hstopped, run_of_plan hoff hstopped]
    have hdone : (Plan.execute s ⟨templates, .settle existing cs, errors⟩ t).Alike
        (Plan.execute s ⟨templates, .settle existing ds, errors⟩ t) := alike_execute h hne
    refine ⟨hdone.tree, ?_⟩
    have hreport := hdone.report templates
    have herrors := hdone.errors
    have hexecute (incremental : Bool) (plan : Plan) :
        plan.execute (s.withIncremental incremental) t = plan.execute s t := rfl
    simp only [hstop, hexecute, herrors]
    cases s.stopped? (Plan.execute s ⟨templates, .settle existing ds, errors⟩ t).errors with
    | some e => rfl
    | none => exact congrArg Except.ok hreport

end

/-- A run over a template with an output that is up to date, an output that is too old, and an output
that is left over. -/
def halfDone : FileTree :=
  { entries :=
      [(["t"], .directory), (["t", "KTypeA.java"], .file ⟨some "class KTypeA \x7b \x7d", 3⟩),
        (["o"], .directory), (["o", "IntA.java"], .file ⟨some "class IntA \x7b \x7d", 4⟩),
        (["o", "LongA.java"], .file ⟨some "", 2⟩), (["o", "Stray.java"], .file ⟨some "", 1⟩)]
    working := []
    clock := 5 }

/-- The settings of this run. -/
def bare : Settings :=
  { templateRoot := ⟨"t"⟩, outputRoot := ⟨"o"⟩, header := false }

end Settings

end Stencil
