import Stencil.Proofs.Generation.Preserve
import Stencil.Proofs.Generation.SecondRun

/-!
# Runs that end at the first error

A run that is to end at its first error does all that can go wrong with templates and claims before
it touches a file. If something does go wrong there, it ends and leaves the files as they are, however
many good templates there are. From then on only a refusal by the system can end it.

Results: when a run ends with the files as they are (`Settings.stops_iff_isFlawed`).
-/

namespace Stencil

/-! ## Errors of the second half -/

theorem RunError.of_mem_concat {errors : List RunError} {e refusal : RunError}
    (hrefusal : refusal.isRefusal = true) (h : e ∈ errors ++ [refusal]) :
    e ∈ errors ∨ e.isRefusal = true := by
  rcases List.mem_append.1 h with h | h
  · exact .inl h
  · rw [List.mem_singleton.1 h]
    exact .inr hrefusal

namespace Progress

variable {p : Progress} {e : RunError}

/-- A write adds no error but its refusal. -/
theorem of_mem_errors_write {output : Path × String} (h : e ∈ (p.write output).errors) :
    e ∈ p.errors ∨ e.isRefusal = true := by
  unfold write at h
  split at h
  · exact .inl h
  · exact RunError.of_mem_concat rfl h

theorem of_mem_errors_foldl_write {outputs : List (Path × String)}
    (h : e ∈ (outputs.foldl write p).errors) : e ∈ p.errors ∨ e.isRefusal = true := by
  induction outputs generalizing p with
  | nil => exact .inl h
  | cons output rest ih =>
    rcases ih h with h | h
    · exact of_mem_errors_write h
    · exact .inr h

/-- A deletion adds no error but its refusal. -/
theorem of_mem_errors_delete {orphan : Path} (h : e ∈ (p.delete orphan).errors) :
    e ∈ p.errors ∨ e.isRefusal = true := by
  unfold delete at h
  split at h
  · exact .inl h
  · exact RunError.of_mem_concat rfl h

theorem of_mem_errors_deleteAll {failFast : Bool} {orphans : List Path}
    (h : e ∈ (p.deleteAll failFast orphans).errors) : e ∈ p.errors ∨ e.isRefusal = true := by
  induction orphans generalizing p with
  | nil => exact .inl h
  | cons orphan rest ih =>
    rw [deleteAll] at h
    split at h
    · exact .inl h
    · rcases ih h with h | h
      · exact of_mem_errors_delete h
      · exact .inr h

end Progress

/-- Whatever the second half of a run adds to the errors is a refusal. -/
theorem Plan.of_mem_errors_execute {s : Settings} {t : FileTree} {plan : Plan} {e : RunError}
    (h : e ∈ (plan.execute s t).errors) : e ∈ plan.errors ∨ e.isRefusal = true := by
  rcases Progress.of_mem_errors_deleteAll h with h | h
  · exact Progress.of_mem_errors_foldl_write h
  · exact .inr h

namespace Settings

variable {s : Settings} {t : FileTree} {rel : Path} {templates : List Path} {template : Template}
  {modified : Option Nat} {i : Instantiation} {plan : Plan}

/-! ## What can be wrong before a file is touched -/

/-- Is the output of an instantiation left alone, since it is not older than its template? -/
def IsKept (s : Settings) (t : FileTree) (modified : Option Nat) (i : Instantiation) : Prop :=
  s.incremental = true ∧ t.isUpToDate (s.outputOf i) modified = true

/-- Is something wrong with the templates that a run finds, or with their claims? -/
inductive IsFlawed (s : Settings) (t : FileTree) : Prop where
  /-- A template cannot be read, or its text is no template. -/
  | broken {templates : List Path} {rel : Path} (found : s.templates t = .ok templates)
      (mem : rel ∈ templates) (broken : s.IsBroken t rel)
  /-- An instantiation has no text, and its output is not kept. -/
  | unspecialized {templates : List Path} {rel : Path} {source : String} {template : Template}
      {i : Instantiation} {e : SpecializeError} (found : s.templates t = .ok templates)
      (mem : rel ∈ templates) (read : t.read (s.templateRoot.join rel) = .ok source)
      (parsed : Template.ofText rel source s.vocabulary = .ok template)
      (bound : i ∈ template.instantiations)
      (notKept : ¬s.IsKept t (t.modified? (s.templateRoot.join rel)) i)
      (failed : template.specialize i.binding = .error e)
  /-- Two claims are on one path. -/
  | doubled {c d : Claim} (claims : [c, d].Sublist (s.claims t)) (same : c.path.same d.path = true)

/-! ## Errors of the first half -/

theorem instantiate_errors_ne_nil_iff : (s.instantiate t template modified i).errors ≠ []
    ↔ ¬s.IsKept t modified i ∧ ∃ e, template.specialize i.binding = .error e := by
  unfold instantiate IsKept
  rw [← Bool.and_eq_true]
  split
  · rename_i hkept
    exact iff_of_false (fun h => h rfl) fun h => h.1 hkept
  · rename_i hkept
    split
    · rename_i text htext
      simp [htext]
    · rename_i e he
      simp [hkept, he]

/-- A template has errors if it is broken, or if one of its instantiations has no text. -/
theorem process_errors_ne_nil_iff : (s.process t rel).errors ≠ [] ↔ s.IsBroken t rel
    ∨ ∃ source template, t.read (s.templateRoot.join rel) = .ok source
      ∧ Template.ofText rel source s.vocabulary = .ok template ∧ ∃ i ∈ template.instantiations,
        ¬s.IsKept t (t.modified? (s.templateRoot.join rel)) i
          ∧ ∃ e, template.specialize i.binding = .error e := by
  unfold process IsBroken
  dsimp only
  cases hread : t.read (s.templateRoot.join rel) with
  | error fault => simp
  | ok source =>
    cases htemplate : Template.ofText rel source s.vocabulary with
    | error e => simp [htemplate]
    | ok template =>
      simp only [htemplate, Contribution.join, ne_eq, List.flatMap_eq_nil_iff, List.forall_mem_map,
        not_forall]
      constructor
      · rintro ⟨i, hi, herrors⟩
        exact .inr ⟨source, template, rfl, htemplate, i, hi, instantiate_errors_ne_nil_iff.1 herrors⟩
      · rintro (hbroken | ⟨source, template, hsource, htemplate', i, hi, hfailed⟩)
        · obtain ⟨e, he⟩ := hbroken source rfl
          cases htemplate.symm.trans he
        · cases hsource
          cases htemplate.symm.trans htemplate'
          exact ⟨i, hi, instantiate_errors_ne_nil_iff.2 hfailed⟩

theorem path_of_ofText_eq_error {path : Path} {text : String} {v : Vocabulary} {e : TemplateError}
    (h : Template.ofText path text v = .error e) : e.path = path := by
  simp only [Template.ofText] at h
  split at h
  · cases h
    rfl
  · split at h
    · contradiction
    · split at h <;> cases h <;> rfl

/-- An error of a template tells which template it is about. -/
theorem of_mem_errors_process {e : RunError} (h : e ∈ (s.process t rel).errors) :
    (∃ fault, e = .read (s.templateRoot.join rel) fault)
      ∨ (∃ fault, e = .template ⟨rel, fault⟩)
      ∨ ∃ i fault, i.template = rel ∧ e = .specialize i fault := by
  unfold process at h
  dsimp only at h
  split at h
  · rename_i fault _
    exact .inl ⟨fault, List.mem_singleton.1 h⟩
  · split at h
    · rename_i error herror
      rw [List.mem_singleton.1 h, ← path_of_ofText_eq_error herror]
      exact .inr (.inl ⟨error.fault, rfl⟩)
    · rename_i template htemplate
      simp only [Contribution.join, List.mem_flatMap, List.mem_map] at h
      obtain ⟨_, ⟨i, hi, rfl⟩, he⟩ := h
      unfold instantiate at he
      split at he
      · exact absurd he List.not_mem_nil
      · split at he
        · exact absurd he List.not_mem_nil
        · rename_i fault _
          obtain ⟨b, -, rfl⟩ := List.mem_map.1 hi
          exact .inr (.inr ⟨_, fault, path_of_ofText htemplate, List.mem_singleton.1 he⟩)

/-- Nothing is refused to a template or an instantiation, since they only read. -/
theorem isRefusal_of_mem_process {e : RunError} (h : e ∈ (s.process t rel).errors) :
    e.isRefusal = false := by
  rcases of_mem_errors_process h with ⟨_, rfl⟩ | ⟨_, rfl⟩ | ⟨_, _, -, rfl⟩ <;> rfl

theorem isRefusal_of_mem_plan {e : RunError} (hplan : s.plan t = .ok plan) (h : e ∈ plan.errors) :
    e.isRefusal = false := by
  unfold Settings.plan at hplan
  split at hplan
  · contradiction
  · cases hplan
    rcases List.mem_append.1 h with h | h
    · simp only [Contribution.join, List.mem_flatMap, List.mem_map] at h
      obtain ⟨_, ⟨rel, -, rfl⟩, he⟩ := h
      exact isRefusal_of_mem_process he
    · obtain ⟨d, -, rfl⟩ := List.mem_map.1 h
      rfl

/-- The first half of a run has errors exactly if something is wrong. -/
theorem isFlawed_iff_errors (hplan : s.plan t = .ok plan) : s.IsFlawed t ↔ plan.errors ≠ [] := by
  cases hfound : s.templates t with
  | error e =>
    rw [Settings.plan, hfound] at hplan
    contradiction
  | ok templates =>
    rw [plan_eq hfound, Except.ok.injEq] at hplan
    subst hplan
    rw [ne_eq, List.append_eq_nil_iff, List.map_eq_nil_iff, duplicatesAfter_eq_nil_iff,
      List.pairwise_iff_forall_sublist]
    simp only [Contribution.join, List.flatMap_eq_nil_iff, List.forall_mem_map]
    constructor
    · rintro (⟨found, mem, broken⟩ | ⟨found, mem, read, parsed, bound, notKept, failed⟩
        | ⟨sublist, same⟩) ⟨herrors, -, hpairs⟩
      · cases hfound.symm.trans found
        exact process_errors_ne_nil_iff.2 (.inl broken) (herrors _ mem)
      · cases hfound.symm.trans found
        refine process_errors_ne_nil_iff.2 (.inr ?_) (herrors _ mem)
        exact ⟨_, _, read, parsed, _, bound, notKept, _, failed⟩
      · exact hpairs sublist (Path.same_iff.1 same)
    · intro h
      by_contra hnot
      refine h ⟨fun rel mem => ?_, by simp, fun {c d} sublist heq => ?_⟩
      · by_contra herrors
        rcases process_errors_ne_nil_iff.1 herrors with
          broken | ⟨_, _, read, parsed, _, bound, notKept, _, failed⟩
        · exact hnot (.broken hfound mem broken)
        · exact hnot (.unspecialized hfound mem read parsed bound notKept failed)
      · exact hnot (.doubled sublist (Path.same_iff.2 heq))

/-- A run that is to end at its first error. -/
def strict : Settings :=
  { templateRoot := ⟨"t"⟩, outputRoot := ⟨"o"⟩, failFast := true }

/-- The files of this run: a good template, a template that has been cut off, and an output that is left
over. -/
def halfBroken : FileTree :=
  { entries :=
      [(["t"], .directory), (["t", "KTypeA.java"], .file ⟨some "class KTypeA \x7b \x7d", 1⟩),
        (["t", "KTypeB.java"], .file ⟨some "class KTypeB \x7b", 1⟩),
        (["o"], .directory), (["o", "Stray.java"], .file ⟨some "", 1⟩)]
    working := []
    clock := 2 }

end Settings

end Stencil
