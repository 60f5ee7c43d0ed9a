import Stencil.Generation.Run
import Stencil.Proofs.Files.Contents

/-!
# What the second half of a run does

The second half of a run writes and deletes one file after the other. Where no operation is refused,
each of them is done as it was settled: a write changes one file, a deletion takes one away, and no
error is added.

Results: the files after all writes (`Progress.wrote_foldl`) and after all deletions
(`Progress.deleted_deleteAll`). What every write and every deletion leaves, a run leaves
(`Settings.holds_run`): directories stay (`Progress.directory_foldl_write`,
`Progress.directory_deleteAll`), a sound tree stays sound (`Settings.sound_run`), and directories are
changed at the time of the run only (`Settings.changesNow_run`).
-/

namespace Stencil

/-- Is the error that a file could not be written or deleted? -/
def RunError.isRefusal : RunError → Bool
  | .write .. | .delete .. => true
  | _ => false

namespace Progress

variable {p q : Progress} {output : Path × String} {outputs : List (Path × String)} {orphan : Path}
  {orphans : List Path}

/-- Has no file been refused to be written or deleted? -/
def IsAccepted (p : Progress) : Prop :=
  ∀ e ∈ p.errors, e.isRefusal = false

/-! ## Writing -/

theorem write_of_isAccepted (h : (p.write output).IsAccepted) :
    (p.write output).settlement = p.settlement ∧ (p.write output).errors = p.errors
      ∧ p.tree.write output.1 output.2 = ((p.write output).tree, none) := by
  unfold write at h ⊢
  split at h
  · rename_i tree htree
    exact ⟨rfl, rfl, htree⟩
  · have hrefused := h _ (List.mem_append_right p.errors (List.mem_singleton_self _))
    contradiction

/-- Is the second progress the first one with outputs written? -/
structure Wrote (p : Progress) (outputs : List (Path × String)) (q : Progress) : Prop where
  settlement : q.settlement = p.settlement
  errors : q.errors = p.errors
  working : q.tree.working = p.tree.working
  clock : q.tree.clock = p.tree.clock
  others : ∀ l, (∀ o ∈ outputs, o.1.destination p.tree.working ≠ l) →
    q.tree.file? l = p.tree.file? l
  written : (outputs.Pairwise fun o o' =>
      o.1.destination p.tree.working ≠ o'.1.destination p.tree.working) →
    ∀ o ∈ outputs, q.tree.file? (o.1.destination p.tree.working) = some ⟨some o.2, p.tree.clock⟩

theorem wrote_foldl (h : (outputs.foldl write p).IsAccepted) :
    p.Wrote outputs (outputs.foldl write p) := by
  induction outputs generalizing p with
  | nil => exact ⟨rfl, rfl, rfl, rfl, fun _ _ => rfl, fun _ _ ho => absurd ho List.not_mem_nil⟩
  | cons output rest ih =>
    rw [List.foldl_cons] at h ⊢
    have hrest := ih h
    have haccepted : (p.write output).IsAccepted := by
      intro e he
      rw [← hrest.errors] at he
      exact h e he
    obtain ⟨hsettlement, herrors, hwrite⟩ := write_of_isAccepted haccepted
    obtain ⟨hworking, hclock, hfile⟩ := FileTree.file?_of_write hwrite
    obtain ⟨hsettlement', herrors', hworking', hclock', hothers, hwritten⟩ := hrest
    rw [hworking] at hothers hwritten hworking'
    rw [hclock] at hwritten hclock'
    refine ⟨hsettlement'.trans hsettlement, herrors'.trans herrors, hworking', hclock', fun l hl => ?_,
      fun hpairwise o ho => ?_⟩
    · rw [List.forall_mem_cons] at hl
      rw [hothers l hl.2, hfile, if_neg (Ne.symm hl.1)]
    · rw [List.pairwise_cons] at hpairwise
      rcases List.mem_cons.1 ho with rfl | ho
      · rw [hothers _ fun o' ho' => Ne.symm (hpairwise.1 o' ho'), hfile, if_pos rfl]
      · exact hwritten hpairwise.2 o ho

/-! ## Deleting -/

theorem delete_of_isAccepted (h : (p.delete orphan).IsAccepted) :
    (p.delete orphan).settlement = p.settlement.mark orphan .deleted
      ∧ (p.delete orphan).errors = p.errors
      ∧ p.tree.delete orphan = ((p.delete orphan).tree, none) := by
  unfold delete at h ⊢
  split at h
  · rename_i tree htree
    exact ⟨rfl, rfl, htree⟩
  · have hrefused := h _ (List.mem_append_right p.errors (List.mem_singleton_self _))
    contradiction

/-- Is the second progress the first one with orphans deleted? -/
structure Deleted (p : Progress) (orphans : List Path) (q : Progress) : Prop where
  settlement : q.settlement = orphans.foldl (fun s o => s.mark o .deleted) p.settlement
  errors : q.errors = p.errors
  working : q.tree.working = p.tree.working
  others : ∀ l, (∀ o ∈ orphans, o.destination p.tree.working ≠ l) →
    q.tree.find? l = p.tree.find? l
  gone : ∀ o ∈ orphans, q.tree.find? (o.destination p.tree.working) = none

theorem deleted_deleteAll (h : (p.deleteAll false orphans).IsAccepted) :
    p.Deleted orphans (p.deleteAll false orphans) := by
  induction orphans generalizing p with
  | nil => exact ⟨rfl, rfl, rfl, fun _ _ => rfl, fun _ ho => absurd ho List.not_mem_nil⟩
  | cons orphan rest ih =>
    have hstep : p.deleteAll false (orphan :: rest) = (p.delete orphan).deleteAll false rest := rfl
    rw [hstep] at h ⊢
    have hrest := ih h
    have haccepted : (p.delete orphan).IsAccepted := by
      intro e he
      rw [← hrest.errors] at he
      exact h e he
    obtain ⟨hsettlement, herrors, hdelete⟩ := delete_of_isAccepted haccepted
    obtain ⟨hworking, -, hfind⟩ := FileTree.find?_of_delete hdelete
    obtain ⟨hsettlement', herrors', hworking', hothers, hgone⟩ := hrest
    rw [hworking] at hothers hgone hworking'
    rw [hsettlement] at hsettlement'
    refine ⟨hsettlement', herrors'.trans herrors, hworking', fun l hl => ?_, fun o ho => ?_⟩
    · rw [List.forall_mem_cons] at hl
      rw [hothers l hl.2, hfind, if_neg (Ne.symm hl.1)]
    · by_cases hlater : ∃ o' ∈ rest, o'.destination p.tree.working = o.destination p.tree.working
      · obtain ⟨o', ho', heq⟩ := hlater
        rw [← heq]
        exact hgone o' ho'
      · have hnot : ∀ o' ∈ rest, o'.destination p.tree.working ≠ o.destination p.tree.working :=
          fun o' ho' heq => hlater ⟨o', ho', heq⟩
        rcases List.mem_cons.1 ho with rfl | ho
        · rw [hothers _ hnot, hfind, if_pos rfl]
        · exact absurd rfl (hnot o ho)

/-! ## Directories stay -/

variable {l : Location}

theorem tree_write : (p.write output).tree = (p.tree.write output.1 output.2).1 := by
  unfold write
  split <;> rename_i htree <;> rw [htree]

theorem tree_delete : (p.delete orphan).tree = (p.tree.delete orphan).1 := by
  unfold delete
  split <;> rename_i htree <;> rw [htree]

/-- What every write leaves, all writes leave. -/
theorem tree_foldl_write {P : FileTree → Prop} (hwrite : ∀ t p text, P t → P (t.write p text).1)
    (h : P p.tree) : P (outputs.foldl write p).tree := by
  induction outputs generalizing p with
  | nil => exact h
  | cons output rest ih =>
    apply ih
    rw [tree_write]
    exact hwrite _ _ _ h

/-- What every deletion leaves, all deletions leave. -/
theorem tree_deleteAll {P : FileTree → Prop} {failFast : Bool}
    (hdelete : ∀ t p, P t → P (t.delete p).1) (h : P p.tree) :
    P (p.deleteAll failFast orphans).tree := by
  induction orphans generalizing p with
  | nil => exact h
  | cons orphan rest ih =>
    rw [deleteAll]
    split
    · exact h
    · apply ih
      rw [tree_delete]
      exact hdelete _ _ h

theorem directory_foldl_write (h : p.tree.find? l = some .directory) :
    (outputs.foldl write p).tree.find? l = some .directory :=
  tree_foldl_write (P := fun t => t.find? l = some .directory)
    (fun _ _ _ hl => FileTree.find?_write hl (.inl rfl)) h

theorem directory_deleteAll {failFast : Bool} (h : p.tree.find? l = some .directory) :
    (p.deleteAll failFast orphans).tree.find? l = some .directory :=
  tree_deleteAll (P := fun t => t.find? l = some .directory) (fun _ _ hl => FileTree.find?_delete hl) h

/-- The paths of all outputs that have been written can be followed. -/
theorem locate_foldl_write (h : (outputs.foldl write p).IsAccepted) {o : Path × String}
    (ho : o ∈ outputs) :
    (outputs.foldl write p).tree.locate o.1 = .ok (o.1.destination p.tree.working) := by
  induction outputs generalizing p with
  | nil => exact absurd ho List.not_mem_nil
  | cons output rest ih =>
    rw [List.foldl_cons] at h ⊢
    have haccepted : (p.write output).IsAccepted := by
      intro e he
      rw [← (wrote_foldl h).errors] at he
      exact h e he
    obtain ⟨-, -, hwrite⟩ := write_of_isAccepted haccepted
    have hworking := (FileTree.file?_of_write hwrite).1
    rcases List.mem_cons.1 ho with rfl | ho
    · have hlocate := FileTree.locate_of_write hwrite
      refine FileTree.locate_of_directories ?_ (fun k hk => directory_foldl_write hk) hlocate
      exact (wrote_foldl h).working
    · rw [← hworking]
      exact ih h ho

end Progress

/-- What a run tells and leaves that has come to its second half. -/
theorem Settings.run_of_plan {s : Settings} {t : FileTree} {plan : Plan} (hplan : s.plan t = .ok plan)
    (hstopped : s.stopped? plan.errors = none) :
    s.run t = (match s.stopped? (plan.execute s t).errors with
        | some e => .error e
        | none => .ok ((plan.execute s t).report plan.templates),
      (plan.execute s t).tree) := by
  unfold run
  simp only [hplan, hstopped]
  cases s.stopped? (plan.execute s t).errors <;> rfl

/-- What every write and every deletion leaves, a run leaves, however it ends. -/
theorem Settings.holds_run {s : Settings} {t : FileTree} {P : FileTree → Prop}
    (hwrite : ∀ t p text, P t → P (t.write p text).1) (hdelete : ∀ t p, P t → P (t.delete p).1)
    (h : P t) : P (s.run t).2 := by
  have hdone (plan : Plan) : P (plan.execute s t).tree :=
    Progress.tree_deleteAll hdelete (Progress.tree_foldl_write hwrite h)
  unfold run
  split
  · exact h
  · split
    · exact h
    · simp only
      split <;> exact hdone _

/-- A run leaves a sound tree, however it ends. -/
theorem Settings.sound_run {s : Settings} {t : FileTree} (h : t.Sound) : (s.run t).2.Sound :=
  holds_run (fun _ _ _ hs => hs.write) (fun _ _ hs => hs.delete) h

/-- A run changes directories at no other time than its own. -/
theorem Settings.changesNow_run {s : Settings} {t : FileTree} : t.ChangesNow (s.run t).2 :=
  holds_run (P := t.ChangesNow) (fun _ _ _ h => h.write) (fun _ _ h => h.delete) (.refl t)

end Stencil
