import Mathlib.Data.List.Find
import Mathlib.Data.Set.Card
import Stencil.Proofs.Generation.Claims
import Stencil.Proofs.Generation.Execute
import Stencil.Proofs.Generation.Settlement

/-!
# What a run leaves

A run that is not stopped, and of which no write and no deletion is refused, leaves exactly what its
claims say. At each location the first claim decides: a text is written there, or what was there
stays. Outputs on which there is no claim are gone, and no other file is touched. The numbers that
are told at the end are those of the locations at which this has happened.

It takes that the root of the outputs is not written as a path into the templates, since paths are
compared as they are written: behind such a root, files that have the name of a template stay.

Results: `Settings.leaves_run`.
-/

namespace Stencil

/-- A set of the elements of a list has as many elements as the list, if none is there twice. -/
theorem ncard_of_nodup {α : Type} {xs : List α} {S : Set α} (hn : xs.Nodup) (h : ∀ x, x ∈ S ↔ x ∈ xs) :
    S.ncard = xs.length := by
  classical
  have heq : S = (xs.toFinset : Set α) := by
    ext x
    rw [h, List.coe_toFinset]
    rfl
  rw [heq, Set.ncard_coe_finset, List.toFinset_card_of_nodup hn]

namespace Settings

variable {s : Settings} {t t' : FileTree} {l : Location} {c d : Claim} {p : Path}

/-- The first claim on what a location is. -/
def claim? (s : Settings) (t : FileTree) (l : Location) : Option Claim :=
  (s.claims t).find? fun c => c.path.destination t.working == l

/-- What a run has to leave, and to tell at its end. -/
structure Leaves (s : Settings) (t t' : FileTree) (told : Summary) : Prop where
  /-- The outputs are the claimed ones that were written or were files already. -/
  outputs : ∀ l, s.IsOutput t' l ↔ ∃ c, s.claim? t l = some c
    ∧ ((∃ text, c.action = .write text) ∨ (t.file? l).isSome = true)
  /-- Where the first claim is to write, the text of its instantiation has been written. -/
  written : ∀ l c text, s.claim? t l = some c → c.action = .write text →
    t'.file? l = some ⟨some text, t.clock⟩ ∧ ∃ i, c = s.claim i c.action ∧ s.IsTextOf t i text
  /-- Where the first claim is to keep or to preserve, everything is as it was. -/
  left : ∀ l c, s.claim? t l = some c → c.action = .keep ∨ c.action = .preserve → t'.file? l = t.file? l
  /-- Outputs without a claim are gone. -/
  gone : ∀ l, s.IsOutput t l → s.claim? t l = none → t'.find? l = none
  /-- All other files are as they were. -/
  unchanged : ∀ l, s.claim? t l = none → ¬s.IsOutput t l → t'.file? l = t.file? l
  /-- The generated outputs are those that were written or kept. -/
  generated : told.generated
    = {l | ∃ c, s.claim? t l = some c ∧ c.action.state.isGenerated = true}.ncard
  /-- The updated outputs are those that were written. -/
  updated : told.updated = {l | ∃ c text, s.claim? t l = some c ∧ c.action = .write text}.ncard
  /-- The deleted outputs are those that are gone. -/
  deleted : told.deleted = {l | s.IsOutput t l ∧ t'.find? l = none}.ncard

/-! ## Claims and locations -/

/-- What is needed to know the claims of a run by their locations. -/
structure IsPlain (s : Settings) (t : FileTree) : Prop where
  sound : t.Sound
  vocabulary : s.vocabulary = {}
  extension : s.vocabulary.mentionsAny s.extension = false

namespace IsPlain

variable (h : s.IsPlain t)
include h

/-- A claim is on an output, whether or not there is a file. -/
theorem exists_names (hc : c ∈ s.claims t) :
    ∃ names, c.path = s.outputRoot.behind names ∧ (∀ name ∈ names, IsName name.toList)
      ∧ c.path.destination t.working = s.outputLocation t ++ names
      ∧ extensionAt (s.outputLocation t ++ names) = some s.extension := by
  obtain ⟨names, hpath, hnames, hne, hext⟩ :=
    exists_names_of_mem_claims h.sound h.vocabulary h.extension hc
  refine ⟨names, hpath, hnames, ?_, (extensionAt_append hne).trans hext⟩
  rw [hpath]
  exact Path.destination_behind hnames

/-- Claims are on the same path if they are on the same location. -/
theorem components_eq_iff (hc : c ∈ s.claims t) (hd : d ∈ s.claims t) :
    c.path.components = d.path.components
      ↔ c.path.destination t.working = d.path.destination t.working := by
  constructor
  · exact Path.destination_congr
  · intro heq
    obtain ⟨names, hpath, -, hdest, -⟩ := h.exists_names hc
    obtain ⟨names', hpath', -, hdest', -⟩ := h.exists_names hd
    rw [hdest, hdest', List.append_cancel_left_eq] at heq
    rw [hpath, hpath', heq]

/-- The first claim on a location is the one that holds there. -/
theorem claim?_eq_some_iff :
    s.claim? t l = some c ↔ c ∈ winners (s.claims t) ∧ c.path.destination t.working = l := by
  have hcongr (hc : c ∈ s.claims t) (hl : c.path.destination t.working = l) :
      s.claim? t l = (s.claims t).find? fun d => d.path.components == c.path.components := by
    refine List.find?_congr fun d hd => ?_
    rw [Bool.eq_iff_iff, beq_iff_eq, beq_iff_eq, ← hl]
    exact (h.components_eq_iff hd hc).symm
  constructor
  · intro hfirst
    have hc := List.mem_of_find?_eq_some hfirst
    have hl : c.path.destination t.working = l := by simpa using List.find?_some hfirst
    rw [hcongr hc hl] at hfirst
    exact ⟨mem_winners_iff.2 hfirst, hl⟩
  · rintro ⟨hwinner, hl⟩
    rw [hcongr (mem_of_mem_winners hwinner) hl]
    exact mem_winners_iff.1 hwinner

theorem claim?_eq_none_iff : s.claim? t l = none
    ↔ ∀ c ∈ winners (s.claims t), c.path.destination t.working ≠ l := by
  constructor
  · intro hnone c hc hl
    rw [h.claim?_eq_some_iff.2 ⟨hc, hl⟩] at hnone
    contradiction
  · intro hall
    cases hfirst : s.claim? t l with
    | none => rfl
    | some c =>
      obtain ⟨hc, hl⟩ := h.claim?_eq_some_iff.1 hfirst
      exact absurd hl (hall c hc)

/-- The claims that hold are on different locations. -/
theorem pairwise_destination : (winners (s.claims t)).Pairwise fun c d =>
    c.path.destination t.working ≠ d.path.destination t.working := by
  refine pairwise_winners.imp_of_mem fun hc hd hne heq => hne ?_
  exact (h.components_eq_iff (mem_of_mem_winners hc) (mem_of_mem_winners hd)).2 heq

/-- There are as many claims of some sort that hold as locations at which they do. -/
theorem ncard_claimed (f : Claim → Bool) :
    {l | ∃ c, s.claim? t l = some c ∧ f c = true}.ncard = (winners (s.claims t)).countP f := by
  rw [List.countP_eq_length_filter, ← List.length_map fun c : Claim => c.path.destination t.working]
  apply ncard_of_nodup
  · rw [List.Nodup, List.pairwise_map]
    exact h.pairwise_destination.filter f
  · intro l
    simp only [Set.mem_ofPred_eq, h.claim?_eq_some_iff, List.mem_map, List.mem_filter]
    constructor
    · rintro ⟨c, ⟨hc, hl⟩, hf⟩
      exact ⟨c, ⟨hc, hf⟩, hl⟩
    · rintro ⟨c, ⟨hc, hf⟩, hl⟩
      exact ⟨c, ⟨hc, hl⟩, hf⟩

/-! ## Orphans -/

theorem mem_orphans (hr : s.Reaches t) (hp : p ∈ orphansOf (s.existingOutputs t) (s.claims t)) :
    s.IsOutput t (p.destination t.working) ∧ s.claim? t (p.destination t.working) = none := by
  obtain ⟨names, rfl, hout⟩ := (hr.mem_existingOutputs_iff h.sound).1 (mem_of_mem_orphansOf hp)
  have hnames : ∀ name ∈ names, IsName name.toList := isName_of_isOutput h.sound hout
  rw [Path.destination_behind hnames]
  refine ⟨hout, h.claim?_eq_none_iff.2 fun c hc hl => ?_⟩
  obtain ⟨names', hpath, hnames', hdest, -⟩ := h.exists_names (mem_of_mem_winners hc)
  have heq : names' = names := List.append_cancel_left (hdest.symm.trans hl)
  have hnot := not_same_of_mem_orphansOf hp (mem_of_mem_winners hc)
  rw [hpath, heq, Path.same, beq_self_eq_true] at hnot
  contradiction

theorem pairwise_orphans (hr : s.Reaches t) :
    (orphansOf (s.existingOutputs t) (s.claims t)).Pairwise fun p q =>
      p.destination t.working ≠ q.destination t.working := by
  refine pairwise_orphansOf.imp_of_mem fun hp hq hne heq => hne ?_
  obtain ⟨names, rfl, hout⟩ := (hr.mem_existingOutputs_iff h.sound).1 (mem_of_mem_orphansOf hp)
  obtain ⟨names', rfl, hout'⟩ := (hr.mem_existingOutputs_iff h.sound).1 (mem_of_mem_orphansOf hq)
  rw [Path.destination_behind (isName_of_isOutput h.sound hout),
    Path.destination_behind (isName_of_isOutput h.sound hout'), List.append_cancel_left_eq] at heq
  rw [heq]

theorem exists_orphan (hr : s.Reaches t) (hout : s.IsOutput t l) (hnone : s.claim? t l = none) :
    ∃ p ∈ orphansOf (s.existingOutputs t) (s.claims t), p.destination t.working = l := by
  obtain ⟨names, rfl⟩ := hout.1
  have hnames := isName_of_isOutput h.sound hout
  have hexisting := (hr.mem_existingOutputs_iff h.sound).2 ⟨names, rfl, hout⟩
  have hunclaimed : ∀ c ∈ s.claims t, c.path.components ≠ (s.outputRoot.behind names).components := by
    intro c hc hsame
    have hnot := List.find?_eq_none.1 hnone c hc
    rw [beq_iff_eq] at hnot
    exact hnot ((Path.destination_congr hsame).trans (Path.destination_behind hnames))
  obtain ⟨q, hq, heq⟩ := exists_mem_orphansOf hexisting hunclaimed
  exact ⟨q, hq, (Path.destination_congr heq).trans (Path.destination_behind hnames)⟩

end IsPlain

/-! ## The run -/

/-- The first half of a run, with what it has found of errors. -/
def begun (s : Settings) (t : FileTree) (templates : List Path) : Progress :=
  ⟨t, .settle (s.existingOutputs t) (s.claims t),
    (Contribution.join (templates.map (s.process t))).errors
      ++ (Settlement.settle (s.existingOutputs t) (s.claims t)).duplicates.map .duplicate⟩

/-- A run that tells something has found templates, and has written and deleted what is settled. -/
theorem of_run {report : Report} (hfast : s.failFast = false) (h : s.run t = (.ok report, t')) :
    ∃ templates, s.templates t = .ok templates ∧ ∃ done : Progress,
      done = ((Settlement.settle (s.existingOutputs t) (s.claims t)).writes.foldl Progress.write
          (s.begun t templates)).deleteAll false (orphansOf (s.existingOutputs t) (s.claims t))
        ∧ report = done.report templates.length ∧ t' = done.tree := by
  have hstopped (errors : List RunError) : s.stopped? errors = none :=
    stopped?_eq_none_iff.2 (.inl hfast)
  unfold run at h
  split at h
  · cases h
  · rename_i plan hplan
    simp only [hstopped, Prod.mk.injEq, Except.ok.injEq] at h
    obtain ⟨rfl, rfl⟩ := h
    unfold Settings.plan at hplan
    split at hplan
    · contradiction
    · rename_i templates htemplates
      cases hplan
      have hclaims : s.claims t = (Contribution.join (templates.map (s.process t))).claims := by
        unfold claims
        rw [htemplates]
      refine ⟨templates, htemplates, _, ?_, rfl, rfl⟩
      rw [Plan.execute, hfast, begun, hclaims]
      rfl

namespace IsPlain

variable {before between after : Progress}

/-- The writes that are settled are those of the claims that hold. -/
theorem mem_writes_iff {o : Path × String} :
    o ∈ (Settlement.settle (s.existingOutputs t) (s.claims t)).writes
      ↔ ∃ c ∈ winners (s.claims t), c.action = .write o.2 ∧ c.path = o.1 := by
  simp only [Settlement.settle, List.mem_filterMap, Claim.write?_eq_some_iff]

/-- The writes that are settled are on different locations. -/
theorem pairwise_writes (h : s.IsPlain t) :
    (Settlement.settle (s.existingOutputs t) (s.claims t)).writes.Pairwise fun o o' =>
      o.1.destination t.working ≠ o'.1.destination t.working := by
  refine h.pairwise_destination.filterMap _ fun c d hne o ho o' ho' => ?_
  rw [← (Claim.write?_eq_some_iff.1 ho).2, ← (Claim.write?_eq_some_iff.1 ho').2]
  exact hne

variable (h : s.IsPlain t) (hr : s.Reaches t) (hbefore : before.tree = t)
  (hwrote : before.Wrote (Settlement.settle (s.existingOutputs t) (s.claims t)).writes between)
  (hdeleted : between.Deleted (orphansOf (s.existingOutputs t) (s.claims t)) after)
include h hr hbefore hwrote hdeleted

/-- Where there is no orphan, nothing is deleted. -/
theorem find?_after (hl : ¬(s.IsOutput t l ∧ s.claim? t l = none)) :
    after.tree.find? l = between.tree.find? l := by
  refine hdeleted.others l fun o ho heq => hl ?_
  rw [hwrote.working, hbefore] at heq
  rw [← heq]
  exact h.mem_orphans hr ho

theorem file?_after (hl : ¬(s.IsOutput t l ∧ s.claim? t l = none)) :
    after.tree.file? l = between.tree.file? l := by
  unfold FileTree.file?
  rw [h.find?_after hr hbefore hwrote hdeleted hl]

theorem file?_of_written {text : String} (hc : s.claim? t l = some c) (ha : c.action = .write text) :
    after.tree.file? l = some ⟨some text, t.clock⟩ := by
  rw [h.file?_after hr hbefore hwrote hdeleted (by simp [hc])]
  obtain ⟨hwinner, rfl⟩ := h.claim?_eq_some_iff.1 hc
  have hwritten := hwrote.written
  rw [hbefore] at hwritten
  exact hwritten h.pairwise_writes ⟨c.path, text⟩ (mem_writes_iff.2 ⟨c, hwinner, ha, rfl⟩)

/-- Where nothing is claimed to be written and there is no orphan, the file stays. -/
theorem file?_of_left (hl : ¬(s.IsOutput t l ∧ s.claim? t l = none))
    (ha : ∀ c text, s.claim? t l = some c → c.action ≠ .write text) :
    after.tree.file? l = t.file? l := by
  rw [h.file?_after hr hbefore hwrote hdeleted hl]
  have hothers := hwrote.others l
  rw [hbefore] at hothers
  refine hothers fun o ho heq => ?_
  obtain ⟨c, hc, haction, hpath⟩ := mem_writes_iff.1 ho
  refine ha c o.2 (h.claim?_eq_some_iff.2 ⟨hc, ?_⟩) haction
  rw [hpath, heq]

theorem file?_of_unclaimed (hnone : s.claim? t l = none) (hout : ¬s.IsOutput t l) :
    after.tree.file? l = t.file? l :=
  h.file?_of_left hr hbefore hwrote hdeleted (fun hl => hout hl.1) (by simp [hnone])

theorem file?_of_kept (hc : s.claim? t l = some c) (ha : ¬∃ text, c.action = .write text) :
    after.tree.file? l = t.file? l := by
  refine h.file?_of_left hr hbefore hwrote hdeleted (by simp [hc]) fun d text hd htext => ?_
  cases hc.symm.trans hd
  exact ha ⟨text, htext⟩

theorem find?_of_gone (hout : s.IsOutput t l) (hnone : s.claim? t l = none) :
    after.tree.find? l = none := by
  obtain ⟨p, hp, rfl⟩ := h.exists_orphan hr hout hnone
  have hgone := hdeleted.gone p hp
  rwa [hwrote.working, hbefore] at hgone

/-- What is gone is what there is no claim on. -/
theorem find?_after_eq_none_iff (hout : s.IsOutput t l) :
    after.tree.find? l = none ↔ s.claim? t l = none := by
  constructor
  · intro hgone
    cases hc : s.claim? t l with
    | none => rfl
    | some c =>
      have hfile : after.tree.file? l = none := by
        unfold FileTree.file?
        rw [hgone]
      by_cases ha : ∃ text, c.action = .write text
      · obtain ⟨text, ha⟩ := ha
        rw [h.file?_of_written hr hbefore hwrote hdeleted hc ha] at hfile
        contradiction
      · rw [h.file?_of_kept hr hbefore hwrote hdeleted hc ha] at hfile
        have hsome := hout.2.2
        rw [hfile] at hsome
        contradiction
  · exact h.find?_of_gone hr hbefore hwrote hdeleted hout

theorem isOutput_after_iff : s.IsOutput after.tree l ↔ ∃ c, s.claim? t l = some c
    ∧ ((∃ text, c.action = .write text) ∨ (t.file? l).isSome = true) := by
  have hroot : s.outputLocation after.tree = s.outputLocation t := by
    rw [outputLocation, hdeleted.working, hwrote.working, hbefore]
    rfl
  unfold IsOutput
  rw [hroot]
  cases hc : s.claim? t l with
  | none =>
    simp only [reduceCtorEq, false_and, exists_false, iff_false]
    rintro ⟨hbehind, hext, hfile⟩
    by_cases hout : s.IsOutput t l
    · unfold FileTree.file? at hfile
      rw [h.find?_of_gone hr hbefore hwrote hdeleted hout hc] at hfile
      contradiction
    · rw [h.file?_of_unclaimed hr hbefore hwrote hdeleted hc hout] at hfile
      exact hout ⟨hbehind, hext, hfile⟩
  | some c =>
    obtain ⟨hwinner, rfl⟩ := h.claim?_eq_some_iff.1 hc
    obtain ⟨names, -, -, hdest, hext⟩ := h.exists_names (mem_of_mem_winners hwinner)
    rw [hdest] at hc ⊢
    simp only [List.prefix_append, hext, true_and, Option.some.injEq, exists_eq_left']
    by_cases ha : ∃ text, c.action = .write text
    · obtain ⟨text, ha⟩ := ha
      rw [h.file?_of_written hr hbefore hwrote hdeleted hc ha]
      simp [ha]
    · rw [h.file?_of_kept hr hbefore hwrote hdeleted hc ha]
      simp [ha]

/-! ## The numbers -/

omit h hr hbefore in
theorem countP_after (hsettlement : before.settlement = .settle (s.existingOutputs t) (s.claims t))
    (sort : OutputState → Bool) :
    after.settlement.records.countP (fun r => sort r.state)
      = (winners (s.claims t)).countP (fun c => sort c.action.state)
        + (if sort .deleted then (orphansOf (s.existingOutputs t) (s.claims t)).length else 0) := by
  rw [hdeleted.settlement, hwrote.settlement, hsettlement]
  exact Settlement.countP_deleted _ _ sort

theorem ncard_gone : {l | s.IsOutput t l ∧ after.tree.find? l = none}.ncard
    = (orphansOf (s.existingOutputs t) (s.claims t)).length := by
  rw [← List.length_map (Path.destination t.working)]
  apply ncard_of_nodup
  · rw [List.Nodup, List.pairwise_map]
    exact h.pairwise_orphans hr
  · intro l
    rw [Set.mem_ofPred_eq, List.mem_map]
    constructor
    · rintro ⟨hout, hgone⟩
      rw [h.find?_after_eq_none_iff hr hbefore hwrote hdeleted hout] at hgone
      exact h.exists_orphan hr hout hgone
    · rintro ⟨p, hp, rfl⟩
      obtain ⟨hout, hnone⟩ := h.mem_orphans hr hp
      exact ⟨hout, h.find?_of_gone hr hbefore hwrote hdeleted hout hnone⟩

/-- What is left, and what is told, after the writes and the deletions. -/
theorem leaves_after (hsettlement : before.settlement = .settle (s.existingOutputs t) (s.claims t))
    (templates : Nat) : s.Leaves t after.tree (after.report templates).summary := by
  have hcount := countP_after hwrote hdeleted hsettlement
  refine ⟨fun l => ?_, fun l c text hc ha => ⟨?_, ?_⟩, fun l c hc ha => ?_, fun l hout hnone => ?_,
    fun l hnone hout => ?_, ?_, ?_, ?_⟩
  · exact h.isOutput_after_iff hr hbefore hwrote hdeleted
  · exact h.file?_of_written hr hbefore hwrote hdeleted hc ha
  · obtain ⟨hwinner, -⟩ := h.claim?_eq_some_iff.1 hc
    obtain ⟨-, -, i, -, -, hclaim, htext⟩ := exists_stems_of_mem_claims (mem_of_mem_winners hwinner)
    exact ⟨i, hclaim, htext text ha⟩
  · refine h.file?_of_kept hr hbefore hwrote hdeleted hc ?_
    rintro ⟨text, htext⟩
    rw [htext] at ha
    rcases ha with ha | ha <;> contradiction
  · exact h.find?_of_gone hr hbefore hwrote hdeleted hout hnone
  · exact h.file?_of_unclaimed hr hbefore hwrote hdeleted hnone hout
  · rw [h.ncard_claimed fun c => c.action.state.isGenerated]
    exact hcount OutputState.isGenerated
  · have hwritten (c : Claim) :
        (∃ text, c.action = .write text) ↔ (c.action.state == .written) = true := by
      cases c.action <;> simp [Action.state]
    simp only [exists_and_left, hwritten]
    rw [h.ncard_claimed fun c => c.action.state == .written]
    exact hcount (· == .written)
  · rw [h.ncard_gone hr hbefore hwrote hdeleted]
    have hnone : (winners (s.claims t)).countP (fun c => c.action.state == .deleted) = 0 := by
      rw [List.countP_eq_zero]
      intro c _
      cases c.action <;> simp [Action.state]
    have hdeletions := hcount (· == .deleted)
    rw [hnone] at hdeletions
    simpa [Progress.report, Settlement.count] using hdeletions

end IsPlain

/-- A run that is not stopped and of which no operation is refused leaves what its claims say. -/
theorem leaves_run {report : Report} (h : s.IsPlain t) (hr : s.Reaches t) (hfast : s.failFast = false)
    (hrun : s.run t = (.ok report, t')) (haccepted : ∀ e ∈ report.errors, e.isRefusal = false) :
    s.Leaves t t' report.summary := by
  obtain ⟨templates, -, done, hdone, rfl, rfl⟩ := of_run hfast hrun
  have hdeleted := Progress.deleted_deleteAll (hdone ▸ haccepted)
  rw [← hdone] at hdeleted
  have hbetween : ((Settlement.settle (s.existingOutputs t) (s.claims t)).writes.foldl Progress.write
      (s.begun t templates)).IsAccepted := by
    intro e he
    rw [← hdeleted.errors] at he
    exact haccepted e he
  exact h.leaves_after hr rfl (Progress.wrote_foldl hbetween) hdeleted rfl templates.length

/-- A run over a template whose outputs are made for the first time. -/
def fresh : Settings :=
  { templateRoot := ⟨"t"⟩, outputRoot := ⟨"o"⟩ }

/-- The files of this run, with an output that is left over from another template. -/
def leftOver : FileTree :=
  { entries :=
      [(["t"], .directory), (["t", "KTypeA.java"], .file ⟨some "class KTypeA { }", 1⟩),
        (["o"], .directory), (["o", "Stray.java"], .file ⟨some "", 1⟩)]
    working := []
    clock := 2 }

theorem leaves_run_fresh : ∃ report t', fresh.run leftOver = (.ok report, t')
    ∧ fresh.IsOutput leftOver ["o", "Stray.java"] ∧ (∀ e ∈ report.errors, e.isRefusal = false)
    ∧ fresh.Leaves leftOver t' report.summary := by
  have hok : (match (fresh.run leftOver).1 with
    | .ok report => report.errors.all fun e => !e.isRefusal
    | .error _ => false) = true := by
    decide +kernel
  have hplain : fresh.IsPlain leftOver := ⟨⟨by decide, by decide, by decide⟩, rfl, by decide⟩
  have hreaches : fresh.Reaches leftOver := ⟨by decide, by decide, fun _ _ => by decide⟩
  cases hrun : fresh.run leftOver with
  | mk result t' =>
    cases result with
    | error e => simp [hrun] at hok
    | ok report =>
      have haccepted : ∀ e ∈ report.errors, e.isRefusal = false := by simpa [hrun] using hok
      refine ⟨report, t', rfl, ⟨by decide, by decide, by decide⟩, haccepted, ?_⟩
      exact leaves_run hplain hreaches rfl hrun haccepted

/-! ## Roots with double dots -/

theorem not_leaves_of_stays
    (hrun : (match s.run t with
      | (.ok report, t') => report.errors.all (fun e => !e.isRefusal) && (t'.find? l).isSome
      | (.error _, _) => false) = true)
    (hout : s.IsOutput t l) (hnone : s.claim? t l = none) :
    ∃ report t', s.run t = (.ok report, t') ∧ (∀ e ∈ report.errors, e.isRefusal = false)
      ∧ ¬s.Leaves t t' report.summary := by
  split at hrun
  · rename_i report t' heq
    simp only [Bool.and_eq_true, List.all_eq_true, Bool.not_eq_true'] at hrun
    refine ⟨report, t', heq, hrun.1, fun h => ?_⟩
    have hstays := hrun.2
    rw [h.gone l hout hnone] at hstays
    contradiction
  · contradiction

/-- A run whose outputs are beside the templates, but are written as a path into them. -/
def beside : Settings :=
  { templateRoot := ⟨"t"⟩, outputRoot := ⟨"t/../out"⟩ }

/-- The files of this run. One of the outputs has the name of a template. -/
def besideFiles : FileTree :=
  { entries :=
      [(["t"], .directory), (["out"], .directory), (["out", "KTypeStray.java"], .file ⟨some "", 1⟩)]
    working := []
    clock := 2 }

/-- A run whose outputs are written as a path through a directory that is made by the first write. -/
def through : Settings :=
  { templateRoot := ⟨"t"⟩, outputRoot := ⟨"x/../out"⟩ }

/-- The files of this run. -/
def throughFiles : FileTree :=
  { entries :=
      [(["t"], .directory), (["t", "KTypeA.java"], .file ⟨some "class KTypeA { }", 1⟩),
        (["out"], .directory), (["out", "Stray.java"], .file ⟨some "", 1⟩)]
    working := []
    clock := 2 }

/-- It is not enough that the roots lead to places apart from each other: in both runs an output
without a claim stays. -/
theorem not_leaves_run :
    (beside.IsPlain besideFiles ∧ beside.failFast = false
      ∧ (¬beside.templateLocation besideFiles <+: beside.outputLocation besideFiles
        ∧ ¬beside.outputLocation besideFiles <+: beside.templateLocation besideFiles)
      ∧ ∃ report t', beside.run besideFiles = (.ok report, t')
        ∧ (∀ e ∈ report.errors, e.isRefusal = false) ∧ ¬beside.Leaves besideFiles t' report.summary)
    ∧ through.IsPlain throughFiles ∧ through.failFast = false
      ∧ (¬through.templateLocation throughFiles <+: through.outputLocation throughFiles
        ∧ ¬through.outputLocation throughFiles <+: through.templateLocation throughFiles)
      ∧ ∃ report t', through.run throughFiles = (.ok report, t')
        ∧ (∀ e ∈ report.errors, e.isRefusal = false)
        ∧ ¬through.Leaves throughFiles t' report.summary := by
  refine ⟨⟨?_, rfl, by decide, ?_⟩, ?_, rfl, by decide, ?_⟩
  · exact ⟨⟨by decide, by decide, by decide⟩, rfl, by decide⟩
  · refine not_leaves_of_stays (l := ["out", "KTypeStray.java"]) (by decide +kernel) ?_
      (by decide +kernel)
    exact ⟨by decide, by decide, by decide⟩
  · exact ⟨⟨by decide, by decide, by decide⟩, rfl, by decide⟩
  · refine not_leaves_of_stays (l := ["out", "Stray.java"]) (by decide +kernel) ?_ (by decide +kernel)
    exact ⟨by decide, by decide, by decide⟩

end Settings

end Stencil
