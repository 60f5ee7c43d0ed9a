import Stencil.Proofs.Files.Operations

/-!
# Trees with the same contents

Two trees have the same contents if at each location both have nothing, both have a directory, or
both have a file with the same text. When something was changed makes no difference. No operation
sees more than that, so operations on such trees are refused alike and leave such trees. A file that
is written over with the text it has leaves the contents as they are.

Results:
* `FileTree.SameContents.write`, `FileTree.SameContents.delete`: operations keep the relation;
* `FileTree.sameContents_write_self`: a text that is at a path already can be written there;
* `FileTree.read_write_of_ne`: a write leaves the text at every other destination.
-/

namespace Stencil

/-! ## The path above -/

namespace Path

variable {p q : Path} {front : List Component} {last : Component}

theorem text_ne_of_components (h : p.components ≠ []) : p.text ≠ "" := by
  intro htext
  obtain rfl : p = ⟨""⟩ := congrArg Path.mk htext
  exact h rfl

/-- The path above begins as the path does, and goes on without its last component. -/
theorem start_inner_above (h : p.inner = front ++ [last]) :
    (ofComponents p.components.dropLast).start = p.start
      ∧ (ofComponents p.components.dropLast).inner = front := by
  rw [components_eq, h, ← List.append_assoc, List.dropLast_concat]
  refine start_inner_ofComponents p.isStart_start fun c hc => isInner_of_mem_inner (p := p) ?_
  rw [h]
  exact List.mem_append_left [last] hc

theorem components_above (h : p.inner = front ++ [last]) :
    (ofComponents p.components.dropLast).components = p.components.dropLast := by
  obtain ⟨hstart, hinner⟩ := start_inner_above h
  rw [components_eq, hstart, hinner, components_eq p, h, ← List.append_assoc, List.dropLast_concat]

end Path

/-! ## Contents -/

/-- What there is at a location, whenever it was written. -/
def Entry.timeless : Entry → Entry
  | .file f => .file ⟨f.text, 0⟩
  | .directory => .directory

namespace FileTree

variable {t t' t₁ t₂ t₃ : FileTree} {l m : Location} {p q : Path} {text text' : String} {e : Entry}
  {f f' : File} {cs : List Component}

/-- Do the two trees differ in nothing but in when their files and directories were changed? -/
structure SameContents (t₁ t₂ : FileTree) : Prop where
  working : t₁.working = t₂.working
  clock : t₁.clock = t₂.clock
  find? : ∀ l, (t₁.find? l).map Entry.timeless = (t₂.find? l).map Entry.timeless

theorem putFile_of_ne (hlocate : t.locate p = .ok l) (hl : t.find? l ≠ some .directory) :
    t.putFile p f = ((t.stampAbove l).put l (.file f), none) := by
  unfold putFile
  rw [hlocate]
  simp only

namespace SameContents

theorem refl (t : FileTree) : SameContents t t :=
  ⟨rfl, rfl, fun _ => rfl⟩

theorem symm (h : SameContents t₁ t₂) : SameContents t₂ t₁ :=
  ⟨h.working.symm, h.clock.symm, fun l => (h.find? l).symm⟩

theorem trans (h : SameContents t₁ t₂) (h' : SameContents t₂ t₃) : SameContents t₁ t₃ :=
  ⟨h.working.trans h'.working, h.clock.trans h'.clock, fun l => (h.find? l).trans (h'.find? l)⟩

/-! ## Looking -/

theorem none_iff (h : SameContents t₁ t₂) (l : Location) :
    t₁.find? l = none ↔ t₂.find? l = none := by
  rw [← Option.map_eq_none_iff (f := Entry.timeless), h.find? l, Option.map_eq_none_iff]

theorem directory_iff (h : SameContents t₁ t₂) (l : Location) :
    t₁.find? l = some .directory ↔ t₂.find? l = some .directory := by
  have hiff (t : FileTree) : t.find? l = some .directory
      ↔ (t.find? l).map Entry.timeless = some .directory := by
    cases t.find? l with
    | none => simp
    | some e => cases e <;> simp [Entry.timeless]
  rw [hiff, h.find? l, ← hiff]

/-- A file is there in both trees, with one text. -/
theorem exists_file (h : SameContents t₁ t₂) (hf : t₁.find? l = some (.file f)) :
    ∃ f', t₂.find? l = some (.file f') ∧ f'.text = f.text := by
  have hl := h.find? l
  rw [hf] at hl
  cases hf' : t₂.find? l with
  | none => simp [hf'] at hl
  | some e =>
    rw [hf'] at hl
    cases e with
    | directory => simp [Entry.timeless] at hl
    | file f' =>
      simp only [Option.map_some, Entry.timeless, Option.some.injEq, Entry.file.injEq,
        File.mk.injEq, and_true] at hl
      exact ⟨f', rfl, hl.symm⟩

theorem follow_eq (h : SameContents t₁ t₂) (pieces : List (List Char)) :
    t₁.follow l pieces = t₂.follow l pieces := by
  induction pieces generalizing l with
  | nil => rfl
  | cons piece rest ih =>
    rw [FileTree.follow, FileTree.follow]
    cases hl : t₁.find? l with
    | none => rw [(h.none_iff l).1 hl]
    | some e =>
      cases e with
      | directory =>
        rw [(h.directory_iff l).1 hl]
        exact ih
      | file f =>
        obtain ⟨f', hf', -⟩ := h.exists_file hl
        rw [hf']

theorem locate_eq (h : SameContents t₁ t₂) (p : Path) : t₁.locate p = t₂.locate p := by
  rw [locate, locate, h.working, h.follow_eq]

theorem isDirectory_eq (h : SameContents t₁ t₂) (p : Path) : t₁.isDirectory p = t₂.isDirectory p := by
  have hiff (t : FileTree) :
      t.isDirectory p = true ↔ ∃ l, t.locate p = .ok l ∧ t.find? l = some .directory := by
    unfold isDirectory entry
    cases t.locate p with
    | error e => simp
    | ok l =>
      cases hl : t.find? l with
      | none => simp [hl]
      | some e => cases e <;> simp [hl]
  rw [Bool.eq_iff_iff, hiff, hiff]
  refine exists_congr fun l => and_congr ?_ (h.directory_iff l)
  rw [h.locate_eq]

theorem read_eq_ok (h : SameContents t₁ t₂) (hread : t₁.read p = .ok text) :
    t₂.read p = .ok text := by
  unfold read entry at hread ⊢
  rw [h.locate_eq] at hread
  cases hlocate : t₂.locate p with
  | error e => simp [hlocate] at hread
  | ok l =>
    simp only [hlocate] at hread ⊢
    cases hl : t₁.find? l with
    | none => simp [hl] at hread
    | some e =>
      cases e with
      | directory => simp [hl] at hread
      | file f =>
        obtain ⟨f', hf', htext⟩ := h.exists_file hl
        rw [hl] at hread
        rw [hf']
        simpa only [htext] using hread

/-! ## Operations -/

theorem put (h : SameContents t₁ t₂) (hl : l ≠ []) {e₁ e₂ : Entry}
    (he : e₁.timeless = e₂.timeless) : SameContents (t₁.put l e₁) (t₂.put l e₂) := by
  refine ⟨h.working, h.clock, fun k => ?_⟩
  rw [find?_put hl, find?_put hl]
  split
  · rw [Option.map_some, Option.map_some, he]
  · exact h.find? k

theorem erase (h : SameContents t₁ t₂) (hl : l ≠ []) :
    SameContents (t₁.erase l) (t₂.erase l) := by
  refine ⟨h.working, h.clock, fun k => ?_⟩
  rw [find?_erase hl, find?_erase hl]
  split
  · rfl
  · exact h.find? k

/-- When directories were changed makes no difference. -/
theorem stamp (h : SameContents t₁ t₂) : SameContents (t₁.stamp l) (t₂.stamp l) :=
  ⟨h.working, h.clock, h.find?⟩

theorem stampAbove (h : SameContents t₁ t₂) : SameContents (t₁.stampAbove l) (t₂.stampAbove l) := by
  refine ⟨?_, ?_, fun k => ?_⟩
  · rw [working_stampAbove, working_stampAbove, h.working]
  · rw [clock_stampAbove, clock_stampAbove, h.clock]
  · rw [find?_stampAbove, find?_stampAbove, h.find? k]

/-- Do two operations leave trees with the same contents, and are they refused alike? -/
def SameOutcome (o₁ o₂ : Outcome) : Prop :=
  SameContents o₁.1 o₂.1 ∧ o₁.2 = o₂.2

theorem makeDirectory (h : SameContents t₁ t₂) (p : Path) :
    SameOutcome (t₁.makeDirectory p) (t₂.makeDirectory p) := by
  unfold FileTree.makeDirectory
  rw [h.locate_eq]
  split
  · exact ⟨h, rfl⟩
  · rename_i l hlocate
    cases hl : t₁.find? l with
    | none =>
      have hne : l ≠ [] := by
        rintro rfl
        rw [find?_nil] at hl
        contradiction
      rw [(h.none_iff l).1 hl]
      exact ⟨(h.stampAbove.put hne rfl).stamp, rfl⟩
    | some e =>
      have hsome : t₂.find? l ≠ none := by
        rw [Ne, ← h.none_iff l, hl]
        exact Option.some_ne_none e
      obtain ⟨e', he'⟩ := Option.ne_none_iff_exists'.1 hsome
      rw [he']
      exact ⟨h, rfl⟩

theorem contentWith {o₁ o₂ : Outcome} (h : SameOutcome o₁ o₂) (p : Path) :
    SameOutcome (contentWith p o₁) (contentWith p o₂) := by
  obtain ⟨t₁, fault⟩ := o₁
  obtain ⟨t₂, fault'⟩ := o₂
  obtain ⟨h, rfl⟩ := h
  cases fault with
  | none => exact ⟨h, rfl⟩
  | some fault =>
    rw [FileTree.contentWith, FileTree.contentWith, h.isDirectory_eq p]
    split
    · exact ⟨h, rfl⟩
    · exact ⟨h, rfl⟩

theorem makeDirectories (h : SameContents t₁ t₂) (cs : List Component) :
    SameOutcome (t₁.makeDirectories cs) (t₂.makeDirectories cs) := by
  induction cs generalizing t₁ t₂ with
  | nil => exact ⟨h, rfl⟩
  | cons c above ih =>
    rw [FileTree.makeDirectories, FileTree.makeDirectories]
    have hmake := h.makeDirectory (.ofComponents (c :: above).reverse)
    cases h₁ : t₁.makeDirectory (.ofComponents (c :: above).reverse) with
    | mk t₁' fault =>
      cases h₂ : t₂.makeDirectory (.ofComponents (c :: above).reverse) with
      | mk t₂' fault' =>
        rw [h₁, h₂] at hmake
        obtain ⟨htrees, rfl⟩ := hmake
        by_cases hmissing : fault = some .missing
        · subst hmissing
          have habove := ih htrees
          cases ha₁ : t₁'.makeDirectories above with
          | mk t₁'' fault₁ =>
            cases ha₂ : t₂'.makeDirectories above with
            | mk t₂'' fault₂ =>
              rw [ha₁, ha₂] at habove
              obtain ⟨htrees', rfl⟩ := habove
              simp only [ha₁, ha₂]
              cases fault₁ with
              | none => exact contentWith (htrees'.makeDirectory _) _
              | some fault₁ => exact ⟨htrees', rfl⟩
        · simp only
          split
          · rename_i heq
            cases heq
            exact absurd rfl hmissing
          · split
            · rename_i heq
              cases heq
              exact absurd rfl hmissing
            · exact contentWith ⟨htrees, rfl⟩ _

theorem putFile (h : SameContents t₁ t₂) (p : Path) (f : File) :
    SameOutcome (t₁.putFile p f) (t₂.putFile p f) := by
  cases hlocate : t₂.locate p with
  | error e =>
    simp only [FileTree.putFile, h.locate_eq, hlocate]
    exact ⟨h, rfl⟩
  | ok l =>
    by_cases hdir : t₁.find? l = some .directory
    · simp only [FileTree.putFile, h.locate_eq, hlocate, hdir, (h.directory_iff l).1 hdir]
      exact ⟨h, rfl⟩
    · have hne : l ≠ [] := by
        rintro rfl
        exact hdir find?_nil
      rw [putFile_of_ne ((h.locate_eq p).trans hlocate) hdir,
        putFile_of_ne hlocate fun hd => hdir ((h.directory_iff l).2 hd)]
      exact ⟨h.stampAbove.put hne rfl, rfl⟩

theorem write (h : SameContents t₁ t₂) (p : Path) (text : String) :
    SameOutcome (t₁.write p text) (t₂.write p text) := by
  unfold FileTree.write place
  have hmake := h.makeDirectories p.components.dropLast.reverse
  cases h₁ : t₁.makeDirectories p.components.dropLast.reverse with
  | mk t₁' fault =>
    cases h₂ : t₂.makeDirectories p.components.dropLast.reverse with
    | mk t₂' fault' =>
      rw [h₁, h₂] at hmake
      obtain ⟨htrees, rfl⟩ := hmake
      cases fault with
      | none =>
        rw [h.clock]
        exact htrees.putFile p _
      | some fault => exact ⟨htrees, rfl⟩

theorem delete (h : SameContents t₁ t₂) (p : Path) :
    SameOutcome (t₁.delete p) (t₂.delete p) := by
  unfold FileTree.delete entry
  rw [h.locate_eq]
  cases hlocate : t₂.locate p with
  | error e => exact ⟨h, rfl⟩
  | ok l =>
    simp only
    cases hl : t₁.find? l with
    | none =>
      rw [(h.none_iff l).1 hl]
      exact ⟨h, rfl⟩
    | some e =>
      cases e with
      | directory =>
        rw [(h.directory_iff l).1 hl]
        exact ⟨h, rfl⟩
      | file f =>
        obtain ⟨f', hf', -⟩ := h.exists_file hl
        rw [hf']
        exact ⟨(h.erase (ne_nil_of_file? (file?_eq_some_iff.2 hl))).stamp, rfl⟩

end SameContents

/-! ## Reading after a write -/

theorem follow_of_directories (h : ∀ k, t.find? k = some .directory → t'.find? k = some .directory)
    {pieces : List (List Char)} (hfollow : t.follow l pieces = .ok m) :
    t'.follow l pieces = .ok m := by
  induction pieces generalizing l with
  | nil => exact hfollow
  | cons piece rest ih =>
    rw [follow] at hfollow ⊢
    split at hfollow
    · contradiction
    · contradiction
    · rename_i hdir
      rw [h l hdir]
      exact ih hfollow

/-- A path can be followed as long as the directories on the way stay. -/
theorem locate_of_directories (hworking : t'.working = t.working)
    (h : ∀ k, t.find? k = some .directory → t'.find? k = some .directory)
    (hlocate : t.locate p = .ok l) : t'.locate p = .ok l := by
  rw [locate] at hlocate ⊢
  split at hlocate
  · contradiction
  · rename_i hempty
    rw [if_neg hempty, hworking]
    exact follow_of_directories h hlocate

/-- A write keeps every directory, and every file that is not at its destination. -/
theorem find?_write (h : t.find? l = some e)
    (hl : e = .directory ∨ l ≠ p.destination t.working) :
    (t.write p text).1.find? l = some e := by
  unfold write place
  have hgrows := grows_makeDirectories (t := t) (c := p.components.dropLast.reverse)
  split
  · rename_i t₁ hmake
    rw [hmake] at hgrows
    have hkept := hgrows.kept l e h
    unfold putFile
    split
    · exact hkept
    · rename_i k hlocate
      have hk := eq_destination_of_locate hlocate
      split
      · exact hkept
      · rename_i hdir
        have hne : k ≠ [] := by
          rintro rfl
          exact hdir find?_nil
        rw [find?_put hne, if_neg, find?_stampAbove, hkept]
        rintro rfl
        rcases hl with rfl | hl
        · exact hdir hkept
        · rw [hk, hgrows.working] at hl
          exact hl rfl
  · exact hgrows.kept l e h

theorem working_write : (t.write p text).1.working = t.working := by
  unfold write place
  have hgrows := grows_makeDirectories (t := t) (c := p.components.dropLast.reverse)
  split
  · rename_i t₁ hmake
    rw [hmake] at hgrows
    unfold putFile
    split
    · exact hgrows.working
    · split
      · exact hgrows.working
      · exact working_stampAbove.trans hgrows.working
  · exact hgrows.working

/-- The text at a path is that of the file where it leads. -/
theorem read_eq_ok_iff : t.read p = .ok text
    ↔ ∃ l f, t.locate p = .ok l ∧ t.find? l = some (.file f) ∧ f.text = some text := by
  unfold read entry
  cases t.locate p with
  | error e => simp
  | ok l =>
    cases hl : t.find? l with
    | none => simp [hl]
    | some e =>
      cases e with
      | directory => simp [hl]
      | file f => cases hf : f.text <;> simp [hl, hf]

/-- A write leaves the text at every other destination. -/
theorem read_write_of_ne (hread : t.read p = .ok text)
    (hne : p.destination t.working ≠ q.destination t.working) :
    (t.write q text').1.read p = .ok text := by
  obtain ⟨l, f, hlocate, hfile, htext⟩ := read_eq_ok_iff.1 hread
  refine read_eq_ok_iff.2 ⟨l, f, ?_, ?_, htext⟩
  · exact locate_of_directories working_write (fun k hk => find?_write hk (.inl rfl)) hlocate
  · refine find?_write hfile (.inr ?_)
    rw [eq_destination_of_locate hlocate]
    exact hne

/-- The path of a text that has been written can be followed. -/
theorem locate_of_write (h : t.write p text = (t', none)) :
    t'.locate p = .ok (p.destination t.working) := by
  rw [write, place] at h
  split at h
  · rename_i t₁ hmake
    have hgrows := grows_makeDirectories (t := t) (c := p.components.dropLast.reverse)
    rw [hmake] at hgrows
    cases hlocate : t₁.locate p with
    | error e =>
      rw [putFile, hlocate] at h
      cases h
    | ok l =>
      have hl := eq_destination_of_locate hlocate
      rw [hgrows.working] at hl
      by_cases hdir : t₁.find? l = some .directory
      · simp only [putFile, hlocate, hdir] at h
        cases h
      · rw [putFile_of_ne hlocate hdir] at h
        cases h
        have hne : l ≠ [] := by
          rintro rfl
          exact hdir find?_nil
        rw [← hl]
        refine locate_of_directories (t := t₁) working_stampAbove (fun k hk => ?_) hlocate
        rw [find?_put hne, if_neg, find?_stampAbove, hk]
        rintro rfl
        exact hdir hk
  · rename_i hrefused
    exact absurd h (hrefused t')

/-- A deletion keeps every directory. -/
theorem find?_delete (h : t.find? l = some .directory) :
    (t.delete p).1.find? l = some .directory := by
  unfold delete
  split
  · exact h
  · exact h
  · rename_i k f hentry
    obtain ⟨-, -, hfile⟩ := of_entry hentry
    rw [find?_stamp, find?_erase (ne_nil_of_file? (file?_eq_some_iff.2 hfile)), if_neg, h]
    rintro rfl
    rw [h] at hfile
    exact Entry.noConfusion (Option.some.inj hfile)

/-! ## Writing the same text again -/

/-- Are there directories wherever the components lead before the last of them? -/
def Passes (t : FileTree) (l : Location) (cs : List Component) : Prop :=
  ∀ front back, cs = front ++ back → back ≠ [] →
    t.find? (front.foldl Component.lead l) = some .directory

/-- A path that can be followed passes through directories only. -/
theorem passes_of_follow {pieces : List (List Char)} (h : t.follow l pieces = .ok m) :
    t.Passes l (pieces.filterMap Path.componentOf?) := by
  induction pieces generalizing l with
  | nil =>
    intro front back hnil hback
    exact absurd (List.append_eq_nil_iff.1 hnil.symm).2 hback
  | cons piece rest ih =>
    rw [follow] at h
    split at h
    · contradiction
    · contradiction
    · rename_i hdir
      have hrest := ih h
      rw [step_eq] at hrest
      cases hc : Path.componentOf? piece with
      | none =>
        rw [hc] at hrest
        rwa [List.filterMap_cons_none hc]
      | some c =>
        rw [hc] at hrest
        rw [List.filterMap_cons_some hc]
        intro front back happend hback
        cases front with
        | nil => exact hdir
        | cons d front =>
          rw [List.cons_append, List.cons.injEq] at happend
          obtain ⟨rfl, happend⟩ := happend
          exact hrest front back happend hback

/-- There is nothing behind a file. -/
theorem isThere_behind_file (hq : q.text ≠ "") (hfile : t.find? (q.destination t.working) = some (.file f))
    (hp : p.startsWith q = true) (hne : p.components ≠ q.components) : t.isThere p = false := by
  obtain ⟨hstart, rest, hinner, hcomponents⟩ := Path.start_inner_of_startsWith hq hp
  have hrest : rest ≠ [] := by
    rintro rfl
    rw [List.append_nil] at hcomponents
    exact hne hcomponents
  rw [Bool.eq_false_iff]
  intro hthere
  rw [isThere] at hthere
  cases hentry : t.entry p with
  | error e =>
    rw [hentry] at hthere
    contradiction
  | ok x =>
    obtain ⟨hlocate, -⟩ := of_entry hentry
    rw [locate] at hlocate
    split at hlocate
    · contradiction
    · have hdir := passes_of_follow hlocate q.inner rest hinner hrest
      rw [Path.isAbsolute_congr hstart] at hdir
      rw [Path.destination, hdir] at hfile
      exact Entry.noConfusion (Option.some.inj hfile)

/-- Where every piece leads to a directory, a path can be followed. -/
theorem follow_of_passes (pieces : List (List Char))
    (h : ∀ front back, pieces.filterMap Path.componentOf? = front ++ back →
      t.find? (front.foldl Component.lead l) = some .directory) :
    t.follow l pieces = .ok ((pieces.filterMap Path.componentOf?).foldl Component.lead l) := by
  induction pieces generalizing l with
  | nil => rfl
  | cons piece rest ih =>
    have hdir : t.find? l = some .directory := h [] _ rfl
    rw [follow, hdir]
    show t.follow (step l piece) rest = _
    rw [step_eq]
    cases hc : Path.componentOf? piece with
    | none =>
      rw [List.filterMap_cons_none hc] at h ⊢
      exact ih h
    | some c =>
      rw [List.filterMap_cons_some hc] at h ⊢
      refine ih fun front back happend => ?_
      exact h (c :: front) back (by rw [happend, List.cons_append])

/-- A path that can be followed to anything but a directory has a last component. -/
theorem exists_inner_concat (hlocate : t.locate p = .ok l) (hl : t.find? l ≠ some .directory) :
    ∃ front last, p.inner = front ++ [last]
      ∧ t.Passes (if p.isAbsolute then [] else t.working) p.inner := by
  rw [locate] at hlocate
  split at hlocate
  · contradiction
  · have hpasses := passes_of_follow hlocate
    have hleads := eq_foldl_of_follow hlocate
    rw [foldl_step] at hleads
    obtain hnil | ⟨front, last, hconcat⟩ := List.eq_nil_or_concat p.inner
    · rw [Path.inner] at hnil
      rw [hnil, List.foldl_nil] at hleads
      subst hleads
      cases hpieces : Path.splitSlashes p.text.toList with
      | nil => exact absurd hpieces Path.splitSlashes_ne_nil
      | cons piece rest =>
        rw [hpieces, follow] at hlocate
        split at hlocate
        · contradiction
        · contradiction
        · rename_i hdir
          exact absurd hdir hl
    · rw [List.concat_eq_append] at hconcat
      exact ⟨front, last, hconcat, hpasses⟩

/-- Above a file there is a directory. -/
theorem exists_directory_above (hlocate : t.locate p = .ok l)
    (hl : t.find? l ≠ some .directory) (hne : p.components.dropLast ≠ []) :
    ∃ d, t.locate (.ofComponents p.components.dropLast) = .ok d ∧ t.find? d = some .directory := by
  obtain ⟨front, last, hconcat, hpasses⟩ := exists_inner_concat hlocate hl
  obtain ⟨hstart, hinner⟩ := Path.start_inner_above hconcat
  rw [← Path.components_above hconcat] at hne
  have htext := Path.text_ne_of_components hne
  have hfront : ∀ a b, front = a ++ b →
      t.find? (a.foldl Component.lead (if p.isAbsolute then [] else t.working))
        = some .directory := by
    intro a b hab
    refine hpasses a (b ++ [last]) ?_ (by simp)
    rw [hconcat, hab, List.append_assoc]
  refine ⟨front.foldl Component.lead (if p.isAbsolute then [] else t.working), ?_, ?_⟩
  · have hfollow := follow_of_passes (t := t) (l := if p.isAbsolute then [] else t.working)
      (Path.splitSlashes (Path.ofComponents p.components.dropLast).text.toList)
    rw [← Path.inner, hinner] at hfollow
    rw [locate, if_neg (by simpa using htext), Path.isAbsolute_congr hstart]
    exact hfollow hfront
  · exact hfront front [] (List.append_nil front).symm

/-- The directories above a file are there, so none of them is made. -/
theorem makeDirectories_above (hlocate : t.locate p = .ok l) (hl : t.find? l ≠ some .directory) :
    t.makeDirectories p.components.dropLast.reverse = (t, none) := by
  cases hcs : p.components.dropLast.reverse with
  | nil => rfl
  | cons c above =>
    have hne : p.components.dropLast ≠ [] := by
      rw [Ne, ← List.reverse_eq_nil_iff, hcs]
      exact List.cons_ne_nil c above
    obtain ⟨d, hd, hdir⟩ := exists_directory_above hlocate hl hne
    rw [← List.reverse_reverse p.components.dropLast, hcs] at hd
    have hmake : t.makeDirectory (.ofComponents (c :: above).reverse) = (t, some .exists) := by
      simp only [makeDirectory, hd, hdir]
    have hthere : t.isDirectory (.ofComponents (c :: above).reverse) = true := by
      simp only [isDirectory, entry, hd, hdir]
    rw [makeDirectories]
    simp only [hmake, contentWith, hthere, if_true]

/-- A text that is at a path already can be written there, and changes no contents. -/
theorem sameContents_write_self (hread : t.read p = .ok text) :
    (t.write p text).2 = none ∧ SameContents t (t.write p text).1 := by
  obtain ⟨l, f, hlocate, hfile, htext⟩ := read_eq_ok_iff.1 hread
  have hput : t.write p text = (t.put l (.file ⟨some text, t.clock⟩), none) := by
    have hdir : t.find? l ≠ some .directory := by
      rw [hfile]
      simp
    rw [write, place, makeDirectories_above hlocate hdir]
    show t.putFile p _ = _
    rw [putFile_of_ne hlocate hdir, stampAbove_of_find? hfile]
  rw [hput]
  refine ⟨rfl, rfl, rfl, fun k => ?_⟩
  rw [find?_put (ne_nil_of_file? (file?_eq_some_iff.2 hfile))]
  split
  · rename_i hk
    rw [hk, hfile, Option.map_some, Option.map_some, Entry.timeless, Entry.timeless, htext]
  · rfl

end FileTree

end Stencil
