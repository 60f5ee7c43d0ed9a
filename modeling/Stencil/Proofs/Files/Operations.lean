import Stencil.Proofs.Files.Sound

/-!
# What file operations do

Making directories adds directories and nothing else, whether or not it is refused. So a text that
is written is the file at the destination of its path, and all other files are as they were. A file
that is deleted is gone, and nothing else changes.

Results: the files after an accepted write (`FileTree.file?_of_write`) and the entries after an
accepted deletion (`FileTree.find?_of_delete`). A sound tree stays sound (`FileTree.Sound.write`,
`FileTree.Sound.delete`). A directory that is changed bears the time of the operation
(`FileTree.ChangesNow.write`, `FileTree.ChangesNow.delete`).
-/

namespace Stencil

namespace FileTree

variable {t t' t'' : FileTree} {l : Location} {p : Path} {text : String} {f : File} {c : List Component}

/-- Are the two trees the same, but for directories that only the second one has? -/
structure Grows (t t' : FileTree) : Prop where
  working : t'.working = t.working
  clock : t'.clock = t.clock
  kept : ∀ l e, t.find? l = some e → t'.find? l = some e
  fresh : ∀ l, t.find? l = none → t'.find? l = none ∨ t'.find? l = some .directory

namespace Grows

theorem refl (t : FileTree) : Grows t t :=
  ⟨rfl, rfl, fun _ _ h => h, fun _ h => .inl h⟩

theorem trans (h : Grows t t') (h' : Grows t' t'') : Grows t t'' := by
  refine ⟨h'.working.trans h.working, h'.clock.trans h.clock, fun l e he => ?_, fun l hl => ?_⟩
  · exact h'.kept l e (h.kept l e he)
  · rcases h.fresh l hl with hnone | hdir
    · exact h'.fresh l hnone
    · exact .inr (h'.kept l _ hdir)

/-- There are no other files than before. -/
theorem file?_eq (h : Grows t t') (l : Location) : t'.file? l = t.file? l := by
  unfold file?
  cases hl : t.find? l with
  | some e => rw [h.kept l e hl]
  | none => obtain hnone | hdir := h.fresh l hl <;> simp [*]

end Grows

/-! ## Making directories -/

theorem grows_makeDirectory : Grows t (t.makeDirectory p).1 := by
  unfold makeDirectory
  split
  · exact .refl t
  · rename_i l hlocate
    split
    · exact .refl t
    · rename_i hnone
      have hne : l ≠ [] := by
        rintro rfl
        rw [find?_nil] at hnone
        contradiction
      refine ⟨working_stampAbove, clock_stampAbove, fun k e hk => ?_, fun k hk => ?_⟩
      · rw [find?_stamp, find?_put hne, if_neg, find?_stampAbove, hk]
        rintro rfl
        rw [hnone] at hk
        contradiction
      · rw [find?_stamp, find?_put hne, find?_stampAbove]
        split
        · exact .inr rfl
        · exact .inl hk

theorem contentWith_fst {o : Outcome} : (contentWith p o).1 = o.1 := by
  obtain ⟨t, fault⟩ := o
  cases fault with
  | none => rfl
  | some fault =>
    rw [contentWith]
    split <;> rfl

theorem grows_makeDirectories : Grows t (t.makeDirectories c).1 := by
  induction c generalizing t with
  | nil => exact .refl t
  | cons c above ih =>
    rw [makeDirectories]
    split
    · rename_i t₁ hmake
      have hfirst := grows_makeDirectory (t := t) (p := .ofComponents (c :: above).reverse)
      rw [hmake] at hfirst
      split
      · rename_i t₂ habove
        have hsecond := ih (t := t₁)
        rw [habove] at hsecond
        rw [contentWith_fst]
        exact (hfirst.trans hsecond).trans grows_makeDirectory
      · exact hfirst.trans ih
    · rw [contentWith_fst]
      exact grows_makeDirectory

/-! ## Writing -/

@[simp] theorem file?_stampAbove {k : Location} : (t.stampAbove l).file? k = t.file? k := by
  unfold file?
  rw [find?_stampAbove]

theorem file?_put {k : Location} (hl : l ≠ []) :
    (t.put l (.file f)).file? k = if k = l then some f else t.file? k := by
  unfold file?
  rw [find?_put hl]
  by_cases hk : k = l
  · rw [if_pos hk, if_pos hk]
  · rw [if_neg hk, if_neg hk]

/-- A file that has been put at a path is at its destination. -/
theorem file?_of_putFile (h : t.putFile p f = (t', none)) :
    t'.working = t.working ∧ t'.clock = t.clock
      ∧ ∀ l, t'.file? l = if l = p.destination t.working then some f else t.file? l := by
  rw [putFile] at h
  split at h
  · cases h
  · rename_i l hlocate
    obtain rfl := eq_destination_of_locate hlocate
    split at h
    · cases h
    · rename_i hdir
      cases h
      have hne : p.destination t.working ≠ [] := by
        intro hnil
        exact hdir (hnil ▸ find?_nil)
      refine ⟨working_stampAbove, clock_stampAbove, fun k => ?_⟩
      rw [file?_put hne, file?_stampAbove]

/-- A text that has been written is at the destination of its path, and the other files stay. -/
theorem file?_of_write (h : t.write p text = (t', none)) :
    t'.working = t.working ∧ t'.clock = t.clock
      ∧ ∀ l, t'.file? l
        = if l = p.destination t.working then some ⟨some text, t.clock⟩ else t.file? l := by
  rw [write, place] at h
  split at h
  · rename_i t₁ hmake
    have hgrows := grows_makeDirectories (t := t) (c := p.components.dropLast.reverse)
    rw [hmake] at hgrows
    obtain ⟨hworking, hclock, hfile⟩ := file?_of_putFile h
    refine ⟨hworking.trans hgrows.working, hclock.trans hgrows.clock, fun l => ?_⟩
    rw [hfile, hgrows.working, hgrows.file?_eq]
  · rename_i hrefused
    exact absurd h (hrefused t')

/-! ## Deleting -/

/-- What has been deleted was a file, and only that is gone. -/
theorem find?_of_delete (h : t.delete p = (t', none)) :
    t'.working = t.working ∧ t'.clock = t.clock
      ∧ ∀ l, t'.find? l = if l = p.destination t.working then none else t.find? l := by
  rw [delete] at h
  split at h
  · cases h
  · cases h
  · rename_i l f hentry
    obtain ⟨-, rfl, hfile⟩ := of_entry hentry
    cases h
    exact ⟨rfl, rfl, fun k => find?_erase (ne_nil_of_file? (file?_eq_some_iff.2 hfile))⟩

/-! ## Sound trees stay sound -/

namespace Sound

theorem makeDirectory (hs : t.Sound) : (t.makeDirectory p).1.Sound := by
  unfold FileTree.makeDirectory
  split
  · exact hs
  · rename_i l hlocate
    split
    · exact hs
    · rename_i hnone
      obtain ⟨d, name, rfl, hname, hd, -⟩ := hs.of_locate hlocate (by simp [hnone])
      exact (hs.stampAbove.put hname (by simpa using hd) (by simp [hnone])).stamp

theorem makeDirectories (hs : t.Sound) : (t.makeDirectories c).1.Sound := by
  induction c generalizing t with
  | nil => exact hs
  | cons c above ih =>
    rw [FileTree.makeDirectories]
    split
    · rename_i t₁ hmake
      have hfirst := hs.makeDirectory (p := .ofComponents (c :: above).reverse)
      rw [hmake] at hfirst
      split
      · rename_i t₂ habove
        have hsecond := ih hfirst
        rw [habove] at hsecond
        rw [contentWith_fst]
        exact hsecond.makeDirectory
      · exact ih hfirst
    · rw [contentWith_fst]
      exact hs.makeDirectory

theorem putFile (hs : t.Sound) : (t.putFile p f).1.Sound := by
  unfold FileTree.putFile
  split
  · exact hs
  · rename_i l hlocate
    split
    · exact hs
    · rename_i hdir
      obtain ⟨d, name, rfl, hname, hd, -⟩ := hs.of_locate hlocate hdir
      exact hs.stampAbove.put hname (by simpa using hd) (by simpa using hdir)

theorem write (hs : t.Sound) : (t.write p text).1.Sound := by
  unfold FileTree.write place
  split
  · rename_i t₁ hmake
    have hmade := hs.makeDirectories (c := p.components.dropLast.reverse)
    rw [hmake] at hmade
    exact hmade.putFile
  · exact hs.makeDirectories

theorem delete (hs : t.Sound) : (t.delete p).1.Sound := by
  unfold FileTree.delete
  split
  · exact hs
  · exact hs
  · rename_i l f hentry
    exact (hs.erase (of_entry hentry).2.2).stamp

end Sound

/-! ## The times of directories -/

/-- Do the directories that differ in their times bear the time of the first tree in the second one? -/
structure ChangesNow (t t' : FileTree) : Prop where
  clock : t'.clock = t.clock
  stampAt : ∀ l, t'.stampAt l = t.stampAt l ∨ t'.stampAt l = t.clock

namespace ChangesNow

theorem refl (t : FileTree) : ChangesNow t t :=
  ⟨rfl, fun _ => .inl rfl⟩

theorem stamp (h : ChangesNow t t') : ChangesNow t (t'.stamp l) := by
  refine ⟨h.clock, fun k => ?_⟩
  rw [stampAt_stamp]
  split
  · exact .inr h.clock
  · exact h.stampAt k

theorem stampAbove (h : ChangesNow t t') : ChangesNow t (t'.stampAbove l) := by
  unfold FileTree.stampAbove
  split
  · exact h.stamp
  · exact h

/-- Entries bear no times of directories. -/
theorem put {e : Entry} (h : ChangesNow t t') : ChangesNow t (t'.put l e) :=
  ⟨h.clock, h.stampAt⟩

theorem makeDirectory (h : ChangesNow t t') : ChangesNow t (t'.makeDirectory p).1 := by
  unfold FileTree.makeDirectory
  split
  · exact h
  · split
    · exact h
    · exact h.stampAbove.put.stamp

theorem makeDirectories (h : ChangesNow t t') : ChangesNow t (t'.makeDirectories c).1 := by
  induction c generalizing t' with
  | nil => exact h
  | cons c above ih =>
    rw [FileTree.makeDirectories]
    split
    · rename_i t₁ hmake
      have hfirst := h.makeDirectory (p := .ofComponents (c :: above).reverse)
      rw [hmake] at hfirst
      split
      · rename_i t₂ habove
        have hsecond := ih hfirst
        rw [habove] at hsecond
        rw [contentWith_fst]
        exact hsecond.makeDirectory
      · exact ih hfirst
    · rw [contentWith_fst]
      exact h.makeDirectory

theorem putFile (h : ChangesNow t t') : ChangesNow t (t'.putFile p f).1 := by
  unfold FileTree.putFile
  split
  · exact h
  · split
    · exact h
    · exact h.stampAbove.put

theorem write (h : ChangesNow t t') : ChangesNow t (t'.write p text).1 := by
  unfold FileTree.write place
  split
  · rename_i t₁ hmake
    have hmade := h.makeDirectories (c := p.components.dropLast.reverse)
    rw [hmake] at hmade
    exact hmade.putFile
  · exact h.makeDirectories

theorem delete (h : ChangesNow t t') : ChangesNow t (t'.delete p).1 := by
  unfold FileTree.delete
  split
  · exact h
  · exact h
  · rename_i l f _
    have herased : ChangesNow t (t'.erase l) := ⟨h.clock, h.stampAt⟩
    exact herased.stamp

end ChangesNow

end FileTree

end Stencil
