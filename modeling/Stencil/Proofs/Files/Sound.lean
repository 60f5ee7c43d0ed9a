import Mathlib.Data.List.Induction
import Stencil.Proofs.Files.Destination

/-!
# Sound file trees

A system keeps one entry for each location, under names that can be names, and every file and every
directory is in a directory. In such a tree all files below a root are found, by the names that lead
to them.

Results: the files below a root are those behind its destination (`FileTree.mem_filesBelow_iff`).
The path of a file ends in the name of the file (`FileTree.Sound.fileName?_of_entry`).
-/

namespace Stencil

namespace FileTree

/-- The file at a location. -/
def file? (t : FileTree) (l : Location) : Option File :=
  match t.find? l with
  | some (.file f) => some f
  | _ => none

/-- A tree that a system can keep: the names are names, no location has two entries, and everything
but the top is in a directory. -/
structure Sound (t : FileTree) : Prop where
  isName : ∀ x ∈ t.entries, ∀ name ∈ x.1, IsName name.toList
  nodup : (t.entries.map (·.1)).Nodup
  above : ∀ x ∈ t.entries, x.1 ≠ [] ∧ t.find? x.1.dropLast = some .directory

variable {t : FileTree} {l m : Location} {e : Entry} {f : File} {p root : Path} {names : List String}

theorem file?_eq_some_iff : t.file? l = some f ↔ t.find? l = some (.file f) := by
  unfold file?
  split
  · rename_i g hg
    rw [hg]
    simp
  · rename_i hnone
    simp only [reduceCtorEq, false_iff]
    exact hnone f

theorem find?_nil : t.find? [] = some .directory := by
  simp [find?]

theorem find?_of_ne_nil (h : l ≠ []) : t.find? l = t.entries.lookup l := by
  simp [find?, h]

theorem ne_nil_of_file? (h : t.file? l = some f) : l ≠ [] := by
  rintro rfl
  rw [file?_eq_some_iff, find?_nil] at h
  exact Entry.noConfusion (Option.some.inj h)

theorem mem_of_find? (h : t.find? l = some e) (hl : l ≠ []) : (l, e) ∈ t.entries := by
  rw [find?_of_ne_nil hl, List.lookup_eq_some_iff] at h
  obtain ⟨front, back, heq, -⟩ := h
  rw [heq]
  exact List.mem_append_right front List.mem_cons_self

theorem lookup_of_mem {entries : List (Location × Entry)} (hn : (entries.map (·.1)).Nodup)
    (h : (l, e) ∈ entries) : entries.lookup l = some e := by
  induction entries with
  | nil => contradiction
  | cons x rest ih =>
    rw [List.map_cons, List.nodup_cons] at hn
    rw [List.mem_cons] at h
    rcases h with rfl | h
    · exact List.lookup_cons_self
    · have hne : l ≠ x.1 := by
        rintro rfl
        exact hn.1 (List.mem_map_of_mem (f := (·.1)) h)
      rw [List.lookup_cons, beq_eq_false_iff_ne.2 hne]
      exact ih hn.2 h

namespace Sound

theorem find?_of_mem (hs : t.Sound) (h : (l, e) ∈ t.entries) : t.find? l = some e := by
  rw [find?_of_ne_nil (hs.above _ h).1]
  exact lookup_of_mem hs.nodup h

theorem isName_of_find? (hs : t.Sound) (h : t.find? l = some e) :
    ∀ name ∈ l, IsName name.toList := by
  by_cases hl : l = []
  · subst hl
    simp
  · exact hs.isName _ (mem_of_find? h hl)

/-- The names behind a location that lead to a file can be names. -/
theorem isName_of_file? (hs : t.Sound) (h : (t.file? (l ++ names)).isSome = true) :
    ∀ name ∈ names, IsName name.toList := by
  obtain ⟨f, hf⟩ := Option.isSome_iff_exists.1 h
  intro name hn
  exact hs.isName_of_find? (file?_eq_some_iff.1 hf) name (List.mem_append_right _ hn)

/-- Everything is in a directory. -/
theorem find?_dropLast (hs : t.Sound) (h : t.find? l = some e) :
    t.find? l.dropLast = some .directory := by
  by_cases hl : l = []
  · subst hl
    exact find?_nil
  · exact (hs.above _ (mem_of_find? h hl)).2

/-- On the way to an entry there are only directories. -/
theorem find?_of_append (hs : t.Sound) (h : t.find? (l ++ names) = some e) (hne : names ≠ []) :
    t.find? l = some .directory := by
  induction names using List.reverseRecOn generalizing e with
  | nil => contradiction
  | append_singleton front name ih =>
    have habove := hs.find?_dropLast h
    rw [← List.append_assoc, List.dropLast_concat] at habove
    cases front with
    | nil => simpa using habove
    | cons first rest => exact ih habove (List.cons_ne_nil first rest)

/-- Without double dots a path only leads further down. -/
theorem exists_names_of_foldl_step {pieces : List (List Char)}
    (h : ∀ piece ∈ pieces, Path.componentOf? piece ≠ some .parent) :
    ∃ names, pieces.foldl step l = l ++ names := by
  induction pieces generalizing l with
  | nil => exact ⟨[], by simp⟩
  | cons piece rest ih =>
    rw [List.forall_mem_cons] at h
    obtain ⟨names, hnames⟩ := ih (l := step l piece) h.2
    rw [List.foldl_cons, hnames, step_eq]
    cases hc : Path.componentOf? piece with
    | none => exact ⟨names, rfl⟩
    | some c =>
      cases c with
      | parent => exact absurd hc h.1
      | normal name => exact ⟨name :: names, by simp [Component.lead]⟩
      | _ => exact ⟨names, rfl⟩

/-- A path without double dots can be followed to a place behind which there is something. -/
theorem follow_of_find? (hs : t.Sound) {pieces : List (List Char)}
    (h : ∀ piece ∈ pieces, Path.componentOf? piece ≠ some .parent)
    (he : t.find? (pieces.foldl step l ++ names) = some e) (hne : names ≠ []) :
    t.follow l pieces = .ok (pieces.foldl step l) := by
  induction pieces generalizing l with
  | nil => rfl
  | cons piece rest ih =>
    obtain ⟨more, hmore⟩ := exists_names_of_foldl_step (l := l) h
    have hd : t.find? l = some .directory := by
      rw [hmore, List.append_assoc] at he
      exact hs.find?_of_append he (List.append_ne_nil_of_right_ne_nil more hne)
    rw [follow, hd]
    rw [List.forall_mem_cons] at h
    exact ih h.2 he

theorem isThere_of_find? (hs : t.Sound) (htext : p.text ≠ "") (hp : .parent ∉ p.components)
    (he : t.find? (p.destination t.working ++ names) = some e) (hne : names ≠ []) :
    t.isThere p = true := by
  have hpieces : ∀ piece ∈ Path.splitSlashes p.text.toList, Path.componentOf? piece ≠ some .parent := by
    intro piece hpiece hc
    rw [Path.components_eq, List.mem_append, not_or] at hp
    exact hp.2 (List.mem_filterMap.2 ⟨piece, hpiece, hc⟩)
  have hlocate : t.locate p = .ok (p.destination t.working) := by
    rw [Path.destination, Path.inner, ← foldl_step] at he ⊢
    rw [locate, if_neg (by simpa using htext)]
    exact hs.follow_of_find? hpieces he hne
  rw [isThere, entry, hlocate]
  simp only [hs.find?_of_append he hne]
  rfl

/-! ## Files below a root -/

theorem namesBelow?_eq_some_iff {x : Location × Entry} :
    namesBelow? l x = some names ↔ ∃ f, x = (l ++ names, .file f) := by
  obtain ⟨m, e⟩ := x
  cases e with
  | directory => simp [namesBelow?]
  | file f =>
    simp only [namesBelow?, Option.ite_none_right_eq_some, List.isPrefixOf_iff_prefix, Option.some.injEq,
      Prod.mk.injEq, Entry.file.injEq, exists_and_left, exists_eq', and_true]
    constructor
    · rintro ⟨⟨back, rfl⟩, hback⟩
      rw [List.drop_left] at hback
      rw [hback]
    · rintro rfl
      exact ⟨List.prefix_append l names, List.drop_left⟩

/-- A path that is found below a root is that of the names of a file behind the destination of the
root. -/
theorem mem_filesBelow_iff (hs : t.Sound) {found : List Path} (h : t.filesBelow root = .ok found) :
    p ∈ found ↔ ∃ names, p = .ofNames names
      ∧ (t.file? (root.destination t.working ++ names)).isSome = true := by
  rw [filesBelow] at h
  split at h
  · contradiction
  · rename_i l e hentry
    cases h
    rw [List.mem_mergeSort, List.mem_map, ← (of_entry hentry).2.1]
    constructor
    · rintro ⟨names, hnames, rfl⟩
      obtain ⟨x, hx, hbelow⟩ := List.mem_filterMap.1 hnames
      obtain ⟨f, rfl⟩ := namesBelow?_eq_some_iff.1 hbelow
      refine ⟨names, rfl, ?_⟩
      rw [file?_eq_some_iff.2 (hs.find?_of_mem hx)]
      rfl
    · rintro ⟨names, rfl, hfile⟩
      obtain ⟨f, hf⟩ := Option.isSome_iff_exists.1 hfile
      have hmem := mem_of_find? (file?_eq_some_iff.1 hf) (ne_nil_of_file? hf)
      exact ⟨names, List.mem_filterMap.2 ⟨_, hmem, namesBelow?_eq_some_iff.2 ⟨f, rfl⟩⟩, rfl⟩

/-! ## The last piece of a path -/

/-- The last piece of a path leads on from a directory. -/
theorem follow_append {front : List (List Char)} {last : List Char}
    (h : t.follow l (front ++ [last]) = .ok m) :
    ∃ d, t.find? d = some .directory ∧ m = step d last := by
  induction front generalizing l with
  | nil =>
    rw [List.nil_append, follow] at h
    split at h
    · contradiction
    · contradiction
    · rename_i hd
      cases h
      exact ⟨l, hd, rfl⟩
  | cons piece rest ih =>
    rw [List.cons_append, follow] at h
    split at h
    · contradiction
    · contradiction
    · exact ih h

/-- A path that can be followed, and not to a directory, ends in a name. -/
theorem of_locate (hs : t.Sound) (h : t.locate p = .ok l) (hl : t.find? l ≠ some .directory) :
    ∃ d name, l = d ++ [name] ∧ IsName name.toList ∧ t.find? d = some .directory
      ∧ p.fileName? = some name := by
  rw [locate] at h
  split at h
  · contradiction
  · obtain hnil | ⟨front, last, hpieces⟩ := List.eq_nil_or_concat (Path.splitSlashes p.text.toList)
    · exact absurd hnil Path.splitSlashes_ne_nil
    · rw [List.concat_eq_append] at hpieces
      rw [hpieces] at h
      obtain ⟨d, hd, rfl⟩ := follow_append h
      have hlast : last ∈ Path.splitSlashes p.text.toList := by
        rw [hpieces]
        exact List.mem_append_right front (List.mem_singleton_self last)
      have hslash := Path.notMem_of_mem_splitSlashes hlast
      rw [step_eq] at hl ⊢
      cases hc : Path.componentOf? last with
      | none =>
        rw [hc] at hl
        exact absurd hd hl
      | some c =>
        rw [hc] at hl
        have hinner := (Path.isInner_of_componentOf? hslash hc).1
        cases c with
        | root => contradiction
        | current => contradiction
        | parent => exact absurd (hs.find?_dropLast hd) hl
        | normal name =>
          refine ⟨d, name, rfl, hinner, hd, ?_⟩
          rw [Path.fileName?, Path.components_eq, Path.inner, hpieces, List.filterMap_append,
            List.filterMap_cons_some hc, List.filterMap_nil, ← List.append_assoc,
            List.getLast?_concat]

/-- The path of a file ends in the name of the file. -/
theorem fileName?_of_entry (hs : t.Sound) (h : t.entry p = .ok (l, .file f)) :
    p.fileName? = l.getLast? := by
  obtain ⟨hlocate, -, hfile⟩ := of_entry h
  obtain ⟨d, name, rfl, -, -, hname⟩ := hs.of_locate hlocate (by simp [hfile])
  rw [hname, List.getLast?_concat]

/-! ## Sound trees stay sound -/

theorem stamp (hs : t.Sound) : (t.stamp l).Sound :=
  ⟨hs.isName, hs.nodup, hs.above⟩

theorem stampAbove (hs : t.Sound) : (t.stampAbove l).Sound := by
  unfold FileTree.stampAbove
  split
  · exact hs.stamp
  · exact hs

theorem put {d : Location} {name : String} (hs : t.Sound) (hname : IsName name.toList)
    (hd : t.find? d = some .directory) (hl : t.find? (d ++ [name]) ≠ some .directory) :
    (t.put (d ++ [name]) e).Sound := by
  have hne : d ++ [name] ≠ [] := List.append_ne_nil_of_right_ne_nil d (List.cons_ne_nil name [])
  refine ⟨fun x hx => ?_, ?_, fun x hx => ?_⟩
  · rcases List.mem_cons.1 hx with rfl | hx
    · intro n hn
      rcases List.mem_append.1 hn with hn | hn
      · exact hs.isName_of_find? hd n hn
      · rw [List.mem_singleton.1 hn]
        exact hname
    · exact hs.isName x (List.mem_filter.1 hx).1
  · refine List.nodup_cons.2 ⟨fun hmem => ?_, ?_⟩
    · obtain ⟨x, hx, heq⟩ := List.mem_map.1 hmem
      have := (List.mem_filter.1 hx).2
      simp [heq] at this
    · exact (List.filter_sublist.map _).nodup hs.nodup
  · rcases List.mem_cons.1 hx with rfl | hx
    · refine ⟨hne, ?_⟩
      rw [List.dropLast_concat, find?_put hne, if_neg, hd]
      intro heq
      have := congrArg List.length heq
      simp at this
    · obtain ⟨hx, -⟩ := List.mem_filter.1 hx
      obtain ⟨hxne, habove⟩ := hs.above x hx
      refine ⟨hxne, ?_⟩
      rw [find?_put hne, if_neg, habove]
      intro heq
      exact hl (heq ▸ habove)

theorem erase (hs : t.Sound) (hl : t.find? l = some (.file f)) : (t.erase l).Sound := by
  have hne := ne_nil_of_file? (file?_eq_some_iff.2 hl)
  refine ⟨fun x hx => hs.isName x (List.mem_filter.1 hx).1, ?_, fun x hx => ?_⟩
  · exact (List.filter_sublist.map _).nodup hs.nodup
  · obtain ⟨hxne, habove⟩ := hs.above x (List.mem_filter.1 hx).1
    refine ⟨hxne, ?_⟩
    rw [find?_erase hne, if_neg, habove]
    intro heq
    rw [heq, hl] at habove
    exact Entry.noConfusion (Option.some.inj habove)

end Sound

end FileTree

end Stencil
