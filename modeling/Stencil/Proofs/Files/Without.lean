import Stencil.Proofs.Files.Contents

/-!
# Trees without some of their files

Files that are taken out of a tree leave its directories as they are. So a path that can be followed is
followed as before, and it leads to the same thing unless one of these files is where it leads. A path
on which one of the files is in the way cannot be followed with or without it.

Results: what is at a path of which none of the files is the end (`FileTree.entry_without`,
`FileTree.modified?_without`), and that a sound tree stays sound (`FileTree.Sound.without`). In a sound
tree names behind a root can be followed (`FileTree.Sound.locate_join_ofNames`).
-/

namespace Stencil

theorem Path.splitSlashes_ofNames {names : List String} (h : ∀ name ∈ names, IsName name.toList)
    (hne : names ≠ []) : splitSlashes (ofNames names).text.toList = names.map String.toList := by
  have hwritten : ofNames names = written (names.map .normal) := by
    cases names with
    | nil => contradiction
    | cons name rest => rfl
  rw [hwritten, splitSlashes_written (by simpa using hne), List.map_map]
  · rfl
  · exact fun c hc => notMem_text (isInner_of_mem_map h c hc)

namespace FileTree

variable {t : FileTree} {l m : Location} {ls : List Location} {e : Entry} {p r : Path}
  {names : List String}

/-- The tree without what there is at some locations. -/
def without (t : FileTree) (ls : List Location) : FileTree :=
  { t with entries := t.entries.filter fun x => !ls.contains x.1 }

theorem without_nil : t.without [] = t := by
  simp [without]

theorem without_cons : t.without (m :: ls) = (t.erase m).without ls := by
  simp only [without, erase, List.filter_filter, List.contains_cons, Bool.not_or]
  congr 2
  funext x
  exact Bool.and_comm _ _

/-- Are there files at all the locations? -/
def HasFiles (t : FileTree) (ls : List Location) : Prop :=
  ∀ l ∈ ls, (t.file? l).isSome = true

theorem HasFiles.ne_nil (h : t.HasFiles ls) (hl : l ∈ ls) : l ≠ [] := by
  obtain ⟨f, hf⟩ := Option.isSome_iff_exists.1 (h l hl)
  exact ne_nil_of_file? hf

theorem find?_without (h : [] ∉ ls) :
    (t.without ls).find? l = if l ∈ ls then none else t.find? l := by
  induction ls generalizing t with
  | nil => simp [without_nil]
  | cons m ls ih =>
    rw [List.mem_cons, not_or] at h
    rw [without_cons, ih h.2, find?_erase (Ne.symm h.1)]
    by_cases hls : l ∈ ls
    · rw [if_pos hls, if_pos (List.mem_cons_of_mem m hls)]
    · by_cases hm : l = m
      · rw [if_neg hls, if_pos hm, if_pos (hm ▸ List.mem_cons_self)]
      · rw [if_neg hls, if_neg hm, if_neg (by simp [hls, hm])]

section HasFiles

variable (h : t.HasFiles ls)
include h

theorem HasFiles.find?_of_notMem (hl : l ∉ ls) : (t.without ls).find? l = t.find? l := by
  rw [find?_without fun hnil => h.ne_nil hnil rfl, if_neg hl]

theorem HasFiles.file?_without :
    (t.without ls).file? l = if l ∈ ls then none else t.file? l := by
  unfold file?
  rw [find?_without fun hnil => h.ne_nil hnil rfl]
  by_cases hl : l ∈ ls
  · rw [if_pos hl, if_pos hl]
  · rw [if_neg hl, if_neg hl]

/-- The directories are the same. -/
theorem HasFiles.directory_iff :
    (t.without ls).find? l = some .directory ↔ t.find? l = some .directory := by
  by_cases hl : l ∈ ls
  · obtain ⟨f, hf⟩ := Option.isSome_iff_exists.1 (h l hl)
    rw [file?_eq_some_iff] at hf
    rw [find?_without fun hnil => h.ne_nil hnil rfl, if_pos hl, hf]
    simp
  · rw [h.find?_of_notMem hl]

/-! ## Paths -/

/-- The same paths can be followed, and to the same locations. -/
theorem locate_without_eq_ok_iff : (t.without ls).locate p = .ok l ↔ t.locate p = .ok l :=
  ⟨locate_of_directories rfl fun _ hk => h.directory_iff.1 hk,
    locate_of_directories rfl fun _ hk => h.directory_iff.2 hk⟩

theorem entry_without (hlocate : t.locate p = .ok l) (hl : l ∉ ls) :
    (t.without ls).entry p = t.entry p := by
  rw [entry, entry, (locate_without_eq_ok_iff h).2 hlocate, hlocate]
  simp only [h.find?_of_notMem hl]

/-- When something was written last does not change, unless it is one of the files. -/
theorem modified?_without (hp : p.destination t.working ∉ ls) :
    (t.without ls).modified? p = t.modified? p := by
  cases hlocate : t.locate p with
  | ok l =>
    rw [eq_destination_of_locate hlocate] at hlocate
    rw [modified?, modified?, entry_without h hlocate hp]
    rfl
  | error fault =>
    cases hlocate' : (t.without ls).locate p with
    | ok l =>
      rw [(locate_without_eq_ok_iff h).1 hlocate'] at hlocate
      contradiction
    | error fault' => simp only [modified?, entry, hlocate, hlocate']

theorem Sound.without (hs : t.Sound) : (t.without ls).Sound := by
  refine ⟨fun x hx => hs.isName x (List.mem_filter.1 hx).1, ?_, fun x hx => ?_⟩
  · exact (List.filter_sublist.map _).nodup hs.nodup
  · obtain ⟨hne, habove⟩ := hs.above x (List.mem_filter.1 hx).1
    exact ⟨hne, h.directory_iff.2 habove⟩

end HasFiles

/-! ## Names behind a root -/

theorem follow_append_eq {front back : List (List Char)} (hfront : t.follow l front = .ok m) :
    t.follow l (front ++ back) = t.follow m back := by
  induction front generalizing l with
  | nil =>
    cases hfront
    rfl
  | cons piece rest ih =>
    rw [follow] at hfront
    rw [List.cons_append, follow]
    split at hfront
    · contradiction
    · contradiction
    · exact ih hfront

/-- A path that can be followed can be followed as far as each of its pieces. -/
theorem exists_follow_of_append {front back : List (List Char)}
    (h : t.follow l (front ++ back) = .ok m) : ∃ d, t.follow l front = .ok d := by
  induction front generalizing l with
  | nil => exact ⟨l, rfl⟩
  | cons piece rest ih =>
    rw [List.cons_append, follow] at h
    rw [follow]
    split at h
    · contradiction
    · contradiction
    · exact ih h

/-- Names lead to whatever is behind them. -/
theorem Sound.follow_names (hs : t.Sound) (he : t.find? (l ++ names) = some e) :
    t.follow l (names.map String.toList) = .ok (l ++ names) := by
  have hnames : ∀ name ∈ names, IsName name.toList :=
    fun name hn => hs.isName_of_find? he name (List.mem_append_right l hn)
  induction names generalizing l with
  | nil => rw [List.map_nil, List.append_nil, follow]
  | cons name rest ih =>
    rw [List.forall_mem_cons] at hnames
    have hdir := hs.find?_of_append he (List.cons_ne_nil name rest)
    have hstep : step l name.toList = l ++ [name] := by
      have hpiece : Path.componentOf? name.toList = some (.normal name) :=
        Path.componentOf?_text (c := .normal name) hnames.1
      rw [step_eq, hpiece]
      rfl
    rw [List.append_cons] at he ⊢
    rw [List.map_cons, follow, hdir]
    simp only [hstep]
    exact ih he hnames.2

/-- Behind a root that can be followed, names lead to whatever is there. -/
theorem Sound.locate_join_ofNames (hs : t.Sound) (hr : t.locate r = .ok l)
    (he : t.find? (l ++ names) = some e) (hne : names ≠ []) :
    t.locate (r.join (.ofNames names)) = .ok (l ++ names) := by
  have hnames : ∀ name ∈ names, IsName name.toList :=
    fun name hn => hs.isName_of_find? he name (List.mem_append_right l hn)
  rw [locate] at hr
  split at hr
  · contradiction
  · rename_i htext
    have hbase : r.text ≠ "" := by simpa using htext
    obtain ⟨front, -, hhead, hpieces, hfront⟩ :=
      Path.splitSlashes_join hbase (Path.isAbsolute_ofNames hnames)
    have habsolute : (r.join (.ofNames names)).isAbsolute = r.isAbsolute := by
      rw [Path.isAbsolute, Path.isAbsolute, hhead]
    -- a piece behind a slash at the end of the root leads nowhere else
    have hroot : t.follow (if r.isAbsolute then [] else t.working) front = .ok l := by
      rcases hfront with hfront | hfront
      · rwa [← hfront]
      · rw [hfront] at hr
        obtain ⟨d, hd⟩ := exists_follow_of_append hr
        rw [follow_append_eq hd, follow] at hr
        split at hr
        · contradiction
        · contradiction
        · cases hr
          exact hd
    have hjoined : (r.join (.ofNames names)).text.isEmpty = false := by
      rw [Bool.eq_false_iff, ne_eq, String.isEmpty_iff]
      intro hempty
      rw [hempty] at hhead
      exact hbase (by simpa using List.head?_eq_none_iff.1 hhead.symm)
    rw [locate, hjoined, habsolute, hpieces, Path.splitSlashes_ofNames hnames hne]
    exact (follow_append_eq hroot).trans (hs.follow_names he)

end FileTree

end Stencil
