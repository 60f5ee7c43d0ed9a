import Stencil.Files.Tree
import Stencil.Proofs.Path

/-!
# Where paths lead

A path leads from one location to the next, piece by piece. Where it ends can be read off its
components, and does not depend on the files, which only decide whether it can be followed at all.

Results: a path that can be followed leads to its destination (`FileTree.eq_destination_of_locate`),
and the path to names below a root leads to these names behind the destination of the root
(`Path.destination_behind`).
-/

namespace Stencil

/-- Where a component leads from a location. -/
def Component.lead (l : Location) : Component → Location
  | .normal name => l ++ [name]
  | .parent => l.dropLast
  | _ => l

/-- The path of names from a directory on. -/
def Path.ofNames (names : List String) : Path :=
  ofComponents (names.map .normal)

/-- Where a path leads from a working directory, if it can be followed. -/
def Path.destination (working : Location) (p : Path) : Location :=
  p.inner.foldl Component.lead (if p.isAbsolute then [] else working)

/-- The path of names below a root. The root itself has no names. -/
def Path.behind (root : Path) (names : List String) : Path :=
  if names.isEmpty then root else root.join (ofNames names)

variable {t : FileTree} {l m w : Location} {p q r : Path} {names : List String}

namespace FileTree

theorem step_eq (l : Location) (piece : List Char) :
    step l piece = ((Path.componentOf? piece).map (Component.lead l)).getD l := by
  unfold step
  cases Path.componentOf? piece with
  | none => rfl
  | some c => cases c <;> rfl

theorem foldl_step (pieces : List (List Char)) :
    pieces.foldl step l = (pieces.filterMap Path.componentOf?).foldl Component.lead l := by
  induction pieces generalizing l with
  | nil => rfl
  | cons piece rest ih =>
    rw [List.foldl_cons, ih, step_eq]
    cases h : Path.componentOf? piece <;> simp [h]

theorem eq_foldl_of_follow {pieces : List (List Char)} (h : t.follow l pieces = .ok m) :
    m = pieces.foldl step l := by
  induction pieces generalizing l with
  | nil =>
    cases h
    rfl
  | cons piece rest ih =>
    rw [follow] at h
    split at h
    · contradiction
    · contradiction
    · exact ih h

/-- A path that can be followed leads to its destination. -/
theorem eq_destination_of_locate (h : t.locate p = .ok l) : l = p.destination t.working := by
  rw [locate] at h
  split at h
  · contradiction
  · rw [eq_foldl_of_follow h, foldl_step]
    rfl

/-- What there is at a path is what is found where it leads. -/
theorem of_entry {e : Entry} (h : t.entry p = .ok (l, e)) :
    t.locate p = .ok l ∧ l = p.destination t.working ∧ t.find? l = some e := by
  rw [entry] at h
  split at h
  · contradiction
  · rename_i l' hlocate
    split at h
    · contradiction
    · rename_i e' he
      cases h
      exact ⟨hlocate, eq_destination_of_locate hlocate, he⟩

end FileTree

namespace Path

/-! ## Paths of names -/

theorem isInner_of_mem_map (h : ∀ name ∈ names, IsName name.toList) :
    ∀ c ∈ names.map Component.normal, c.IsInner := by
  intro c hc
  obtain ⟨name, hname, rfl⟩ := List.mem_map.1 hc
  exact h name hname

/-- Components that are neither at a beginning nor double dots are names. -/
theorem exists_names_of_isInner {cs : List Component} (h : ∀ c ∈ cs, c.IsInner) (hp : .parent ∉ cs) :
    ∃ names : List String, cs = names.map .normal ∧ ∀ name ∈ names, IsName name.toList := by
  induction cs with
  | nil => exact ⟨[], rfl, by simp⟩
  | cons c rest ih =>
    rw [List.forall_mem_cons] at h
    rw [List.mem_cons, not_or] at hp
    obtain ⟨names, rfl, hnames⟩ := ih h.2 hp.2
    cases c with
    | normal name => exact ⟨name :: names, rfl, List.forall_mem_cons.2 ⟨h.1, hnames⟩⟩
    | parent => exact absurd rfl hp.1
    | root => exact absurd h.1 id
    | current => exact absurd h.1 id

/-- A path without double dots goes on with names. -/
theorem exists_names_inner (hp : .parent ∉ p.components) :
    ∃ names : List String, p.inner = names.map .normal := by
  have hinner : ∀ c ∈ p.inner, c.IsInner := fun c hc => isInner_of_mem_inner hc
  obtain ⟨names, hnames, -⟩ := exists_names_of_isInner hinner fun hc => hp (by
    rw [components_eq]
    exact List.mem_append_right _ hc)
  exact ⟨names, hnames⟩

theorem start_inner_ofNames (h : ∀ name ∈ names, IsName name.toList) :
    (ofNames names).start = [] ∧ (ofNames names).inner = names.map .normal := by
  have hstart : ([] : List Component) = [] ∨ [] = [Component.root] ∨ [] = [Component.current] :=
    .inl rfl
  have hparts := start_inner_ofComponents hstart (isInner_of_mem_map h)
  rw [List.nil_append] at hparts
  exact hparts

theorem components_ofNames (h : ∀ name ∈ names, IsName name.toList) :
    (ofNames names).components = names.map .normal := by
  rw [components_eq, (start_inner_ofNames h).1, (start_inner_ofNames h).2, List.nil_append]

/-- A path of names has no other names. -/
theorem ofNames_inj {more : List String} (h : ∀ name ∈ names, IsName name.toList)
    (h' : ∀ name ∈ more, IsName name.toList) : ofNames names = ofNames more ↔ names = more := by
  refine ⟨fun heq => ?_, congrArg ofNames⟩
  have hcomponents := congrArg components heq
  rw [components_ofNames h, components_ofNames h'] at hcomponents
  exact (List.map_inj_right fun _ _ => Component.normal.inj).1 hcomponents

theorem isAbsolute_ofNames (h : ∀ name ∈ names, IsName name.toList) :
    (ofNames names).isAbsolute = false := by
  rw [Bool.eq_false_iff]
  intro habs
  have hstart := isAbsolute_iff_start.1 habs
  rw [(start_inner_ofNames h).1] at hstart
  contradiction

/-- Behind a root, the path begins as the root does and goes on with the names. -/
theorem start_inner_join_ofNames (h : ∀ name ∈ names, IsName name.toList) :
    (r.join (ofNames names)).start = r.start
      ∧ (r.join (ofNames names)).inner = r.inner ++ names.map .normal := by
  have hnames := start_inner_ofNames h
  by_cases hroot : r.text = ""
  · obtain rfl : r = ⟨""⟩ := congrArg Path.mk hroot
    rw [join_empty, hnames.1, hnames.2]
    exact ⟨rfl, rfl⟩
  · rw [← hnames.2]
    exact start_inner_join hroot (isAbsolute_ofNames h)

theorem start_inner_behind (h : ∀ name ∈ names, IsName name.toList) :
    (r.behind names).start = r.start
      ∧ (r.behind names).inner = r.inner ++ names.map .normal := by
  unfold behind
  split
  · rename_i hempty
    rw [List.isEmpty_iff.1 hempty]
    simp
  · exact start_inner_join_ofNames h

theorem components_behind (h : ∀ name ∈ names, IsName name.toList) :
    (r.behind names).components = r.components ++ names.map .normal := by
  obtain ⟨hstart, hinner⟩ := start_inner_behind (r := r) h
  rw [components_eq, hstart, hinner, components_eq r, List.append_assoc]

/-! ## Destinations -/

theorem isAbsolute_congr (h : p.start = q.start) : p.isAbsolute = q.isAbsolute := by
  rw [Bool.eq_iff_iff, isAbsolute_iff_start, isAbsolute_iff_start, h]

theorem foldl_lead_names : (names.map Component.normal).foldl Component.lead l = l ++ names := by
  induction names generalizing l with
  | nil => simp
  | cons name rest ih =>
    rw [List.map_cons, List.foldl_cons, ih, Component.lead, List.append_assoc]
    rfl

/-- Paths with the same components lead to the same place. -/
theorem destination_congr (h : p.components = q.components) : p.destination w = q.destination w := by
  obtain ⟨hstart, hinner⟩ := start_inner_congr h
  rw [destination, destination, hinner, isAbsolute_congr hstart]

/-- Names below a root lead to these names behind the destination of the root. -/
theorem destination_behind (h : ∀ name ∈ names, IsName name.toList) :
    (r.behind names).destination w = r.destination w ++ names := by
  obtain ⟨hstart, hinner⟩ := start_inner_behind (r := r) h
  rw [destination, hinner, isAbsolute_congr hstart, List.foldl_append, foldl_lead_names]
  rfl

/-- The last name of a path is its file name. -/
theorem fileName?_behind (h : ∀ name ∈ names, IsName name.toList) (hne : names ≠ []) :
    (r.behind names).fileName? = names.getLast? := by
  obtain ⟨front, last, rfl⟩ := List.eq_nil_or_concat names |>.resolve_left hne
  rw [List.concat_eq_append] at h ⊢
  rw [fileName?, components_behind h, List.map_append, ← List.append_assoc, List.map_singleton,
    List.getLast?_concat, List.getLast?_concat]

theorem text_ofNames_eq_iff (h : ∀ name ∈ names, IsName name.toList) :
    (ofNames names).text = "" ↔ names = [] := by
  constructor
  · intro htext
    have hempty : ofNames names = ⟨""⟩ := congrArg Path.mk htext
    have hinner := (start_inner_ofNames h).2
    rw [hempty] at hinner
    cases names with
    | nil => rfl
    | cons name rest => contradiction
  · rintro rfl
    rfl

/-- A path that begins with the components of another one starts as the other one does, and goes on
behind it. -/
theorem start_inner_of_startsWith (hq : q.text ≠ "") (h : p.startsWith q = true) :
    p.start = q.start ∧ ∃ rest, p.inner = q.inner ++ rest ∧ p.components = q.components ++ rest := by
  rw [startsWith, List.isPrefixOf_iff_prefix] at h
  obtain ⟨rest, hrest⟩ := h
  -- the beginning of the longer path is in the shorter one, which has a component
  have hfirst : p.start <+: q.components := by
    have hstart : p.start <+: p.components := by
      rw [components_eq]
      exact List.prefix_append p.start p.inner
    refine List.prefix_of_prefix_length_le hstart ⟨rest, hrest⟩ ?_
    have hlength := List.length_pos_iff.2 (components_ne_nil hq)
    obtain h | h | h := p.isStart_start <;> rw [h] <;>
      simp only [List.length_nil, List.length_cons] <;> omega
  obtain ⟨middle, hmiddle⟩ := hfirst
  have hinner : p.inner = middle ++ rest := by
    rw [components_eq p, ← hmiddle, List.append_assoc] at hrest
    exact (List.append_cancel_left hrest).symm
  have hisInner : ∀ c ∈ middle, c.IsInner := by
    intro c hc
    apply isInner_of_mem_inner (p := p)
    rw [hinner]
    exact List.mem_append_left rest hc
  have hparts := start_inner_ofComponents p.isStart_start hisInner
  have hcongr := start_inner_congr ((components_ofComponents p.isStart_start hisInner).trans hmiddle)
  rw [hparts.1, hparts.2] at hcongr
  refine ⟨hcongr.1, rest, ?_, hrest.symm⟩
  rw [hinner, hcongr.2]

/-- A path without double dots that begins as another one does leads to names behind its
destination. -/
theorem exists_names_of_startsWith (hq : q.text ≠ "") (hp : .parent ∉ p.components)
    (h : p.startsWith q = true) : ∃ names, p.destination w = q.destination w ++ names := by
  obtain ⟨-, rest, hinner, hrest⟩ := start_inner_of_startsWith hq h
  have hisInner : ∀ c ∈ rest, c.IsInner := by
    intro c hc
    apply isInner_of_mem_inner (p := p)
    rw [hinner]
    exact List.mem_append_right q.inner hc
  obtain ⟨names, rfl, hnames⟩ := exists_names_of_isInner hisInner fun hparent => hp (by
    rw [hrest]
    exact List.mem_append_right _ hparent)
  refine ⟨names, ?_⟩
  rw [← destination_behind hnames]
  refine destination_congr ?_
  rw [components_behind hnames, hrest]

end Path

end Stencil
