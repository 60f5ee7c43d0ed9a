import Mathlib.Data.List.Basic
import Stencil.Path

/-!
# Components of paths

The components of a path are a start, which is nothing, a slash or a dot, and behind it names and
double dots. Components of that form are those of the path that is written from them, and joining
two paths puts their components together.

Results: a path written from components has these components (`components_ofComponents`), a path that
has been joined to a base has the components of the base in front (`components_join`), and what the
extension of a name is (`extensionOf?_eq_some_iff`).
-/

namespace Stencil

/-- Can the text be the name of a file or a directory? -/
def IsName (name : List Char) : Prop :=
  name ≠ [] ∧ '/' ∉ name ∧ name ≠ ['.'] ∧ name ≠ ['.', '.']

instance : DecidablePred IsName := fun name =>
  inferInstanceAs (Decidable (name ≠ [] ∧ '/' ∉ name ∧ name ≠ ['.'] ∧ name ≠ ['.', '.']))

/-- Can the component stand anywhere in a path? -/
def Component.IsInner : Component → Prop
  | .normal name => IsName name.toList
  | .parent => True
  | _ => False

namespace Path

/-! ## Pieces -/

variable {xs ys piece : List Char}

theorem splitSlashes_ne_nil : splitSlashes xs ≠ [] := by
  cases xs with
  | nil => simp [splitSlashes]
  | cons c cs =>
    simp only [splitSlashes]
    split
    · simp
    · split <;> simp

theorem splitSlashes_append_slash :
    splitSlashes (xs ++ '/' :: ys) = splitSlashes xs ++ splitSlashes ys := by
  induction xs with
  | nil => simp [splitSlashes]
  | cons c cs ih =>
    simp only [List.cons_append, splitSlashes, ih]
    split
    · rfl
    · cases h : splitSlashes cs with
      | nil => exact absurd h splitSlashes_ne_nil
      | cons piece rest => rfl

theorem splitSlashes_of_notMem (h : '/' ∉ xs) : splitSlashes xs = [xs] := by
  induction xs with
  | nil => rfl
  | cons c cs ih =>
    rw [List.mem_cons, not_or] at h
    simp [splitSlashes, ih h.2, Ne.symm h.1]

theorem notMem_of_mem_splitSlashes (h : piece ∈ splitSlashes xs) : '/' ∉ piece := by
  induction xs generalizing piece with
  | nil => simp_all [splitSlashes]
  | cons c cs ih =>
    simp only [splitSlashes] at h
    split at h
    · rw [List.mem_cons] at h
      rcases h with rfl | h
      · simp
      · exact ih h
    · rename_i hc
      cases hs : splitSlashes cs with
      | nil => exact absurd hs splitSlashes_ne_nil
      | cons first rest =>
        rw [hs] at h ih
        simp only [List.mem_cons] at h
        rcases h with rfl | h
        · rw [List.mem_cons, not_or]
          exact ⟨Ne.symm hc, ih List.mem_cons_self⟩
        · exact ih (List.mem_cons_of_mem _ h)

theorem splitSlashes_intercalate {pieces : List (List Char)} (hne : pieces ≠ [])
    (h : ∀ piece ∈ pieces, '/' ∉ piece) : splitSlashes (['/'].intercalate pieces) = pieces := by
  induction pieces with
  | nil => contradiction
  | cons piece rest ih =>
    rw [List.forall_mem_cons] at h
    cases rest with
    | nil => simp [splitSlashes_of_notMem h.1]
    | cons next rest =>
      rw [List.intercalate_cons_cons, List.append_assoc, List.singleton_append,
        splitSlashes_append_slash, splitSlashes_of_notMem h.1, ih (by simp) h.2]
      rfl

/-! ## Components and pieces -/

theorem isInner_of_componentOf? {c : Component} (hs : '/' ∉ piece)
    (h : componentOf? piece = some c) : c.IsInner ∧ c.text.toList = piece := by
  simp only [componentOf?, Bool.or_eq_true, List.isEmpty_iff, beq_iff_eq] at h
  split at h
  · contradiction
  · rename_i hempty
    rw [not_or] at hempty
    split at h
    · rename_i hparent
      cases h
      exact ⟨trivial, hparent.symm⟩
    · rename_i hparent
      cases h
      simp only [Component.IsInner, Component.text, String.toList_ofList]
      exact ⟨⟨hempty.1, hs, hempty.2, hparent⟩, trivial⟩

theorem componentOf?_text {c : Component} (h : c.IsInner) : componentOf? c.text.toList = some c := by
  cases c with
  | parent => rfl
  | normal name =>
    obtain ⟨hne, -, hdot, hdots⟩ := h
    simp [componentOf?, Component.text, hne, hdot, hdots, String.ofList_toList]
  | _ => contradiction

theorem notMem_text {c : Component} (h : c.IsInner) : '/' ∉ c.text.toList := by
  cases c with
  | parent => simp [Component.text]
  | normal name => exact h.2.1
  | _ => contradiction

/-! ## Components of paths -/

/-- The slash or the dot at the beginning of a path. -/
def start (p : Path) : List Component :=
  if p.isAbsolute then [.root]
  else if (splitSlashes p.text.toList).head? = some ['.'] then [.current]
  else []

/-- The names and double dots of a path. -/
def inner (p : Path) : List Component :=
  (splitSlashes p.text.toList).filterMap componentOf?

theorem components_eq (p : Path) : p.components = p.start ++ p.inner := by
  simp [components, start, inner, isAbsolute]

theorem isInner_of_mem_inner {p : Path} {c : Component} (h : c ∈ p.inner) : c.IsInner := by
  obtain ⟨piece, hp, hc⟩ := List.mem_filterMap.1 h
  exact (isInner_of_componentOf? (notMem_of_mem_splitSlashes hp) hc).1

/-- Equal components begin alike and go on alike. -/
theorem start_inner_congr {p q : Path} (h : p.components = q.components) :
    p.start = q.start ∧ p.inner = q.inner := by
  have isStart (r : Path) : ∀ c ∈ r.start, c = .root ∨ c = .current := by
    simp only [start]
    split
    · simp
    · split <;> simp
  have hfilter (r : Path) :
      r.components.filter (fun c => decide (c ≠ .root ∧ c ≠ .current)) = r.inner := by
    rw [components_eq, List.filter_append, List.filter_eq_nil_iff.2, List.nil_append,
      List.filter_eq_self]
    · intro c hc
      have hinner := isInner_of_mem_inner hc
      cases c with
      | root => contradiction
      | current => contradiction
      | _ => simp
    · intro c hc
      obtain rfl | rfl := isStart r c hc <;> simp
  have hinner : p.inner = q.inner := by rw [← hfilter p, ← hfilter q, h]
  rw [components_eq, components_eq, hinner] at h
  exact ⟨List.append_cancel_right h, hinner⟩

theorem isStart_start (p : Path) : p.start = [] ∨ p.start = [.root] ∨ p.start = [.current] := by
  simp only [start]
  split
  · exact .inr (.inl rfl)
  · split
    · exact .inr (.inr rfl)
    · exact .inl rfl

/-- A path that is not empty has components. -/
theorem components_ne_nil {p : Path} (h : p.text ≠ "") : p.components ≠ [] := by
  rw [components_eq, start]
  split
  · simp
  · rename_i habs
    split
    · simp
    · rename_i hdot
      rw [List.nil_append, inner]
      cases htext : p.text.toList with
      | nil => exact absurd (by simpa using htext) h
      | cons c cs =>
        have hc : c ≠ '/' := by
          intro hc
          simp [isAbsolute, htext, hc] at habs
        rw [htext] at hdot
        cases hpieces : splitSlashes cs with
        | nil => exact absurd hpieces splitSlashes_ne_nil
        | cons piece rest =>
          simp only [splitSlashes, hc, hpieces, if_false, List.head?_cons, Option.some.injEq] at hdot ⊢
          have hsome : (componentOf? (c :: piece)).isSome = true := by
            simp only [componentOf?, List.isEmpty_cons, Bool.false_or, beq_iff_eq, hdot, if_false]
            split <;> rfl
          obtain ⟨d, hd⟩ := Option.isSome_iff_exists.1 hsome
          rw [List.filterMap_cons_some hd]
          exact List.cons_ne_nil d _

/-- Behind a slash at the beginning the pieces begin with an empty one. -/
theorem not_isAbsolute_of_head? {p : Path} (h : (splitSlashes p.text.toList).head? ≠ some []) :
    p.isAbsolute = false := by
  simp only [isAbsolute, decide_eq_false_iff_not]
  intro hslash
  obtain ⟨cs, hcs⟩ := List.head?_eq_some_iff.1 hslash
  exact h (by simp [hcs, splitSlashes])

/-! ## Paths that are written from components -/

/-- The path in which the texts of components stand with slashes between them. -/
def written (cs : List Component) : Path :=
  ⟨"/".intercalate (cs.map Component.text)⟩

theorem splitSlashes_written {cs : List Component} (hne : cs ≠ [])
    (h : ∀ c ∈ cs, '/' ∉ c.text.toList) :
    splitSlashes (written cs).text.toList = cs.map fun c => c.text.toList := by
  have hslash : "/".toList = ['/'] := rfl
  simp only [written]
  rw [String.toList_intercalate, List.map_map, hslash]
  refine splitSlashes_intercalate (by simpa using hne) ?_
  simpa using h

theorem filterMap_componentOf?_texts {cs : List Component} (h : ∀ c ∈ cs, c.IsInner) :
    (cs.map fun c => c.text.toList).filterMap componentOf? = cs := by
  induction cs with
  | nil => rfl
  | cons c cs ih =>
    rw [List.forall_mem_cons] at h
    rw [List.map_cons, List.filterMap_cons_some (componentOf?_text h.1), ih h.2]

theorem inner_written {cs : List Component} (h : ∀ c ∈ cs, c.IsInner) : (written cs).inner = cs := by
  by_cases hne : cs = []
  · subst hne
    rfl
  · rw [inner, splitSlashes_written hne fun c hc => notMem_text (h c hc),
      filterMap_componentOf?_texts h]

theorem text_ne {c : Component} (h : c.IsInner) : c.text.toList ≠ [] ∧ c.text.toList ≠ ['.'] := by
  cases c with
  | parent => simp [Component.text]
  | normal name => exact ⟨h.1, h.2.2.1⟩
  | _ => contradiction

/-- A path that begins with a text is not absolute. -/
theorem isAbsolute_written {c : Component} {cs : List Component} (hne : c.text.toList ≠ [])
    (h : ∀ d ∈ c :: cs, '/' ∉ d.text.toList) : (written (c :: cs)).isAbsolute = false := by
  refine not_isAbsolute_of_head? ?_
  rw [splitSlashes_written (List.cons_ne_nil c cs) h, List.map_cons, List.head?_cons]
  exact fun heq => hne (Option.some.inj heq)

theorem start_written {cs : List Component} (h : ∀ c ∈ cs, c.IsInner) : (written cs).start = [] := by
  cases cs with
  | nil => rfl
  | cons c cs =>
    have hslash : ∀ d ∈ c :: cs, '/' ∉ d.text.toList := fun d hd => notMem_text (h d hd)
    have hc := text_ne (h c List.mem_cons_self)
    rw [start, isAbsolute_written hc.1 hslash, splitSlashes_written (List.cons_ne_nil c cs) hslash]
    simp [hc.2]

/-- The start and the rest of a path that is written from them. -/
theorem start_inner_ofComponents {st cs : List Component}
    (hst : st = [] ∨ st = [.root] ∨ st = [.current]) (h : ∀ c ∈ cs, c.IsInner) :
    (ofComponents (st ++ cs)).start = st ∧ (ofComponents (st ++ cs)).inner = cs := by
  rcases hst with rfl | rfl | rfl
  · have hof : ofComponents cs = written cs := by
      cases cs with
      | nil => rfl
      | cons c cs =>
        rw [List.forall_mem_cons] at h
        cases c with
        | root => exact absurd h.1 id
        | _ => rfl
    rw [List.nil_append, hof]
    exact ⟨start_written h, inner_written h⟩
  · have hslash : (ofComponents ([.root] ++ cs)).text.toList = '/' :: (written cs).text.toList :=
      String.toList_append
    have hinner := inner_written h
    rw [inner] at hinner
    have habs : (ofComponents ([.root] ++ cs)).isAbsolute = true := by
      rw [isAbsolute, hslash]
      rfl
    constructor
    · rw [start, habs]
      rfl
    · rw [inner, hslash, splitSlashes, if_pos rfl, List.filterMap_cons_none rfl, hinner]
  · have hslash : ∀ d ∈ Component.current :: cs, '/' ∉ d.text.toList := by
      rw [List.forall_mem_cons]
      exact ⟨by simp [Component.text], fun c hc => notMem_text (h c hc)⟩
    have hof : ofComponents ([.current] ++ cs) = written (.current :: cs) := rfl
    have hpieces := splitSlashes_written (List.cons_ne_nil _ _) hslash
    constructor
    · rw [hof, start, isAbsolute_written (by simp [Component.text]) hslash, hpieces]
      simp [Component.text]
    · rw [hof, inner, hpieces, List.map_cons, List.filterMap_cons_none rfl,
        filterMap_componentOf?_texts h]

theorem components_ofComponents {st cs : List Component}
    (hst : st = [] ∨ st = [.root] ∨ st = [.current]) (h : ∀ c ∈ cs, c.IsInner) :
    (ofComponents (st ++ cs)).components = st ++ cs := by
  obtain ⟨hstart, hinner⟩ := start_inner_ofComponents hst h
  rw [components_eq, hstart, hinner]

/-! ## Joined paths -/

theorem isAbsolute_iff_start {p : Path} : p.isAbsolute = true ↔ p.start = [.root] := by
  simp only [start]
  split
  · simp_all
  · split <;> simp_all

/-- The pieces of a joined path are those of the base and of the path, but for an empty piece behind a
slash at the end of the base. -/
theorem splitSlashes_join {base p : Path} (hbase : base.text ≠ "") (hp : p.isAbsolute = false) :
    ∃ front, front ≠ [] ∧ (base.join p).text.toList.head? = base.text.toList.head?
      ∧ splitSlashes (base.join p).text.toList = front ++ splitSlashes p.text.toList
      ∧ (splitSlashes base.text.toList = front ∨ splitSlashes base.text.toList = front ++ [[]]) := by
  have hne : base.text.toList ≠ [] := by simpa using hbase
  simp only [join, hp, Bool.false_eq_true, if_false]
  split
  · rename_i hend
    have hlast : base.text.toList.getLast? = some '/' := by simpa [hbase] using hend
    obtain ⟨front, hfront⟩ := List.getLast?_eq_some_iff.1 hlast
    have hjoin : (base.text ++ p.text).toList = front ++ '/' :: p.text.toList := by
      simp [hfront]
    refine ⟨splitSlashes front, splitSlashes_ne_nil, ?_, ?_, .inr ?_⟩
    · rw [String.toList_append, List.head?_append_of_ne_nil _ hne]
    · rw [hjoin, splitSlashes_append_slash]
    · rw [hfront, splitSlashes_append_slash]
      rfl
  · have hjoin : (base.text ++ "/" ++ p.text).toList = base.text.toList ++ '/' :: p.text.toList := by
      simp
    refine ⟨_, splitSlashes_ne_nil, ?_, ?_, .inl rfl⟩
    · rw [hjoin, List.head?_append_of_ne_nil _ hne]
    · rw [hjoin, splitSlashes_append_slash]

/-- A path that is joined to a base begins as the base does, and goes on behind it. -/
theorem start_inner_join {base p : Path} (hbase : base.text ≠ "") (hp : p.isAbsolute = false) :
    (base.join p).start = base.start ∧ (base.join p).inner = base.inner ++ p.inner := by
  obtain ⟨front, hne, hhead, hpieces, hfront⟩ := splitSlashes_join hbase hp
  constructor
  · have hfirst : (splitSlashes base.text.toList).head? = front.head? := by
      rcases hfront with h | h
      · rw [h]
      · rw [h, List.head?_append_of_ne_nil _ hne]
    rw [start, start, isAbsolute, isAbsolute, hhead, hpieces, hfirst,
      List.head?_append_of_ne_nil _ hne]
  · have hbase : base.inner = front.filterMap componentOf? := by
      rcases hfront with h | h
      · rw [inner, h]
      · rw [inner, h, List.filterMap_append]
        exact List.append_nil _
    rw [inner, hpieces, List.filterMap_append, hbase]
    rfl

theorem components_join {base p : Path} (hbase : base.text ≠ "") (hp : p.isAbsolute = false) :
    (base.join p).components = base.components ++ p.inner := by
  obtain ⟨hstart, hinner⟩ := start_inner_join hbase hp
  rw [components_eq, components_eq base, hstart, hinner, List.append_assoc]

theorem join_of_isAbsolute {base p : Path} (hp : p.isAbsolute = true) : base.join p = p := by
  simp [join, hp]

/-! ## Extensions -/

/-- An extension stands behind the last dot of a name, and there is something in front of the dot. -/
theorem exists_of_extensionOf? {name ext : List Char} (h : extensionOf? name = some ext) :
    '.' ∉ ext ∧ ∃ front, front ≠ [] ∧ name = front ++ '.' :: ext := by
  simp only [extensionOf?, Option.ite_none_right_eq_some, Option.some.injEq] at h
  obtain ⟨hlength, rfl⟩ := h
  have hsplit := List.takeWhile_append_dropWhile (p := (· != '.')) (l := name.reverse)
  have htail : '.' ∉ name.reverse.takeWhile (· != '.') := by
    intro hmem
    have hall := List.all_takeWhile (p := (· != '.')) (l := name.reverse)
    simpa using List.all_eq_true.1 hall _ hmem
  cases hrest : name.reverse.dropWhile (· != '.') with
  | nil =>
    rw [hrest, List.append_nil] at hsplit
    rw [hsplit, List.length_reverse] at hlength
    omega
  | cons c rest =>
    obtain rfl : c = '.' := by
      have hhead := List.head_dropWhile_not (· != '.') (l := name.reverse) (by simp [hrest])
      simpa [hrest] using hhead
    rw [hrest] at hsplit
    have hname := congrArg List.reverse hsplit
    rw [List.reverse_reverse, List.reverse_append, List.reverse_cons, List.append_assoc] at hname
    refine ⟨by simpa using htail, rest.reverse, ?_, hname.symm⟩
    intro hnil
    rw [List.reverse_eq_nil_iff] at hnil
    have hlen := congrArg List.length hsplit
    rw [hnil, List.length_append, List.length_reverse] at hlen
    simp only [List.length_cons, List.length_nil] at hlen
    omega

theorem extensionOf?_append {front ext : List Char} (hfront : front ≠ []) (hdot : '.' ∉ ext) :
    extensionOf? (front ++ '.' :: ext) = some ext := by
  have htake : (front ++ '.' :: ext).reverse.takeWhile (· != '.') = ext.reverse := by
    rw [List.reverse_append, List.reverse_cons, List.append_assoc, List.takeWhile_append_of_pos]
    · simp
    · intro c hc
      simp only [bne_iff_ne, ne_eq]
      rintro rfl
      exact hdot (List.mem_reverse.1 hc)
  have hlength := List.length_pos_iff.2 hfront
  simp only [extensionOf?, htake, List.length_reverse, List.length_append, List.length_cons,
    List.reverse_reverse]
  rw [if_pos (by omega)]

theorem extensionOf?_eq_some_iff {name ext : List Char} :
    extensionOf? name = some ext ↔ '.' ∉ ext ∧ ∃ front, front ≠ [] ∧ name = front ++ '.' :: ext := by
  constructor
  · exact exists_of_extensionOf?
  · rintro ⟨hdot, front, hfront, rfl⟩
    exact extensionOf?_append hfront hdot

end Path

end Stencil
