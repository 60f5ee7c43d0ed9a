import Stencil.Files.Fault
import Stencil.Path

/-!
# File trees

The files that a run sees, as a value. A location is the list of names that leads from the top to a
file or a directory. Paths are followed one piece after the other, as a system does it: every piece
but the last must lead to a directory, a dot stays where it is, and two dots lead to the directory
above, which is the top itself at the top.

A directory bears a time as a file does. It is that of the last change in the directory: something was
made or deleted in it. A file that is written over changes its own time only.

Results: `find?` sees exactly what `put` and `erase` have done (`find?_put`, `find?_erase`), and
`stampAt` what `stamp` has done (`stampAt_stamp`).
-/

namespace Stencil

/-- The names that lead to a file or a directory from the top. -/
abbrev Location := List String

/-- A file. -/
structure File where
  /-- The text of the file. A file whose bytes are no text has none. -/
  text : Option String
  /-- When the file was written last. -/
  modified : Nat
deriving DecidableEq, Repr

/-- What there is at a location. -/
inductive Entry where
  | file (file : File)
  | directory
deriving DecidableEq, Repr

/-- A tree of files. -/
structure FileTree where
  /-- What there is at each location but the top, which is always a directory. -/
  entries : List (Location × Entry)
  /-- The directory that paths without a slash in front begin at. -/
  working : Location
  /-- The time now. What is changed now bears it. -/
  clock : Nat
  /-- When each directory was changed last. A directory that is not listed has never been changed. -/
  stamps : List (Location × Nat) := []
deriving DecidableEq, Repr

namespace FileTree

/-- A tree without files, at the given time. -/
def empty (clock : Nat) : FileTree :=
  { entries := [], working := [], clock := clock }

/-! ## Locations -/

/-- What there is at a location. -/
def find? (t : FileTree) (l : Location) : Option Entry :=
  if l = [] then some .directory else t.entries.lookup l

/-- The tree with another entry at a location. -/
def put (t : FileTree) (l : Location) (e : Entry) : FileTree :=
  { t with entries := (l, e) :: t.entries.filter fun x => x.1 != l }

/-- The tree without the entry at a location. -/
def erase (t : FileTree) (l : Location) : FileTree :=
  { t with entries := t.entries.filter fun x => x.1 != l }

/-- The tree without the entry at a location and everything below it. -/
def eraseBelow (t : FileTree) (l : Location) : FileTree :=
  { t with entries := t.entries.filter fun x => !l.isPrefixOf x.1 }

/-- When the directory at a location was changed last. -/
def stampAt (t : FileTree) (l : Location) : Nat :=
  (t.stamps.lookup l).getD 0

/-- The tree in which the directory at a location is changed now. -/
def stamp (t : FileTree) (l : Location) : FileTree :=
  { t with stamps := (l, t.clock) :: t.stamps.filter fun x => x.1 != l }

/-- The tree in which the directory above a location is changed now, if there is nothing at the location
yet. -/
def stampAbove (t : FileTree) (l : Location) : FileTree :=
  if (t.find? l).isNone then t.stamp l.dropLast else t

theorem lookup_filter_ne {β : Type} {entries : List (Location × β)} {l k : Location} :
    (entries.filter fun x => x.1 != l).lookup k = if k = l then none else entries.lookup k := by
  induction entries with
  | nil => simp
  | cons x rest ih =>
    obtain ⟨m, e⟩ := x
    by_cases hm : m = l
    · subst hm
      rw [List.filter_cons_of_neg (by simp), ih]
      by_cases hk : k = m
      · simp [hk]
      · simp [List.lookup_cons, beq_eq_false_iff_ne.2 hk]
    · rw [List.filter_cons_of_pos (by simpa using hm), List.lookup_cons, List.lookup_cons, ih]
      by_cases hk : k = m
      · subst hk
        simp [hm]
      · simp [beq_eq_false_iff_ne.2 hk]

theorem find?_put {t : FileTree} {l k : Location} {e : Entry} (hl : l ≠ []) :
    (t.put l e).find? k = if k = l then some e else t.find? k := by
  by_cases hk : k = l
  · subst hk
    simp [find?, put, hl]
  · simp [find?, put, hk, List.lookup_cons, beq_eq_false_iff_ne.2 hk, lookup_filter_ne]

theorem find?_erase {t : FileTree} {l k : Location} (hl : l ≠ []) :
    (t.erase l).find? k = if k = l then none else t.find? k := by
  by_cases hk : k = l
  · subst hk
    simp [find?, erase, hl, lookup_filter_ne]
  · simp [find?, erase, hk, lookup_filter_ne]

theorem stampAt_stamp {t : FileTree} {l k : Location} :
    (t.stamp l).stampAt k = if k = l then t.clock else t.stampAt k := by
  by_cases hk : k = l
  · subst hk
    simp [stampAt, stamp]
  · simp [stampAt, stamp, hk, List.lookup_cons, beq_eq_false_iff_ne.2 hk, lookup_filter_ne]

@[simp] theorem find?_stamp {t : FileTree} {l k : Location} : (t.stamp l).find? k = t.find? k :=
  rfl

@[simp] theorem find?_stampAbove {t : FileTree} {l k : Location} :
    (t.stampAbove l).find? k = t.find? k := by
  unfold stampAbove
  split <;> rfl

theorem stampAbove_of_find? {t : FileTree} {l : Location} {e : Entry} (h : t.find? l = some e) :
    t.stampAbove l = t := by
  simp [stampAbove, h]

@[simp] theorem working_stampAbove {t : FileTree} {l : Location} :
    (t.stampAbove l).working = t.working := by
  unfold stampAbove
  split <;> rfl

@[simp] theorem clock_stampAbove {t : FileTree} {l : Location} : (t.stampAbove l).clock = t.clock := by
  unfold stampAbove
  split <;> rfl

/-! ## Paths -/

/-- Where one more piece of a path leads from a directory. -/
def step (l : Location) (piece : List Char) : Location :=
  match Path.componentOf? piece with
  | some (.normal name) => l ++ [name]
  | some .parent => l.dropLast
  | _ => l

/-- Where the pieces of a path lead. There need not be anything at that location, but on the way
there must be directories. -/
def follow (t : FileTree) : Location → List (List Char) → Except FileFault Location
  | l, [] => .ok l
  | l, piece :: rest =>
    match t.find? l with
    | none => .error .missing
    | some (.file _) => .error .notDirectory
    | some .directory => follow t (step l piece) rest

/-- The location that a path leads to. The empty path leads nowhere. -/
def locate (t : FileTree) (p : Path) : Except FileFault Location :=
  if p.text.isEmpty then .error .missing
  else t.follow (if p.isAbsolute then [] else t.working) (Path.splitSlashes p.text.toList)

/-- The location of a path at which there is something, and what there is. -/
def entry (t : FileTree) (p : Path) : Except FileFault (Location × Entry) :=
  match t.locate p with
  | .error e => .error e
  | .ok l =>
    match t.find? l with
    | none => .error .missing
    | some e => .ok (l, e)

/-! ## Reading -/

/-- Is there anything at the path? -/
def isThere (t : FileTree) (p : Path) : Bool :=
  (t.entry p).toOption.isSome

/-- Is there a directory at the path? -/
def isDirectory (t : FileTree) (p : Path) : Bool :=
  match t.entry p with
  | .ok (_, .directory) => true
  | _ => false

/-- The text of the file at a path. Model of `read_to_string`. -/
def read (t : FileTree) (p : Path) : Except FileFault String :=
  match t.entry p with
  | .error e => .error e
  | .ok (_, .directory) => .error .isDirectory
  | .ok (_, .file f) =>
    match f.text with
    | some text => .ok text
    | none => .error .notText

/-- When the file or the directory at a path was changed last. Model of `modified`. -/
def modified? (t : FileTree) (p : Path) : Option Nat :=
  match t.entry p with
  | .ok (_, .file f) => some f.modified
  | .ok (l, .directory) => some (t.stampAt l)
  | .error _ => none

/-- The names of a file below a location, from there on. -/
def namesBelow? (l : Location) : Location × Entry → Option Location
  | (m, .file _) => if l.isPrefixOf m then some (m.drop l.length) else none
  | (_, .directory) => none

/-- The files below a directory, by their paths from there, in the order of these paths. A file has
the empty path below itself. Model of `WalkDir`. -/
def filesBelow (t : FileTree) (p : Path) : Except FileFault (List Path) :=
  match t.entry p with
  | .error e => .error e
  | .ok (l, _) =>
    .ok (((t.entries.filterMap (namesBelow? l)).map fun names =>
      Path.ofComponents (names.map .normal)).mergeSort Path.le)

/-! ## Writing

An operation that is refused may have done a part of its work, so the tree is a result in any case. -/

/-- What a refused or an accepted operation leaves. -/
abbrev Outcome := FileTree × Option FileFault

/-- Makes a directory in another one. Model of `create_dir`. -/
def makeDirectory (t : FileTree) (p : Path) : Outcome :=
  match t.locate p with
  | .error e => (t, some e)
  | .ok l =>
    match t.find? l with
    | some _ => (t, some .exists)
    | none => (((t.stampAbove l).put l .directory).stamp l, none)

/-- An operation that makes a directory is content with one that is there already. -/
def contentWith (p : Path) : Outcome → Outcome
  | (t, none) => (t, none)
  | (t, some e) => if t.isDirectory p then (t, none) else (t, some e)

/-- Makes the directory whose path has the given components, the last one in front, and the
directories above it. Only where something is missing on the way the directories above come first.
Model of `create_dir_all`. -/
def makeDirectories (t : FileTree) : List Component → Outcome
  | [] => (t, none)
  | c :: above =>
    let p := Path.ofComponents (c :: above).reverse
    match t.makeDirectory p with
    | (t, some .missing) =>
      match makeDirectories t above with
      | (t, none) => contentWith p (t.makeDirectory p)
      | refused => refused
    | outcome => contentWith p outcome

/-- Puts a file at a path at which there is no directory. -/
def putFile (t : FileTree) (p : Path) (f : File) : Outcome :=
  match t.locate p with
  | .error e => (t, some e)
  | .ok l =>
    match t.find? l with
    | some .directory => (t, some .isDirectory)
    | _ => ((t.stampAbove l).put l (.file f), none)

/-- Puts a file at a path, and makes the directories above it. -/
def place (t : FileTree) (p : Path) (f : File) : Outcome :=
  match t.makeDirectories p.components.dropLast.reverse with
  | (t, none) => t.putFile p f
  | refused => refused

/-- Writes a text to the file at a path, and makes the directories above it.
Model of `write_output`. -/
def write (t : FileTree) (p : Path) (text : String) : Outcome :=
  t.place p ⟨some text, t.clock⟩

/-- Deletes the file at a path. Model of `remove_file`. -/
def delete (t : FileTree) (p : Path) : Outcome :=
  match t.entry p with
  | .error e => (t, some e)
  | .ok (_, .directory) => (t, some .isDirectory)
  | .ok (l, .file _) => ((t.erase l).stamp l.dropLast, none)

end FileTree

end Stencil
