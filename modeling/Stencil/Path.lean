/-!
# Paths

A path is a text in which slashes separate the names of directories. Paths are compared by their
components, so repeated slashes, inner dots and a slash at the end make no difference; a dot at the
beginning and double dots do.

Results: the order of paths says `eq` exactly for paths with the same components
(`Path.order_eq_eq_iff`), and joining to the empty path changes nothing (`Path.join_empty`).
-/

namespace Stencil

/-- A part of a path. -/
inductive Component where
  /-- The slash at the beginning. -/
  | root
  /-- The dot at the beginning. -/
  | current
  /-- Two dots: the directory above. -/
  | parent
  /-- A file or a directory by its name. -/
  | normal (name : String)
deriving DecidableEq, Repr

namespace Component

/-- The component as it is written. -/
def text : Component → String
  | .root => "/"
  | .current => "."
  | .parent => ".."
  | .normal name => name

/-- The rank among components of other sorts. -/
def rank : Component → Nat
  | .root => 0
  | .current => 1
  | .parent => 2
  | .normal _ => 3

/-- Components are ordered by their sort, and names by their characters. -/
def order : Component → Component → Ordering
  | .normal a, .normal b => compareOfLessAndEq a b
  | a, b => compare a.rank b.rank

end Component

/-- A path, as it is written. -/
structure Path where
  /-- The text of the path. -/
  text : String
deriving DecidableEq, Repr, Inhabited

namespace Path

/-! ## Components -/

/-- The pieces of a text between its slashes. -/
def splitSlashes : List Char → List (List Char)
  | [] => [[]]
  | c :: cs =>
    if c = '/' then [] :: splitSlashes cs
    else
      match splitSlashes cs with
      | [] => [[c]]
      | piece :: rest => (c :: piece) :: rest

/-- What a piece between slashes stands for. Empty pieces and dots stand for nothing. -/
def componentOf? (piece : List Char) : Option Component :=
  if piece.isEmpty || piece == ['.'] then none
  else if piece == ['.', '.'] then some .parent
  else some (.normal (String.ofList piece))

/-- The components of a path in order. Model of `components`. -/
def components (p : Path) : List Component :=
  let pieces := splitSlashes p.text.toList
  let start :=
    if p.text.toList.head? = some '/' then [Component.root]
    else if pieces.head? = some ['.'] then [.current]
    else []
  start ++ pieces.filterMap componentOf?

/-- The path of the given components, with single slashes between them. -/
def ofComponents : List Component → Path
  | .root :: rest => ⟨"/" ++ "/".intercalate (rest.map Component.text)⟩
  | cs => ⟨"/".intercalate (cs.map Component.text)⟩

/-! ## Comparison -/

/-- Do the two paths have the same components? -/
def same (p q : Path) : Bool :=
  p.components == q.components

/-- The order of lists of components: the first difference decides, and a beginning comes before the
whole. -/
def componentsOrder : List Component → List Component → Ordering
  | [], [] => .eq
  | [], _ :: _ => .lt
  | _ :: _, [] => .gt
  | a :: as, b :: bs => (a.order b).then (componentsOrder as bs)

/-- The order of paths, by their components. -/
def order (p q : Path) : Ordering :=
  componentsOrder p.components q.components

/-- Is the path not behind the other one? -/
def le (p q : Path) : Bool :=
  (p.order q).isLE

/-- Does the path begin with the components of the other one? Model of `starts_with`. -/
def startsWith (p base : Path) : Bool :=
  base.components.isPrefixOf p.components

theorem component_order_eq_eq_iff {a b : Component} : a.order b = .eq ↔ a = b := by
  cases a with
  | normal x =>
    cases b with
    | normal y =>
      rw [Component.order, compareOfLessAndEq_eq_eq String.le_refl String.not_le]
      exact ⟨congrArg Component.normal, Component.normal.inj⟩
    | _ => simp [Component.order, Component.rank]
  | _ => cases b <;> simp [Component.order, Component.rank]

theorem componentsOrder_eq_eq_iff {as bs : List Component} :
    componentsOrder as bs = .eq ↔ as = bs := by
  induction as generalizing bs with
  | nil => cases bs <;> simp [componentsOrder]
  | cons a as ih =>
    cases bs with
    | nil => simp [componentsOrder]
    | cons b bs => simp [componentsOrder, Ordering.then_eq_eq, component_order_eq_eq_iff, ih]

theorem order_eq_eq_iff {p q : Path} : p.order q = .eq ↔ p.components = q.components :=
  componentsOrder_eq_eq_iff

/-! ## Parts of a path -/

/-- The last component, if it is a name. Model of `file_name`. -/
def fileName? (p : Path) : Option String :=
  match p.components.getLast? with
  | some (.normal name) => some name
  | _ => none

/-- The part of a file name behind its last dot. A dot at the beginning does not count. -/
def extensionOf? (name : List Char) : Option (List Char) :=
  let tail := name.reverse.takeWhile (· != '.')
  if tail.length + 1 < name.length then some tail.reverse else none

/-- The extension of the file that the path names. Model of `extension`. -/
def extension? (p : Path) : Option String :=
  p.fileName?.bind fun name => (extensionOf? name.toList).map String.ofList

/-- The path without its last component. Roots and empty paths have none. Model of `parent`. -/
def parent? (p : Path) : Option Path :=
  match p.components.getLast? with
  | none | some .root => none
  | some _ => some (ofComponents p.components.dropLast)

/-- Does the path begin at the root of all paths? Model of `is_absolute`. -/
def isAbsolute (p : Path) : Bool :=
  p.text.toList.head? = some '/'

/-- The path seen from the base: an absolute path stays as it is, and another one is put behind the
base with a slash between them, unless the base is empty or ends in a slash. Model of `join`. -/
def join (base p : Path) : Path :=
  if p.isAbsolute then p
  else if base.text.isEmpty || base.text.toList.getLast? = some '/' then ⟨base.text ++ p.text⟩
  else ⟨base.text ++ "/" ++ p.text⟩

theorem join_empty (p : Path) : join ⟨""⟩ p = p := by
  cases p
  simp [join]

end Path

end Stencil
