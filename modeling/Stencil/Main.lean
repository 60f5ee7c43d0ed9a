import Stencil.Command.Response

/-!
# The command

Reads the files below both roots from the disk as a tree, has the run made on the tree, and brings
the disk to the state of the resulting tree. Everything that is decided is decided by `Settings.run`.
-/

namespace Stencil

/-- The path of a location on the disk. -/
def diskPath (l : Location) : String :=
  "/" ++ "/".intercalate l

/-- The location that the names on a path lead to from the top. -/
def locationOf (p : Path) : Location :=
  p.components.filterMap fun
    | .normal name => some name
    | _ => none

/-- The tree together with what the disk has at a location. Times are counted in nanoseconds. -/
def loadAt (t : FileTree) (l : Location) : IO FileTree := do
  let path := (← IO.currentDir) / diskPath l
  if l.isEmpty || !(← path.pathExists) then
    return t
  let data ← path.metadata
  let modified := data.modified.sec.toNat * 1000000000 + data.modified.nsec.toNat
  let t := { t with clock := max t.clock (modified + 1) }
  match data.type with
  | .dir => return { t.put l .directory with stamps := (l, modified) :: t.stamps }
  | _ =>
    let text := String.fromUTF8? (← IO.FS.readBinFile path)
    return t.put l (.file ⟨text, modified⟩)

/-- The tree together with what the disk has on the way to a root and below it. -/
def loadBelow (t : FileTree) (root : Path) : IO FileTree := do
  let mut tree := t
  let mut l : Location := if root.isAbsolute then [] else t.working
  for piece in Path.splitSlashes root.text.toList do
    l := FileTree.step l piece
    tree ← loadAt tree l
  let path := (← IO.currentDir) / diskPath l
  if ← path.isDir then
    for found in ← path.walkDir do
      tree ← loadAt tree (locationOf ⟨found.toString⟩)
  return tree

/-- The part of the disk that a run sees. -/
def loadTree (s : Settings) : IO FileTree := do
  let working := locationOf ⟨(← IO.currentDir).toString⟩
  let mut tree : FileTree := { FileTree.empty 1 with working := working }
  for depth in List.range working.length do
    tree ← loadAt tree (working.take (depth + 1))
  loadBelow (← loadBelow tree s.templateRoot) s.outputRoot

/-- Brings the disk from one tree to another one. -/
def storeTree (before after : FileTree) : IO Unit := do
  let here ← IO.currentDir
  let changed := after.entries.reverse.filter fun x => before.find? x.1 != some x.2
  for (l, e) in changed do
    if e == .directory then
      IO.FS.createDirAll (here / diskPath l)
  for (l, e) in changed do
    if let .file f := e then
      IO.FS.writeFile (here / diskPath l) (f.text.getD "")
  for (l, _) in before.entries do
    if (after.find? l).isNone then
      IO.FS.removeFile (here / diskPath l)

/-- Makes the run that is asked for. Model of `try_main`. -/
def respond (request : Request) : IO Response := do
  let start ← IO.monoNanosNow
  let before ← loadTree request.settings
  let (result, after) := request.settings.run before
  storeTree before after
  let stop ← IO.monoNanosNow
  return .ofResult request.json ⟨stop - start⟩ result

end Stencil

/-- The command: makes a run, writes what it has to tell, and ends with its exit code.
Model of `main`. -/
def main (args : List String) : IO UInt32 := do
  let response ←
    match Stencil.Request.ofArguments args with
    | .ok request => Stencil.respond request
    | .error refusal => pure (.ofRefusal refusal)
  IO.print response.output
  IO.eprint response.errors
  return response.code.toUInt32
