import Stencil.Files.Tree
import Stencil.Generation.OutputPath
import Stencil.Generation.RunError
import Stencil.Generation.Settings

/-!
# Runs

A run finds the templates below one root, makes their instantiations, and brings the outputs below
another root up to date. It has two halves. The first half reads only: it finds templates and existing
outputs, and every instantiation makes its claim. Then the claims are settled, and the second half
writes and deletes what the settlement says.

A template that cannot be used claims the outputs that its file name promises, so that nothing is
lost while it is being mended.

Results: a run that ends in the first half leaves the files as they are (`run_of_scan_error`,
`run_of_stopped`). Errors end a run early only if it is to end at the first one
(`stopped?_eq_none_iff`).
-/

namespace Stencil

namespace Settings

variable (s : Settings) (t : FileTree)

/-! ## What there is -/

/-- The path of a file that was found below a root. The root itself may be the file. -/
def below (root found : Path) : Path :=
  if found.text.isEmpty then root else root.join found

/-- Is the file below the root of the outputs, in a template tree that is not itself below it? Such
files are outputs, and no templates. -/
def isNestedOutput (p : Path) : Bool :=
  p.startsWith s.outputRoot && !s.templateRoot.startsWith s.outputRoot

/-- The templates by their paths from the root of all templates, in the order of these paths.
Model of `discover`. -/
def templates : Except RunError (List Path) :=
  match t.filesBelow s.templateRoot with
  | .error fault => .error (.scan s.templateRoot fault)
  | .ok found =>
    .ok (found.filter fun rel =>
      let p := below s.templateRoot rel
      s.isTemplate p && !s.isNestedOutput p)

end Settings

/-- The files with an extension below a root, in the order of their paths. Below a root at which
there is nothing there are no files. Model of `scan`. -/
def FileTree.filesWithExtension (t : FileTree) (root : Path) (extension : String) : List Path :=
  match t.filesBelow root with
  | .error _ => []
  | .ok found =>
    ((found.map (Settings.below root)).filter fun p => p.extension? == some extension).mergeSort
      Path.le

namespace Settings

variable (s : Settings) (t : FileTree)

/-- Is the root of the outputs a directory below the root of the templates? -/
def isNested : Bool :=
  !s.outputRoot.same s.templateRoot && s.outputRoot.startsWith s.templateRoot

/-- May the file be deleted if nobody claims it? Files in the template tree are written by hand,
unless the output tree is nested in it: then everything in the output tree but templates may be
deleted. -/
def isDeletable (p : Path) : Bool :=
  !p.startsWith s.templateRoot || (s.isNested && !s.isTemplate p)

/-- The existing outputs that may be deleted if nobody claims them. Model of `scan_outputs`. -/
def existingOutputs : List Path :=
  (t.filesWithExtension s.outputRoot s.extension).filter s.isDeletable

/-! ## What is to be done -/

/-- The path of the output of an instantiation. -/
def outputOf (i : Instantiation) : Path :=
  s.outputRoot.join (i.outputPath s.vocabulary)

/-- The claim of an instantiation. -/
def claim (i : Instantiation) (action : Action) : Claim :=
  ⟨s.outputOf i, i.display, action⟩

/-- The claims for a template that cannot be used: those that its file name promises.
Model of `preserve`. -/
def preserved (template : Path) : List Claim :=
  match Arity.ofFileName? s.vocabulary (template.fileName?.getD "") with
  | none => []
  | some arity => (Instantiation.expand template arity).map fun i => s.claim i .preserve

/-- The comment at the beginning of an output. Model of `header`. -/
def headerOf (i : Instantiation) : String :=
  "// Generated by specgen from " ++ i.template.text ++ " [" ++ i.binding.label
    ++ "]. Do not edit.\n"

/-- The whole text of an output. -/
def outputText (i : Instantiation) (text : String) : String :=
  if s.header then headerOf i ++ text else text

end Settings

/-- Is there something at the path that is not older than its template? If the age of the template
is unknown nothing is up to date. Model of `is_up_to_date`. -/
def FileTree.isUpToDate (t : FileTree) (output : Path) (template : Option Nat) : Bool :=
  match template, t.modified? output with
  | some m, some o => m ≤ o
  | _, _ => false

/-- What a template or an instantiation contributes to a run. Model of `TemplateOutcome`. -/
structure Contribution where
  /-- Its claims. -/
  claims : List Claim
  /-- What has gone wrong with it. -/
  errors : List RunError
deriving DecidableEq, Repr

namespace Contribution

/-- Contributions one after the other. -/
def join (cs : List Contribution) : Contribution :=
  ⟨cs.flatMap (·.claims), cs.flatMap (·.errors)⟩

end Contribution

namespace Settings

variable (s : Settings) (t : FileTree)

/-- What an instantiation contributes: its text, unless its output is up to date.
Model of `instantiate`. -/
def instantiate (template : Template) (modified : Option Nat) (i : Instantiation) : Contribution :=
  if s.incremental && t.isUpToDate (s.outputOf i) modified then ⟨[s.claim i .keep], []⟩
  else
    match template.specialize i.binding with
    | .ok text => ⟨[s.claim i (.write (s.outputText i text))], []⟩
    | .error e => ⟨[s.claim i .preserve], [.specialize i e]⟩

/-- What a template contributes. Model of `process`. -/
def process (rel : Path) : Contribution :=
  let path := s.templateRoot.join rel
  match t.read path with
  | .error fault => ⟨s.preserved rel, [.read path fault]⟩
  | .ok text =>
    match Template.ofText rel text s.vocabulary with
    | .error e => ⟨s.preserved rel, [.template e]⟩
    | .ok template =>
      .join (template.instantiations.map (s.instantiate t template (t.modified? path)))

end Settings

/-- What the first half of a run has found. -/
structure Plan where
  /-- The number of templates. -/
  templates : Nat
  /-- The claims, settled. -/
  settlement : Settlement
  /-- What has gone wrong: first with the templates, then with their claims. -/
  errors : List RunError
deriving DecidableEq, Repr

/-- The first half of a run. -/
def Settings.plan (s : Settings) (t : FileTree) : Except RunError Plan :=
  match s.templates t with
  | .error e => .error e
  | .ok templates =>
    let all := Contribution.join (templates.map (s.process t))
    let settlement := Settlement.settle (s.existingOutputs t) all.claims
    .ok ⟨templates.length, settlement, all.errors ++ settlement.duplicates.map .duplicate⟩

/-! ## Doing it -/

/-- The second half of a run as far as it has come. -/
structure Progress where
  /-- The files. -/
  tree : FileTree
  /-- What has become of the outputs. -/
  settlement : Settlement
  /-- What has gone wrong. -/
  errors : List RunError
deriving DecidableEq, Repr

namespace Progress

/-- Writes an output. If it cannot be written it counts as claimed only. Model of `write_output`. -/
def write (p : Progress) (output : Path × String) : Progress :=
  match p.tree.write output.1 output.2 with
  | (tree, none) => { p with tree := tree }
  | (tree, some fault) =>
    { tree := tree
      settlement := p.settlement.mark output.1 .claimed
      errors := p.errors ++ [.write output.1 fault] }

/-- Deletes an orphan. -/
def delete (p : Progress) (orphan : Path) : Progress :=
  match p.tree.delete orphan with
  | (tree, none) => { p with tree := tree, settlement := p.settlement.mark orphan .deleted }
  | (tree, some fault) =>
    { p with tree := tree, errors := p.errors ++ [.delete orphan fault] }

/-- Deletes orphans one after the other. A run that ends at its first error deletes none behind an
error. -/
def deleteAll (failFast : Bool) : Progress → List Path → Progress
  | p, [] => p
  | p, orphan :: rest =>
    if failFast && !p.errors.isEmpty then p else deleteAll failFast (p.delete orphan) rest

/-- What is told at the end. -/
def report (p : Progress) (templates : Nat) : Report :=
  { errors := p.errors
    summary :=
      { templates := templates
        generated := p.settlement.generated
        updated := p.settlement.count .written
        deleted := p.settlement.count .deleted } }

end Progress

/-- The error that ends a run early. Model of `into_result`. -/
def Settings.stopped? (s : Settings) (errors : List RunError) : Option RunError :=
  if s.failFast then errors.head? else none

theorem Settings.stopped?_eq_none_iff {s : Settings} {errors : List RunError} :
    s.stopped? errors = none ↔ s.failFast = false ∨ errors = [] := by
  cases h : s.failFast <;> simp [Settings.stopped?, h]

/-- The second half of a run: all writes, then all deletions. -/
def Plan.execute (s : Settings) (plan : Plan) (t : FileTree) : Progress :=
  (plan.settlement.writes.foldl Progress.write ⟨t, plan.settlement, plan.errors⟩).deleteAll
    s.failFast plan.settlement.orphans

/-- A run: what is told at its end, or the error that has stopped it, and the files as it leaves
them. Model of `run_in_pool`. -/
def Settings.run (s : Settings) (t : FileTree) : Except RunError Report × FileTree :=
  match s.plan t with
  | .error e => (.error e, t)
  | .ok plan =>
    match s.stopped? plan.errors with
    | some e => (.error e, t)
    | none =>
      let done := plan.execute s t
      match s.stopped? done.errors with
      | some e => (.error e, done.tree)
      | none => (.ok (done.report plan.templates), done.tree)

theorem run_of_scan_error {s : Settings} {t : FileTree} {e : RunError} (h : s.plan t = .error e) :
    s.run t = (.error e, t) := by
  simp [Settings.run, h]

theorem run_of_stopped {s : Settings} {t : FileTree} {plan : Plan} {e : RunError}
    (hp : s.plan t = .ok plan) (hs : s.stopped? plan.errors = some e) :
    s.run t = (.error e, t) := by
  simp [Settings.run, hp, hs]

end Stencil
