import Stencil.Grammar.Unit
import Stencil.Rewrite.Walk
import Stencil.Visit

/-!
# Templates

A template is a file that the grammar accepts and that declares a placeholder: in its file name, in
the name of a type, or as a type parameter. It is read once, and every binding of its placeholders
gives a text.

Results: a text has an arity exactly if the primary placeholder is declared
(`Arity.isSome_ofDeclared_iff`), and a file name that promises an arity declares at least the primary
placeholder (`primary_mem_declared_of_fileName`).
-/

namespace Stencil

/-! ## Declared placeholders -/

mutual

/-- The placeholders that a visited part of the tree declares: those that the names of types mention,
and the type parameters that are placeholders. The bounds of type parameters declare nothing. -/
def Visit.declared (v : Vocabulary) : Visit → List Placeholder
  | .node (.typeDecl name) inner => v.mentioned name ++ Visit.declaredAll v inner
  | .node (.typeParam name) _ => (v.placeholder? name).toList
  | .node _ inner => Visit.declaredAll v inner

/-- The placeholders that visited parts of the tree declare. -/
def Visit.declaredAll (v : Vocabulary) : List Visit → List Placeholder
  | [] => []
  | n :: rest => Visit.declared v n ++ Visit.declaredAll v rest

end

/-- The placeholders that a file declares by its file name and by its tree.
Model of `PlaceholderScan`. -/
def declaredPlaceholders (v : Vocabulary) (path : Path) (tree : CompilationUnit) :
    List Placeholder :=
  (match path.fileName? with
    | some name => v.mentioned name
    | none => [])
    ++ Visit.declaredAll v tree.visits

/-- The arity that declared placeholders make up. The secondary placeholder alone makes up none. -/
def Arity.ofDeclared? (declared : List Placeholder) : Option Arity :=
  if !declared.contains .primary then none
  else if declared.contains .secondary then some .two
  else some .one

theorem Arity.isSome_ofDeclared_iff {declared : List Placeholder} :
    (Arity.ofDeclared? declared).isSome ↔ Placeholder.primary ∈ declared := by
  by_cases hp : Placeholder.primary ∈ declared <;> by_cases hs : Placeholder.secondary ∈ declared <;>
    simp [Arity.ofDeclared?, hp, hs]

theorem Vocabulary.mem_mentioned {v : Vocabulary} {text : String} {p : Placeholder} :
    p ∈ v.mentioned text ↔ v.mentions text p = true := by
  cases p <;> simp [Vocabulary.mentioned, Placeholder.both]

theorem primary_mem_declared_of_fileName {v : Vocabulary} {path : Path} {name : String}
    (tree : CompilationUnit) (hn : path.fileName? = some name)
    (hm : v.mentions name .primary = true) : .primary ∈ declaredPlaceholders v path tree := by
  simp [declaredPlaceholders, hn, Vocabulary.mem_mentioned.2 hm]

/-! ## Errors -/

/-- Why a file is no template. -/
inductive TemplateFault where
  /-- The grammar does not accept the text; the report shows the places in it. -/
  | unparsable (diagnostics : List Diagnostic) (report : String)
  /-- The secondary placeholder is declared, and the primary one is not. -/
  | secondaryAlone (primary secondary : String)
  /-- No placeholder is declared. -/
  | noPlaceholder
deriving DecidableEq, Repr

/-- A file that is no template. -/
structure TemplateError where
  /-- The path of the file. -/
  path : Path
  /-- What is wrong with it. -/
  fault : TemplateFault
deriving DecidableEq, Repr

/-- The error in words, with the path in front. -/
def TemplateError.message (e : TemplateError) : String :=
  e.path.text ++ ": " ++
    match e.fault with
    | .unparsable diagnostics report =>
      toString diagnostics.length ++ " parse error(s)\n" ++ report
    | .secondaryAlone primary secondary =>
      "declares placeholder " ++ secondary ++ " without " ++ primary
    | .noPlaceholder => "declares no placeholder"

/-! ## Templates -/

/-- A file that has been read as a template. -/
structure Template where
  /-- The path of the file, relative to the root of all templates. -/
  path : Path
  /-- The file. -/
  file : ParsedFile
  /-- The names that the file is written with. -/
  vocabulary : Vocabulary
  /-- The number of placeholders that the file declares. -/
  arity : Arity

namespace Template

/-- Reads a text as a template. Model of `parse`. -/
def ofText (path : Path) (text : String) (v : Vocabulary) : Except TemplateError Template :=
  match ParsedFile.ofString text v.intrinsics with
  | .error diagnostics =>
    .error ⟨path, .unparsable diagnostics (Diagnostic.reportAll text diagnostics)⟩
  | .ok file =>
    let declared := declaredPlaceholders v path file.tree
    match Arity.ofDeclared? declared with
    | some arity => .ok ⟨path, file, v, arity⟩
    | none =>
      if declared.contains .secondary then .error ⟨path, .secondaryAlone v.primary v.secondary⟩
      else .error ⟨path, .noPlaceholder⟩

/-- The work of specializing the template for a binding. -/
def job (t : Template) (b : Binding) : Rewrite.Job :=
  ⟨t.file.source, t.vocabulary, t.arity, b⟩

/-- The steps of the walk over the whole template. -/
def steps (t : Template) (b : Binding) : List Rewrite.Step :=
  Rewrite.CompilationUnit.steps (t.job b) t.file.tree

/-- The text of the template for a binding, whether or not the binding fits the arity.
Model of `specialize`. -/
def specialize (t : Template) (b : Binding) : Except SpecializeError String :=
  let steps := t.steps b
  match Rewrite.firstError? steps with
  | some e => .error e
  | none => (t.job b).finish t.file.source.whole (Rewrite.editsBefore steps)

/-- Every instantiation of the template. -/
def instantiations (t : Template) : List Instantiation :=
  Instantiation.expand t.path t.arity

end Template

end Stencil
