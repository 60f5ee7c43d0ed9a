import Stencil.Binding.Vocabulary
import Stencil.Grammar.Bodies

/-!
# The grammar of files

`nested` ties the rules together: each level of nesting uses the rules of the level below. Each
level is entered behind a token of its own, so one level more than there are tokens is enough for
every text.
-/

namespace Stencil.Grammar

open Rule

/-- The rules for text that is nested at most so many times. -/
def nested : Nat → Nested
  | 0 =>
    { type := throw .exhausted
      elems := fun _ => throw .exhausted
      classBody := fun _ => throw .exhausted }
  | n + 1 =>
    let below := nested n
    { type := type below
      elems := elems below
      classBody := classBody below }

/-- A rule over nested text, with levels enough for the whole script. -/
def complete {α : Type} (rule : Nested → Rule α) : Rule α :=
  fun s p => rule (nested (s.size + 1)) s p

variable (g : Nested)

/-- `Annotation* 'package' QualifiedName ';'`. Annotations without a package behind them belong to
the first type. Model of `parse_package`. -/
def packageDecl : Rule (Option PackageDecl) := do
  let start ← position
  let annotations ← annotations g
  if ← eat .kwPackage then
    let name ← qualifiedName
    expect .semicolon
    return some ⟨annotations, name, ← extentFrom start⟩
  else
    returnTo start
    return none

/-- `'import' 'static'? QualifiedName ('.' '*')? ';'`. Model of `parse_import`. -/
def importDecl : Rule ImportDecl := do
  let start ← position
  expect .kwImport
  let ofMembers ← eat .kwStatic
  let name ← qualifiedName
  let onDemand ← eat .dot
  if onDemand then
    expect .star
  expect .semicolon
  return ⟨ofMembers, name, onDemand, ← extentFrom start⟩

/-- Passes the semicolons that follow. -/
def semicolons : Rule Unit := do
  discard (manyWhile (check .semicolon) advance)

/-- `PackageDecl? ImportDecl* (TypeDecl | ';')*`. Model of `parse_compilation_unit`. -/
def compilationUnit : Rule CompilationUnit := do
  let package ← packageDecl g
  let imports ← manyWhile (check .kwImport) importDecl
  let types ← manyWhile (do semicolons; return !(← atEnd)) (typeDecl g)
  return ⟨package, imports, types⟩

end Stencil.Grammar

namespace Stencil

/-- A file that the grammar accepts: its source and its tree. -/
structure ParsedFile where
  /-- The tokens of the file. -/
  source : Source
  /-- What the tokens say. -/
  tree : CompilationUnit

namespace ParsedFile

/-- Reads a file. If the text has flaws they are all told and nothing else; otherwise the first
mistake in the grammar is told. Model of `parse_with`. -/
def ofString (text : String) (intrinsics : String) : Except (List Diagnostic) ParsedFile :=
  let source := Source.ofString text
  if source.problems.isEmpty then
    match (Grammar.complete Grammar.compilationUnit).run (.ofSource source intrinsics) 0 with
    | .ok tree _ => .ok ⟨source, tree⟩
    | .error m p => .error [m.diagnostic source p]
  else
    .error (source.problems.map Diagnostic.ofLexical)

end ParsedFile

end Stencil
