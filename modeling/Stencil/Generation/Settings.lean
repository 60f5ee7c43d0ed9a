import Stencil.Binding.Vocabulary
import Stencil.Path

/-!
# Settings of a run

Where templates are read and outputs are written, and how.

Results: a template has the extension of the run (`hasExtension_of_isTemplate`), and an extension
without dots in front stays as it is when such dots are removed (`bareExtension_bareExtension`).
-/

namespace Stencil

/-- Everything that a run has to be told. Model of `GeneratorConfig`. -/
structure Settings where
  /-- The root of all templates. -/
  templateRoot : Path
  /-- The root of all outputs. Files below it that nobody claims are deleted. -/
  outputRoot : Path
  /-- Are outputs left alone that are not older than their templates? -/
  incremental : Bool := true
  /-- Does the run end at the first error? -/
  failFast : Bool := false
  /-- The extension of templates and outputs, without a dot in front. -/
  extension : String := "java"
  /-- Does every output begin with a comment that says what it is generated from? -/
  header : Bool := true
  /-- The names that templates are written with. -/
  vocabulary : Vocabulary := {}
deriving DecidableEq, Repr

namespace Settings

/-- An extension without the dots in front. Model of `with_extension`. -/
def bareExtension (text : String) : String :=
  String.ofList (text.toList.dropWhile (· == '.'))

theorem bareExtension_bareExtension (text : String) :
    bareExtension (bareExtension text) = bareExtension text := by
  simp only [bareExtension, String.toList_ofList]
  congr 1
  induction text.toList with
  | nil => rfl
  | cons c cs ih => by_cases h : c = '.' <;> simp [h, ih]

/-- Does the path have the extension of the run? Model of `has_extension`. -/
def hasExtension (s : Settings) (p : Path) : Bool :=
  p.extension? == some s.extension

/-- Is the path that of a template: does it have the extension of the run, and does its file name
mention the primary placeholder? Model of `is_template`. -/
def isTemplate (s : Settings) (p : Path) : Bool :=
  s.hasExtension p && p.fileName?.any fun name => s.vocabulary.mentions name .primary

theorem hasExtension_of_isTemplate {s : Settings} {p : Path} (h : s.isTemplate p = true) :
    s.hasExtension p = true := by
  simp only [isTemplate, Bool.and_eq_true] at h
  exact h.1

end Settings

end Stencil
