import Stencil.Text.Substring

/-!
# The vocabulary of templates

The names that templates are written with: two placeholders for types, the class whose calls stand
for operations on them, and the function that spreads hash values. Each can be chosen freely.
-/

namespace Stencil

/-- The two type variables of a template. -/
inductive Placeholder where
  | primary | secondary
deriving DecidableEq, Repr

/-- Both placeholders, the primary one first. -/
def Placeholder.both : List Placeholder :=
  [.primary, .secondary]

/-- The names that a template is written with. Model of `TemplateSyntax`. -/
structure Vocabulary where
  /-- The name of the primary placeholder. -/
  primary : String := "KType"
  /-- The name of the secondary placeholder. -/
  secondary : String := "VType"
  /-- The class whose calls are replaced by operations on the bound type. -/
  intrinsics : String := "Intrinsics"
  /-- The function that spreads hash values. -/
  mixer : String := "BitMixer.mix"
deriving DecidableEq, Repr, Inhabited

namespace Vocabulary

/-- The name of a placeholder. Model of `name`. -/
def name (v : Vocabulary) : Placeholder → String
  | .primary => v.primary
  | .secondary => v.secondary

/-- The placeholder that an identifier is. Model of `placeholder`. -/
def placeholder? (v : Vocabulary) (word : String) : Option Placeholder :=
  Placeholder.both.find? fun p => v.name p == word

/-- Does the placeholder's name occur in the text? Model of `mentions`. -/
def mentions (v : Vocabulary) (text : String) (p : Placeholder) : Bool :=
  Text.mentions text (v.name p)

/-- The placeholders whose names occur in the text, the primary one first. -/
def mentioned (v : Vocabulary) (text : String) : List Placeholder :=
  Placeholder.both.filter (v.mentions text)

/-- Does the name of any placeholder occur in the text? Model of `mentions_placeholder`. -/
def mentionsAny (v : Vocabulary) (text : String) : Bool :=
  Placeholder.both.any (v.mentions text)

end Vocabulary

/-- The number of placeholders that a template declares. -/
inductive Arity where
  /-- The primary placeholder alone. -/
  | one
  /-- Both placeholders. -/
  | two
deriving DecidableEq, Repr

namespace Arity

/-- Does a template with this arity declare the placeholder? Model of `declares`. -/
def declares : Arity → Placeholder → Bool
  | _, .primary => true
  | a, .secondary => a == .two

/-- The arity that a file name promises, judged without the file: none if it does not mention the
primary placeholder. Model of `from_file_name`. -/
def ofFileName? (v : Vocabulary) (fileName : String) : Option Arity :=
  if !v.mentions fileName .primary then none
  else if v.mentions fileName .secondary then some .two
  else some .one

end Arity

end Stencil
