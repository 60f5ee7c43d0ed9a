import Stencil.Binding.Instantiation

/-!
# Rewriting names

A name that is a placeholder becomes the keyword of its type, and stays if the type is generic. In
longer names the placeholders become the class-name words of their types.

Results: a name that mentions no placeholder is not rewritten (`renameIdent?_of_not_mentions`).
-/

namespace Stencil.Rewrite

/-- A choice of types for the placeholders that occur in a name. -/
abbrev Choice := Placeholder → Option ConcreteType

/-- The name with the class-name words in place of the placeholders that have a type, the primary
one first. Model of `substitute`. -/
def substitute (v : Vocabulary) (choice : Choice) (name : String) : String :=
  Placeholder.both.foldl
    (fun name p =>
      match choice p with
      | some t => Text.replace name (v.name p) t.boxedName
      | none => name)
    name

/-- The name that results from a substitution, if it is another one. -/
def substitute? (v : Vocabulary) (choice : Choice) (name : String) : Option String :=
  let renamed := substitute v choice name
  if renamed = name then none else some renamed

/-- What an identifier becomes, if it changes. Model of `rewrite_ident`. -/
def renameIdent? (v : Vocabulary) (b : Binding) (name : String) : Option String :=
  match v.placeholder? name with
  | some p => (b.resolve p).bind ConcreteType.keyword?
  | none => if v.mentionsAny name then substitute? v b.resolve name else none

theorem renameIdent?_of_not_mentions {v : Vocabulary} {b : Binding} {name : String}
    (hp : v.placeholder? name = none) (hm : v.mentionsAny name = false) :
    renameIdent? v b name = none := by
  simp [renameIdent?, hp, hm]

end Stencil.Rewrite
