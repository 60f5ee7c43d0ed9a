import Stencil.Rewrite.Name

/-!
# Output paths

The output of an instantiation has the path of its template, with the class-name words of the bound
types in place of the placeholders. Each name on the path is substituted on its own; dots and slashes
stay.

Results: a path whose names mention no placeholder keeps its components
(`outputComponent_of_not_mentions`).
-/

namespace Stencil

/-- A component of an output path, made from the component of the template's path. -/
def outputComponent (v : Vocabulary) (b : Binding) : Component → Component
  | .normal name => .normal (Rewrite.substitute v b.resolve name)
  | c => c

/-- The path of the output of an instantiation, relative to the root of all outputs.
Model of `output_path`. -/
def Instantiation.outputPath (v : Vocabulary) (i : Instantiation) : Path :=
  .ofComponents (i.template.components.map (outputComponent v i.binding))

theorem Rewrite.substitute_of_not_mentions {v : Vocabulary} {choice : Rewrite.Choice} {name : String}
    (h : v.mentionsAny name = false) : Rewrite.substitute v choice name = name := by
  simp only [Vocabulary.mentionsAny, Placeholder.both, List.any_cons, List.any_nil,
    Bool.or_false, Bool.or_eq_false_iff] at h
  have step (p : Placeholder) (t : ConcreteType) (hp : v.mentions name p = false) :
      Text.replace name (v.name p) t.boxedName = name := by
    simp [Text.replace, Text.replaceChars_of_not_occurs hp]
  simp only [substitute, Placeholder.both, List.foldl_cons, List.foldl_nil]
  cases choice .primary <;> cases choice .secondary <;> simp [step _ _ h.1, step _ _ h.2]

theorem outputComponent_of_not_mentions {v : Vocabulary} {b : Binding} {name : String}
    (h : v.mentionsAny name = false) : outputComponent v b (.normal name) = .normal name := by
  simp [outputComponent, Rewrite.substitute_of_not_mentions h]

end Stencil
