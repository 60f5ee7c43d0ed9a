import Stencil.Binding.ConcreteType
import Stencil.Binding.Vocabulary
import Stencil.Path

/-!
# Bindings and instantiations

A binding gives the placeholders their concrete types. The instantiations of a template are the
bindings that fit its arity, in the order of the catalogue.

Results: a template has as many instantiations as there are bindings of its placeholders
(`length_allOf_one`, `length_allOf_two`), each of them once (`nodup_allOf`), and a binding fits an
arity if it has types for just the placeholders that the arity declares (`mem_allOf_iff`).
-/

namespace Stencil

/-- Concrete types for the placeholders. The secondary one may be unbound. -/
structure Binding where
  /-- The type of the primary placeholder. -/
  primary : ConcreteType
  /-- The type of the secondary placeholder. -/
  secondary : Option ConcreteType := none
deriving DecidableEq, Repr, Inhabited

namespace Binding

/-- The type that a placeholder is bound to. Model of `resolve`. -/
def resolve (b : Binding) : Placeholder → Option ConcreteType
  | .primary => some b.primary
  | .secondary => b.secondary

/-- Is the placeholder bound to a primitive type? -/
def isPrimitive (b : Binding) (p : Placeholder) : Bool :=
  (b.resolve p).any fun t => !t.isGeneric

/-- Is the secondary placeholder bound to the generic type? Model of `secondary_is_generic`. -/
def secondaryIsGeneric (b : Binding) : Bool :=
  b.secondary.any ConcreteType.isGeneric

/-- Is any placeholder bound to the generic type? Model of `any_generic`. -/
def anyGeneric (b : Binding) : Bool :=
  b.primary.isGeneric || b.secondaryIsGeneric

/-- Is every bound placeholder bound to the generic type? Model of `all_generic`. -/
def allGeneric (b : Binding) : Bool :=
  b.primary.isGeneric && b.secondary.all ConcreteType.isGeneric

/-- The class-name words of the bound types. Model of `label`. -/
def label (b : Binding) : String :=
  match b.secondary with
  | some t => b.primary.boxedName ++ ", " ++ t.boxedName
  | none => b.primary.boxedName

/-- The bindings that fit an arity, in the order of the catalogue and with the primary placeholder
changing last. -/
def allOf : Arity → List Binding
  | .one => ConcreteType.all.map fun t => ⟨t, none⟩
  | .two => ConcreteType.all.flatMap fun t => ConcreteType.all.map fun u => ⟨t, some u⟩

theorem length_allOf_one : (allOf .one).length = 8 := rfl

theorem length_allOf_two : (allOf .two).length = 64 := rfl

theorem nodup_allOf (a : Arity) : (allOf a).Nodup := by
  cases a <;> decide

theorem mem_allOf_iff {b : Binding} {a : Arity} :
    b ∈ allOf a ↔ ∀ p, (b.resolve p).isSome = a.declares p := by
  obtain ⟨t, u?⟩ := b
  cases a with
  | one =>
    cases u? with
    | none => simpa [allOf, t.mem_all] using fun p => by cases p <;> rfl
    | some u => simpa [allOf] using ⟨.secondary, Bool.noConfusion⟩
  | two =>
    cases u? with
    | none => simpa [allOf] using ⟨.secondary, Bool.noConfusion⟩
    | some u => simpa [allOf, t.mem_all, u.mem_all] using fun p => by cases p <;> rfl

end Binding

/-- A template, named by its path, with a binding for it. -/
structure Instantiation where
  /-- The path of the template, relative to the root of all templates. -/
  template : Path
  /-- The types for its placeholders. -/
  binding : Binding
deriving DecidableEq, Repr

namespace Instantiation

/-- The template's path and the bound types. -/
def display (i : Instantiation) : String :=
  i.template.text ++ " [" ++ i.binding.label ++ "]"

/-- Every instantiation of a template of the given arity. Model of `expand`. -/
def expand (template : Path) (arity : Arity) : List Instantiation :=
  (Binding.allOf arity).map fun b => ⟨template, b⟩

end Instantiation

end Stencil
