/-!
# Concrete types

The closed catalogue of types that a placeholder can be bound to: the generic binding, which keeps
the placeholder a type variable, and seven primitive types. Every name that a specialized text needs
is a function of the type.

Results: the catalogue is complete and without repetition (`mem_all`, `nodup_all`), and class-name
words tell the types apart (`boxedName_injective`).
-/

namespace Stencil

/-- A type that a placeholder can be bound to. -/
inductive ConcreteType where
  | generic | byte | char | short | int | float | long | double
deriving DecidableEq, Repr, Inhabited

namespace ConcreteType

/-- The catalogue, in the order in which instantiations are made. -/
def all : List ConcreteType :=
  [.generic, .byte, .char, .short, .int, .float, .long, .double]

theorem mem_all (t : ConcreteType) : t ∈ all := by
  cases t <;> decide

theorem nodup_all : all.Nodup := by
  decide

/-- Is it the generic binding? Model of `is_generic`. -/
def isGeneric (t : ConcreteType) : Bool :=
  t == .generic

/-- Is it a floating-point type? Model of `is_floating`. -/
def isFloating : ConcreteType → Bool
  | .float | .double => true
  | _ => false

/-- Is it narrower than `int`, so that sums have to be cast back? Model of `is_narrow`. -/
def isNarrow : ConcreteType → Bool
  | .byte | .char | .short => true
  | _ => false

/-- The keyword of a primitive type. Model of `keyword`. -/
def keyword? : ConcreteType → Option String
  | .generic => none
  | .byte => some "byte"
  | .char => some "char"
  | .short => some "short"
  | .int => some "int"
  | .float => some "float"
  | .long => some "long"
  | .double => some "double"

/-- How values of the type are declared: by the keyword, or as objects. Model of `type_name`. -/
def typeName (t : ConcreteType) : String :=
  t.keyword?.getD "Object"

/-- The word for the type inside the names of classes. Model of `boxed_name`. -/
def boxedName : ConcreteType → String
  | .generic => "Object"
  | .byte => "Byte"
  | .char => "Char"
  | .short => "Short"
  | .int => "Int"
  | .float => "Float"
  | .long => "Long"
  | .double => "Double"

theorem boxedName_injective {t u : ConcreteType} (h : t.boxedName = u.boxedName) : t = u := by
  revert h
  cases t <;> cases u <;> decide

/-- The class whose static methods work on values of the type. Model of `wrapper_class`. -/
def wrapperClass : ConcreteType → String
  | .char => "Character"
  | .int => "Integer"
  | t => t.boxedName

/-- The type in messages. -/
def display (t : ConcreteType) : String :=
  t.keyword?.getD "generic"

/-- Are the two names equal, if capital and small ASCII letters count as one? -/
def sameName (a b : String) : Bool :=
  a.toList.map Char.toLower == b.toList.map Char.toLower

/-- The type that a name stands for: its class-name word, its keyword, or `generic`, in capital or
small letters. Model of `from_name`. -/
def ofName? (name : String) : Option ConcreteType :=
  all.find? fun t => sameName name t.boxedName || sameName name t.display

end ConcreteType

end Stencil
