import Stencil.Rewrite.Name
import Stencil.Tree

/-!
# Rewriting lists of type arguments and type parameters

The placeholders in the name of a class stand for the first type arguments of that class: its slots,
the primary placeholder first. A primitive type cannot be a type argument, so an argument that names
a placeholder bound to one is left out, and with it the slot of the specialized class. A list that
has lost all entries is left out as a whole.

Results: a list without entries has no text (`angleList_nil`).
-/

namespace Stencil.Rewrite

variable (v : Vocabulary) (b : Binding)

/-- The placeholder that a type argument is, or that a wildcard is bounded by.
Model of `arg_placeholder`. -/
def placeholderOf? (a : TypeArg) : Option Placeholder :=
  a.typeExpr?.bind fun t => t.simpleName?.bind fun name => v.placeholder? name.name

/-- The type that an argument gives to the slot in which it stands. An argument that is no
placeholder makes the slot generic, and a wildcard that names none leaves it to the binding.
Model of `arg_binding`. -/
def slotType (a : TypeArg) (slot : Placeholder) : Option ConcreteType :=
  match placeholderOf? v a with
  | some p => some ((b.resolve p).getD .generic)
  | none => if a.isWildcard then b.resolve slot else some .generic

/-- The types of the placeholders in the name of a class with the given arguments. A slot without an
argument is left to the binding. Model of `segment_bindings`. -/
def segmentChoice (name : String) (args : List TypeArg) : Choice := fun p =>
  let slots := v.mentioned name
  if slots.contains p then
    match args[slots.idxOf p]? with
    | some a => slotType v b a p
    | none => b.resolve p
  else none

/-- What the name of a class with the given arguments becomes, if it changes. -/
def renameSegment? (name : String) (args : List TypeArg) : Option String :=
  if (v.placeholder? name).isSome then renameIdent? v b name
  else if v.mentionsAny name then substitute? v (segmentChoice v b name args) name
  else none

/-- Is an argument in the given slot left out? A wildcard that names no placeholder is left out with
its slot. Model of `is_dropped`. -/
def isDropped (slot : Option Placeholder) (a : TypeArg) : Bool :=
  match placeholderOf? v a with
  | some p => b.isPrimitive p
  | none => a.isWildcard && slot.any b.isPrimitive

/-- Is any argument left out, if the arguments stand in the given slots? -/
def anyDropped : List Placeholder → List TypeArg → Bool
  | _, [] => false
  | slots, a :: rest => isDropped v b slots.head? a || anyDropped slots.tail rest

/-- The slots of the class that the arguments belong to. Arguments of methods have none.
Model of `owner_slots`. -/
def slotsOf (owner : Option String) : List Placeholder :=
  match owner with
  | some name => v.mentioned name
  | none => []

/-- Does a list of arguments to be inferred stay? It goes if the class has slots and all of them are
bound to primitive types. Model of `keeps_diamond`. -/
def keepsDiamond (owner : Option String) : Bool :=
  let slots := slotsOf v owner
  slots.isEmpty || !slots.all b.isPrimitive

/-- Is a type parameter left out? Model of `is_dropped_param`. -/
def isDroppedParam (p : TypeParam) : Bool :=
  (v.placeholder? p.name.name).any b.isPrimitive

/-- Entries between angle brackets, and nothing if there are no entries. Model of `angle_list`. -/
def angleList (entries : List String) : String :=
  if entries.isEmpty then "" else "<" ++ ", ".intercalate entries ++ ">"

@[simp] theorem angleList_nil : angleList [] = "" := rfl

end Stencil.Rewrite
