import Stencil.Rewrite.Error

/-!
# Operations on bound types

What each intrinsic operation is replaced by, given the type that it is about: a pattern of fixed
texts and of places for its arguments, which are filled in last. A replacement can stand wherever a
call can: it is a name, a literal, a call, a creation, or it stands in parentheses. An argument is put
in parentheses where it stands beside an operator, unless it can stand there without.

Results: there is a pattern only for the numbers of arguments that the operation takes
(`mem_counts_of_pattern_eq_ok`).
-/

namespace Stencil.Rewrite

/-- The text of an argument. -/
structure Operand where
  /-- The text. -/
  text : String
  /-- Can the text stand beside an operator without parentheses? -/
  atomic : Bool
deriving DecidableEq, Repr

/-- The argument as it can stand beside an operator. Model of `wrapped`. -/
def Operand.wrapped (o : Operand) : String :=
  if o.atomic then o.text else "(" ++ o.text ++ ")"

/-- A stretch of what an operation is replaced by. -/
inductive Fragment where
  /-- A text of the operation's own. -/
  | fixed (text : String)
  /-- The argument of the given number, as it is. -/
  | plain (argument : Nat)
  /-- The argument of the given number, as it can stand beside an operator. -/
  | beside (argument : Nat)
deriving DecidableEq, Repr

/-- The text of a fragment with the arguments filled in. -/
def Fragment.text (args : List Operand) : Fragment → String
  | .fixed text => text
  | .plain i => (args[i]?.map (·.text)).getD ""
  | .beside i => (args[i]?.map Operand.wrapped).getD ""

/-- The text of a pattern with the arguments filled in. -/
def fill (args : List Operand) (pattern : List Fragment) : String :=
  String.join (pattern.map (Fragment.text args))

/-- What an operation is about: a type, and how it is written where it is a type variable. -/
structure Target where
  /-- The bound type. -/
  type : ConcreteType
  /-- The type variable as the template writes it. -/
  variableText : String
deriving DecidableEq, Repr

/-- The operations on values of a bound type. -/
inductive Operation where
  /-- Is the value the one that stands for no value? -/
  | isEmpty
  /-- The value that stands for no value. -/
  | empty
  /-- Are two values equal, by a given comparer if there is one? -/
  | equals
  /-- The order of two values. -/
  | compare
  /-- The hash of a value, with a seed if there is one. -/
  | mix
  /-- A new array of values. -/
  | newArray
  /-- A value as one of the type. -/
  | cast
  /-- The sum of two values. -/
  | add
  /-- A value as a number. -/
  | numeric
deriving DecidableEq, Repr

namespace Operation

/-- The operation of a name. -/
def ofName? : String → Option Operation
  | "isEmpty" | "isEmptyKey" => some .isEmpty
  | "empty" | "defaultValue" => some .empty
  | "equals" => some .equals
  | "compare" => some .compare
  | "mix" => some .mix
  | "newArray" => some .newArray
  | "cast" => some .cast
  | "add" => some .add
  | "numeric" => some .numeric
  | _ => none

/-- The numbers of arguments that the operation takes. -/
def counts : Operation → List Nat
  | .empty => [0]
  | .isEmpty | .newArray | .cast | .numeric => [1]
  | .compare | .add => [2]
  | .mix => [1, 2]
  | .equals => [2, 3]

/-- The numbers of arguments that the operation takes, in words. -/
def countText (o : Operation) : String :=
  " or ".intercalate (o.counts.map toString)

/-- The bits of a floating-point argument, which tell apart what the operators take for equal.
Arguments of the other types stay. -/
def bits (t : ConcreteType) (argument : Nat) : List Fragment :=
  match t with
  | .float => [.fixed "Float.floatToIntBits(", .plain argument, .fixed ")"]
  | .double => [.fixed "Double.doubleToLongBits(", .plain argument, .fixed ")"]
  | _ => [.plain argument]

/-- Is the value empty? -/
def isEmptyPattern : ConcreteType → List Fragment
  | .generic => [.fixed "(", .beside 0, .fixed " == null)"]
  | .float => [.fixed "("] ++ bits .float 0 ++ [.fixed " == 0)"]
  | .double => [.fixed "("] ++ bits .double 0 ++ [.fixed " == 0L)"]
  | _ => [.fixed "(", .beside 0, .fixed " == 0)"]

/-- The empty value. -/
def emptyText : ConcreteType → String
  | .generic => "null"
  | .float => "0f"
  | .double => "0d"
  | t => "((" ++ t.typeName ++ ") 0)"

/-- Are the two values equal? A comparer is used for objects only. -/
def equalsPattern (t : ConcreteType) (comparer : Option Nat) (a c : Nat) : List Fragment :=
  match t, comparer with
  | .generic, some o => [.beside o, .fixed ".equals(", .plain a, .fixed ", ", .plain c, .fixed ")"]
  | .generic, none =>
    [.fixed "java.util.Objects.equals(", .plain a, .fixed ", ", .plain c, .fixed ")"]
  | t, _ =>
    if t.isFloating then [.fixed "("] ++ bits t a ++ [.fixed " == "] ++ bits t c ++ [.fixed ")"]
    else [.fixed "(", .beside a, .fixed " == ", .beside c, .fixed ")"]

/-- The order of the two values. -/
def comparePattern (target : Target) : List Fragment :=
  if target.type.isGeneric then
    [.fixed "((Comparable<? super ", .fixed target.variableText, .fixed ">) ", .beside 0,
      .fixed ").compareTo(", .plain 1, .fixed ")"]
  else [.fixed target.type.wrapperClass, .fixed ".compare(", .plain 0, .fixed ", ", .plain 1, .fixed ")"]

/-- The hash of the value, spread by the mixer, with a seed or without. -/
def mixPattern (mixer : String) (t : ConcreteType) (seeded : Bool) : List Fragment :=
  let hashed :=
    if t.isGeneric then [.fixed "java.util.Objects.hashCode(", .plain 0, .fixed ")"]
    else if t.isFloating then bits t 0
    else if seeded then [.beside 0]
    else [.plain 0]
  [.fixed mixer, .fixed "("] ++ hashed ++ (if seeded then [.fixed " ^ ", .beside 1] else [])
    ++ [.fixed ")"]

/-- A new array of the given length. -/
def newArrayPattern (target : Target) : List Fragment :=
  if target.type.isGeneric then
    [.fixed "((", .fixed target.variableText, .fixed "[]) new Object[", .plain 0, .fixed "])"]
  else [.fixed "new ", .fixed target.type.typeName, .fixed "[", .plain 0, .fixed "]"]

/-- The value as one of the type. -/
def castPattern (target : Target) : List Fragment :=
  if target.type.isGeneric then
    [.fixed "((", .fixed target.variableText, .fixed ") ", .beside 0, .fixed ")"]
  else [.beside 0]

/-- The sum, as a value of the type again. -/
def addPattern (t : ConcreteType) : List Fragment :=
  let sum := [.fixed "(", .beside 0, .fixed " + ", .beside 1, .fixed ")"]
  if t.isNarrow then [.fixed "((", .fixed t.typeName, .fixed ") "] ++ sum ++ [.fixed ")"] else sum

/-- What the operation on so many arguments is replaced by. Model of `resolve_intrinsic`. -/
def pattern (mixer : String) (target : Target) (o : Operation) (count : Nat) :
    Except CallFault (List Fragment) :=
  match o, count with
  | .isEmpty, 1 => .ok (isEmptyPattern target.type)
  | .empty, 0 => .ok [.fixed (emptyText target.type)]
  | .equals, 3 => .ok (equalsPattern target.type (some 0) 1 2)
  | .equals, 2 => .ok (equalsPattern target.type none 0 1)
  | .compare, 2 => .ok (comparePattern target)
  | .mix, 1 => .ok (mixPattern mixer target.type false)
  | .mix, 2 => .ok (mixPattern mixer target.type true)
  | .newArray, 1 => .ok (newArrayPattern target)
  | .cast, 1 => .ok (castPattern target)
  | .add, 2 =>
    if target.type.isGeneric then .error (.unsupported target.type)
    else .ok (addPattern target.type)
  | .numeric, 1 =>
    if target.type.isGeneric then .error (.unsupported target.type) else .ok [.beside 0]
  | o, n => .error (.argumentCount o.countText n)

theorem mem_counts_of_pattern_eq_ok {mixer : String} {target : Target} {o : Operation} {count : Nat}
    {pattern : List Fragment} (h : o.pattern mixer target count = .ok pattern) :
    count ∈ o.counts := by
  unfold Operation.pattern at h
  split at h <;> simp_all [counts]

end Operation

/-- What the operation of a name is replaced by. -/
def applyNamed (mixer : String) (target : Target) (name : String) (args : List Operand) :
    Except CallFault String :=
  match Operation.ofName? name with
  | some o => (o.pattern mixer target args.length).map (fill args)
  | none => .error (.unknown name)

end Stencil.Rewrite
