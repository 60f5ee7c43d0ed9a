import Stencil.Grammar.Unit
import Stencil.Rewrite.Arguments
import Stencil.Rewrite.Edit
import Stencil.Rewrite.Operation
import Stencil.Rewrite.Outline

/-!
# The edits of a specialization

A walk over the outline of a template finds the edits that turn it into the text for a binding, in
the order of the text. A part of the template that is replaced as a whole, an argument list that loses an
entry or an intrinsic call, is one edit; what stays of the part is rendered by a walk of its own, so
edits never overlap.

The walk goes on after an error, but only the edits in front of the first error count.

Results: the edits and the first error of two walks, one after the other, come from the first walk
as long as it has no error of its own (`edits_append`, `firstError?_append`).
-/

namespace Stencil.Rewrite

/-- What a walk finds: an edit, or an error that ends the specialization. -/
abbrev Step := Except SpecializeError Edit

/-- The first error of a walk. -/
def firstError? : List Step → Option SpecializeError
  | [] => none
  | .ok _ :: rest => firstError? rest
  | .error e :: _ => some e

/-- The edits in front of the first error. -/
def editsBefore : List Step → List Edit
  | .ok e :: rest => e :: editsBefore rest
  | _ => []

theorem firstError?_append (xs ys : List Step) :
    firstError? (xs ++ ys) = (firstError? xs).or (firstError? ys) := by
  induction xs with
  | nil => rfl
  | cons x xs ih => cases x <;> simp [firstError?, ih]

theorem edits_append (xs ys : List Step) :
    editsBefore (xs ++ ys)
      = editsBefore xs ++ if (firstError? xs).isNone then editsBefore ys else [] := by
  induction xs with
  | nil => simp [editsBefore, firstError?]
  | cons x xs ih => cases x <;> simp [editsBefore, firstError?, ih]

/-- A template to be specialized, and the binding to specialize it for. Model of `Specializer`. -/
structure Job where
  /-- The tokens of the template. -/
  source : Source
  /-- The names that the template is written with. -/
  vocabulary : Vocabulary
  /-- The number of placeholders that the template declares. -/
  arity : Arity
  /-- The types for the placeholders. -/
  binding : Binding

namespace Job

variable (j : Job)

/-! ## Parts of edits -/

/-- The text of a range under edits. Model of `finish`. -/
def finish (range : TokenRange) (edits : List Edit) : Except SpecializeError String :=
  reconstruct j.vocabulary j.binding j.source.tokens range edits

/-- The text of a part of the template, from a walk over that part alone. Model of `render`. -/
def render (extent : Extent) (steps : List Step) : Except SpecializeError String :=
  match firstError? steps with
  | some e => .error e
  | none => j.finish (j.source.range extent) (editsBefore steps)

/-- The text that an extent has in the template. Model of `text`. -/
def sourceText (extent : Extent) : String :=
  j.source.text (j.source.range extent)

/-- The edit that replaces the token of a name, if the name changes. -/
def renamed (name : Ident) : Option String → List Step
  | some text => [.ok ⟨j.source.single name.position, text⟩]
  | none => []

/-- The edit of an identifier. Model of `ident`. -/
def ident (name : Ident) : List Step :=
  j.renamed name (renameIdent? j.vocabulary j.binding name.name)

/-- The range with the blank behind it, if there is also one in front of it: where the range goes,
one of the two blanks is enough. Model of `absorb_separator`. -/
def absorbBlank (r : TokenRange) : TokenRange :=
  let isBlank := fun i => (j.source.tokenAt i).kind == .whitespace
  if 0 < r.start && isBlank (r.start - 1) && isBlank r.stop then ⟨r.start, r.stop + 1⟩ else r

/-- The edit that leaves the given entries of a list of type arguments. Model of `type_args`. -/
def keepArgs (extent : Extent) : Except SpecializeError (List String) → List Step
  | .error e => [.error e]
  | .ok kept => [.ok ⟨j.source.range extent, angleList kept⟩]

/-- The edit that leaves the given entries of a list of type parameters. Model of `type_params`. -/
def keepParams (extent : Extent) : Except SpecializeError (List String) → List Step
  | .error e => [.error e]
  | .ok kept =>
    let range := j.source.range extent
    [.ok ⟨if kept.isEmpty then j.absorbBlank range else range, angleList kept⟩]

/-! ## Intrinsic calls -/

/-- The placeholder that a hint names, if the template declares it. -/
def hinted? (hint : TypeArgs) : Option (Placeholder × TypeExpr) :=
  match hint.entries with
  | [.type t] =>
    match t.segments with
    | [⟨name, none⟩] =>
      ((j.vocabulary.placeholder? name.name).filter j.arity.declares).map (·, t)
    | _ => none
  | _ => none

/-- What a call is about: the placeholder of its hint or, in a template with one placeholder, that
one. Model of `intrinsic_target`. -/
def target (hint : Option TypeArgs) : Except CallFault Target :=
  match hint with
  | none =>
    match j.arity with
    | .one => .ok ⟨j.binding.primary, j.vocabulary.primary⟩
    | .two => .error .ambiguous
  | some h =>
    match j.hinted? h with
    | none => .error (.unresolvedHint (j.sourceText h.extent))
    | some (p, t) =>
      match j.binding.resolve p with
      | none => .error (.unresolvedHint (j.sourceText h.extent))
      | some type => .ok ⟨type, j.sourceText t.extent⟩

/-- Does a token of the kind join operands, so that they need parentheses?
Model of `is_operator`. -/
def isOperator (k : Kind) : Bool :=
  !(k.isLiteral || k.isPrimitiveType
    || [.identifier, .dot, .colonColon, .kwThis, .kwSuper, .kwNew, .kwClass].contains k)

/-- Can the elements stand beside an operator without parentheses? They cannot if they begin with a
group, which may be a cast, or contain an operator. Model of `is_atomic`. -/
def isAtomic (elems : List Elem) : Bool :=
  let startsWithGroup :=
    match elems with
    | .group _ :: _ => true
    | _ => false
  !startsWithGroup && elems.all fun
    | .token p => !isOperator (j.source.codeToken p).kind
    | _ => true

/-- The edit of a call with the given arguments. Model of `resolve_intrinsic`. -/
def call (c : IntrinsicCall) (operands : Except SpecializeError (List Operand)) : List Step :=
  let fail := fun fault =>
    SpecializeError.call fault (j.sourceText c.extent) (j.source.spanAt c.receiver.position)
  let text := do
    let target ← (j.target c.hint).mapError fail
    let args ← operands
    (applyNamed j.vocabulary.mixer target c.name.name args).mapError fail
  [text.map fun text => ⟨j.source.range c.extent, text⟩]

end Job

/-! ## The walk -/

mutual

/-- The steps of a place in the outline. If no entry of a list is left out they are those of the
entries; else one edit leaves the entries that stay. -/
def Outline.steps (j : Job) : Outline → List Step
  | .name i => j.ident i
  | .part i args => j.renamed i (renameSegment? j.vocabulary j.binding i.name args)
  | .typeArgs owner entries extent =>
    if entries.isEmpty then
      if keepsDiamond j.vocabulary j.binding owner then []
      else [.ok (.delete (j.source.range extent))]
    else
      let slots := slotsOf j.vocabulary owner
      if anyDropped j.vocabulary j.binding slots (entries.map (·.1)) then
        j.keepArgs extent (Outline.keptArgs j slots entries)
      else Outline.argSteps j entries
  | .typeParams entries extent =>
    if entries.any (fun e => isDroppedParam j.vocabulary j.binding e.1) then
      j.keepParams extent (Outline.keptParams j entries)
    else Outline.paramSteps j entries
  | .call c args => j.call c (Outline.operands j args)

/-- The steps of an outline. -/
def Outline.stepsAll (j : Job) : List Outline → List Step
  | [] => []
  | o :: rest => o.steps j ++ Outline.stepsAll j rest

/-- The steps of type arguments that all stay. -/
def Outline.argSteps (j : Job) : List (TypeArg × List Outline) → List Step
  | [] => []
  | (_, inner) :: rest => Outline.stepsAll j inner ++ Outline.argSteps j rest

/-- The texts of the type arguments that stay, if they stand in the given slots. -/
def Outline.keptArgs (j : Job) (slots : List Placeholder) :
    List (TypeArg × List Outline) → Except SpecializeError (List String)
  | [] => .ok []
  | (a, inner) :: rest =>
    if isDropped j.vocabulary j.binding slots.head? a then Outline.keptArgs j slots.tail rest
    else do
      let text ← j.render a.extent (Outline.stepsAll j inner)
      return text :: (← Outline.keptArgs j slots.tail rest)

/-- The steps of type parameters that all stay. -/
def Outline.paramSteps (j : Job) : List (TypeParam × List Outline) → List Step
  | [] => []
  | (_, inner) :: rest => Outline.stepsAll j inner ++ Outline.paramSteps j rest

/-- The texts of the type parameters that stay. -/
def Outline.keptParams (j : Job) :
    List (TypeParam × List Outline) → Except SpecializeError (List String)
  | [] => .ok []
  | (p, inner) :: rest =>
    if isDroppedParam j.vocabulary j.binding p then Outline.keptParams j rest
    else do
      let text ← j.render p.extent (Outline.stepsAll j inner)
      return text :: (← Outline.keptParams j rest)

/-- The texts of the arguments of a call. -/
def Outline.operands (j : Job) : List (Expr × List Outline) → Except SpecializeError (List Operand)
  | [] => .ok []
  | (e, inner) :: rest => do
    let text ← j.render e.extent (Outline.stepsAll j inner)
    return ⟨text, j.isAtomic e.elems⟩ :: (← Outline.operands j rest)

end

/-- The steps of a whole file. Model of `compilation_unit`. -/
def CompilationUnit.steps (j : Job) (u : CompilationUnit) : List Step :=
  Outline.stepsAll j (CompilationUnit.outline u)

end Stencil.Rewrite
