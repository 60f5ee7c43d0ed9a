import Stencil.Proofs.Grammar.Depth
import Stencil.Proofs.Token.Source

/-!
# No rule sees blanks and comments

A rule has the whole stream of tokens, so it could look at the token next to a code token, whatever that
is. No rule does: each of the rules that all others are put together from looks through the table of code,
and putting rules together keeps that. Rules for nested text are taken from the level below, so the
argument goes on by induction on the levels.

Results: a rule that is put together from blind rules is blind (`Blind.bind` and the like), so are all
rules of the grammar over blind rules for nested text (`IsRule.blind`), and with levels enough for the
whole script (`IsRule.blind_complete`).
-/

namespace Stencil

/-! ## Scripts with the same code -/

/-- Do two scripts have the same code tokens, and the same name for the class of the intrinsics? Blanks,
comments and the places of the tokens may differ. -/
structure Script.SameCode (s t : Script) : Prop where
  words : s.words = t.words
  receiver : s.receiver = t.receiver

namespace Script.SameCode

variable {s t : Script}

theorem size (h : s.SameCode t) : s.size = t.size := by
  rw [← size_words, ← size_words, h.words]

theorem word (h : s.SameCode t) (p : Nat) : s.word p = t.word p := by
  rw [word_eq, word_eq, h.words]

theorem kindBefore (h : s.SameCode t) (p : Nat) : s.kindBefore p = t.kindBefore p := by
  have hkind (s : Script) : s.kindBefore p = if p = 0 then none else s.words[p - 1]?.map (·.kind) := by
    unfold Script.kindBefore Script.words Source.words
    rw [Array.getElem?_map, Option.map_map]
    rfl
  rw [hkind, hkind, h.words]

end Script.SameCode

namespace Rule

variable {α β : Type} {m : Mistake} {k : Kind} {n : Nat}

/-- Does the rule find the same in scripts with the same code? -/
structure Blind (r : Rule α) : Prop where
  run_eq : ∀ {s t : Script}, s.SameCode t → ∀ p, r.run s p = r.run t p

/-- A rule that counts all tokens is not blind. -/
example : ¬Blind fun s p => .ok s.source.tokens.size p := by
  intro h
  have hsame : (Script.ofSource (.ofString "a") "").SameCode (.ofSource (.ofString " a") "") :=
    ⟨by decide +kernel, rfl⟩
  have hsize : EStateM.Result.ok 1 0 = .ok 2 0 := h.run_eq hsame 0
  cases hsize

/-! ## Putting rules together -/

theorem blind_pure {a : α} : Blind (pure a) :=
  ⟨fun _ _ => rfl⟩

theorem blind_throw : Blind (throw m : Rule α) :=
  ⟨fun _ _ => rfl⟩

theorem Blind.bind {x : Rule α} {f : α → Rule β} (hx : Blind x) (hf : ∀ a, Blind (f a)) :
    Blind (x >>= f) := by
  refine ⟨fun {s t} h p => ?_⟩
  have hrun := hx.run_eq h p
  simp only [Rule.run, Bind.bind, ReaderT.bind, EStateM.bind] at hrun ⊢
  rw [hrun]
  cases x t p with
  | ok a q => exact (hf a).run_eq h q
  | error m q => rfl

theorem Blind.map {x : Rule α} {f : α → β} (hx : Blind x) : Blind (f <$> x) := by
  refine ⟨fun {s t} h p => ?_⟩
  have hrun := hx.run_eq h p
  simp only [Rule.run, Functor.map, EStateM.map] at hrun ⊢
  rw [hrun]

theorem Blind.ite {c : Prop} [Decidable c] {x y : Rule α} (hx : Blind x) (hy : Blind y) :
    Blind (if c then x else y) := by
  split
  · exact hx
  · exact hy

theorem Blind.attempt {x : Rule α} (hx : Blind x) : Blind (attempt x) := by
  refine ⟨fun {s t} h p => ?_⟩
  have hrun := hx.run_eq h p
  simp only [Rule.run, Rule.attempt] at hrun ⊢
  rw [hrun]

theorem Blind.when {x : Rule α} (c : Bool) (hx : Blind x) : Blind (when c x) :=
  .ite hx.map blind_pure

/-! ## Looking at tokens -/

theorem blind_position : Blind position :=
  ⟨fun _ _ => rfl⟩

theorem blind_peekNth : Blind (peekNth n) := by
  refine ⟨fun {s t} h p => ?_⟩
  show EStateM.Result.ok (s.word (p + n)) p = .ok (t.word (p + n)) p
  rw [h.word]

theorem blind_peek : Blind peek :=
  blind_peekNth

theorem blind_kind : Blind kind :=
  blind_peek.bind fun _ => blind_pure

theorem blind_previousKind : Blind previousKind := by
  refine ⟨fun {s t} h p => ?_⟩
  show EStateM.Result.ok (s.kindBefore p) p = .ok (t.kindBefore p) p
  rw [h.kindBefore]

/-- A rule may use of the script itself what scripts with the same receiver have in common. -/
theorem blind_read {f : Script → Rule α} (hf : ∀ s, Blind (f s))
    (hreceiver : ∀ s t : Script, s.receiver = t.receiver → f s = f t) : Blind (read >>= f) := by
  refine ⟨fun {s t} h p => ?_⟩
  show (f s).run s p = (f t).run t p
  rw [hreceiver s t h.receiver]
  exact (hf t).run_eq h p

theorem blind_check : Blind (check k) :=
  blind_kind.bind fun _ => blind_pure

theorem blind_checkNth : Blind (checkNth n k) :=
  blind_peekNth.bind fun _ => blind_pure

theorem blind_atEnd : Blind atEnd :=
  blind_check

/-! ## Passing tokens -/

theorem blind_advance : Blind advance := by
  refine ⟨fun {s t} h p => ?_⟩
  show EStateM.Result.ok () (if p < s.size then p + 1 else p) = .ok () (if p < t.size then p + 1 else p)
  rw [h.size]

theorem blind_returnTo : Blind (returnTo n) :=
  ⟨fun _ _ => rfl⟩

theorem blind_extentFrom : Blind (extentFrom n) :=
  blind_position.bind fun _ => blind_pure

theorem blind_failHere : Blind (failHere m : Rule α) :=
  blind_atEnd.bind fun _ => .ite blind_throw blind_throw

theorem blind_eat : Blind (eat k) :=
  blind_check.bind fun _ => .ite (blind_advance.bind fun _ => blind_pure) blind_pure

theorem blind_expect : Blind (expect k) :=
  blind_check.bind fun _ => .ite blind_advance blind_failHere

theorem blind_identifier : Blind identifier :=
  blind_peek.bind fun _ => blind_position.bind fun _ =>
    .ite (blind_advance.bind fun _ => blind_pure) blind_failHere

/-! ## Repeating -/

variable {more : Rule Bool} {item : Rule α}

theorem Blind.repeatAtMost (hmore : Blind more) (hitem : Blind item) (n : Nat) :
    Blind (repeatAtMost more item n) := by
  induction n with
  | zero => exact blind_throw
  | succ n ih =>
    exact hmore.bind fun _ => .ite (hitem.bind fun _ => ih.bind fun _ => blind_pure) blind_pure

theorem Blind.manyWhile (hmore : Blind more) (hitem : Blind item) : Blind (manyWhile more item) := by
  refine ⟨fun {s t} h p => ?_⟩
  have hrounds := (hmore.repeatAtMost hitem (t.size + 1 - p)).run_eq h p
  show (Rule.repeatAtMost more item (s.size + 1 - p)).run s p = _
  rw [h.size]
  exact hrounds

theorem Blind.sepBy (hitem : Blind item) : Blind (sepBy k item) :=
  hitem.bind fun _ => (blind_eat.manyWhile hitem).bind fun _ => blind_pure

/-- What a rule has found with its extent. -/
theorem blind_node {f : Extent → α} : Blind (do return f (← extentFrom n)) :=
  blind_extentFrom.bind fun _ => blind_pure

end Rule

namespace Grammar

open Rule

/-- Are the rules for nested text blind? -/
structure Nested.Blind (g : Nested) : Prop where
  type : g.type.Blind
  elems : ∀ u, (g.elems u).Blind
  classBody : ∀ e, (g.classBody e).Blind

variable {g : Nested} {start : Nat}

/-! ## Names, groups and annotations -/

theorem blind_dotAndName : Blind dotAndName :=
  blind_check.bind fun _ => .ite blind_checkNth blind_pure

theorem blind_qualifiedName : Blind qualifiedName :=
  blind_position.bind fun _ => blind_identifier.bind fun _ =>
    (blind_dotAndName.manyWhile (blind_advance.bind fun _ => blind_identifier)).bind fun _ => blind_node

theorem blind_dims : Blind dims := by
  refine Blind.bind (Blind.manyWhile ?_ ?_) fun _ => blind_pure
  · exact blind_check.bind fun _ => .ite blind_checkNth blind_pure
  · exact blind_advance.bind fun _ => blind_advance

theorem blind_annotationFollows : Blind annotationFollows :=
  blind_check.bind fun _ => .ite (blind_checkNth.bind fun _ => blind_pure) blind_pure

theorem blind_group (hg : g.Blind) : Blind (group g) := by
  refine blind_position.bind fun start => blind_kind.bind fun k => ?_
  split
  · exact blind_throw
  · exact blind_advance.bind fun _ => (hg.elems false).bind fun _ => blind_eat.bind fun _ =>
      .ite blind_node blind_failHere

theorem blind_expr (hg : g.Blind) : Blind (expr g) :=
  blind_position.bind fun _ => (hg.elems true).bind fun _ => blind_node

theorem blind_optionalGroup {opening : Kind} (hg : g.Blind) : Blind (optionalGroup g opening) :=
  blind_check.bind fun _ => (blind_group hg).when _

theorem blind_annotationUse (hg : g.Blind) : Blind (annotationUse g) :=
  blind_position.bind fun _ => blind_expect.bind fun _ => blind_qualifiedName.bind fun _ =>
    (blind_optionalGroup hg).bind fun _ => blind_node

theorem blind_annotations (hg : g.Blind) : Blind (annotations g) :=
  blind_annotationFollows.manyWhile (blind_annotationUse hg)

/-! ## Types -/

theorem blind_typeArg (hg : g.Blind) : Blind (typeArg g) := by
  refine blind_position.bind fun start => blind_eat.bind fun _ => .ite ?_ ?_
  · refine blind_eat.bind fun _ => .ite (hg.type.bind fun _ => blind_node) ?_
    exact blind_eat.bind fun _ => .ite (hg.type.bind fun _ => blind_node) blind_node
  · exact hg.type.bind fun _ => blind_pure

theorem blind_typeArgs (hg : g.Blind) : Blind (typeArgs g) := by
  refine blind_position.bind fun start => blind_expect.bind fun _ => blind_check.bind fun _ => ?_
  have hclose (entries : List TypeArg) :
      Blind (do expect .greater; return (⟨entries, ← extentFrom start⟩ : TypeArgs)) :=
    blind_expect.bind fun _ => blind_node
  exact .ite (blind_pure.bind hclose) ((blind_typeArg hg).sepBy.bind hclose)

theorem blind_optionalTypeArgs (hg : g.Blind) : Blind (optionalTypeArgs g) :=
  blind_check.bind fun _ => (blind_typeArgs hg).when _

theorem blind_typeSegment (hg : g.Blind) : Blind (typeSegment g) :=
  blind_identifier.bind fun _ => (blind_optionalTypeArgs hg).bind fun _ => blind_pure

theorem blind_typeSegments (hg : g.Blind) : Blind (typeSegments g) :=
  (blind_typeSegment hg).bind fun _ =>
    (blind_dotAndName.manyWhile (blind_advance.bind fun _ => blind_typeSegment hg)).bind fun _ =>
      blind_pure

theorem blind_classType (hg : g.Blind) : Blind (classType g) :=
  blind_position.bind fun _ => (blind_typeSegments hg).bind fun _ => blind_node

theorem blind_type (hg : g.Blind) : Blind (type g) := by
  refine blind_position.bind fun start => (blind_annotations hg).bind fun annotations => ?_
  have hcore (core : TypeCore) :
      Blind (do return (⟨annotations, core, ← dims, ← extentFrom start⟩ : TypeExpr)) :=
    blind_dims.bind fun _ => blind_node
  refine blind_kind.bind fun k => .ite ?_ (.ite ?_ ?_)
  · exact blind_advance.bind fun _ => blind_pure.bind hcore
  · exact (blind_typeSegments hg).map.bind hcore
  · exact blind_throw.bind hcore

theorem blind_typeList (hg : g.Blind) : Blind (typeList g) :=
  (blind_type hg).sepBy

theorem blind_typesAfter {keyword : Kind} (hg : g.Blind) : Blind (typesAfter g keyword) :=
  blind_eat.bind fun _ => .ite (blind_typeList hg) blind_pure

theorem blind_typeParam (hg : g.Blind) : Blind (typeParam g) := by
  refine blind_position.bind fun start => (blind_annotations hg).bind fun _ =>
    blind_identifier.bind fun _ => blind_eat.bind fun _ => .ite ?_ ?_
  · exact (blind_type hg).sepBy.bind fun _ => blind_node
  · exact blind_pure.bind fun _ => blind_node

theorem blind_typeParams (hg : g.Blind) : Blind (typeParams g) :=
  blind_position.bind fun _ => blind_expect.bind fun _ => (blind_typeParam hg).sepBy.bind fun _ =>
    blind_expect.bind fun _ => blind_node

theorem blind_optionalTypeParams (hg : g.Blind) : Blind (optionalTypeParams g) :=
  blind_check.bind fun _ => (blind_typeParams hg).when _

/-! ## Declarations -/

theorem blind_modifierFollows : Blind modifierFollows :=
  blind_kind.bind fun _ => .ite blind_pure blind_annotationFollows

theorem blind_modifier (hg : g.Blind) : Blind (modifier g) :=
  blind_kind.bind fun _ =>
    .ite (blind_annotationUse hg).map (blind_advance.bind fun _ => blind_pure)

theorem blind_modifiers (hg : g.Blind) : Blind (modifiers g) :=
  (blind_modifierFollows.manyWhile (blind_modifier hg)).bind fun _ => blind_pure

theorem blind_declFollows : Blind declFollows := by
  refine blind_kind.bind fun k => ?_
  split
  · exact blind_pure
  · exact blind_pure
  · exact blind_pure
  · exact blind_checkNth
  · exact blind_pure

theorem blind_declKind : Blind declKind := by
  refine blind_kind.bind fun k => ?_
  split
  · exact blind_advance.bind fun _ => blind_pure
  · exact blind_advance.bind fun _ => blind_pure
  · exact blind_advance.bind fun _ => blind_pure
  · refine blind_checkNth.bind fun _ => .ite ?_ blind_failHere
    exact blind_advance.bind fun _ => blind_advance.bind fun _ => blind_pure
  · exact blind_failHere

theorem blind_typeDeclFrom {modifiers : Modifiers} (hg : g.Blind) :
    Blind (typeDeclFrom g start modifiers) :=
  blind_declKind.bind fun _ => blind_identifier.bind fun _ =>
    (blind_optionalTypeParams hg).bind fun _ => (blind_typesAfter hg).bind fun _ =>
      (blind_typesAfter hg).bind fun _ => (hg.classBody _).bind fun _ => blind_node

theorem blind_typeDecl (hg : g.Blind) : Blind (typeDecl g) :=
  blind_position.bind fun _ => (blind_modifiers hg).bind fun _ => blind_typeDeclFrom hg

theorem blind_declaratorOf {name : Ident} (hg : g.Blind) : Blind (declaratorOf g name) := by
  refine blind_dims.bind fun _ => blind_eat.bind fun _ => .ite ?_ blind_pure
  exact (blind_expr hg).bind fun _ => .ite blind_failHere blind_pure

theorem blind_fieldFrom {modifiers : Modifiers} {type : TypeExpr} {name : Ident} (hg : g.Blind) :
    Blind (fieldFrom g start modifiers type name) :=
  (blind_declaratorOf hg).bind fun _ =>
    (blind_eat.manyWhile (blind_identifier.bind fun _ => blind_declaratorOf hg)).bind fun _ =>
      blind_expect.bind fun _ => blind_node

theorem blind_param (hg : g.Blind) : Blind (param g) :=
  blind_position.bind fun _ => (blind_modifiers hg).bind fun _ => (blind_type hg).bind fun _ =>
    blind_eat.bind fun _ => blind_identifier.bind fun _ => blind_dims.bind fun _ => blind_node

theorem blind_params (hg : g.Blind) : Blind (params g) := by
  refine blind_expect.bind fun _ => blind_check.bind fun _ => ?_
  have hclose (entries : List Param) : Blind (do expect .rightParen; return entries) :=
    blind_expect.bind fun _ => blind_pure
  exact .ite (blind_pure.bind hclose) ((blind_param hg).sepBy.bind hclose)

theorem blind_methodBody (hg : g.Blind) : Blind (methodBody g) :=
  blind_check.bind fun _ => .ite (blind_group hg).map (blind_expect.bind fun _ => blind_pure)

theorem blind_methodFrom {modifiers : Modifiers} {typeParams : Option TypeParams}
    {returnType : Option TypeExpr} {name : Ident} (hg : g.Blind) :
    Blind (methodFrom g start modifiers typeParams returnType name) :=
  (blind_params hg).bind fun _ => blind_dims.bind fun _ => (blind_typesAfter hg).bind fun _ =>
    blind_eat.bind fun _ => ((blind_expr hg).when _).bind fun _ => (blind_methodBody hg).bind fun _ =>
      blind_node

theorem blind_namedMember {modifiers : Modifiers} (hg : g.Blind) :
    Blind (namedMember g start modifiers) := by
  have hmethod {typeParams : Option TypeParams} {returnType : Option TypeExpr} {name : Ident} :
      Blind (Member.method <$> methodFrom g start modifiers typeParams returnType name) :=
    (blind_methodFrom hg).map
  refine (blind_optionalTypeParams hg).bind fun _ => blind_check.bind fun _ =>
    blind_checkNth.bind fun _ => .ite (blind_identifier.bind fun _ => hmethod) ?_
  refine (blind_type hg).bind fun _ => blind_identifier.bind fun _ => blind_check.bind fun _ =>
    .ite hmethod (.ite blind_failHere ?_)
  exact (blind_fieldFrom hg).map

theorem blind_member (hg : g.Blind) : Blind (member g) := by
  have hblock {ofClass : Bool} : Blind (do return some (Member.block ofClass (← group g))) :=
    (blind_group hg).bind fun _ => blind_pure
  refine blind_atEnd.bind fun _ => .ite blind_throw ?_
  refine blind_eat.bind fun _ => .ite blind_pure ?_
  refine blind_check.bind fun _ => .ite hblock ?_
  refine blind_check.bind fun _ => blind_checkNth.bind fun _ =>
    .ite (blind_advance.bind fun _ => hblock) ?_
  refine blind_position.bind fun _ => (blind_modifiers hg).bind fun _ => blind_declFollows.bind fun _ => ?_
  exact .ite ((blind_typeDeclFrom hg).bind fun _ => blind_pure)
    ((blind_namedMember hg).bind fun _ => blind_pure)

theorem blind_enumConstant (hg : g.Blind) : Blind (enumConstant g) :=
  (blind_annotations hg).bind fun _ => blind_identifier.bind fun _ =>
    (blind_optionalGroup hg).bind fun _ => blind_check.bind fun _ =>
      ((hg.classBody false).when _).bind fun _ => blind_pure

theorem blind_constantFollows : Blind constantFollows :=
  blind_kind.bind fun _ => blind_pure

theorem blind_enumConstants (hg : g.Blind) : Blind (enumConstants g) := by
  have hend (constants : List EnumConstant) : Blind (do discard (eat .semicolon); return constants) :=
    blind_eat.map.bind fun _ => blind_pure
  have hmore : Blind (do if ← eat .comma then constantFollows else return false) :=
    blind_eat.bind fun _ => .ite blind_constantFollows blind_pure
  refine blind_constantFollows.bind fun _ => .ite ?_ (blind_pure.bind hend)
  exact (blind_enumConstant hg).bind fun _ => (hmore.manyWhile (blind_enumConstant hg)).bind fun _ =>
    blind_pure.bind hend

theorem blind_classBody {isEnum : Bool} (hg : g.Blind) : Blind (classBody g isEnum) := by
  have hmembers (start : Nat) (constants : List EnumConstant) : Blind (do
      let members ← manyWhile (do return !(← check .rightBrace)) (member g)
      expect .rightBrace
      return (⟨constants, members.filterMap id, ← extentFrom start⟩ : ClassBody)) :=
    (Blind.manyWhile (blind_check.bind fun _ => blind_pure) (blind_member hg)).bind fun _ =>
      blind_expect.bind fun _ => blind_node
  refine blind_position.bind fun start => blind_expect.bind fun _ => ?_
  exact .ite ((blind_enumConstants hg).bind (hmembers start)) (blind_pure.bind (hmembers start))

/-! ## Bodies -/

theorem blind_intrinsicFollows : Blind intrinsicFollows := by
  refine blind_read (fun s => ?_) fun s t h => by rw [h]
  refine blind_peek.bind fun _ => blind_checkNth.bind fun _ => blind_previousKind.bind fun _ =>
    .ite (blind_peekNth.bind fun _ => ?_) blind_pure
  split
  · exact blind_checkNth
  · exact blind_pure
  · exact blind_pure

theorem blind_callArgs (hg : g.Blind) : Blind (callArgs g) := by
  refine blind_expect.bind fun _ => blind_check.bind fun _ => ?_
  have hclose (args : List Expr) : Blind (do expect .rightParen; return args) :=
    blind_expect.bind fun _ => blind_pure
  exact .ite (blind_pure.bind hclose) ((blind_expr hg).sepBy.bind hclose)

theorem blind_intrinsicCall (hg : g.Blind) : Blind (intrinsicCall g) :=
  blind_position.bind fun _ => blind_identifier.bind fun _ => blind_expect.bind fun _ =>
    (blind_optionalTypeArgs hg).bind fun _ => blind_identifier.bind fun _ =>
      (blind_callArgs hg).bind fun _ => blind_node

theorem blind_genericType (hg : g.Blind) : Blind (genericType g) := by
  refine blind_position.bind fun _ => blind_previousKind.bind fun _ => (blind_classType hg).bind fun _ =>
    .ite ?_ blind_throw
  exact blind_dims.bind fun _ => blind_kind.bind fun _ => .ite blind_node blind_throw

theorem blind_genericType? (hg : g.Blind) : Blind (genericType? g) := by
  refine blind_previousKind.bind fun _ => .ite blind_pure ?_
  exact blind_checkNth.bind fun _ => blind_checkNth.bind fun _ =>
    .ite (blind_genericType hg).attempt blind_pure

theorem blind_creator (hg : g.Blind) : Blind (creator g) := by
  refine (blind_optionalTypeArgs hg).bind fun _ => blind_kind.bind fun _ => .ite blind_pure ?_
  refine blind_check.bind fun _ => .ite ?_ blind_throw
  exact (blind_classType hg).bind fun _ => (blind_optionalGroup hg).bind fun _ =>
    blind_check.bind fun _ => ((hg.classBody false).when _).bind fun _ => blind_pure

theorem blind_namedElem (hg : g.Blind) : Blind (namedElem g) := by
  refine blind_intrinsicFollows.bind fun _ => .ite (blind_intrinsicCall hg).map ?_
  refine (blind_genericType? hg).bind fun found => ?_
  split
  · exact blind_pure
  · exact blind_identifier.map

theorem blind_plainToken : Blind plainToken :=
  blind_position.bind fun _ => blind_advance.bind fun _ => blind_pure

theorem blind_elem (hg : g.Blind) : Blind (elem g) := by
  have hplain : Blind (do return [← plainToken]) := blind_plainToken.bind fun _ => blind_pure
  refine blind_kind.bind fun _ => .ite ((blind_group hg).bind fun _ => blind_pure) ?_
  refine .ite (blind_plainToken.bind fun _ => (blind_creator hg).bind fun _ => blind_pure) ?_
  refine blind_previousKind.bind fun _ => .ite ?_ ?_
  · exact blind_position.bind fun _ => (blind_typeDeclFrom hg).bind fun _ => blind_pure
  refine blind_checkNth.bind fun _ => .ite ?_ ?_
  · exact blind_plainToken.bind fun _ => (blind_typeArgs hg).bind fun _ => blind_pure
  · exact .ite ((blind_namedElem hg).bind fun _ => blind_pure) hplain

theorem blind_elemFollows {u : Bool} : Blind (elemFollows u) :=
  blind_kind.bind fun _ => blind_pure

theorem blind_elems {u : Bool} (hg : g.Blind) : Blind (elems g u) :=
  (blind_elemFollows.manyWhile (blind_elem hg)).bind fun _ => blind_pure

/-! ## Files -/

theorem blind_packageDecl (hg : g.Blind) : Blind (packageDecl g) := by
  refine blind_position.bind fun _ => (blind_annotations hg).bind fun _ => blind_eat.bind fun _ =>
    .ite ?_ (blind_returnTo.bind fun _ => blind_pure)
  exact blind_qualifiedName.bind fun _ => blind_expect.bind fun _ => blind_extentFrom.bind fun _ =>
    blind_pure

theorem blind_importDecl : Blind importDecl := by
  refine blind_position.bind fun start => blind_expect.bind fun _ => blind_eat.bind fun ofMembers =>
    blind_qualifiedName.bind fun name => blind_eat.bind fun onDemand => ?_
  have hend : Blind (do
      expect .semicolon
      return (⟨ofMembers, name, onDemand, ← extentFrom start⟩ : ImportDecl)) :=
    blind_expect.bind fun _ => blind_node
  exact .ite (blind_expect.bind fun _ => hend) hend

theorem blind_semicolons : Blind semicolons :=
  (Blind.manyWhile blind_check blind_advance).map

theorem blind_compilationUnit (hg : g.Blind) : Blind (compilationUnit g) := by
  have htypes : Blind (do semicolons; return !(← atEnd)) :=
    blind_semicolons.bind fun _ => blind_atEnd.bind fun _ => blind_pure
  exact (blind_packageDecl hg).bind fun _ => (blind_check.manyWhile blind_importDecl).bind fun _ =>
    (htypes.manyWhile (blind_typeDecl hg)).bind fun _ => blind_pure

/-! ## All rules -/

/-- Every rule of the grammar is blind over blind rules for nested text. -/
theorem IsRule.blind {α : Type} {lead : Nat} {rule : Nested → Rule α} (h : IsRule lead rule)
    (hg : g.Blind) : Blind (rule g) := by
  cases h with
  | identifier => exact blind_identifier
  | dotAndName => exact blind_dotAndName
  | qualifiedName => exact blind_qualifiedName
  | dims => exact blind_dims
  | annotationFollows => exact blind_annotationFollows
  | group => exact blind_group hg
  | expr => exact blind_expr hg
  | optionalGroup => exact blind_optionalGroup hg
  | annotationUse => exact blind_annotationUse hg
  | annotations => exact blind_annotations hg
  | typeArg => exact blind_typeArg hg
  | typeArgs => exact blind_typeArgs hg
  | optionalTypeArgs => exact blind_optionalTypeArgs hg
  | typeSegment => exact blind_typeSegment hg
  | typeSegments => exact blind_typeSegments hg
  | classType => exact blind_classType hg
  | type => exact blind_type hg
  | typeList => exact blind_typeList hg
  | typesAfter => exact blind_typesAfter hg
  | typeParam => exact blind_typeParam hg
  | typeParams => exact blind_typeParams hg
  | optionalTypeParams => exact blind_optionalTypeParams hg
  | modifierFollows => exact blind_modifierFollows
  | modifier => exact blind_modifier hg
  | modifiers => exact blind_modifiers hg
  | declFollows => exact blind_declFollows
  | declKind => exact blind_declKind
  | typeDeclFrom => exact blind_typeDeclFrom hg
  | typeDecl => exact blind_typeDecl hg
  | declaratorOf => exact blind_declaratorOf hg
  | fieldFrom => exact blind_fieldFrom hg
  | param => exact blind_param hg
  | params => exact blind_params hg
  | methodBody => exact blind_methodBody hg
  | methodFrom => exact blind_methodFrom hg
  | namedMember => exact blind_namedMember hg
  | member => exact blind_member hg
  | enumConstant => exact blind_enumConstant hg
  | constantFollows => exact blind_constantFollows
  | enumConstants => exact blind_enumConstants hg
  | classBody => exact blind_classBody hg
  | intrinsicFollows => exact blind_intrinsicFollows
  | callArgs => exact blind_callArgs hg
  | intrinsicCall => exact blind_intrinsicCall hg
  | genericType => exact blind_genericType hg
  | genericType? => exact blind_genericType? hg
  | creator => exact blind_creator hg
  | namedElem => exact blind_namedElem hg
  | plainToken => exact blind_plainToken
  | elem => exact blind_elem hg
  | elemFollows => exact blind_elemFollows
  | elems => exact blind_elems hg
  | packageDecl => exact blind_packageDecl hg
  | importDecl => exact blind_importDecl
  | semicolons => exact blind_semicolons
  | compilationUnit => exact blind_compilationUnit hg

/-- Each level of nested text is blind if the level below is. -/
theorem blind_nested (n : Nat) : (nested n).Blind := by
  induction n with
  | zero => exact ⟨blind_throw, fun _ => blind_throw, fun _ => blind_throw⟩
  | succ n ih => exact ⟨blind_type ih, fun _ => blind_elems ih, fun _ => blind_classBody ih⟩

/-- Every rule of the grammar finds the same in scripts with the same code, whatever blanks and comments
stand in them: the same result or the same mistake, and it ends at the same position. -/
theorem IsRule.blind_complete {α : Type} {lead : Nat} {rule : Nested → Rule α} (h : IsRule lead rule) :
    Blind (complete rule) := by
  refine ⟨fun {s t} hsame p => ?_⟩
  rw [run_complete, run_complete, hsame.size]
  exact (h.blind (blind_nested (t.size + 1))).run_eq hsame p

end Grammar

end Stencil
