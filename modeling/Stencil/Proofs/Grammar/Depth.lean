import Stencil.Proofs.Grammar.Entering

/-!
# Every rule ends

The rules have two allowances, one of levels for nested text and one of rounds for what is repeated. They
are only there so that the rules are functions: whatever the script and the position, no rule uses them
up, since each level and each round takes a token away from those left over. A type that is tried and
fails gives its tokens back, but what follows then passes one of them itself.

Results: levels of nesting agree if what is below them agrees as many tokens further on
(`agree_levels`). Every rule and every loop ends from every position on, nested text is entered so many
tokens further on as there are levels around it, and neither more levels nor more rounds than there are
tokens left over make a difference (`ends_from_everywhere`).
-/

namespace Stencil.Grammar

open Rule

/-! ## Levels -/

/-- The rules for nested text whose own nested text the given ones are for. -/
def Nested.around (g : Nested) : Nested where
  type := Grammar.type g
  elems := Grammar.elems g
  classBody := Grammar.classBody g

/-- So many levels of nesting with the given rules below. -/
def Nested.levels (g : Nested) : Nat → Nested
  | 0 => g
  | n + 1 => (g.levels n).around

variable {α : Type} {s : Script} {b p n lead : Nat} {g g' : Nested}

theorem nested_add (m n : Nat) : nested (m + n) = (nested m).levels n := by
  induction n with
  | zero => rfl
  | succ n ih =>
    show (nested (m + n)).around = ((nested m).levels n).around
    rw [ih]

/-- Each level passes a token before it enters the level below. -/
theorem agree_levels (h : g.Agree s (b + n) g') : (g.levels n).Agree s b (g'.levels n) := by
  induction n generalizing b with
  | zero => exact h
  | succ n ih =>
    have hbelow : (g.levels n).Agree s (b + 1) (g'.levels n) := by
      apply ih
      rw [Nat.add_right_comm]
      exact h
    show (g.levels n).around.Agree s b (g'.levels n).around
    exact ⟨fun hb hp => agree_type hbelow (Nat.succ_le_succ hb) hp,
      fun hb hp => agree_elems hbelow (Nat.succ_le_succ hb) hp,
      fun hb hp => agree_classBody hbelow (Nat.succ_le_succ hb) hp⟩

/-- Behind the end of the script there is nothing to agree about. -/
theorem agree_of_size_lt (h : s.size < b) : g.Agree s b g' :=
  ⟨fun hb hp => by omega, fun hb hp => by omega, fun hb hp => by omega⟩

/-- Levels for every token are as good as more of them. -/
theorem agree_nested (n : Nat) : (nested (s.size + 1)).Agree s 0 (nested (s.size + 1 + n)) := by
  have hlevels : ((nested 0).levels (s.size + 1)).Agree s 0 ((nested n).levels (s.size + 1)) := by
    apply agree_levels
    apply agree_of_size_lt
    omega
  rw [← nested_add, ← nested_add, Nat.zero_add, Nat.add_comm n] at hlevels
  exact hlevels

/-! ## All rules -/

/-- The rules of the grammar, each with the number of tokens that it passes at least before it enters
nested text. No rule is entered inside of itself but through nested text, since each is put together from
rules that are there before it. -/
inductive IsRule : {α : Type} → (lead : Nat) → (Nested → Rule α) → Prop where
  | identifier : IsRule 1 fun _ => identifier
  | dotAndName : IsRule 1 fun _ => dotAndName
  | qualifiedName : IsRule 1 fun _ => qualifiedName
  | dims : IsRule 1 fun _ => dims
  | annotationFollows : IsRule 1 fun _ => annotationFollows
  | group : IsRule 1 group
  | expr : IsRule 0 expr
  | optionalGroup (opening : Kind) : IsRule 1 fun g => optionalGroup g opening
  | annotationUse : IsRule 1 annotationUse
  | annotations : IsRule 1 annotations
  | typeArg : IsRule 0 typeArg
  | typeArgs : IsRule 1 typeArgs
  | optionalTypeArgs : IsRule 1 optionalTypeArgs
  | typeSegment : IsRule 1 typeSegment
  | typeSegments : IsRule 1 typeSegments
  | classType : IsRule 1 classType
  | type : IsRule 1 type
  | typeList : IsRule 1 typeList
  | typesAfter (keyword : Kind) : IsRule 1 fun g => typesAfter g keyword
  | typeParam : IsRule 1 typeParam
  | typeParams : IsRule 1 typeParams
  | optionalTypeParams : IsRule 1 optionalTypeParams
  | modifierFollows : IsRule 1 fun _ => modifierFollows
  | modifier : IsRule 1 modifier
  | modifiers : IsRule 1 modifiers
  | declFollows : IsRule 1 fun _ => declFollows
  | declKind : IsRule 1 fun _ => declKind
  | typeDeclFrom (start : Nat) (modifiers : Modifiers) : IsRule 1 fun g => typeDeclFrom g start modifiers
  | typeDecl : IsRule 1 typeDecl
  | declaratorOf (name : Ident) : IsRule 1 fun g => declaratorOf g name
  | fieldFrom (start : Nat) (modifiers : Modifiers) (type : TypeExpr) (name : Ident) :
    IsRule 1 fun g => fieldFrom g start modifiers type name
  | param : IsRule 1 param
  | params : IsRule 1 params
  | methodBody : IsRule 1 methodBody
  | methodFrom (start : Nat) (modifiers : Modifiers) (typeParams : Option TypeParams)
      (returnType : Option TypeExpr) (name : Ident) :
    IsRule 1 fun g => methodFrom g start modifiers typeParams returnType name
  | namedMember (start : Nat) (modifiers : Modifiers) : IsRule 1 fun g => namedMember g start modifiers
  | member : IsRule 1 member
  | enumConstant : IsRule 1 enumConstant
  | constantFollows : IsRule 1 fun _ => constantFollows
  | enumConstants : IsRule 1 enumConstants
  | classBody (isEnum : Bool) : IsRule 1 fun g => classBody g isEnum
  | intrinsicFollows : IsRule 1 fun _ => intrinsicFollows
  | callArgs : IsRule 1 callArgs
  | intrinsicCall : IsRule 1 intrinsicCall
  | genericType : IsRule 1 genericType
  | genericType? : IsRule 1 genericType?
  | creator : IsRule 1 creator
  | namedElem : IsRule 1 namedElem
  | plainToken : IsRule 1 fun _ => plainToken
  | elem : IsRule 1 elem
  | elemFollows (untilSeparator : Bool) : IsRule 1 fun _ => elemFollows untilSeparator
  | elems (untilSeparator : Bool) : IsRule 1 fun g => elems g untilSeparator
  | packageDecl : IsRule 1 packageDecl
  | importDecl : IsRule 1 fun _ => importDecl
  | semicolons : IsRule 1 fun _ => semicolons
  | compilationUnit : IsRule 1 compilationUnit

theorem IsRule.agree {rule : Nested → Rule α} (h : IsRule lead rule) (hg : g.Agree s b g')
    (hb : b ≤ p + lead) (hp : p ≤ s.size) :
    Rule.Agree s p ((rule g).run s p) ((rule g').run s p) := by
  have hle : p ≤ p + 1 := Nat.le_succ p
  cases h with
  | identifier => exact (agree_identifier hp).of_le hle
  | dotAndName => exact onlyLooks_dotAndName.agree hp
  | qualifiedName => exact (agree_qualifiedName hp).of_le hle
  | dims => exact agree_dims hp
  | annotationFollows => exact onlyLooks_annotationFollows.agree hp
  | group => exact (agree_group hg hb hp).of_le hle
  | expr => exact agree_expr hg hb hp
  | optionalGroup => exact agree_optionalGroup hg hb hp
  | annotationUse => exact (agree_annotationUse hg hb hp).of_le hle
  | annotations => exact agree_annotations hg hb hp
  | typeArg => exact (agree_typeArg hg hb hp).of_le hle
  | typeArgs => exact (agree_typeArgs hg hb hp).of_le hle
  | optionalTypeArgs => exact agree_optionalTypeArgs hg hb hp
  | typeSegment => exact (agree_typeSegment hg hb hp).of_le hle
  | typeSegments => exact (agree_typeSegments hg hb hp).of_le hle
  | classType => exact (agree_classType hg hb hp).of_le hle
  | type => exact (agree_type hg hb hp).of_le hle
  | typeList => exact (agree_typeList hg hb hp).of_le hle
  | typesAfter => exact agree_typesAfter hg hb hp
  | typeParam => exact (agree_typeParam hg hb hp).of_le hle
  | typeParams => exact (agree_typeParams hg hb hp).of_le hle
  | optionalTypeParams => exact agree_optionalTypeParams hg hb hp
  | modifierFollows => exact onlyLooks_modifierFollows.agree hp
  | modifier => exact agree_modifier hg hb hp hle (agree_advance_of_le hp)
  | modifiers => exact agree_modifiers hg hb hp
  | declFollows => exact onlyLooks_declFollows.agree hp
  | declKind => exact (agree_declKind hp).of_le hle
  | typeDeclFrom => exact (agree_typeDeclFrom hg hb hp).of_le hle
  | typeDecl => exact (agree_typeDecl hg hb hp).of_le hle
  | declaratorOf => exact agree_declaratorOf hg hb hp
  | fieldFrom => exact (agree_fieldFrom hg hb hp).of_le hle
  | param => exact (agree_param hg hb hp).of_le hle
  | params => exact (agree_params hg hb hp).of_le hle
  | methodBody => exact (agree_methodBody hg hb hp).of_le hle
  | methodFrom => exact (agree_methodFrom hg hb hp).of_le hle
  | namedMember => exact (agree_namedMember hg hb hp).of_le hle
  | member => exact (agree_member hg hb hp).of_le hle
  | enumConstant => exact (agree_enumConstant hg hb hp).of_le hle
  | constantFollows => exact onlyLooks_constantFollows.agree hp
  | enumConstants => exact agree_enumConstants hg hb hp
  | classBody => exact (agree_classBody hg hb hp).of_le hle
  | intrinsicFollows => exact onlyLooks_intrinsicFollows.agree hp
  | callArgs => exact (agree_callArgs hg hb hp).of_le hle
  | intrinsicCall => exact (agree_intrinsicCall hg hb hp).of_le hle
  | genericType => exact (agree_genericType hg hb hp).of_le hle
  | genericType? => exact agree_genericType? hg hb hp
  | creator => exact agree_creator hg hb hp
  | namedElem => exact (agree_namedElem hg hb hp).of_le hle
  | plainToken => exact agree_plainToken (agree_advance_of_le hp)
  | elem => exact agree_elem hg hb hp (Nat.le_refl p) hle (agree_advance_of_le hp)
  | elemFollows => exact onlyLooks_elemFollows.agree hp
  | elems => exact agree_elems hg hb hp
  | packageDecl => exact agree_packageDecl hg hb hp
  | importDecl => exact (agree_importDecl hp).of_le hle
  | semicolons => exact agree_semicolons hp
  | compilationUnit => exact agree_compilationUnit hg hb hp

/-! ## All loops -/

/-- The loops of the grammar, each as the condition of a further round and the rule of one round. -/
inductive IsLoop : {α : Type} → (Nested → Rule Bool) → (Nested → Rule α) → Prop where
  | names : IsLoop (fun _ => dotAndName) fun _ => do advance; identifier
  | dims : IsLoop (fun _ => do if ← check .leftBracket then checkNth 1 .rightBracket else return false)
      fun _ => do advance; advance
  | annotations : IsLoop (fun _ => annotationFollows) annotationUse
  | typeArgs : IsLoop (fun _ => eat .comma) typeArg
  | typeSegments : IsLoop (fun _ => dotAndName) fun g => do advance; typeSegment g
  | types : IsLoop (fun _ => eat .comma) type
  | bounds : IsLoop (fun _ => eat .amp) type
  | typeParams : IsLoop (fun _ => eat .comma) typeParam
  | modifiers : IsLoop (fun _ => modifierFollows) modifier
  | fields : IsLoop (fun _ => eat .comma) fun g => do declaratorOf g (← identifier)
  | params : IsLoop (fun _ => eat .comma) param
  | constants : IsLoop (fun _ => do if ← eat .comma then constantFollows else return false) enumConstant
  | members : IsLoop (fun _ => do return !(← check .rightBrace)) member
  | args : IsLoop (fun _ => eat .comma) expr
  | elems (untilSeparator : Bool) : IsLoop (fun _ => elemFollows untilSeparator) elem
  | imports : IsLoop (fun _ => check .kwImport) fun _ => importDecl
  | semicolons : IsLoop (fun _ => check .semicolon) fun _ => advance
  | typeDecls : IsLoop (fun _ => do semicolons; return !(← atEnd)) typeDecl

theorem IsLoop.roundsAgree {more : Nested → Rule Bool} {item : Nested → Rule α} (h : IsLoop more item)
    (hg : g.Agree s b g') : RoundsAgree s b (more g) (more g') (item g) (item g') := by
  cases h with
  | names => exact roundsAgree_names
  | dims => exact roundsAgree_dims
  | annotations => exact roundsAgree_annotations hg
  | typeArgs => exact roundsAgree_typeArgs hg
  | typeSegments => exact roundsAgree_typeSegments hg
  | types => exact roundsAgree_types (by decide) hg
  | bounds => exact roundsAgree_types (by decide) hg
  | typeParams => exact roundsAgree_typeParams hg
  | modifiers => exact roundsAgree_modifiers hg
  | fields => exact roundsAgree_fields hg
  | params => exact roundsAgree_params hg
  | constants => exact roundsAgree_constants hg
  | members => exact roundsAgree_members hg
  | args => exact roundsAgree_args hg
  | elems => exact roundsAgree_elems hg
  | imports => exact roundsAgree_imports
  | semicolons => exact roundsAgree_semicolons
  | typeDecls => exact roundsAgree_typeDecls hg

/-! ## Ending -/

/-- Do two nests find the same from a position on? -/
structure Nested.SameFrom (s : Script) (b : Nat) (g g' : Nested) : Prop where
  type : ∀ p, b ≤ p → p ≤ s.size → g.type.run s p = g'.type.run s p
  elems : ∀ u p, b ≤ p → p ≤ s.size → (g.elems u).run s p = (g'.elems u).run s p
  classBody : ∀ e p, b ≤ p → p ≤ s.size → (g.classBody e).run s p = (g'.classBody e).run s p

/-- How a rule ends that begins at a position. -/
structure RuleEnds (s : Script) (lead : Nat) (rule : Nested → Rule α) (p : Nat) : Prop where
  /-- It has a result, not before the position, or it fails, but not because an allowance is used up. -/
  ends : Rule.Ends s p ((complete rule).run s p)
  /-- Nested text that has so many levels around it is entered so many tokens further on: it makes no
  difference which rules there are for it in front of that, also if they fail in what is only tried. -/
  enters : ∀ (n : Nat) (g : Nested), (nested (s.size + 1)).SameFrom s (p + lead + n) g →
    (rule (g.levels n)).run s p = (complete rule).run s p
  /-- So it makes no difference at all which rules are there for text that has more levels around it than
  there are tokens left over. -/
  depth : ∀ (n : Nat) (g : Nested), s.size < p + lead + n → (rule (g.levels n)).run s p = (complete rule).run s p

/-- How a loop ends that begins at a position. -/
structure LoopEnds (s : Script) (more : Nested → Rule Bool) (item : Nested → Rule α) (p : Nat) : Prop where
  /-- It has a result, not before the position, or a round fails, but not because an allowance is used
  up. -/
  ends : Rule.Ends s p ((manyWhile (complete more) (complete item)).run s p)
  /-- A round that is gone through passes a token. -/
  round : ∀ m a q, (complete more).run s p = .ok true m → (complete item).run s m = .ok a q →
    p < q ∧ q ≤ s.size
  /-- It makes no difference how many rounds more than tokens left over are allowed. -/
  rounds : ∀ n, s.size < p + n → (repeatAtMost (complete more) (complete item) n).run s p
    = (manyWhile (complete more) (complete item)).run s p

theorem Nested.SameFrom.agree (h : (nested (s.size + 1)).SameFrom s b g) :
    (nested (s.size + 1)).Agree s b g := by
  have hself := agree_nested (s := s) 0
  exact ⟨fun hb hp => ⟨h.type _ hb hp, (hself.type (Nat.zero_le _) hp).ends⟩,
    fun hb hp => ⟨h.elems _ _ hb hp, (hself.elems (Nat.zero_le _) hp).ends⟩,
    fun hb hp => ⟨h.classBody _ _ hb hp, (hself.classBody (Nat.zero_le _) hp).ends⟩⟩

theorem IsRule.ends {rule : Nested → Rule α} (h : IsRule lead rule) (hp : p ≤ s.size) :
    RuleEnds s lead rule p := by
  have enters (n : Nat) (g : Nested) (hg : (nested (s.size + 1)).Agree s (p + lead + n) g) :
      (rule (g.levels n)).run s p = (complete rule).run s p := by
    have hmore := h.agree (agree_nested n) (Nat.zero_le _) hp
    have hlevels := h.agree (agree_levels hg) (Nat.le_refl _) hp
    rw [← nested_add] at hlevels
    rw [run_complete]
    exact (hmore.eq.trans hlevels.eq).symm
  refine ⟨?_, fun n g hg => enters n g hg.agree, fun n g hn => enters n g (agree_of_size_lt hn)⟩
  rw [run_complete]
  exact (h.agree (agree_nested 0) (Nat.zero_le _) hp).ends

theorem IsLoop.roundsAgree_complete {more : Nested → Rule Bool} {item : Nested → Rule α}
    (h : IsLoop more item) :
    RoundsAgree s 0 (complete more) (complete more) (complete item) (complete item) := by
  have hnest := h.roundsAgree (agree_nested (s := s) 0)
  constructor
  · intro p hb hp
    rw [run_complete]
    exact hnest.again hb hp
  · intro p m hb hmore hpm hm
    rw [run_complete] at hmore ⊢
    exact hnest.round hb hmore hpm hm

theorem IsLoop.ends {more : Nested → Rule Bool} {item : Nested → Rule α} (h : IsLoop more item)
    (hp : p ≤ s.size) : LoopEnds s more item p := by
  have hrounds := h.roundsAgree_complete (s := s)
  refine ⟨(agree_manyWhile hrounds (Nat.zero_le _) hp).ends, ?_, ?_⟩
  · intro m a q hmore hitem
    have hagain := hrounds.again (Nat.zero_le _) hp
    rw [hmore] at hagain
    have hround := hrounds.round (Nat.zero_le _) hmore hagain.low_le hagain.le_size
    rw [hitem] at hround
    exact ⟨hround.low_le, hround.le_size⟩
  · intro n hn
    exact (agree_repeatAtMost hrounds (Nat.zero_le _) hp hn (by omega)).eq

/-- Every rule ends and every loop does, on every script and from every position on, with flawed tokens,
brackets that nothing closes and texts that end too early. A rule that is entered inside of itself begins
at a later token, and a round that does not leave the loop goes on to a later token, also where a type has
been tried in vain. So the levels and the rounds are no more than the tokens left over, and one. -/
theorem ends_from_everywhere (s : Script) :
    (∀ {α : Type} {lead : Nat} {rule : Nested → Rule α}, IsRule lead rule →
        ∀ p ≤ s.size, RuleEnds s lead rule p)
      ∧ ∀ {α : Type} {more : Nested → Rule Bool} {item : Nested → Rule α}, IsLoop more item →
        ∀ p ≤ s.size, LoopEnds s more item p :=
  ⟨fun h _ hp => h.ends hp, fun h _ hp => h.ends hp⟩

/-- The theorem at brackets that nothing closes, with a flawed token behind them. -/
theorem ends_from_everywhere_unclosed :
    (Script.ofSource (.ofString "( [#") "Intrinsics").words.map (·.kind)
        = #[.leftParen, .leftBracket, .error]
      ∧ RuleEnds (.ofSource (.ofString "( [#") "Intrinsics") 1 group 0
      ∧ LoopEnds (.ofSource (.ofString "( [#") "Intrinsics") (fun _ => elemFollows false) elem 1 :=
  ⟨by decide +kernel, (ends_from_everywhere _).1 .group 0 (Nat.zero_le _),
    (ends_from_everywhere _).2 (.elems false) 1 (by decide +kernel)⟩

end Stencil.Grammar
