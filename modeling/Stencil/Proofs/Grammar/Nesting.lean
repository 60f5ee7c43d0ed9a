import Stencil.Proofs.Grammar.Declarations
import Stencil.Proofs.Grammar.Ending

/-!
# Nesting in types and annotations

What a rule finds depends on the rules for nested text only where these are entered, and they are entered
only behind a token that the rule has passed. So a rule over nested text finds the same with any two
nests that agree behind the position at which it begins. Two rules enter nested text at their own first
token, `expr` and `typeArg`; whoever enters these has passed a token.

Results: the rules for types and annotations agree over such nests, and so do the rounds of their loops,
each of which passes a token (`agree_type` and the like, `roundsAgree_annotations` and the like).
-/

namespace Stencil.Grammar

open Rule

/-- Do the rules for nested text agree from a position on? Types and bodies pass a token. -/
structure Nested.Agree (s : Script) (b : Nat) (g g' : Nested) : Prop where
  type : ∀ {p}, b ≤ p → p ≤ s.size → Rule.Agree s (p + 1) (g.type.run s p) (g'.type.run s p)
  elems : ∀ {u p}, b ≤ p → p ≤ s.size → Rule.Agree s p ((g.elems u).run s p) ((g'.elems u).run s p)
  classBody : ∀ {e p}, b ≤ p → p ≤ s.size →
    Rule.Agree s (p + 1) ((g.classBody e).run s p) ((g'.classBody e).run s p)

variable {s : Script} {b p : Nat} {g g' : Nested}

/-! ## Names -/

theorem onlyLooks_dotAndName : OnlyLooks dotAndName := by
  intro s p
  unfold dotAndName
  rw [check_bind]
  split
  · exact ⟨_, rfl⟩
  · exact ⟨_, rfl⟩

/-- A round behind a dot. -/
theorem roundsAgree_dot {α : Type} {item item' : Rule α}
    (hitem : ∀ {p}, b ≤ p → p ≤ s.size → Rule.Agree s p (item.run s p) (item'.run s p)) :
    RoundsAgree s b dotAndName dotAndName (do advance; item) (do advance; item') where
  again _ hp := onlyLooks_dotAndName.agree hp
  round := by
    intro p m hb hmore hpm hm
    obtain ⟨rfl, hdot⟩ := run_dotAndName hmore
    have hne : s.kind m ≠ .eof := by
      rw [(hdot rfl).1]
      decide
    exact (agree_advance hne).bind fun _ n _ hn hnsize => (hitem (by omega) hnsize).of_le (by omega)

theorem roundsAgree_names : RoundsAgree s b dotAndName dotAndName (do advance; identifier)
    (do advance; identifier) :=
  roundsAgree_dot fun _ hp => (agree_identifier hp).of_le (Nat.le_succ _)

theorem agree_qualifiedName (hp : p ≤ s.size) :
    Rule.Agree s (p + 1) (qualifiedName.run s p) (qualifiedName.run s p) := by
  unfold qualifiedName
  rw [position_bind]
  refine (agree_identifier hp).bind fun first m _ hm hsize => ?_
  refine (agree_manyWhile (roundsAgree_names (b := 0)) (by omega) hsize).bind fun rest n _ hn hnsize => ?_
  exact agree_node (by omega) hnsize

/-- Rounds that pass a pair of square brackets. -/
theorem roundsAgree_dims : RoundsAgree s b
    (do if ← check .leftBracket then checkNth 1 .rightBracket else return false)
    (do if ← check .leftBracket then checkNth 1 .rightBracket else return false)
    (do advance; advance) (do advance; advance) where
  again := by
    intro p _ hp
    rw [check_bind]
    split
    · exact .ok (Nat.le_refl p) hp
    · exact .ok (Nat.le_refl p) hp
  round := by
    intro p m _ hmore hpm hm
    rw [check_bind] at hmore
    split at hmore
    · rename_i hbracket
      obtain ⟨-, rfl⟩ := run_checkNth.1 hmore
      have hne : s.kind p ≠ .eof := by
        rw [beq_iff_eq.1 hbracket]
        decide
      exact (agree_advance hne).bind fun _ n _ hn hnsize => (agree_advance_of_le hnsize).of_le hn
    · obtain ⟨hfalse, -⟩ := run_pure.1 hmore
      contradiction

theorem agree_dims (hp : p ≤ s.size) : Rule.Agree s p (dims.run s p) (dims.run s p) := by
  unfold dims
  refine (agree_manyWhile (roundsAgree_dims (b := 0)) (by omega) hp).bind fun pairs m _ hm hsize => ?_
  exact agree_pure hm hsize

theorem onlyLooks_annotationFollows : OnlyLooks annotationFollows := by
  intro s p
  unfold annotationFollows
  rw [check_bind]
  split
  · exact ⟨_, rfl⟩
  · exact ⟨_, rfl⟩

/-! ## Groups and annotations -/

theorem agree_group (hg : g.Agree s b g') (hb : b ≤ p + 1) (hp : p ≤ s.size) :
    Rule.Agree s (p + 1) ((group g).run s p) ((group g').run s p) := by
  unfold group
  rw [position_bind, position_bind, kind_bind, kind_bind]
  cases hdelimiter : Delimiter.ofOpening? (s.kind p) with
  | none => exact agree_throw (by decide) hp
  | some delimiter =>
    have hne : s.kind p ≠ .eof := by
      rw [ofOpening?_eq_some.1 hdelimiter]
      exact opening_ne_eof delimiter
    refine (agree_advance hne).bind fun _ m _ hm hsize => ?_
    refine (hg.elems (by omega) hsize).bind fun elems n _ hn hnsize => ?_
    refine (agree_eat hnsize).bind fun closed k _ hk hksize => ?_
    split
    · exact agree_node (by omega) hksize
    · exact agree_failHere (by simp) hksize

theorem agree_expr (hg : g.Agree s b g') (hb : b ≤ p) (hp : p ≤ s.size) :
    Rule.Agree s p ((expr g).run s p) ((expr g').run s p) := by
  unfold expr
  rw [position_bind, position_bind]
  refine (hg.elems hb hp).bind fun elems m _ hm hsize => ?_
  exact agree_node hm hsize

theorem agree_optionalGroup {k : Kind} (hg : g.Agree s b g') (hb : b ≤ p + 1) (hp : p ≤ s.size) :
    Rule.Agree s p ((optionalGroup g k).run s p) ((optionalGroup g' k).run s p) := by
  unfold optionalGroup
  rw [check_bind, check_bind]
  exact agree_when (Nat.le_refl p) hp fun _ => (agree_group hg hb hp).of_le (Nat.le_succ p)

theorem agree_annotationUse (hg : g.Agree s b g') (hb : b ≤ p + 1) (hp : p ≤ s.size) :
    Rule.Agree s (p + 1) ((annotationUse g).run s p) ((annotationUse g').run s p) := by
  unfold annotationUse
  rw [position_bind, position_bind]
  refine (agree_expect (by decide) hp).bind fun _ m _ hm hsize => ?_
  refine (agree_qualifiedName hsize).bind fun name n _ hn hnsize => ?_
  refine (agree_optionalGroup hg (by omega) hnsize).bind fun args k _ hk hksize => ?_
  exact agree_node (by omega) hksize

theorem roundsAgree_annotations (hg : g.Agree s b g') : RoundsAgree s b annotationFollows annotationFollows
    (annotationUse g) (annotationUse g') where
  again _ hp := onlyLooks_annotationFollows.agree hp
  round hb hmore _ hm := by
    obtain rfl := run_annotationFollows hmore
    exact agree_annotationUse hg hb hm

theorem agree_annotations (hg : g.Agree s b g') (hb : b ≤ p + 1) (hp : p ≤ s.size) :
    Rule.Agree s p ((annotations g).run s p) ((annotations g').run s p) :=
  agree_manyWhile (roundsAgree_annotations hg) hb hp

/-! ## Types -/

theorem agree_typeArg (hg : g.Agree s b g') (hb : b ≤ p) (hp : p ≤ s.size) :
    Rule.Agree s (p + 1) ((typeArg g).run s p) ((typeArg g').run s p) := by
  have bounded (kind : BoundKind) {m : Nat} (hm : p + 1 ≤ m) (hsize : m ≤ s.size) :
      Rule.Agree s (p + 1) ((do return .bounded kind (← g.type) (← extentFrom p) : Rule TypeArg).run s m)
        ((do return .bounded kind (← g'.type) (← extentFrom p) : Rule TypeArg).run s m) := by
    refine (hg.type (by omega) hsize).bind fun t n _ hn hnsize => ?_
    exact agree_node (by omega) hnsize
  unfold typeArg
  rw [position_bind, position_bind]
  refine (agree_eat hp).bind fun wild m heat hm hsize => ?_
  cases wild with
  | true =>
    obtain rfl := eq_of_eat (by decide) heat
    rw [if_pos rfl, if_pos rfl]
    refine (agree_eat hsize).bind fun upper n _ hn hnsize => ?_
    split
    · exact bounded .upper hn hnsize
    · refine (agree_eat hnsize).bind fun lower k _ hk hksize => ?_
      split
      · exact bounded .lower (by omega) hksize
      · exact agree_node (by omega) hksize
  | false =>
    refine (hg.type (by omega) hsize).bind fun t n _ hn hnsize => ?_
    exact agree_pure (by omega) hnsize

theorem roundsAgree_typeArgs (hg : g.Agree s b g') :
    RoundsAgree s b (eat .comma) (eat .comma) (typeArg g) (typeArg g') :=
  roundsAgree_eat (by decide) fun hb hp => (agree_typeArg hg hb hp).of_le (Nat.le_succ _)

theorem agree_typeArgs (hg : g.Agree s b g') (hb : b ≤ p + 1) (hp : p ≤ s.size) :
    Rule.Agree s (p + 1) ((typeArgs g).run s p) ((typeArgs g').run s p) := by
  have closed (entries : List TypeArg) {m : Nat} (hm : p + 1 ≤ m) (hsize : m ≤ s.size) :
      Rule.Agree s (p + 1)
        ((do expect .greater; return ⟨entries, ← extentFrom p⟩ : Rule TypeArgs).run s m)
        ((do expect .greater; return ⟨entries, ← extentFrom p⟩ : Rule TypeArgs).run s m) := by
    refine (agree_expect (by decide) hsize).bind fun _ n _ hn hnsize => ?_
    exact agree_node (by omega) hnsize
  unfold typeArgs
  rw [position_bind, position_bind]
  refine (agree_expect (by decide) hp).bind fun _ m _ hm hsize => ?_
  rw [check_bind, check_bind]
  dsimp only
  split
  · exact (agree_pure hm hsize).bind fun entries n _ hn hnsize => closed entries hn hnsize
  · have hentries : Rule.Agree s m ((sepBy .comma (typeArg g)).run s m)
        ((sepBy .comma (typeArg g')).run s m) := by
      refine agree_sepBy (by omega) (Nat.le_refl m) ?_ (roundsAgree_typeArgs hg)
      exact (agree_typeArg hg (by omega) hsize).of_le (Nat.le_succ m)
    exact hentries.bind fun entries n _ hn hnsize => closed entries (by omega) hnsize

theorem agree_optionalTypeArgs (hg : g.Agree s b g') (hb : b ≤ p + 1) (hp : p ≤ s.size) :
    Rule.Agree s p ((optionalTypeArgs g).run s p) ((optionalTypeArgs g').run s p) := by
  unfold optionalTypeArgs
  rw [check_bind, check_bind]
  exact agree_when (Nat.le_refl p) hp fun _ => (agree_typeArgs hg hb hp).of_le (Nat.le_succ p)

theorem agree_typeSegment (hg : g.Agree s b g') (hb : b ≤ p + 1) (hp : p ≤ s.size) :
    Rule.Agree s (p + 1) ((typeSegment g).run s p) ((typeSegment g').run s p) := by
  unfold typeSegment
  refine (agree_identifier hp).bind fun name m _ hm hsize => ?_
  refine (agree_optionalTypeArgs hg (by omega) hsize).bind fun args n _ hn hnsize => ?_
  exact agree_pure (by omega) hnsize

theorem roundsAgree_typeSegments (hg : g.Agree s b g') : RoundsAgree s b dotAndName dotAndName
    (do advance; typeSegment g) (do advance; typeSegment g') :=
  roundsAgree_dot fun hb hp => (agree_typeSegment hg (Nat.le_succ_of_le hb) hp).of_le (Nat.le_succ _)

theorem agree_typeSegments (hg : g.Agree s b g') (hb : b ≤ p + 1) (hp : p ≤ s.size) :
    Rule.Agree s (p + 1) ((typeSegments g).run s p) ((typeSegments g').run s p) := by
  unfold typeSegments
  refine (agree_typeSegment hg hb hp).bind fun first m _ hm hsize => ?_
  refine (agree_manyWhile (roundsAgree_typeSegments hg) (by omega) hsize).bind fun rest n _ hn hnsize => ?_
  exact agree_pure (by omega) hnsize

theorem agree_classType (hg : g.Agree s b g') (hb : b ≤ p + 1) (hp : p ≤ s.size) :
    Rule.Agree s (p + 1) ((classType g).run s p) ((classType g').run s p) := by
  unfold classType
  rw [position_bind, position_bind]
  refine (agree_typeSegments hg hb hp).bind fun segments m _ hm hsize => ?_
  exact agree_node hm hsize

theorem agree_type (hg : g.Agree s b g') (hb : b ≤ p + 1) (hp : p ≤ s.size) :
    Rule.Agree s (p + 1) ((type g).run s p) ((type g').run s p) := by
  unfold type
  rw [position_bind, position_bind]
  refine (agree_annotations hg hb hp).bind fun annotations m _ hm hsize => ?_
  rw [kind_bind, kind_bind]
  have behindCore (core : TypeCore) {n : Nat} (hn : p + 1 ≤ n) (hnsize : n ≤ s.size) :
      Rule.Agree s (p + 1)
        ((do return ⟨annotations, core, ← dims, ← extentFrom p⟩ : Rule TypeExpr).run s n)
        ((do return ⟨annotations, core, ← dims, ← extentFrom p⟩ : Rule TypeExpr).run s n) := by
    refine (agree_dims hnsize).bind fun dims k _ hk hksize => ?_
    exact agree_node (by omega) hksize
  dsimp only
  split
  · rename_i hprimitive
    have hne : s.kind m ≠ .eof := by
      intro heof
      rw [heof] at hprimitive
      contradiction
    refine (agree_advance hne).bind fun _ n _ hn hnsize => ?_
    exact (agree_pure hn hnsize).bind fun core k _ hk hksize => behindCore core (by omega) hksize
  split
  · refine (agree_map (agree_typeSegments hg (by omega) hsize)).bind fun core n _ hn hnsize => ?_
    exact behindCore core (by omega) hnsize
  · rw [throw_bind]
    exact agree_throw (by decide) hsize

theorem roundsAgree_types {separator : Kind} (hk : separator ≠ .eof) (hg : g.Agree s b g') :
    RoundsAgree s b (eat separator) (eat separator) (type g) (type g') :=
  roundsAgree_eat hk fun hb hp => (agree_type hg (Nat.le_succ_of_le hb) hp).of_le (Nat.le_succ _)

theorem agree_typeList (hg : g.Agree s b g') (hb : b ≤ p + 1) (hp : p ≤ s.size) :
    Rule.Agree s (p + 1) ((typeList g).run s p) ((typeList g').run s p) :=
  agree_sepBy hb (Nat.le_succ p) (agree_type hg hb hp) (roundsAgree_types (by decide) hg)

theorem agree_typesAfter {k : Kind} (hg : g.Agree s b g') (hb : b ≤ p + 1) (hp : p ≤ s.size) :
    Rule.Agree s p ((typesAfter g k).run s p) ((typesAfter g' k).run s p) := by
  unfold typesAfter
  refine (agree_eat hp).bind fun found m _ hm hsize => ?_
  split
  · exact (agree_typeList hg (by omega) hsize).of_le (by omega)
  · exact agree_pure hm hsize

theorem agree_typeParam (hg : g.Agree s b g') (hb : b ≤ p + 1) (hp : p ≤ s.size) :
    Rule.Agree s (p + 1) ((typeParam g).run s p) ((typeParam g').run s p) := by
  unfold typeParam
  rw [position_bind, position_bind]
  refine (agree_annotations hg hb hp).bind fun annotations m _ hm hsize => ?_
  refine (agree_identifier hsize).bind fun name n _ hn hnsize => ?_
  refine (agree_eat hnsize).bind fun bounded k _ hk hksize => ?_
  dsimp only
  split
  · have hbounds : Rule.Agree s (k + 1) ((sepBy .amp (type g)).run s k) ((sepBy .amp (type g')).run s k) :=
      agree_sepBy (by omega) (Nat.le_succ k) (agree_type hg (by omega) hksize)
        (roundsAgree_types (by decide) hg)
    refine hbounds.bind fun bounds l _ hl hlsize => ?_
    exact agree_node (by omega) hlsize
  · refine (agree_pure (Nat.le_refl k) hksize).bind fun bounds l _ hl hlsize => ?_
    exact agree_node (by omega) hlsize

theorem roundsAgree_typeParams (hg : g.Agree s b g') :
    RoundsAgree s b (eat .comma) (eat .comma) (typeParam g) (typeParam g') :=
  roundsAgree_eat (by decide) fun hb hp =>
    (agree_typeParam hg (Nat.le_succ_of_le hb) hp).of_le (Nat.le_succ _)

theorem agree_typeParams (hg : g.Agree s b g') (hb : b ≤ p + 1) (hp : p ≤ s.size) :
    Rule.Agree s (p + 1) ((typeParams g).run s p) ((typeParams g').run s p) := by
  unfold typeParams
  rw [position_bind, position_bind]
  refine (agree_expect (by decide) hp).bind fun _ m _ hm hsize => ?_
  have hentries : Rule.Agree s (m + 1) ((sepBy .comma (typeParam g)).run s m)
      ((sepBy .comma (typeParam g')).run s m) :=
    agree_sepBy (by omega) (Nat.le_succ m) (agree_typeParam hg (by omega) hsize)
      (roundsAgree_typeParams hg)
  refine hentries.bind fun entries n _ hn hnsize => ?_
  refine (agree_expect (by decide) hnsize).bind fun _ k _ hk hksize => ?_
  exact agree_node (by omega) hksize

theorem agree_optionalTypeParams (hg : g.Agree s b g') (hb : b ≤ p + 1) (hp : p ≤ s.size) :
    Rule.Agree s p ((optionalTypeParams g).run s p) ((optionalTypeParams g').run s p) := by
  unfold optionalTypeParams
  rw [check_bind, check_bind]
  exact agree_when (Nat.le_refl p) hp fun _ => (agree_typeParams hg hb hp).of_le (Nat.le_succ p)

end Stencil.Grammar
