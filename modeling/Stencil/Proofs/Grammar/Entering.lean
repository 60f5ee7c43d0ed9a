import Stencil.Proofs.Grammar.Bodies
import Stencil.Proofs.Grammar.Nesting
import Stencil.Proofs.Grammar.Unit

/-!
# Nesting in declarations, bodies and files

The rules for declarations, for the elements of bodies and for whole files, over two nests that agree
behind the position at which the rule begins. Where a name may begin a generic type, that is tried first.
If it fails the position moves back, and then the name itself is passed: so each round of the loop over
elements passes a token, whatever has been tried in it.

Results: the rules agree (`agree_member`, `agree_elem` and the like), and so do the rounds of their loops,
each of which passes a token (`roundsAgree_members`, `roundsAgree_elems` and the like).
-/

namespace Stencil.Grammar

open Rule

variable {s : Script} {b p : Nat} {g g' : Nested}

/-! ## Modifiers -/

theorem onlyLooks_modifierFollows : OnlyLooks modifierFollows := by
  intro s p
  unfold modifierFollows
  rw [kind_bind]
  split
  · exact ⟨_, rfl⟩
  · exact onlyLooks_annotationFollows s p

theorem ne_eof_of_modifierFollows {q : Nat} (h : modifierFollows.run s p = .ok true q) :
    s.kind p ≠ .eof := by
  intro heof
  unfold modifierFollows annotationFollows at h
  rw [kind_bind, heof] at h
  rw [if_neg (by decide), check_bind, heof] at h
  obtain ⟨hfalse, -⟩ := run_pure.1 h
  contradiction

/-- A modifier passes a token, except at the end of the text. -/
theorem agree_modifier {low : Nat} (hg : g.Agree s b g') (hb : b ≤ p + 1) (hp : p ≤ s.size)
    (hlow : low ≤ p + 1) (hadvance : Rule.Agree s low (advance.run s p) (advance.run s p)) :
    Rule.Agree s low ((modifier g).run s p) ((modifier g').run s p) := by
  unfold modifier
  rw [kind_bind, kind_bind]
  split
  · exact (agree_map (agree_annotationUse hg hb hp)).of_le hlow
  · exact hadvance.bind fun _ m _ hm hsize => agree_pure hm hsize

theorem roundsAgree_modifiers (hg : g.Agree s b g') :
    RoundsAgree s b modifierFollows modifierFollows (modifier g) (modifier g') where
  again _ hp := onlyLooks_modifierFollows.agree hp
  round hb hmore _ hm := by
    obtain rfl := onlyLooks_modifierFollows.eq hmore
    exact agree_modifier hg hb hm (Nat.le_refl _) (agree_advance (ne_eof_of_modifierFollows hmore))

theorem agree_modifiers (hg : g.Agree s b g') (hb : b ≤ p + 1) (hp : p ≤ s.size) :
    Rule.Agree s p ((modifiers g).run s p) ((modifiers g').run s p) := by
  unfold modifiers
  refine (agree_manyWhile (roundsAgree_modifiers hg) hb hp).bind fun found m _ hm hsize => ?_
  exact agree_pure hm hsize

/-! ## Declarations of types -/

theorem onlyLooks_declFollows : OnlyLooks declFollows := by
  intro s p
  unfold declFollows
  rw [kind_bind]
  split <;> exact ⟨_, rfl⟩

theorem agree_declKind (hp : p ≤ s.size) :
    Rule.Agree s (p + 1) (declKind.run s p) (declKind.run s p) := by
  have keyword {k : Kind} (hkind : s.kind p = k) (hk : k ≠ .eof) (declared : DeclKind) :
      Rule.Agree s (p + 1) ((do advance; return declared : Rule DeclKind).run s p)
        ((do advance; return declared : Rule DeclKind).run s p) :=
    (agree_advance (hkind ▸ hk)).bind fun _ m _ hm hsize => agree_pure hm hsize
  unfold declKind
  rw [kind_bind]
  split
  · exact keyword (by assumption) (by decide) .ofClass
  · exact keyword (by assumption) (by decide) .ofInterface
  · exact keyword (by assumption) (by decide) .ofEnum
  · rename_i hat
    rw [checkNth_bind]
    split
    · have hne : s.kind p ≠ .eof := by
        rw [hat]
        decide
      refine (agree_advance hne).bind fun _ m _ hm hsize => ?_
      refine (agree_advance_of_le hsize).bind fun _ n _ hn hnsize => ?_
      exact agree_pure (by omega) hnsize
    · exact agree_failHere (by decide) hp
  · exact agree_failHere (by decide) hp

theorem agree_typeDeclFrom (hg : g.Agree s b g') (hb : b ≤ p + 1) (hp : p ≤ s.size) {start : Nat}
    {modifiers : Modifiers} : Rule.Agree s (p + 1) ((typeDeclFrom g start modifiers).run s p)
      ((typeDeclFrom g' start modifiers).run s p) := by
  unfold typeDeclFrom
  refine (agree_declKind hp).bind fun declared m _ hm hsize => ?_
  refine (agree_identifier hsize).bind fun name n _ hn hnsize => ?_
  refine (agree_optionalTypeParams hg (by omega) hnsize).bind fun typeParams k _ hk hksize => ?_
  refine (agree_typesAfter hg (by omega) hksize).bind fun supertypes l _ hl hlsize => ?_
  refine (agree_typesAfter hg (by omega) hlsize).bind fun interfaces i _ hi hisize => ?_
  refine (hg.classBody (by omega) hisize).bind fun body j _ hj hjsize => ?_
  exact agree_node (by omega) hjsize

theorem agree_typeDecl (hg : g.Agree s b g') (hb : b ≤ p + 1) (hp : p ≤ s.size) :
    Rule.Agree s (p + 1) ((typeDecl g).run s p) ((typeDecl g').run s p) := by
  unfold typeDecl
  rw [position_bind, position_bind]
  refine (agree_modifiers hg hb hp).bind fun modifiers m _ hm hsize => ?_
  exact (agree_typeDeclFrom hg (by omega) hsize).of_le (by omega)

/-! ## Fields -/

theorem agree_declaratorOf (hg : g.Agree s b g') (hb : b ≤ p + 1) (hp : p ≤ s.size) {name : Ident} :
    Rule.Agree s p ((declaratorOf g name).run s p) ((declaratorOf g' name).run s p) := by
  unfold declaratorOf
  refine (agree_dims hp).bind fun dims m _ hm hsize => ?_
  refine (agree_eat hsize).bind fun hasValue n heat hn hnsize => ?_
  cases hasValue with
  | true =>
    obtain rfl := eq_of_eat (by decide) heat
    rw [if_pos rfl, if_pos rfl]
    refine (agree_expr hg (by omega) hnsize).bind fun value k _ hk hksize => ?_
    split
    · exact agree_failHere (by decide) hksize
    · exact agree_pure (by omega) hksize
  | false => exact agree_pure (by omega) hnsize

theorem roundsAgree_fields (hg : g.Agree s b g') : RoundsAgree s b (eat .comma) (eat .comma)
    (do declaratorOf g (← identifier)) (do declaratorOf g' (← identifier)) := by
  refine roundsAgree_eat (by decide) fun {p} hb hp => ?_
  refine (agree_identifier hp).bind fun name m _ hm hsize => ?_
  exact (agree_declaratorOf hg (by omega) hsize).of_le (by omega)

theorem agree_fieldFrom (hg : g.Agree s b g') (hb : b ≤ p + 1) (hp : p ≤ s.size) {start : Nat}
    {modifiers : Modifiers} {type : TypeExpr} {name : Ident} :
    Rule.Agree s (p + 1) ((fieldFrom g start modifiers type name).run s p)
      ((fieldFrom g' start modifiers type name).run s p) := by
  unfold fieldFrom
  refine (agree_declaratorOf hg hb hp).bind fun first m _ hm hsize => ?_
  refine (agree_manyWhile (roundsAgree_fields hg) (by omega) hsize).bind fun rest n _ hn hnsize => ?_
  refine (agree_expect (by decide) hnsize).bind fun _ k _ hk hksize => ?_
  exact agree_node (by omega) hksize

/-! ## Methods -/

theorem agree_param (hg : g.Agree s b g') (hb : b ≤ p + 1) (hp : p ≤ s.size) :
    Rule.Agree s (p + 1) ((param g).run s p) ((param g').run s p) := by
  unfold param
  rw [position_bind, position_bind]
  refine (agree_modifiers hg hb hp).bind fun modifiers m _ hm hsize => ?_
  refine (agree_type hg (by omega) hsize).bind fun t n _ hn hnsize => ?_
  refine (agree_eat hnsize).bind fun variadic k _ hk hksize => ?_
  refine (agree_identifier hksize).bind fun name l _ hl hlsize => ?_
  refine (agree_dims hlsize).bind fun dims i _ hi hisize => ?_
  exact agree_node (by omega) hisize

theorem roundsAgree_params (hg : g.Agree s b g') :
    RoundsAgree s b (eat .comma) (eat .comma) (param g) (param g') :=
  roundsAgree_eat (by decide) fun hb hp => (agree_param hg (Nat.le_succ_of_le hb) hp).of_le (Nat.le_succ _)

/-- Entries between parentheses, which may be missing. -/
theorem agree_parenthesised {α : Type} {entry entry' : Rule α}
    (hfirst : ∀ {m}, p + 1 ≤ m → m ≤ s.size → Rule.Agree s m (entry.run s m) (entry'.run s m))
    (h : RoundsAgree s b (eat .comma) (eat .comma) entry entry') (hb : b ≤ p + 1) (hp : p ≤ s.size) :
    Rule.Agree s (p + 1)
      ((do
        expect .leftParen
        let entries ← if ← check .rightParen then pure [] else sepBy .comma entry
        expect .rightParen
        return entries).run s p)
      ((do
        expect .leftParen
        let entries ← if ← check .rightParen then pure [] else sepBy .comma entry'
        expect .rightParen
        return entries).run s p) := by
  have closed (entries : List α) {m : Nat} (hm : p + 1 ≤ m) (hsize : m ≤ s.size) :
      Rule.Agree s (p + 1) ((do expect .rightParen; return entries).run s m)
        ((do expect .rightParen; return entries).run s m) :=
    (agree_expect (by decide) hsize).bind fun _ n _ hn hnsize => agree_pure (by omega) hnsize
  refine (agree_expect (by decide) hp).bind fun _ m _ hm hsize => ?_
  rw [check_bind, check_bind]
  dsimp only
  split
  · exact (agree_pure hm hsize).bind fun entries n _ hn hnsize => closed entries hn hnsize
  · have hentries := agree_sepBy (by omega) (Nat.le_refl m) (hfirst hm hsize) h
    exact hentries.bind fun entries n _ hn hnsize => closed entries (by omega) hnsize

theorem agree_params (hg : g.Agree s b g') (hb : b ≤ p + 1) (hp : p ≤ s.size) :
    Rule.Agree s (p + 1) ((params g).run s p) ((params g').run s p) :=
  agree_parenthesised (fun hm hsize => (agree_param hg (by omega) hsize).of_le (Nat.le_succ _))
    (roundsAgree_params hg) hb hp

theorem agree_methodBody (hg : g.Agree s b g') (hb : b ≤ p + 1) (hp : p ≤ s.size) :
    Rule.Agree s (p + 1) ((methodBody g).run s p) ((methodBody g').run s p) := by
  unfold methodBody
  rw [check_bind, check_bind]
  split
  · exact agree_map (agree_group hg hb hp)
  · refine (agree_expect (by decide) hp).bind fun _ m _ hm hsize => ?_
    exact agree_pure hm hsize

theorem agree_methodFrom (hg : g.Agree s b g') (hb : b ≤ p + 1) (hp : p ≤ s.size) {start : Nat}
    {modifiers : Modifiers} {typeParams : Option TypeParams} {returnType : Option TypeExpr}
    {name : Ident} :
    Rule.Agree s (p + 1) ((methodFrom g start modifiers typeParams returnType name).run s p)
      ((methodFrom g' start modifiers typeParams returnType name).run s p) := by
  unfold methodFrom
  refine (agree_params hg hb hp).bind fun params m _ hm hsize => ?_
  refine (agree_dims hsize).bind fun dims n _ hn hnsize => ?_
  refine (agree_typesAfter hg (by omega) hnsize).bind fun throws k _ hk hksize => ?_
  refine (agree_eat hksize).bind fun hasDefault l _ hl hlsize => ?_
  have hvalue : Rule.Agree s l ((when hasDefault (expr g)).run s l) ((when hasDefault (expr g')).run s l) :=
    agree_when (Nat.le_refl l) hlsize fun _ => agree_expr hg (by omega) hlsize
  refine hvalue.bind fun value i _ hi hisize => ?_
  refine (agree_methodBody hg (by omega) hisize).bind fun body j _ hj hjsize => ?_
  exact agree_node (by omega) hjsize

/-! ## Bodies of types -/

theorem agree_namedMember (hg : g.Agree s b g') (hb : b ≤ p + 1) (hp : p ≤ s.size) {start : Nat}
    {modifiers : Modifiers} :
    Rule.Agree s (p + 1) ((namedMember g start modifiers).run s p)
      ((namedMember g' start modifiers).run s p) := by
  unfold namedMember
  refine (agree_optionalTypeParams hg hb hp).bind fun typeParams m _ hm hsize => ?_
  rw [check_bind, check_bind, checkNth_bind, checkNth_bind]
  split
  · refine (agree_identifier hsize).bind fun name n _ hn hnsize => ?_
    exact agree_map ((agree_methodFrom hg (by omega) hnsize).of_le (by omega))
  · refine (agree_type hg (by omega) hsize).bind fun t n _ hn hnsize => ?_
    refine (agree_identifier hnsize).bind fun name k _ hk hksize => ?_
    rw [check_bind, check_bind]
    split
    · exact agree_map ((agree_methodFrom hg (by omega) hksize).of_le (by omega))
    split
    · exact agree_failHere (by decide) hksize
    · exact agree_map ((agree_fieldFrom hg (by omega) hksize).of_le (by omega))

theorem agree_member (hg : g.Agree s b g') (hb : b ≤ p + 1) (hp : p ≤ s.size) :
    Rule.Agree s (p + 1) ((member g).run s p) ((member g').run s p) := by
  unfold member
  rw [atEnd_bind, atEnd_bind]
  split
  · exact agree_throw (by decide) hp
  refine (agree_eat hp).bind fun alone m heat hm hsize => ?_
  cases alone with
  | true =>
    obtain rfl := eq_of_eat (by decide) heat
    exact agree_pure (Nat.le_refl _) hsize
  | false =>
    rw [if_neg (by decide), if_neg (by decide), check_bind, check_bind]
    split
    · refine (agree_group hg (by omega) hsize).bind fun body n _ hn hnsize => ?_
      exact agree_pure (by omega) hnsize
    rw [check_bind, check_bind, checkNth_bind, checkNth_bind]
    split
    · rename_i hstatic
      have hne : s.kind m ≠ .eof := by
        rw [beq_iff_eq.1 (Bool.and_eq_true_iff.1 hstatic).1]
        decide
      refine (agree_advance hne).bind fun _ n _ hn hnsize => ?_
      refine (agree_group hg (by omega) hnsize).bind fun body k _ hk hksize => ?_
      exact agree_pure (by omega) hksize
    rw [position_bind, position_bind]
    refine (agree_modifiers hg (by omega) hsize).bind fun modifiers n _ hn hnsize => ?_
    refine (onlyLooks_declFollows.agree hnsize).bind fun nested k _ hk hksize => ?_
    split
    · refine (agree_typeDeclFrom hg (by omega) hksize).bind fun decl l _ hl hlsize => ?_
      exact agree_pure (by omega) hlsize
    · refine (agree_namedMember hg (by omega) hksize).bind fun found l _ hl hlsize => ?_
      exact agree_pure (by omega) hlsize

theorem agree_enumConstant (hg : g.Agree s b g') (hb : b ≤ p + 1) (hp : p ≤ s.size) :
    Rule.Agree s (p + 1) ((enumConstant g).run s p) ((enumConstant g').run s p) := by
  unfold enumConstant
  refine (agree_annotations hg hb hp).bind fun annotations m _ hm hsize => ?_
  refine (agree_identifier hsize).bind fun name n _ hn hnsize => ?_
  refine (agree_optionalGroup hg (by omega) hnsize).bind fun args k _ hk hksize => ?_
  rw [check_bind, check_bind]
  have hbody : Rule.Agree s k ((when (s.kind k == .leftBrace) (g.classBody false)).run s k)
      ((when (s.kind k == .leftBrace) (g'.classBody false)).run s k) :=
    agree_when (Nat.le_refl k) hksize fun _ => (hg.classBody (by omega) hksize).of_le (Nat.le_succ k)
  refine hbody.bind fun body l _ hl hlsize => ?_
  exact agree_pure (by omega) hlsize

theorem onlyLooks_constantFollows : OnlyLooks constantFollows :=
  fun _ _ => ⟨_, rfl⟩

theorem roundsAgree_constants (hg : g.Agree s b g') : RoundsAgree s b
    (do if ← eat .comma then constantFollows else return false)
    (do if ← eat .comma then constantFollows else return false) (enumConstant g) (enumConstant g') where
  again := by
    intro p _ hp
    refine (agree_eat hp).bind fun comma m _ hm hsize => ?_
    split
    · exact (onlyLooks_constantFollows.agree hsize).of_le hm
    · exact agree_pure hm hsize
  round := by
    intro p m hb _ hpm hm
    exact (agree_enumConstant hg (by omega) hm).of_le (by omega)

theorem agree_enumConstants (hg : g.Agree s b g') (hb : b ≤ p + 1) (hp : p ≤ s.size) :
    Rule.Agree s p ((enumConstants g).run s p) ((enumConstants g').run s p) := by
  have ended (constants : List EnumConstant) {m : Nat} (hm : p ≤ m) (hsize : m ≤ s.size) :
      Rule.Agree s p ((do discard (eat .semicolon); return constants).run s m)
        ((do discard (eat .semicolon); return constants).run s m) := by
    refine Rule.Agree.bind (agree_map (agree_eat hsize)) fun _ n _ hn hnsize => ?_
    exact agree_pure (by omega) hnsize
  unfold enumConstants
  refine (onlyLooks_constantFollows.agree hp).bind fun follows m _ hm hsize => ?_
  dsimp only
  split
  · refine (agree_enumConstant hg (by omega) hsize).bind fun first n _ hn hnsize => ?_
    refine (agree_manyWhile (roundsAgree_constants hg) (by omega) hnsize).bind fun rest k _ hk hksize => ?_
    exact (agree_pure hk hksize).bind fun constants l _ hl hlsize => ended constants (by omega) hlsize
  · exact (agree_pure hm hsize).bind fun constants n _ hn hnsize => ended constants hn hnsize

theorem roundsAgree_members (hg : g.Agree s b g') : RoundsAgree s b
    (do return !(← check .rightBrace)) (do return !(← check .rightBrace)) (member g) (member g') where
  again _ hp := .ok (Nat.le_refl _) hp
  round := by
    intro p m hb _ hpm hm
    exact (agree_member hg (by omega) hm).of_le (by omega)

theorem agree_classBody {isEnum : Bool} (hg : g.Agree s b g') (hb : b ≤ p + 1) (hp : p ≤ s.size) :
    Rule.Agree s (p + 1) ((classBody g isEnum).run s p) ((classBody g' isEnum).run s p) := by
  unfold classBody
  rw [position_bind, position_bind]
  refine (agree_expect (by decide) hp).bind fun _ m _ hm hsize => ?_
  have closed (constants : List EnumConstant) {n : Nat} (hn : p + 1 ≤ n) (hnsize : n ≤ s.size) :
      Rule.Agree s (p + 1)
        ((do
          let members ← manyWhile (do return !(← check .rightBrace)) (member g)
          expect .rightBrace
          return (⟨constants, members.filterMap id, ← extentFrom p⟩ : ClassBody)).run s n)
        ((do
          let members ← manyWhile (do return !(← check .rightBrace)) (member g')
          expect .rightBrace
          return (⟨constants, members.filterMap id, ← extentFrom p⟩ : ClassBody)).run s n) := by
    refine (agree_manyWhile (roundsAgree_members hg) (by omega) hnsize).bind fun members k _ hk hksize => ?_
    refine (agree_expect (by decide) hksize).bind fun _ l _ hl hlsize => ?_
    exact agree_node (by omega) hlsize
  dsimp only
  split
  · refine (agree_enumConstants hg (by omega) hsize).bind fun constants n _ hn hnsize => ?_
    exact closed constants (by omega) hnsize
  · exact (agree_pure hm hsize).bind fun constants n _ hn hnsize => closed constants hn hnsize

/-! ## Intrinsic calls -/

theorem onlyLooks_intrinsicFollows : OnlyLooks intrinsicFollows := by
  intro s p
  unfold intrinsicFollows
  rw [read_bind, peek_bind, checkNth_bind, previousKind_bind]
  split
  · rw [peekNth_bind]
    split <;> exact ⟨_, rfl⟩
  · exact ⟨_, rfl⟩

theorem roundsAgree_args (hg : g.Agree s b g') :
    RoundsAgree s b (eat .comma) (eat .comma) (expr g) (expr g') :=
  roundsAgree_eat (by decide) fun hb hp => agree_expr hg hb hp

theorem agree_callArgs (hg : g.Agree s b g') (hb : b ≤ p + 1) (hp : p ≤ s.size) :
    Rule.Agree s (p + 1) ((callArgs g).run s p) ((callArgs g').run s p) :=
  agree_parenthesised (fun hm hsize => agree_expr hg (by omega) hsize) (roundsAgree_args hg) hb hp

theorem agree_intrinsicCall (hg : g.Agree s b g') (hb : b ≤ p + 1) (hp : p ≤ s.size) :
    Rule.Agree s (p + 1) ((intrinsicCall g).run s p) ((intrinsicCall g').run s p) := by
  unfold intrinsicCall
  rw [position_bind, position_bind]
  refine (agree_identifier hp).bind fun receiver m _ hm hsize => ?_
  refine (agree_expect (by decide) hsize).bind fun _ n _ hn hnsize => ?_
  refine (agree_optionalTypeArgs hg (by omega) hnsize).bind fun hint k _ hk hksize => ?_
  refine (agree_identifier hksize).bind fun name l _ hl hlsize => ?_
  refine (agree_callArgs hg (by omega) hlsize).bind fun args i _ hi hisize => ?_
  exact agree_node (by omega) hisize

/-! ## Generic types -/

theorem agree_genericType (hg : g.Agree s b g') (hb : b ≤ p + 1) (hp : p ≤ s.size) :
    Rule.Agree s (p + 1) ((genericType g).run s p) ((genericType g').run s p) := by
  unfold genericType
  rw [position_bind, position_bind, previousKind_bind, previousKind_bind]
  refine (agree_classType hg hb hp).bind fun base m _ hm hsize => ?_
  split
  · refine (agree_dims hsize).bind fun dims n _ hn hnsize => ?_
    rw [kind_bind]
    split
    · exact agree_node (by omega) hnsize
    · exact agree_throw (by decide) hnsize
  · exact agree_throw (by decide) hsize

/-- A type is tried, and where it fails the position moves back to where it was. -/
theorem agree_genericType? (hg : g.Agree s b g') (hb : b ≤ p + 1) (hp : p ≤ s.size) :
    Rule.Agree s p ((genericType? g).run s p) ((genericType? g').run s p) := by
  unfold genericType?
  rw [previousKind_bind, previousKind_bind]
  split
  · exact agree_pure (Nat.le_refl p) hp
  rw [checkNth_bind, checkNth_bind, checkNth_bind, checkNth_bind]
  split
  · exact agree_attempt (Nat.le_succ p) hp (agree_genericType hg hb hp)
  · exact agree_pure (Nat.le_refl p) hp

theorem lt_of_genericType? (hg : g.Agree s b g') (hb : b ≤ p + 1) (hp : p ≤ s.size) {t : TypeExpr} {q : Nat}
    (h : (genericType? g).run s p = .ok (some t) q) : p + 1 ≤ q := by
  unfold genericType? at h
  rw [previousKind_bind] at h
  split at h
  · obtain ⟨hnone, -⟩ := run_pure.1 h
    contradiction
  rw [checkNth_bind, checkNth_bind] at h
  split at h
  · rcases attempt_ok h with ⟨t', -, ht⟩ | ⟨hnone, -⟩
    · have hagree := agree_genericType hg hb hp
      rw [ht] at hagree
      exact hagree.low_le
    · contradiction
  · obtain ⟨hnone, -⟩ := run_pure.1 h
    contradiction

/-! ## Elements -/

theorem agree_creator (hg : g.Agree s b g') (hb : b ≤ p + 1) (hp : p ≤ s.size) :
    Rule.Agree s p ((creator g).run s p) ((creator g').run s p) := by
  unfold creator
  refine (agree_optionalTypeArgs hg hb hp).bind fun typeArgs m _ hm hsize => ?_
  rw [kind_bind, kind_bind]
  split
  · exact agree_pure hm hsize
  rw [check_bind, check_bind]
  split
  · refine (agree_classType hg (by omega) hsize).bind fun made n _ hn hnsize => ?_
    refine (agree_optionalGroup hg (by omega) hnsize).bind fun args k _ hk hksize => ?_
    rw [check_bind, check_bind]
    have hbody (c : Bool) : Rule.Agree s k ((when c (g.classBody false)).run s k)
        ((when c (g'.classBody false)).run s k) :=
      agree_when (Nat.le_refl k) hksize fun _ => (hg.classBody (by omega) hksize).of_le (Nat.le_succ k)
    refine (hbody _).bind fun body l _ hl hlsize => ?_
    exact agree_pure (by omega) hlsize
  · exact agree_throw (by decide) hsize

theorem agree_namedElem (hg : g.Agree s b g') (hb : b ≤ p + 1) (hp : p ≤ s.size) :
    Rule.Agree s (p + 1) ((namedElem g).run s p) ((namedElem g').run s p) := by
  unfold namedElem
  refine (onlyLooks_intrinsicFollows.agree hp).bind fun intrinsic m hm _ hsize => ?_
  obtain rfl := onlyLooks_intrinsicFollows.eq hm
  split
  · exact agree_map (agree_intrinsicCall hg hb hsize)
  · refine (agree_genericType? hg hb hsize).bind fun found n hfound hn hnsize => ?_
    cases found with
    | some t => exact agree_pure (lt_of_genericType? hg hb hsize hfound) hnsize
    | none => exact (agree_map (agree_identifier hnsize)).of_le (by omega)

theorem agree_plainToken {low : Nat} (hadvance : Rule.Agree s low (advance.run s p) (advance.run s p)) :
    Rule.Agree s low (plainToken.run s p) (plainToken.run s p) := by
  unfold plainToken
  rw [position_bind]
  exact hadvance.bind fun _ m _ hm hsize => agree_pure hm hsize

/-- An element passes a token, except at the end of the text. -/
theorem agree_elem {low : Nat} (hg : g.Agree s b g') (hb : b ≤ p + 1) (hp : p ≤ s.size) (hple : p ≤ low)
    (hlow : low ≤ p + 1) (hadvance : Rule.Agree s low (advance.run s p) (advance.run s p)) :
    Rule.Agree s low ((elem g).run s p) ((elem g').run s p) := by
  unfold elem
  rw [kind_bind, kind_bind]
  split
  · exact (agree_group hg hb hp).bind fun body m _ hm hsize => agree_pure (by omega) hsize
  split
  · refine (agree_plainToken hadvance).bind fun first m _ hm hsize => ?_
    refine (agree_creator hg (by omega) hsize).bind fun rest n _ hn hnsize => ?_
    exact agree_pure (by omega) hnsize
  rw [previousKind_bind, previousKind_bind]
  split
  · rw [position_bind, position_bind]
    exact (agree_typeDeclFrom hg hb hp).bind fun decl m _ hm hsize => agree_pure (by omega) hsize
  rw [checkNth_bind, checkNth_bind]
  split
  · refine (agree_plainToken hadvance).bind fun first m _ hm hsize => ?_
    refine (agree_typeArgs hg (by omega) hsize).bind fun args n _ hn hnsize => ?_
    exact agree_pure (by omega) hnsize
  split
  · exact (agree_namedElem hg hb hp).bind fun found m _ hm hsize => agree_pure (by omega) hsize
  · exact (agree_plainToken hadvance).bind fun found m _ hm hsize => agree_pure hm hsize

theorem onlyLooks_elemFollows {u : Bool} : OnlyLooks (elemFollows u) :=
  fun _ _ => ⟨_, rfl⟩

theorem ne_eof_of_elemFollows {u : Bool} {q : Nat} (h : (elemFollows u).run s p = .ok true q) :
    s.kind p ≠ .eof := by
  intro heof
  unfold elemFollows at h
  rw [kind_bind, heof] at h
  obtain ⟨hfalse, -⟩ := run_pure.1 h
  contradiction

theorem roundsAgree_elems {u : Bool} (hg : g.Agree s b g') :
    RoundsAgree s b (elemFollows u) (elemFollows u) (elem g) (elem g') where
  again _ hp := onlyLooks_elemFollows.agree hp
  round hb hmore _ hm := by
    obtain rfl := onlyLooks_elemFollows.eq hmore
    have hadvance := agree_advance (ne_eof_of_elemFollows hmore)
    exact agree_elem hg hb hm (Nat.le_succ _) (Nat.le_refl _) hadvance

theorem agree_elems {u : Bool} (hg : g.Agree s b g') (hb : b ≤ p + 1) (hp : p ≤ s.size) :
    Rule.Agree s p ((elems g u).run s p) ((elems g' u).run s p) := by
  unfold elems
  refine (agree_manyWhile (roundsAgree_elems hg) hb hp).bind fun found m _ hm hsize => ?_
  exact agree_pure hm hsize

/-! ## Files -/

theorem agree_packageDecl (hg : g.Agree s b g') (hb : b ≤ p + 1) (hp : p ≤ s.size) :
    Rule.Agree s p ((packageDecl g).run s p) ((packageDecl g').run s p) := by
  unfold packageDecl
  rw [position_bind, position_bind]
  refine (agree_annotations hg hb hp).bind fun annotations m _ hm hsize => ?_
  refine (agree_eat hsize).bind fun found n _ hn hnsize => ?_
  split
  · refine (agree_qualifiedName hnsize).bind fun name k _ hk hksize => ?_
    refine (agree_expect (by decide) hksize).bind fun _ l _ hl hlsize => ?_
    exact agree_node (by omega) hlsize
  · rw [returnTo_bind]
    exact agree_pure (Nat.le_refl p) hp

theorem agree_importDecl (hp : p ≤ s.size) :
    Rule.Agree s (p + 1) (importDecl.run s p) (importDecl.run s p) := by
  have ended (ofMembers : Bool) (name : QualifiedName) (onDemand : Bool) {m : Nat} (hm : p + 1 ≤ m)
      (hsize : m ≤ s.size) :
      Rule.Agree s (p + 1)
        ((do
          expect .semicolon
          return (⟨ofMembers, name, onDemand, ← extentFrom p⟩ : ImportDecl)).run s m)
        ((do
          expect .semicolon
          return (⟨ofMembers, name, onDemand, ← extentFrom p⟩ : ImportDecl)).run s m) := by
    refine (agree_expect (by decide) hsize).bind fun _ n _ hn hnsize => ?_
    exact agree_node (by omega) hnsize
  unfold importDecl
  rw [position_bind]
  refine (agree_expect (by decide) hp).bind fun _ m _ hm hsize => ?_
  refine (agree_eat hsize).bind fun ofMembers n _ hn hnsize => ?_
  refine (agree_qualifiedName hnsize).bind fun name k _ hk hksize => ?_
  refine (agree_eat hksize).bind fun onDemand l _ hl hlsize => ?_
  dsimp only
  split
  · refine (agree_expect (by decide) hlsize).bind fun _ i _ hi hisize => ?_
    exact ended ofMembers name onDemand (by omega) hisize
  · exact ended ofMembers name onDemand (by omega) hlsize

theorem roundsAgree_semicolons :
    RoundsAgree s b (check .semicolon) (check .semicolon) advance advance where
  again _ hp := onlyLooks_check.agree hp
  round := by
    intro p m _ hmore hpm hm
    obtain ⟨hsemicolon, rfl⟩ := run_check.1 hmore
    apply agree_advance
    rw [beq_iff_eq.1 hsemicolon]
    decide

theorem agree_semicolons (hp : p ≤ s.size) : Rule.Agree s p (semicolons.run s p) (semicolons.run s p) :=
  agree_map (agree_manyWhile (roundsAgree_semicolons (b := 0)) (by omega) hp)

theorem roundsAgree_imports :
    RoundsAgree s b (check .kwImport) (check .kwImport) importDecl importDecl where
  again _ hp := onlyLooks_check.agree hp
  round := by
    intro p m _ hmore hpm hm
    exact (agree_importDecl hm).of_le (by omega)

theorem roundsAgree_typeDecls (hg : g.Agree s b g') : RoundsAgree s b
    (do semicolons; return !(← atEnd)) (do semicolons; return !(← atEnd)) (typeDecl g) (typeDecl g') where
  again := by
    intro p _ hp
    refine (agree_semicolons hp).bind fun _ m _ hm hsize => ?_
    rw [atEnd_bind]
    exact agree_pure hm hsize
  round := by
    intro p m hb _ hpm hm
    exact (agree_typeDecl hg (by omega) hm).of_le (by omega)

theorem agree_compilationUnit (hg : g.Agree s b g') (hb : b ≤ p + 1) (hp : p ≤ s.size) :
    Rule.Agree s p ((compilationUnit g).run s p) ((compilationUnit g').run s p) := by
  unfold compilationUnit
  refine (agree_packageDecl hg hb hp).bind fun package m _ hm hsize => ?_
  refine (agree_manyWhile (roundsAgree_imports (b := 0)) (by omega) hsize).bind
    fun imports n _ hn hnsize => ?_
  refine (agree_manyWhile (roundsAgree_typeDecls hg) (by omega) hnsize).bind fun types k _ hk hksize => ?_
  exact agree_pure (by omega) hksize

end Stencil.Grammar
