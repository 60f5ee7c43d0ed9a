import Stencil.Proofs.Grammar.Bracket
import Stencil.Proofs.Grammar.Unit

/-!
# The tokens that a rule passes

A rule that succeeds has passed brackets only together with their counterparts, and the keyword `new`
only in front of something that can be made. This holds of every rule and from every position on,
whatever tree the rule finds: a rule passes either a token that stands alone, or a pair of brackets
with what other rules pass in between, or one thing after the other.

Results: whatever rule succeeds, the tokens passed are of this form (`passed_of_group` and the like,
`passes_nested` for the rules of nested text). Their brackets are well nested (`Passed.wellNested`),
and behind each `new` among them stands what can be made (`Passed.followsNew`).
-/

namespace Stencil

/-- Can a token of this kind stand directly behind `new`? -/
def Kind.followsNew (k : Kind) : Bool :=
  k == .less || k == .identifier || k.isPrimitiveType

/-- Does a token of this kind need no other one? -/
def Kind.standsAlone (k : Kind) : Bool :=
  k != .eof && k != .kwNew && !k.isBracket

theorem Delimiter.opening_ne_new (d : Delimiter) : d.opening ≠ .kwNew := by
  cases d <;> decide

theorem Delimiter.closing_ne_new (d : Delimiter) : d.closing ≠ .kwNew := by
  cases d <;> decide

/-- What a rule passes. -/
inductive Passed (s : Script) : Nat → Nat → Prop where
  | empty {p : Nat} : Passed s p p
  | append {p m q : Nat} (h : Passed s p m) (h' : Passed s m q) : Passed s p q
  | word {p : Nat} (h : (s.kind p).standsAlone = true) : Passed s p (p + 1)
  | made {p : Nat} (hp : s.kind p = .kwNew) (hnext : (s.kind (p + 1)).followsNew = true) :
    Passed s p (p + 1)
  | pair {p q : Nat} (d : Delimiter) (hp : s.kind p = d.opening) (h : Passed s (p + 1) q)
    (hq : s.kind q = d.closing) : Passed s p (q + 1)

namespace Passed

variable {s : Script} {p m q i : Nat} {k : Kind}

theorem of_kind (hp : s.kind p = k) (hk : k.standsAlone = true) : Passed s p (p + 1) :=
  .word (hp ▸ hk)

theorem name (hp : s.kind p = .identifier) : Passed s p (p + 1) :=
  of_kind hp rfl

theorem le (h : Passed s p q) : p ≤ q := by
  induction h with
  | empty => exact Nat.le_refl _
  | append _ _ ih ih' => exact Nat.le_trans ih ih'
  | word _ => exact Nat.le_succ _
  | made _ _ => exact Nat.le_succ _
  | pair _ _ _ _ ih => omega

theorem wellNested (h : Passed s p q) : WellNested (s.brackets p q) := by
  induction h with
  | empty =>
    rw [Script.brackets_self]
    exact .nil
  | append h h' ih ih' =>
    rw [Script.brackets_append h.le h'.le]
    exact ih.append ih'
  | word h =>
    rw [Script.brackets_succ, if_neg (by simp_all [Kind.standsAlone])]
    exact .nil
  | made hp _ =>
    rw [Script.brackets_succ, hp]
    exact .nil
  | pair d hp h hq ih =>
    rw [Script.brackets_of_opening hp (Nat.lt_succ_of_le (Nat.le_trans (Nat.le_succ _) h.le)),
      Script.brackets_of_closing hq h.le]
    exact ih.wrap d

/-- What has been passed behind `new` can be made. -/
theorem followsNew (h : Passed s p q) (hpi : p ≤ i) (hiq : i < q) (hi : s.kind i = .kwNew) :
    (s.kind (i + 1)).followsNew = true := by
  induction h with
  | empty => omega
  | @append p m q h h' ih ih' =>
    by_cases him : i < m
    · exact ih hpi him
    · exact ih' (Nat.le_of_not_lt him) hiq
  | @word p h =>
    obtain rfl : i = p := by omega
    simp [hi, Kind.standsAlone] at h
  | @made p hp hnext =>
    obtain rfl : i = p := by omega
    exact hnext
  | @pair p q d hp h hq ih =>
    have hpi' : i ≠ p := fun h => d.opening_ne_new (hp.symm.trans (h ▸ hi))
    have hqi : i ≠ q := fun h => d.closing_ne_new (hq.symm.trans (h ▸ hi))
    exact ih (by omega) (by omega)

end Passed

namespace Grammar

open Rule

/-- Do the rules for nested text pass what rules pass? -/
structure Nested.Passes (s : Script) (g : Nested) : Prop where
  type : ∀ {p q t}, g.type.run s p = .ok t q → Passed s p q
  elems : ∀ {u p q es}, (g.elems u).run s p = .ok es q → Passed s p q
  classBody : ∀ {e p q b}, (g.classBody e).run s p = .ok b q → Passed s p q

variable {s : Script} {p q : Nat} {g : Nested}

/-! ## Repetition -/

theorem passed_of_manyWhile {α : Type} {more : Rule Bool} {item : Rule α} {as : List α}
    (done : ∀ p q, more.run s p = .ok false q → Passed s p q)
    (round : ∀ p m n a, more.run s p = .ok true m → item.run s m = .ok a n → Passed s p n)
    (h : (manyWhile more item).run s p = .ok as q) : Passed s p q :=
  manyWhile_induction (P := fun _ => Passed s) done
    (fun p m n _ a _ hm ha ih => .append (round p m n a hm ha) ih) h

theorem passed_of_eat {k : Kind} {b : Bool} (hk : k.standsAlone = true)
    (h : (eat k).run s p = .ok b q) : Passed s p q := by
  have hne : k ≠ .eof := by
    rintro rfl
    contradiction
  rcases (run_eat hne).1 h with ⟨-, hp, rfl⟩ | ⟨-, -, rfl⟩
  · exact .of_kind hp hk
  · exact .empty

theorem passed_of_sepBy {α : Type} {separator : Kind} {item : Rule α} {as : List α}
    (hk : separator.standsAlone = true)
    (hitem : ∀ {p q a}, item.run s p = .ok a q → Passed s p q)
    (h : (sepBy separator item).run s p = .ok as q) : Passed s p q := by
  simp only [sepBy, run_bind, run_pure] at h
  obtain ⟨a, m, ha, rest, k, hr, -, rfl⟩ := h
  refine .append (hitem ha) (passed_of_manyWhile (fun _ _ => passed_of_eat hk) ?_ hr)
  exact fun _ _ _ _ hm ha => .append (passed_of_eat hk hm) (hitem ha)

/-! ## Names and brackets -/

theorem passed_of_dotAndName {α : Type} {item : Rule α} {as : List α}
    (hitem : ∀ {p q a}, item.run s p = .ok a q → Passed s p q)
    (h : (manyWhile dotAndName (do advance; item)).run s p = .ok as q) : Passed s p q := by
  refine passed_of_manyWhile (fun p q h => ?_) (fun p m n a hm ha => ?_) h
  · exact (run_dotAndName h).1 ▸ .empty
  · obtain ⟨rfl, hd⟩ := run_dotAndName hm
    simp [run_advance_of_kind, (hd rfl).1] at ha
    exact .append (.of_kind (hd rfl).1 rfl) (hitem ha)

theorem passed_of_identifier {i : Ident} (h : identifier.run s p = .ok i q) : Passed s p q := by
  obtain ⟨hp, -, rfl⟩ := run_identifier.1 h
  exact .name hp

theorem passed_of_qualifiedName {n : QualifiedName} (h : qualifiedName.run s p = .ok n q) :
    Passed s p q := by
  simp only [qualifiedName, run_bind, run_position, run_extentFrom, run_pure] at h
  obtain ⟨_, _, ⟨rfl, rfl⟩, i, m, hi, is, _, his, _, _, ⟨-, rfl⟩, -, rfl⟩ := h
  exact .append (passed_of_identifier hi) (passed_of_dotAndName passed_of_identifier his)

theorem passed_of_dims {n : Nat} (h : dims.run s p = .ok n q) : Passed s p q := by
  have hpairs {n : Nat} : ∀ {p}, Stretch.dims s n p q → Passed s p q := by
    induction n with
    | zero => exact fun h => Stretch.empty_iff.1 h ▸ .empty
    | succ n ih =>
      rintro p ⟨m, ⟨m', ⟨hl, rfl⟩, hr, rfl⟩, hrest⟩
      exact .append (.pair .bracket hl .empty hr) (ih hrest)
  exact hpairs (dims_of_dims h)

/-- A group is found between a bracket and its counterpart only. -/
theorem run_group {b : Group} : (group g).run s p = .ok b q ↔
    ∃ (d : Delimiter) (es : List Elem) (m : Nat), s.kind p = d.opening
      ∧ (g.elems false).run s (p + 1) = .ok es m ∧ s.kind m = d.closing
      ∧ b = ⟨d, es, ⟨p, m + 1⟩⟩ ∧ q = m + 1 := by
  constructor
  · intro h
    simp [group, and_assoc] at h
    cases hd : Delimiter.ofOpening? (s.kind p) with
    | none => simp [hd] at h
    | some d =>
      have hp := ofOpening?_eq_some.1 hd
      simp only [hd] at h
      simp [run_advance_of_kind, hp, opening_ne_eof, closing_ne_eof, and_assoc] at h
      obtain ⟨es, m, he, hm, rfl, rfl⟩ := h
      exact ⟨d, es, m, hp, he, hm, rfl, rfl⟩
  · rintro ⟨d, es, m, hp, he, hm, rfl, rfl⟩
    simp [group, and_assoc]
    simp only [ofOpening?_eq_some.2 hp]
    simp [run_advance_of_kind, hp, opening_ne_eof, closing_ne_eof, and_assoc, he, hm]

theorem passed_of_group (hg : g.Passes s) {b : Group} (h : (group g).run s p = .ok b q) :
    Passed s p q := by
  obtain ⟨d, es, m, hp, he, hm, -, rfl⟩ := run_group.1 h
  exact .pair d hp (hg.elems he) hm

theorem passed_of_expr (hg : g.Passes s) {e : Expr} (h : (expr g).run s p = .ok e q) :
    Passed s p q := by
  simp [expr, and_assoc] at h
  obtain ⟨es, he, -⟩ := h
  exact hg.elems he

theorem passed_of_optionalGroup (hg : g.Passes s) {k : Kind} {b : Option Group}
    (h : (optionalGroup g k).run s p = .ok b q) : Passed s p q := by
  simp [optionalGroup, and_assoc] at h
  rcases h with ⟨-, b, hb, -⟩ | ⟨-, -, rfl⟩
  · exact passed_of_group hg hb
  · exact .empty

/-! ## Annotations -/

theorem passed_of_annotationUse (hg : g.Passes s) {a : AnnotationUse}
    (h : (annotationUse g).run s p = .ok a q) : Passed s p q := by
  simp [annotationUse, and_assoc] at h
  obtain ⟨hp, n, m, hn, args, ha, -⟩ := h
  exact .append (.of_kind hp rfl)
    (.append (passed_of_qualifiedName hn) (passed_of_optionalGroup hg ha))

theorem passed_of_annotations (hg : g.Passes s) {as : List AnnotationUse}
    (h : (annotations g).run s p = .ok as q) : Passed s p q := by
  refine passed_of_manyWhile (fun p q h => ?_) (fun p m n a hm ha => ?_) h
  · exact run_annotationFollows h ▸ .empty
  · obtain rfl := run_annotationFollows hm
    exact passed_of_annotationUse hg ha

/-! ## Types -/

theorem passed_of_typeArg (hg : g.Passes s) {a : TypeArg} (h : (typeArg g).run s p = .ok a q) :
    Passed s p q := by
  simp [typeArg, and_assoc] at h
  rcases h with ⟨-, t, ht, -⟩ | ⟨hp, h⟩
  · exact hg.type ht
  · rcases h with ⟨-, ⟨-, rfl, -⟩ | ⟨hk, t, ht, -⟩⟩ | ⟨hk, t, ht, -⟩
    · exact .of_kind hp rfl
    · exact .append (.of_kind hp rfl) (.append (.of_kind hk rfl) (hg.type ht))
    · exact .append (.of_kind hp rfl) (.append (.of_kind hk rfl) (hg.type ht))

theorem passed_of_typeArgs (hg : g.Passes s) {a : TypeArgs} (h : (typeArgs g).run s p = .ok a q) :
    Passed s p q := by
  simp [typeArgs, and_assoc] at h
  obtain ⟨hp, ⟨hm, rfl, -⟩ | ⟨-, es, m, he, hm, rfl, -⟩⟩ := h
  · exact .append (.of_kind hp rfl) (.of_kind hm rfl)
  · have hes := passed_of_sepBy (by decide) (passed_of_typeArg hg) he
    exact .append (.of_kind hp rfl) (.append hes (.of_kind hm rfl))

theorem passed_of_optionalTypeArgs (hg : g.Passes s) {a : Option TypeArgs}
    (h : (optionalTypeArgs g).run s p = .ok a q) : Passed s p q := by
  simp [optionalTypeArgs, and_assoc] at h
  rcases h with ⟨-, a, ha, -⟩ | ⟨-, -, rfl⟩
  · exact passed_of_typeArgs hg ha
  · exact .empty

theorem passed_of_typeSegment (hg : g.Passes s) {a : TypeSegment}
    (h : (typeSegment g).run s p = .ok a q) : Passed s p q := by
  simp [typeSegment, and_assoc] at h
  obtain ⟨hp, args, ha, -⟩ := h
  exact .append (.name hp) (passed_of_optionalTypeArgs hg ha)

theorem passed_of_typeSegments (hg : g.Passes s) {as : List TypeSegment}
    (h : (typeSegments g).run s p = .ok as q) : Passed s p q := by
  simp only [typeSegments, run_bind, run_pure] at h
  obtain ⟨a, m, ha, rest, _, hr, -, rfl⟩ := h
  exact .append (passed_of_typeSegment hg ha) (passed_of_dotAndName (passed_of_typeSegment hg) hr)

theorem passed_of_classType (hg : g.Passes s) {t : TypeExpr}
    (h : (classType g).run s p = .ok t q) : Passed s p q := by
  simp [classType, and_assoc] at h
  obtain ⟨as, ha, -⟩ := h
  exact passed_of_typeSegments hg ha

theorem standsAlone_of_isPrimitiveType {k : Kind} (h : k.isPrimitiveType = true) :
    k.standsAlone = true := by
  cases k <;> first | rfl | contradiction

theorem passed_of_type (hg : g.Passes s) {t : TypeExpr} (h : (type g).run s p = .ok t q) :
    Passed s p q := by
  simp [type, and_assoc] at h
  obtain ⟨as, m, ha, ⟨hk, u, m', hu, n, hn, -⟩ | ⟨-, -, segments, m', hs, n, hn, -⟩⟩ := h
  · have hword : Passed s m (m + 1) := .word (standsAlone_of_isPrimitiveType hk)
    have hm : s.kind m ≠ .eof := by
      intro h
      simp [h, Kind.isPrimitiveType, Kind.primitiveTypes] at hk
    rw [run_advance_of_kind hm] at hu
    subst hu
    exact .append (passed_of_annotations hg ha) (.append hword (passed_of_dims hn))
  · exact .append (passed_of_annotations hg ha)
      (.append (passed_of_typeSegments hg hs) (passed_of_dims hn))

theorem passed_of_typeList (hg : g.Passes s) {ts : List TypeExpr}
    (h : (typeList g).run s p = .ok ts q) : Passed s p q :=
  passed_of_sepBy (by decide) (passed_of_type hg) h

theorem passed_of_typesAfter (hg : g.Passes s) {keyword : Kind} (hk : keyword.standsAlone = true)
    {ts : List TypeExpr} (h : (typesAfter g keyword).run s p = .ok ts q) : Passed s p q := by
  simp only [typesAfter, run_bind, run_ite, run_pure] at h
  obtain ⟨b, m, hb, ⟨-, ht⟩ | ⟨-, -, rfl⟩⟩ := h
  · exact .append (passed_of_eat hk hb) (passed_of_typeList hg ht)
  · exact passed_of_eat hk hb

theorem passed_of_typeParam (hg : g.Passes s) {a : TypeParam}
    (h : (typeParam g).run s p = .ok a q) : Passed s p q := by
  simp [typeParam, and_assoc] at h
  obtain ⟨as, m, ha, hm, ⟨-, rfl, -⟩ | ⟨hk, ts, ht, -⟩⟩ := h
  · exact .append (passed_of_annotations hg ha) (.name hm)
  · have hts := passed_of_sepBy (by decide) (passed_of_type hg) ht
    exact .append (passed_of_annotations hg ha) (.append (.name hm) (.append (.of_kind hk rfl) hts))

theorem passed_of_typeParams (hg : g.Passes s) {a : TypeParams}
    (h : (typeParams g).run s p = .ok a q) : Passed s p q := by
  simp [typeParams, and_assoc] at h
  obtain ⟨hp, es, m, he, hm, rfl, -⟩ := h
  have hes := passed_of_sepBy (by decide) (passed_of_typeParam hg) he
  exact .append (.of_kind hp rfl) (.append hes (.of_kind hm rfl))

theorem passed_of_optionalTypeParams (hg : g.Passes s) {a : Option TypeParams}
    (h : (optionalTypeParams g).run s p = .ok a q) : Passed s p q := by
  simp [optionalTypeParams, and_assoc] at h
  rcases h with ⟨-, a, ha, -⟩ | ⟨-, -, rfl⟩
  · exact passed_of_typeParams hg ha
  · exact .empty

/-! ## Declarations -/

theorem standsAlone_of_isModifier {k : Kind} (h : k.isModifier = true) : k.standsAlone = true := by
  cases k <;> first | rfl | contradiction

theorem passed_of_modifiers (hg : g.Passes s) {ms : Modifiers}
    (h : (modifiers g).run s p = .ok ms q) : Passed s p q := by
  simp [modifiers] at h
  obtain ⟨found, h, -⟩ := h
  refine passed_of_manyWhile (fun p q h => ?_) (fun p m n f hm hf => ?_) h
  · exact (run_modifierFollows h).1 ▸ .empty
  · obtain ⟨rfl, hk⟩ := run_modifierFollows hm
    simp [modifier, and_assoc] at hf
    rcases hf with ⟨-, a, ha, -⟩ | ⟨hne, ⟨u, hu⟩, -⟩
    · exact passed_of_annotationUse hg ha
    · have hmod : (s.kind m).isModifier = true := (hk rfl).resolve_left hne
      rw [run_advance_of_kind (isModifier_ne_eof hmod)] at hu
      exact hu ▸ .word (standsAlone_of_isModifier hmod)

theorem passed_of_declKind {k : DeclKind} (h : declKind.run s p = .ok k q) : Passed s p q := by
  have hwords := words_of_declKind h
  cases k with
  | ofAnnotationType =>
    obtain ⟨m, ⟨hp, rfl⟩, m', ⟨hm, rfl⟩, rfl⟩ := hwords
    exact .append (.of_kind hp rfl) (.of_kind hm rfl)
  | _ =>
    obtain ⟨m, ⟨hp, rfl⟩, rfl⟩ := hwords
    exact .of_kind hp rfl

theorem passed_of_typeDeclFrom (hg : g.Passes s) {start : Nat} {ms : Modifiers} {d : TypeDecl}
    (h : (typeDeclFrom g start ms).run s p = .ok d q) : Passed s p q := by
  simp [typeDeclFrom, and_assoc] at h
  obtain ⟨k, m₁, hk, hi, tps, m₂, htps, sups, m₃, hsups, ifs, m₄, hifs, b, hb, -⟩ := h
  have htps := passed_of_optionalTypeParams hg htps
  have hsups := passed_of_typesAfter hg (by decide) hsups
  have hifs := passed_of_typesAfter hg (by decide) hifs
  exact .append (passed_of_declKind hk) (.append (.name hi)
    (.append htps (.append hsups (.append hifs (hg.classBody hb)))))

theorem passed_of_typeDecl (hg : g.Passes s) {d : TypeDecl}
    (h : (typeDecl g).run s p = .ok d q) : Passed s p q := by
  simp [typeDecl, and_assoc] at h
  obtain ⟨ms, m, hms, hd⟩ := h
  exact .append (passed_of_modifiers hg hms) (passed_of_typeDeclFrom hg hd)

/-! ## Fields -/

theorem passed_of_declaratorOf (hg : g.Passes s) {i : Ident} {d : Declarator}
    (h : (declaratorOf g i).run s p = .ok d q) : Passed s p q := by
  simp [declaratorOf, and_assoc] at h
  obtain ⟨n, m, hn, ⟨-, -, rfl⟩ | ⟨hk, e, he, -, -⟩⟩ := h
  · exact passed_of_dims hn
  · exact .append (passed_of_dims hn) (.append (.of_kind hk rfl) (passed_of_expr hg he))

theorem passed_of_fieldFrom (hg : g.Passes s) {start : Nat} {ms : Modifiers} {t : TypeExpr}
    {i : Ident} {f : FieldDecl} (h : (fieldFrom g start ms t i).run s p = .ok f q) :
    Passed s p q := by
  simp [fieldFrom, and_assoc] at h
  obtain ⟨d, m₁, hd, ds, m₂, hds, hm, rfl, -⟩ := h
  have hds : Passed s m₁ m₂ := by
    refine passed_of_manyWhile (fun _ _ => passed_of_eat (by decide)) (fun p m n d hm hd => ?_) hds
    simp [and_assoc] at hd
    obtain ⟨hi, hd⟩ := hd
    exact .append (passed_of_eat (by decide) hm)
      (.append (.name hi) (passed_of_declaratorOf hg hd))
  exact .append (passed_of_declaratorOf hg hd) (.append hds (.of_kind hm rfl))

/-! ## Methods -/

theorem passed_of_param (hg : g.Passes s) {a : Param} (h : (param g).run s p = .ok a q) :
    Passed s p q := by
  simp [param, and_assoc] at h
  obtain ⟨ms, m₁, hms, t, m₂, ht, h⟩ := h
  have ht : Passed s p m₂ := .append (passed_of_modifiers hg hms) (passed_of_type hg ht)
  rcases h with ⟨-, hi, n, hn, -⟩ | ⟨he, hi, n, hn, -⟩
  · exact .append ht (.append (.name hi) (passed_of_dims hn))
  · exact .append ht (.append (.of_kind he rfl) (.append (.name hi) (passed_of_dims hn)))

theorem passed_of_params (hg : g.Passes s) {as : List Param}
    (h : (params g).run s p = .ok as q) : Passed s p q := by
  simp [params, and_assoc] at h
  obtain ⟨hp, ⟨hm, rfl, -⟩ | ⟨-, m, ha, hm, rfl⟩⟩ := h
  · exact .pair .paren hp .empty hm
  · exact .pair .paren hp (passed_of_sepBy (by decide) (passed_of_param hg) ha) hm

theorem passed_of_methodBody (hg : g.Passes s) {b : Option Group}
    (h : (methodBody g).run s p = .ok b q) : Passed s p q := by
  simp [methodBody, and_assoc] at h
  rcases h with ⟨-, b, hb, -⟩ | ⟨-, hp, rfl, -⟩
  · exact passed_of_group hg hb
  · exact .of_kind hp rfl

theorem passed_of_methodFrom (hg : g.Passes s) {start : Nat} {ms : Modifiers}
    {tps : Option TypeParams} {t : Option TypeExpr} {i : Ident} {d : MethodDecl}
    (h : (methodFrom g start ms tps t i).run s p = .ok d q) : Passed s p q := by
  simp [methodFrom, and_assoc] at h
  obtain ⟨as, m₁, has, n, m₂, hn, ts, m₃, hts, h⟩ := h
  have hts : Passed s p m₃ := .append (passed_of_params hg has)
    (.append (passed_of_dims hn) (passed_of_typesAfter hg (by decide) hts))
  rcases h with ⟨-, b, hb, -⟩ | ⟨hk, m₄, e, he, b, hb, -⟩
  · exact .append hts (passed_of_methodBody hg hb)
  · exact .append hts (.append (.of_kind hk rfl)
      (.append (passed_of_expr hg he) (passed_of_methodBody hg hb)))

/-! ## Bodies of types -/

theorem passed_of_namedMember (hg : g.Passes s) {start : Nat} {ms : Modifiers} {m : Member}
    (h : (namedMember g start ms).run s p = .ok m q) : Passed s p q := by
  simp [namedMember, and_assoc] at h
  obtain ⟨tps, m₁, htps, h⟩ := h
  have htps := passed_of_optionalTypeParams hg htps
  rcases h with ⟨hi, -, -, d, hd, -⟩ | ⟨-, t, m₂, ht, hi, h⟩
  · exact .append htps (.append (.name hi) (passed_of_methodFrom hg hd))
  · refine .append htps (.append (passed_of_type hg ht) (.append (.name hi) ?_))
    rcases h with ⟨-, d, hd, -⟩ | ⟨-, -, f, hf, -⟩
    · exact passed_of_methodFrom hg hd
    · exact passed_of_fieldFrom hg hf

theorem passed_of_member (hg : g.Passes s) {m : Option Member}
    (h : (member g).run s p = .ok m q) : Passed s p q := by
  simp [member, and_assoc] at h
  obtain ⟨-, ⟨-, h⟩ | ⟨hp, -, rfl⟩⟩ := h
  · rcases h with ⟨-, b, hb, -⟩ | ⟨-, ⟨hp, -, u, m₁, hu, b, hb, -⟩ | ⟨-, ms, m₁, hms, h⟩⟩
    · exact passed_of_group hg hb
    · simp [run_advance_of_kind, hp] at hu
      subst hu
      exact .append (.of_kind hp rfl) (passed_of_group hg hb)
    · refine .append (passed_of_modifiers hg hms) ?_
      rcases h with ⟨m₂, hf, m, hm, -⟩ | ⟨m₂, hf, d, hd, -⟩
      · obtain rfl := run_declFollows hf
        exact passed_of_namedMember hg hm
      · obtain rfl := run_declFollows hf
        exact passed_of_typeDeclFrom hg hd
  · exact .of_kind hp rfl

theorem passed_of_enumConstant (hg : g.Passes s) {c : EnumConstant}
    (h : (enumConstant g).run s p = .ok c q) : Passed s p q := by
  simp [enumConstant, and_assoc] at h
  obtain ⟨as, m₁, has, hi, args, m₂, hargs, b, h, -⟩ := h
  have hargs : Passed s p m₂ := .append (passed_of_annotations hg has)
    (.append (.name hi) (passed_of_optionalGroup hg hargs))
  rcases h with ⟨-, b, hb, -⟩ | ⟨-, -, rfl⟩
  · exact .append hargs (hg.classBody hb)
  · exact hargs

theorem passed_of_enumConstants (hg : g.Passes s) {cs : List EnumConstant}
    (h : (enumConstants g).run s p = .ok cs q) : Passed s p q := by
  simp only [enumConstants, run_bind, run_ite, run_pure, run_discard] at h
  obtain ⟨b, m, hb, h⟩ := h
  obtain rfl := run_constantFollows hb
  rcases h with ⟨-, c, m₁, hc, rest, m₂, hrest, _, _, ⟨-, rfl⟩, _, _, ⟨b', hb'⟩, -, rfl⟩
    | ⟨-, _, _, ⟨-, rfl⟩, _, _, ⟨b', hb'⟩, -, rfl⟩
  · have hrest : Passed s m₁ m₂ := by
      refine passed_of_manyWhile (fun p q h => ?_) (fun p m n c hm hc => ?_) hrest
      · simp at h
        rcases h with ⟨-, rfl⟩ | ⟨hp, h⟩
        · exact .empty
        · exact run_constantFollows h ▸ .of_kind hp rfl
      · simp at hm
        obtain ⟨hp, hm⟩ := hm
        exact .append (run_constantFollows hm ▸ .of_kind hp rfl) (passed_of_enumConstant hg hc)
    exact .append (passed_of_enumConstant hg hc) (.append hrest (passed_of_eat (by decide) hb'))
  · exact passed_of_eat (by decide) hb'

theorem passed_of_classBody (hg : g.Passes s) {e : Bool} {b : ClassBody}
    (h : (classBody g e).run s p = .ok b q) : Passed s p q := by
  have members {p q : Nat} {ms : List (Option Member)}
      (h : (manyWhile (do return !(← check .rightBrace)) (member g)).run s p = .ok ms q) :
      Passed s p q := by
    refine passed_of_manyWhile (fun p q h => ?_) (fun p m n a hm ha => ?_) h
    · simp at h
      exact h.2 ▸ .empty
    · simp at hm
      exact .append (hm.2 ▸ .empty) (passed_of_member hg ha)
  simp [classBody, and_assoc] at h
  obtain ⟨hp, ⟨-, cs, m₁, hcs, ms, m₂, hms, hm, rfl, -⟩ | ⟨-, ms, m₁, hms, hm, rfl, -⟩⟩ := h
  · exact .pair .brace hp (.append (passed_of_enumConstants hg hcs) (members (by simpa using hms))) hm
  · exact .pair .brace hp (members (by simpa using hms)) hm

/-! ## Bodies -/

theorem passed_of_callArgs (hg : g.Passes s) {as : List Expr}
    (h : (callArgs g).run s p = .ok as q) : Passed s p q := by
  simp [callArgs, and_assoc] at h
  obtain ⟨hp, ⟨hm, rfl, -⟩ | ⟨-, m, ha, hm, rfl⟩⟩ := h
  · exact .pair .paren hp .empty hm
  · exact .pair .paren hp (passed_of_sepBy (by decide) (passed_of_expr hg) ha) hm

theorem passed_of_intrinsicCall (hg : g.Passes s) {c : IntrinsicCall}
    (h : (intrinsicCall g).run s p = .ok c q) : Passed s p q := by
  simp [intrinsicCall, and_assoc] at h
  obtain ⟨hp, hdot, hint, m₁, hh, hi, as, has, -⟩ := h
  exact .append (.name hp) (.append (.of_kind hdot rfl) (.append (passed_of_optionalTypeArgs hg hh)
    (.append (.name hi) (passed_of_callArgs hg has))))

theorem passed_of_genericType (hg : g.Passes s) {t : TypeExpr}
    (h : (genericType g).run s p = .ok t q) : Passed s p q := by
  simp [genericType, and_assoc] at h
  obtain ⟨k, m, hm, base, m₁, hb, -, n, hn, -, -⟩ := h
  obtain rfl := run_previousKind hm
  exact .append (passed_of_classType hg hb) (passed_of_dims hn)

theorem passed_of_genericType? (hg : g.Passes s) {t : Option TypeExpr}
    (h : (genericType? g).run s p = .ok t q) : Passed s p q := by
  simp [genericType?, and_assoc] at h
  obtain ⟨k, m, hm, h⟩ := h
  obtain rfl := run_previousKind hm
  rcases h with ⟨-, -, rfl⟩ | ⟨-, ⟨-, h⟩ | ⟨-, -, -, rfl⟩⟩
  · exact .empty
  · rcases attempt_ok h with ⟨t, -, ht⟩ | ⟨-, rfl⟩
    · exact passed_of_genericType hg ht
    · exact .empty
  · exact .empty

/-- What is made begins with a token that can stand behind `new`. -/
theorem passed_of_creator (hg : g.Passes s) {es : List Elem}
    (h : (creator g).run s p = .ok es q) : Passed s p q ∧ (s.kind p).followsNew = true := by
  simp [creator, and_assoc] at h
  obtain ⟨hint, m₁, hh, h⟩ := h
  have hhint := passed_of_optionalTypeArgs hg hh
  have hfirst {k : Kind} (hk : k.followsNew = true) (hm : s.kind m₁ = k) :
      (s.kind p).followsNew = true := by
    simp [optionalTypeArgs, and_assoc] at hh
    rcases hh with ⟨hp, -⟩ | ⟨-, -, rfl⟩
    · rw [hp]
      rfl
    · rw [hm, hk]
  rcases h with ⟨hk, -, rfl⟩ | ⟨-, hk, t, m₂, ht, args, m₃, ha, b, hb, -⟩
  · exact ⟨hhint, hfirst (by simp [Kind.followsNew, hk]) rfl⟩
  · refine ⟨?_, hfirst rfl hk⟩
    have hargs : Passed s p m₃ := .append hhint
      (.append (passed_of_classType hg ht) (passed_of_optionalGroup hg ha))
    rcases hb with ⟨-, -, b, hb, -⟩ | ⟨-, -, rfl⟩
    · exact .append hargs (hg.classBody hb)
    · exact hargs

theorem passed_of_namedElem (hg : g.Passes s) {e : Elem} (h : (namedElem g).run s p = .ok e q) :
    Passed s p q := by
  simp [namedElem] at h
  rcases h with ⟨m, hm, t, m₁, ht, h⟩ | ⟨m, hm, c, hc, -⟩
  · obtain rfl := (run_intrinsicFollows hm).1
    have hpassed := passed_of_genericType? hg ht
    cases t with
    | some t =>
      simp at h
      exact h.2 ▸ hpassed
    | none =>
      simp at h
      obtain ⟨⟨hi, rfl⟩, -⟩ := h
      exact .append hpassed (.name hi)
  · obtain rfl := (run_intrinsicFollows hm).1
    exact passed_of_intrinsicCall hg hc

theorem run_plainToken {e : Elem} (hp : s.kind p ≠ .eof) :
    plainToken.run s p = .ok e q ↔ q = p + 1 ∧ .token p = e := by
  simp [plainToken, run_advance_of_kind hp, and_assoc]

theorem passed_of_elem (hg : g.Passes s) {es : List Elem} (he : s.kind p ≠ .eof)
    (hc : (s.kind p).isCloseDelimiter = false) (h : (elem g).run s p = .ok es q) :
    Passed s p q := by
  simp [elem, and_assoc] at h
  rcases h with ⟨-, b, hb, -⟩ | ⟨ho, h⟩
  · exact passed_of_group hg hb
  rcases h with ⟨hk, e, m, hf, es, hes, -⟩ | ⟨hnew, k, m, hm, h⟩
  · obtain ⟨rfl, -⟩ := (run_plainToken he).1 hf
    obtain ⟨hes, hnext⟩ := passed_of_creator hg hes
    exact .append (.made hk hnext) hes
  obtain rfl := run_previousKind hm
  have hword : Passed s p (p + 1) := .word (by simp [Kind.standsAlone, Kind.isBracket, he, hnew, ho, hc])
  rcases h with ⟨-, -, d, hd, -⟩ | ⟨-, ⟨hk, -, m, _, ha, a, hargs, -⟩ | ⟨-, h⟩⟩
  · exact passed_of_typeDeclFrom hg hd
  · obtain ⟨rfl, -⟩ := (run_plainToken he).1 ha
    exact .append hword (passed_of_typeArgs hg hargs)
  rcases h with ⟨-, e, hn, -⟩ | ⟨-, e, hf, -⟩
  · exact passed_of_namedElem hg hn
  · obtain ⟨rfl, -⟩ := (run_plainToken he).1 hf
    exact hword

theorem passed_of_elems (hg : g.Passes s) {u : Bool} {es : List Elem}
    (h : (elems g u).run s p = .ok es q) : Passed s p q := by
  simp [elems] at h
  obtain ⟨ess, h, -⟩ := h
  refine passed_of_manyWhile (fun p q h => ?_) (fun p m n es hm he => ?_) h
  · exact (run_elemFollows h).1 ▸ .empty
  · obtain ⟨rfl, hk⟩ := run_elemFollows hm
    exact passed_of_elem hg (hk rfl).1 (hk rfl).2 he

/-! ## Files -/

theorem passes_nested (s : Script) (n : Nat) : (nested n).Passes s := by
  induction n with
  | zero => exact ⟨by simp [nested], by simp [nested], by simp [nested]⟩
  | succ n ih => exact ⟨passed_of_type ih, passed_of_elems ih, passed_of_classBody ih⟩

theorem passed_of_packageDecl (hg : g.Passes s) {d : Option PackageDecl}
    (h : (packageDecl g).run s p = .ok d q) : Passed s p q := by
  simp [packageDecl, and_assoc] at h
  obtain ⟨as, m, ha, ⟨-, rfl, -⟩ | ⟨hk, n, m', hn, hm, rfl, -⟩⟩ := h
  · exact .empty
  · exact .append (passed_of_annotations hg ha)
      (.append (.of_kind hk rfl) (.append (passed_of_qualifiedName hn) (.of_kind hm rfl)))

theorem passed_of_importDecl {i : ImportDecl} (h : importDecl.run s p = .ok i q) :
    Passed s p q := by
  simp only [importDecl, run_bind, run_position, run_expect (k := .kwImport) (by decide)] at h
  obtain ⟨_, _, ⟨-, rfl⟩, _, _, ⟨hp, rfl⟩, b, m₁, hb, n, m₂, hn, b', m₃, hb', h⟩ := h
  have hname : Passed s m₂ m₃ := passed_of_eat (by decide) hb'
  have hhead : Passed s p m₃ := .append (.of_kind hp rfl) (.append (passed_of_eat (by decide) hb)
    (.append (passed_of_qualifiedName hn) hname))
  refine .append hhead ?_
  simp [and_assoc] at h
  rcases h with ⟨-, hs, hm, rfl, -⟩ | ⟨-, hm, rfl, -⟩
  · exact .append (.of_kind hs rfl) (.of_kind hm rfl)
  · exact .of_kind hm rfl

theorem passed_of_semicolons {u : Unit} (h : semicolons.run s p = .ok u q) : Passed s p q := by
  simp [semicolons] at h
  obtain ⟨us, h⟩ := h
  refine passed_of_manyWhile (fun p q h => ?_) (fun p m n u hm hu => ?_) h
  · simp at h
    exact h.2 ▸ .empty
  · simp at hm
    obtain ⟨hp, rfl⟩ := hm
    simp [run_advance_of_kind, hp] at hu
    exact hu ▸ .of_kind hp rfl

theorem passed_of_compilationUnit (hg : g.Passes s) {u : CompilationUnit}
    (h : (compilationUnit g).run s p = .ok u q) : Passed s p q := by
  simp only [compilationUnit, run_bind, run_pure] at h
  obtain ⟨d, m₁, hd, is, m₂, his, ts, m₃, hts, -, rfl⟩ := h
  have his : Passed s m₁ m₂ := by
    refine passed_of_manyWhile (fun p q h => ?_) (fun p m n i hm hi => ?_) his
    · simp at h
      exact h.2 ▸ .empty
    · simp at hm
      exact hm.2 ▸ passed_of_importDecl hi
  have hts : Passed s m₂ m₃ := by
    refine passed_of_manyWhile (fun p q h => ?_) (fun p m n d hm hd => ?_) hts
    · simp at h
      obtain ⟨⟨u, hu⟩, -⟩ := h
      exact passed_of_semicolons hu
    · simp at hm
      obtain ⟨⟨u, hu⟩, -⟩ := hm
      exact .append (passed_of_semicolons hu) (passed_of_typeDecl hg hd)
  exact .append (passed_of_packageDecl hg hd) (.append his hts)

end Grammar

end Stencil
