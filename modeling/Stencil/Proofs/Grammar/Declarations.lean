import Stencil.Grammar.Declarations
import Stencil.Proofs.Grammar.Types

/-!
# What the rules for declarations find

Every rule for a declaration of a type or of a member finds a tree that reads the tokens which the
rule has passed, as long as the rules for nested text do. A declaration begins at its modifiers,
which are passed before it is known what is declared.

Results: what is found for modifiers, members, constants, type declarations and bodies of types reads
the tokens passed (`reads_of_modifiers`, `reads_of_member`, `reads_of_enumConstant`,
`reads_of_typeDecl`, `reads_of_classBody`).
-/

namespace Stencil.Grammar

open Rule Stretch

variable {s : Script} {p q : Nat} {g : Nested}

/-! ## Modifiers -/

theorem run_modifierFollows {b : Bool} (h : modifierFollows.run s p = .ok b q) :
    q = p ∧ (b = true → s.kind p = .at ∨ (s.kind p).isModifier = true) := by
  simp [modifierFollows, annotationFollows, and_assoc] at h
  grind

theorem isModifier_ne_eof {k : Kind} (h : k.isModifier = true) : k ≠ .eof := by
  rintro rfl
  simp [Kind.isModifier] at h

/-- A modifier in front of others, whatever annotations are among them. -/
theorem readsAmong_cons_flag {k : Kind} {as : List AnnotationUse} {flags : List Kind}
    {m : Nat} (hp : word s k p m) (h : AnnotationUse.readsAmong s as flags m q) :
    AnnotationUse.readsAmong s as (k :: flags) p q := by
  cases as with
  | nil => exact ⟨m, hp, h⟩
  | cons a as =>
    obtain ⟨n, m', ⟨m'', hw, ha⟩, hr⟩ := h
    exact ⟨n + 1, m', ⟨m'', ⟨m, hp, hw⟩, ha⟩, hr⟩

theorem reads_of_modifiers (hg : g.Sound s) {ms : Modifiers}
    (h : (modifiers g).run s p = .ok ms q) : ms.reads s p q := by
  simp [modifiers] at h
  obtain ⟨found, h, rfl⟩ := h
  refine manyWhile_induction
    (P := fun found => Modifiers.reads s
      ⟨found.filterMap Sum.getLeft?, found.filterMap Sum.getRight?⟩) ?_ ?_ h
  · intro p q h
    exact ⟨by simp, (run_modifierFollows h).1.symm⟩
  · intro p m n q f found hm hf ih
    obtain ⟨rfl, hk⟩ := run_modifierFollows hm
    obtain ⟨hflags, hr⟩ := ih
    simp [modifier, and_assoc] at hf
    rcases hf with ⟨-, a, ha, rfl⟩ | ⟨hne, hu, rfl⟩
    · exact ⟨by simpa using hflags, 0, n, ⟨m, rfl, reads_of_annotationUse hg ha⟩, hr⟩
    · have hmod : (s.kind m).isModifier = true := (hk rfl).resolve_left hne
      obtain ⟨u, hu⟩ := hu
      rw [run_advance_of_kind (isModifier_ne_eof hmod)] at hu
      exact ⟨by simpa [hmod] using hflags, readsAmong_cons_flag (word_iff.2 ⟨rfl, hu⟩) hr⟩

/-! ## Declarations of types -/

theorem words_of_declKind {k : DeclKind} (h : declKind.run s p = .ok k q) :
    words s k.words p q := by
  simp only [declKind, run_bind, run_kind] at h
  obtain ⟨_, _, ⟨rfl, rfl⟩, h⟩ := h
  split at h <;> rename_i hp <;> simp [run_advance_of_kind, hp, and_assoc] at h
  · obtain ⟨rfl, rfl⟩ := h
    simp [DeclKind.words, words, hp]
  · obtain ⟨rfl, rfl⟩ := h
    simp [DeclKind.words, words, hp]
  · obtain ⟨rfl, rfl⟩ := h
    simp [DeclKind.words, words, hp]
  · obtain ⟨hi, h⟩ := h
    simp [run_advance_of_kind, hi] at h
    obtain ⟨rfl, rfl⟩ := h
    simp [DeclKind.words, words, hp, hi]

/-- A type declaration reads the tokens from its modifiers on. -/
theorem reads_of_typeDeclFrom (hg : g.Sound s) {start : Nat} {ms : Modifiers} {d : TypeDecl}
    (hms : ms.reads s start p) (h : (typeDeclFrom g start ms).run s p = .ok d q) :
    d.reads s start q := by
  simp [typeDeclFrom, and_assoc] at h
  obtain ⟨k, m₁, hk, hi, tps, m₂, htps, sups, m₃, hsups, ifs, m₄, hifs, b, hb, rfl⟩ := h
  have hi : nameOf s ⟨(s.word m₁).text, m₁⟩ m₁ (m₁ + 1) := ⟨hi, rfl, rfl⟩
  have htps := reads_of_optionalTypeParams hg htps
  have hsups := readsBehind_of_typesAfter hg (by simp) hsups
  have hifs := readsBehind_of_typesAfter hg (by simp) hifs
  exact ⟨⟨m₄, ⟨m₃, ⟨m₂, ⟨m₁ + 1, ⟨m₁, ⟨p, hms, words_of_declKind hk⟩, hi⟩, htps⟩, hsups⟩, hifs⟩,
    hg.classBody hb⟩, rfl⟩

theorem reads_of_typeDecl (hg : g.Sound s) {d : TypeDecl} (h : (typeDecl g).run s p = .ok d q) :
    d.reads s p q := by
  simp [typeDecl, and_assoc] at h
  obtain ⟨ms, m, hms, hd⟩ := h
  exact reads_of_typeDeclFrom hg (reads_of_modifiers hg hms) hd

/-! ## Fields -/

theorem reads_of_declaratorOf (hg : g.Sound s) {i : Ident} {d : Declarator} {m : Nat}
    (hi : nameOf s i m p) (h : (declaratorOf g i).run s p = .ok d q) : d.reads s m q := by
  simp [declaratorOf, and_assoc] at h
  obtain ⟨n, m', hn, ⟨-, rfl, rfl⟩ | ⟨hk, e, he, -, rfl⟩⟩ := h
  · exact ⟨m', ⟨p, hi, dims_of_dims hn⟩, rfl⟩
  · exact ⟨m', ⟨p, hi, dims_of_dims hn⟩, m' + 1, ⟨hk, rfl⟩, reads_of_expr hg he⟩

theorem reads_of_declarator (hg : g.Sound s) {d : Declarator}
    (h : (do declaratorOf g (← identifier)).run s p = .ok d q) : d.reads s p q := by
  simp only [run_bind, run_identifier] at h
  obtain ⟨i, m, hi, hd⟩ := h
  exact reads_of_declaratorOf hg hi hd

theorem reads_of_fieldFrom (hg : g.Sound s) {start : Nat} {ms : Modifiers} {t : TypeExpr} {i : Ident}
    {m : Nat} {f : FieldDecl} (ht : (ms.reads s ++ t.reads s) start m) (hi : nameOf s i m p)
    (h : (fieldFrom g start ms t i).run s p = .ok f q) : f.reads s start q := by
  simp [fieldFrom, and_assoc] at h
  obtain ⟨d, m₁, hd, ds, m₂, hds, hm, rfl, rfl⟩ := h
  have hds := list_of_manyWhile (R := Declarator.readsBehind s) (by simp) (fun _ => rfl)
    (fun _ _ _ => rfl) (reads_of_declarator hg) hds
  exact ⟨⟨m₂, ⟨m, ht, m₁, ⟨m, rfl, reads_of_declaratorOf hg hi hd⟩, hds⟩, hm, rfl⟩, rfl⟩

/-! ## Methods -/

theorem reads_of_param (hg : g.Sound s) {a : Param} (h : (param g).run s p = .ok a q) :
    a.reads s p q := by
  simp [param, and_assoc] at h
  obtain ⟨ms, m₁, hms, t, m₂, ht, h⟩ := h
  have ht : (ms.reads s ++ t.reads s) p m₂ := ⟨m₁, reads_of_modifiers hg hms, reads_of_type hg ht⟩
  rcases h with ⟨-, hi, n, hn, rfl⟩ | ⟨he, hi, n, hn, rfl⟩
  · exact ⟨⟨m₂ + 1, ⟨m₂, ⟨m₂, ht, rfl⟩, hi, rfl, rfl⟩, dims_of_dims hn⟩, rfl⟩
  · exact ⟨⟨m₂ + 1 + 1, ⟨m₂ + 1, ⟨m₂, ht, he, rfl⟩, hi, rfl, rfl⟩, dims_of_dims hn⟩, rfl⟩

theorem reads_of_params (hg : g.Sound s) {as : List Param} (h : (params g).run s p = .ok as q) :
    (word s .leftParen ++ Param.readsBehind s .empty as ++ word s .rightParen) p q := by
  simp [params, and_assoc] at h
  obtain ⟨hp, ⟨hm, rfl, rfl⟩ | ⟨-, m, ha, hm, rfl⟩⟩ := h
  · exact ⟨p + 1, ⟨p + 1, ⟨hp, rfl⟩, rfl⟩, hm, rfl⟩
  · have has := list_of_sepBy (R := Param.readsBehind s) (by simp) (fun _ => rfl)
      (fun _ _ _ => rfl) (reads_of_param hg) (empty_iff.2 rfl) ha
    exact ⟨m, ⟨p + 1, ⟨hp, rfl⟩, has.2⟩, hm, rfl⟩

theorem reads_of_methodBody (hg : g.Sound s) {b : Option Group}
    (h : (methodBody g).run s p = .ok b q) : Group.readsOr s (word s .semicolon) b p q := by
  simp [methodBody, and_assoc] at h
  rcases h with ⟨-, b, hb, rfl⟩ | ⟨-, hp, rfl, rfl⟩
  · exact reads_of_group hg hb
  · exact ⟨hp, rfl⟩

theorem reads_of_methodFrom (hg : g.Sound s) {start : Nat} {ms : Modifiers} {tps : Option TypeParams}
    {t : Option TypeExpr} {i : Ident} {d : MethodDecl}
    (hi : (ms.reads s ++ TypeParams.reads? s tps ++ TypeExpr.reads? s t ++ nameOf s i) start p)
    (h : (methodFrom g start ms tps t i).run s p = .ok d q) : d.reads s start q := by
  simp [methodFrom, and_assoc] at h
  obtain ⟨as, m₁, has, n, m₂, hn, ts, m₃, hts, h⟩ := h
  obtain ⟨m', ⟨m, hl, has⟩, hr⟩ := reads_of_params hg has
  have hts : (ms.reads s ++ TypeParams.reads? s tps ++ TypeExpr.reads? s t ++ nameOf s i
      ++ word s .leftParen ++ Param.readsBehind s .empty as ++ word s .rightParen ++ .dims s n
      ++ TypeExpr.readsBehind s (word s .kwThrows) .comma ts) start m₃ :=
    ⟨m₂, ⟨m₁, ⟨m', ⟨m, ⟨p, hi, hl⟩, has⟩, hr⟩, dims_of_dims hn⟩,
      readsBehind_of_typesAfter hg (by simp) hts⟩
  rcases h with ⟨-, b, hb, rfl⟩ | ⟨hk, m₄, e, he, b, hb, rfl⟩
  · exact ⟨⟨m₃, ⟨m₃, hts, rfl⟩, reads_of_methodBody hg hb⟩, rfl⟩
  · exact ⟨⟨m₄, ⟨m₃, hts, m₃ + 1, ⟨hk, rfl⟩, reads_of_expr hg he⟩, reads_of_methodBody hg hb⟩, rfl⟩

/-! ## Bodies of types -/

theorem run_declFollows {b : Bool} (h : declFollows.run s p = .ok b q) : q = p := by
  simp only [declFollows, run_bind, run_kind] at h
  obtain ⟨_, _, ⟨rfl, rfl⟩, h⟩ := h
  split at h <;> simp at h <;> exact h.2.symm

theorem reads_of_namedMember (hg : g.Sound s) {start : Nat} {ms : Modifiers} {m : Member}
    (hms : ms.reads s start p) (h : (namedMember g start ms).run s p = .ok m q) :
    m.reads s start q := by
  simp [namedMember, and_assoc] at h
  obtain ⟨tps, m₁, htps, h⟩ := h
  have htps := reads_of_optionalTypeParams hg htps
  rcases h with ⟨hi, -, -, d, hd, rfl⟩ | ⟨-, t, m₂, ht, hi, h⟩
  · exact reads_of_methodFrom (t := none) hg ⟨m₁, ⟨m₁, ⟨p, hms, htps⟩, rfl⟩, hi, rfl, rfl⟩ hd
  · have ht := reads_of_type hg ht
    rcases h with ⟨-, d, hd, rfl⟩ | ⟨-, rfl, f, hf, rfl⟩
    · exact reads_of_methodFrom (t := some t) hg ⟨m₂, ⟨m₁, ⟨p, hms, htps⟩, ht⟩, hi, rfl, rfl⟩ hd
    · obtain rfl := empty_iff.1 htps
      exact reads_of_fieldFrom hg ⟨p, hms, ht⟩ ⟨hi, rfl, rfl⟩ hf

theorem reads_of_member (hg : g.Sound s) {m : Option Member} (h : (member g).run s p = .ok m q) :
    (match m with
      | none => word s .semicolon
      | some m => m.reads s) p q := by
  simp [member, and_assoc] at h
  obtain ⟨-, ⟨-, h⟩ | ⟨hp, rfl, rfl⟩⟩ := h
  · rcases h with ⟨-, b, hb, rfl⟩ | ⟨-, ⟨hp, -, u, m₁, hu, b, hb, rfl⟩ | ⟨-, ms, m₁, hms, h⟩⟩
    · exact ⟨p, rfl, reads_of_group hg hb⟩
    · simp [run_advance_of_kind, hp] at hu
      subst hu
      exact ⟨p + 1, ⟨hp, rfl⟩, reads_of_group hg hb⟩
    · have hms := reads_of_modifiers hg hms
      rcases h with ⟨m₂, hf, m, hm, rfl⟩ | ⟨m₂, hf, d, hd, rfl⟩
      · obtain rfl := run_declFollows hf
        exact reads_of_namedMember hg hms hm
      · obtain rfl := run_declFollows hf
        exact reads_of_typeDeclFrom hg hms hd
  · exact ⟨hp, rfl⟩

theorem reads_of_enumConstant (hg : g.Sound s) {c : EnumConstant}
    (h : (enumConstant g).run s p = .ok c q) : c.reads s p q := by
  simp [enumConstant, and_assoc] at h
  obtain ⟨as, m₁, has, hi, args, m₂, hargs, b, h, rfl⟩ := h
  have hargs : (AnnotationUse.readsAll s as ++ nameOf s ⟨(s.word m₁).text, m₁⟩
      ++ Group.readsOr s .empty args) p m₂ :=
    ⟨m₁ + 1, ⟨m₁, readsAll_of_annotations hg has, hi, rfl, rfl⟩, reads_of_optionalGroup hg hargs⟩
  rcases h with ⟨-, b, hb, rfl⟩ | ⟨-, rfl, rfl⟩
  · exact ⟨m₂, hargs, hg.classBody hb⟩
  · exact ⟨m₂, hargs, rfl⟩

theorem run_constantFollows {b : Bool} (h : constantFollows.run s p = .ok b q) : q = p := by
  simp only [constantFollows, run_bind, run_kind, run_pure] at h
  obtain ⟨_, _, ⟨-, rfl⟩, -, rfl⟩ := h
  rfl

/-- The semicolon that may end the constants is one of those in front of the members. -/
theorem reads_of_enumConstants (hg : g.Sound s) {cs : List EnumConstant}
    (h : (enumConstants g).run s p = .ok cs q) :
    (EnumConstant.readsBehind s .empty cs ++ Stretch.run s (· = .semicolon)) p q := by
  have hsemicolon {m : Nat}
      (h : ¬s.kind m = .semicolon ∧ m = q ∨ s.kind m = .semicolon ∧ q = m + 1) :
      Stretch.run s (· = .semicolon) m q := by
    rcases h with ⟨-, rfl⟩ | ⟨hm, rfl⟩
    · exact run_self
    · exact run_succ (P := (· = .semicolon)) hm
  simp [enumConstants] at h
  rcases h with ⟨m, hm, hb, rfl⟩ | ⟨m, hm, c, m₁, hc, cs, m₂, hcs, hb, rfl⟩
  · obtain rfl := run_constantFollows hm
    exact ⟨m, .inl rfl, hsemicolon hb⟩
  · obtain rfl := run_constantFollows hm
    have hcs : EnumConstant.readsBehind s (word s .comma) cs m₁ m₂ := by
      refine manyWhile_induction (P := fun cs => EnumConstant.readsBehind s (word s .comma) cs)
        ?_ ?_ hcs
      · intro p q h
        simp at h
        rcases h with ⟨-, rfl⟩ | ⟨hp, h⟩
        · exact .inl rfl
        · exact .inr ⟨hp, run_constantFollows h⟩
      · intro p m n q c cs hm hc ih
        simp at hm
        obtain ⟨hp, hm⟩ := hm
        obtain rfl := run_constantFollows hm
        exact ⟨n, ⟨p + 1, ⟨hp, rfl⟩, reads_of_enumConstant hg hc⟩, ih⟩
    exact ⟨m₂, ⟨m₁, ⟨m, rfl, reads_of_enumConstant hg hc⟩, hcs⟩, hsemicolon hb⟩

/-- Semicolons in front of members are read with the members. -/
theorem readsAll_of_run {ms : List Member} {m : Nat} (h : Stretch.run s (· = .semicolon) p m)
    (hms : Member.readsAll s ms m q) : Member.readsAll s ms p q := by
  cases ms with
  | nil => exact run_trans h hms
  | cons d ms =>
    obtain ⟨m₁, ⟨m₂, hr, hd⟩, hms⟩ := hms
    exact ⟨m₁, ⟨m₂, run_trans h hr, hd⟩, hms⟩

theorem readsAll_of_members (hg : g.Sound s) {ms : List (Option Member)}
    (h : (manyWhile (do return !(← check .rightBrace)) (member g)).run s p = .ok ms q) :
    Member.readsAll s (ms.filterMap id) p q := by
  refine manyWhile_induction (P := fun ms => Member.readsAll s (ms.filterMap id)) ?_ ?_ h
  · intro p q h
    simp at h
    simp [Member.readsAll, h.2]
  · intro p m n q d ms hm hd ih
    simp at hm
    obtain ⟨-, rfl⟩ := hm
    have hd := reads_of_member hg hd
    cases d with
    | none =>
      obtain ⟨hp, rfl⟩ := hd
      exact readsAll_of_run (run_succ (P := (· = .semicolon)) hp) ih
    | some d => exact ⟨n, ⟨p, run_self, hd⟩, ih⟩

theorem reads_of_classBody (hg : g.Sound s) {e : Bool} {b : ClassBody}
    (h : (classBody g e).run s p = .ok b q) : b.reads s p q := by
  simp [classBody, and_assoc] at h
  obtain ⟨hp, ⟨-, cs, m₁, hcs, ms, m₂, hms, hm, rfl, rfl⟩ | ⟨-, ms, m₁, hms, hm, rfl, rfl⟩⟩ := h
  · obtain ⟨m, hcs, hr⟩ := reads_of_enumConstants hg hcs
    have hms := readsAll_of_run hr (readsAll_of_members hg (by simpa using hms))
    exact ⟨⟨m₂, ⟨m, ⟨p + 1, ⟨hp, rfl⟩, hcs⟩, hms⟩, hm, rfl⟩, rfl⟩
  · exact ⟨⟨m₁, ⟨p + 1, ⟨p + 1, ⟨hp, rfl⟩, .inl rfl⟩, readsAll_of_members hg (by simpa using hms)⟩,
      hm, rfl⟩, rfl⟩

end Stencil.Grammar
