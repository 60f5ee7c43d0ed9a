import Stencil.Proofs.Landmark
import Stencil.Proofs.Rewrite.Spots
import Stencil.Proofs.Rewrite.Walk

/-!
# Places at every depth

An outline is a list of places, and lists and calls have places in them. All of them together are what
a specialization may rewrite, and what can be said of a place does not depend on its depth.

An outline by itself may hold anything. That of a tree holds lists that come from the tree: a list that
belongs to a class follows the name of that class, and its entries are type arguments or type
parameters with their own outlines, whose landmarks are among those of the tree.

Results: every place of an outline stands where the outline is laid out
(`Outline.exists_laid_of_mem_placesAll`), the names and calls of an outline are those of its places
(`Outline.spotsAll_eq`), and the lists in the outline of a file come from its tree
(`CompilationUnit.stems_outline`).
-/

namespace Stencil.Rewrite

namespace Outline

/-! ## The places of an outline -/

mutual

/-- A place, and the places in it. -/
def places : Outline → List Outline
  | .name i => [.name i]
  | .part i args => [.part i args]
  | .typeArgs owner entries extent => .typeArgs owner entries extent :: argPlaces entries
  | .typeParams entries extent => .typeParams entries extent :: paramPlaces entries
  | .call c args => .call c args :: operandPlaces args

/-- The places of an outline at every depth. -/
def placesAll : List Outline → List Outline
  | [] => []
  | o :: rest => o.places ++ placesAll rest

/-- The places in type arguments. -/
def argPlaces : List (TypeArg × List Outline) → List Outline
  | [] => []
  | (_, inner) :: rest => placesAll inner ++ argPlaces rest

/-- The places in type parameters. -/
def paramPlaces : List (TypeParam × List Outline) → List Outline
  | [] => []
  | (_, inner) :: rest => placesAll inner ++ paramPlaces rest

/-- The places in the arguments of a call. -/
def operandPlaces : List (Expr × List Outline) → List Outline
  | [] => []
  | (_, inner) :: rest => placesAll inner ++ operandPlaces rest

end

theorem placesAll_append (os os' : List Outline) :
    placesAll (os ++ os') = placesAll os ++ placesAll os' := by
  induction os with
  | nil => rfl
  | cons o os ih => simp [placesAll, ih]

mutual

/-- What is in a place is in every outline that holds the place. -/
theorem places_subset_places {x : Outline} : ∀ {o : Outline}, x ∈ o.places → x.places ⊆ o.places
  | .name _, h => List.mem_singleton.1 h ▸ List.Subset.refl _
  | .part _ _, h => List.mem_singleton.1 h ▸ List.Subset.refl _
  | .typeArgs _ _ _, h => by
    rcases List.mem_cons.1 h with rfl | h
    · exact List.Subset.refl _
    · exact List.Subset.trans (places_subset_argPlaces h) (List.subset_cons_self _ _)
  | .typeParams _ _, h => by
    rcases List.mem_cons.1 h with rfl | h
    · exact List.Subset.refl _
    · exact List.Subset.trans (places_subset_paramPlaces h) (List.subset_cons_self _ _)
  | .call _ _, h => by
    rcases List.mem_cons.1 h with rfl | h
    · exact List.Subset.refl _
    · exact List.Subset.trans (places_subset_operandPlaces h) (List.subset_cons_self _ _)

theorem places_subset_placesAll {x : Outline} : ∀ {os : List Outline}, x ∈ placesAll os →
    x.places ⊆ placesAll os
  | _ :: _, h => by
    rcases List.mem_append.1 h with h | h
    · exact List.Subset.trans (places_subset_places h) (List.subset_append_left _ _)
    · exact List.Subset.trans (places_subset_placesAll h) (List.subset_append_right _ _)

theorem places_subset_argPlaces {x : Outline} : ∀ {es : List (TypeArg × List Outline)},
    x ∈ argPlaces es → x.places ⊆ argPlaces es
  | _ :: _, h => by
    rcases List.mem_append.1 h with h | h
    · exact List.Subset.trans (places_subset_placesAll h) (List.subset_append_left _ _)
    · exact List.Subset.trans (places_subset_argPlaces h) (List.subset_append_right _ _)

theorem places_subset_paramPlaces {x : Outline} : ∀ {es : List (TypeParam × List Outline)},
    x ∈ paramPlaces es → x.places ⊆ paramPlaces es
  | _ :: _, h => by
    rcases List.mem_append.1 h with h | h
    · exact List.Subset.trans (places_subset_placesAll h) (List.subset_append_left _ _)
    · exact List.Subset.trans (places_subset_paramPlaces h) (List.subset_append_right _ _)

theorem places_subset_operandPlaces {x : Outline} : ∀ {es : List (Expr × List Outline)},
    x ∈ operandPlaces es → x.places ⊆ operandPlaces es
  | _ :: _, h => by
    rcases List.mem_append.1 h with h | h
    · exact List.Subset.trans (places_subset_placesAll h) (List.subset_append_left _ _)
    · exact List.Subset.trans (places_subset_operandPlaces h) (List.subset_append_right _ _)

end

/-! ## Where places stand -/

mutual

theorem exists_laid_of_mem_places {s : Script} {p q : Nat} {x : Outline} : ∀ {o : Outline},
    o.laid s p q → x ∈ o.places → ∃ a b, x.laid s a b ∧ p ≤ a ∧ b ≤ q
  | .name _, h, hx => List.mem_singleton.1 hx ▸ ⟨p, q, h, Nat.le_refl p, Nat.le_refl q⟩
  | .part _ _, h, hx => List.mem_singleton.1 hx ▸ ⟨p, q, h, Nat.le_refl p, Nat.le_refl q⟩
  | .typeArgs _ _ _, h, hx => by
    rcases List.mem_cons.1 hx with rfl | hx
    · exact ⟨p, q, h, Nat.le_refl p, Nat.le_refl q⟩
    · exact exists_laid_of_mem_argPlaces h.1.1 hx
  | .typeParams _ _, h, hx => by
    rcases List.mem_cons.1 hx with rfl | hx
    · exact ⟨p, q, h, Nat.le_refl p, Nat.le_refl q⟩
    · exact exists_laid_of_mem_paramPlaces h.1.1 hx
  | .call _ _, h, hx => by
    rcases List.mem_cons.1 hx with rfl | hx
    · exact ⟨p, q, h, Nat.le_refl p, Nat.le_refl q⟩
    · obtain ⟨⟨-, m, hhead, hrow⟩, -⟩ := h
      obtain ⟨a, b, hx, ha, hb⟩ := exists_laid_of_mem_operandPlaces hrow hx
      exact ⟨a, b, hx, Nat.le_trans (Stretch.le _ hhead) ha, hb⟩

/-- Every place of an outline that is laid out is laid out itself. -/
theorem exists_laid_of_mem_placesAll {s : Script} {p q : Nat} {x : Outline} :
    ∀ {os : List Outline}, laidAll s os p q → x ∈ placesAll os →
      ∃ a b, x.laid s a b ∧ p ≤ a ∧ b ≤ q
  | o :: os, ⟨_, ⟨_, hn, ho⟩, hos⟩, hx => by
    have hos := of_before hos
    rcases List.mem_append.1 hx with hx | hx
    · obtain ⟨a, b, h, ha, hb⟩ := exists_laid_of_mem_places ho hx
      exact ⟨a, b, h, Nat.le_trans hn.1 ha, Nat.le_trans hb ((laidAll s os).le hos)⟩
    · obtain ⟨a, b, h, ha, hb⟩ := exists_laid_of_mem_placesAll hos hx
      exact ⟨a, b, h, Nat.le_trans (Nat.le_trans hn.1 ((o.laid s).le ho)) ha, hb⟩

theorem exists_laid_of_mem_argPlaces {s : Script} {p q : Nat} {x : Outline} :
    ∀ {es : List (TypeArg × List Outline)}, row s (argRow s es) p q → x ∈ argPlaces es →
      ∃ a b, x.laid s a b ∧ p ≤ a ∧ b ≤ q
  | (_, inner) :: es, ⟨_, ⟨_, hn, h, _⟩, hes⟩, hx => by
    rcases List.mem_append.1 hx with hx | hx
    · obtain ⟨a, b, hx, ha, hb⟩ := exists_laid_of_mem_placesAll h hx
      exact ⟨a, b, hx, Nat.le_trans hn.1 ha, Nat.le_trans hb ((row s _).le hes)⟩
    · obtain ⟨a, b, hx, ha, hb⟩ := exists_laid_of_mem_argPlaces hes hx
      exact ⟨a, b, hx, Nat.le_trans (Nat.le_trans hn.1 ((laidAll s inner).le h)) ha, hb⟩

theorem exists_laid_of_mem_paramPlaces {s : Script} {p q : Nat} {x : Outline} :
    ∀ {es : List (TypeParam × List Outline)}, row s (paramRow s es) p q → x ∈ paramPlaces es →
      ∃ a b, x.laid s a b ∧ p ≤ a ∧ b ≤ q
  | (_, inner) :: es, ⟨_, ⟨_, hn, h, _⟩, hes⟩, hx => by
    rcases List.mem_append.1 hx with hx | hx
    · obtain ⟨a, b, hx, ha, hb⟩ := exists_laid_of_mem_placesAll h hx
      exact ⟨a, b, hx, Nat.le_trans hn.1 ha, Nat.le_trans hb ((row s _).le hes)⟩
    · obtain ⟨a, b, hx, ha, hb⟩ := exists_laid_of_mem_paramPlaces hes hx
      exact ⟨a, b, hx, Nat.le_trans (Nat.le_trans hn.1 ((laidAll s inner).le h)) ha, hb⟩

theorem exists_laid_of_mem_operandPlaces {s : Script} {p q : Nat} {x : Outline} :
    ∀ {es : List (Expr × List Outline)}, row s (operandRow s es) p q → x ∈ operandPlaces es →
      ∃ a b, x.laid s a b ∧ p ≤ a ∧ b ≤ q
  | (_, inner) :: es, ⟨_, ⟨_, hn, h, _⟩, hes⟩, hx => by
    rcases List.mem_append.1 hx with hx | hx
    · obtain ⟨a, b, hx, ha, hb⟩ := exists_laid_of_mem_placesAll h hx
      exact ⟨a, b, hx, Nat.le_trans hn.1 ha, Nat.le_trans hb ((row s _).le hes)⟩
    · obtain ⟨a, b, hx, ha, hb⟩ := exists_laid_of_mem_operandPlaces hes hx
      exact ⟨a, b, hx, Nat.le_trans (Nat.le_trans hn.1 ((laidAll s inner).le h)) ha, hb⟩

end

/-- The name or call of a place by itself. -/
def spot? : Outline → Option Spot
  | .name i => some (.name i)
  | .part i _ => some (.name i)
  | .call c _ => some (.call c)
  | _ => none

mutual

theorem spots_eq : ∀ o : Outline, o.spots = o.places.filterMap spot?
  | .name _ => rfl
  | .part _ _ => rfl
  | .typeArgs _ entries _ => argSpots_eq entries
  | .typeParams entries _ => paramSpots_eq entries
  | .call c args => congrArg (Spot.call c :: ·) (operandSpots_eq args)

theorem spotsAll_eq : ∀ os : List Outline, spotsAll os = (placesAll os).filterMap spot?
  | [] => rfl
  | o :: rest => by
    rw [spotsAll, placesAll, List.filterMap_append, spots_eq o, spotsAll_eq rest]

theorem argSpots_eq : ∀ es : List (TypeArg × List Outline),
    argSpots es = (argPlaces es).filterMap spot?
  | [] => rfl
  | (_, inner) :: rest => by
    rw [argSpots, argPlaces, List.filterMap_append, spotsAll_eq inner, argSpots_eq rest]

theorem paramSpots_eq : ∀ es : List (TypeParam × List Outline),
    paramSpots es = (paramPlaces es).filterMap spot?
  | [] => rfl
  | (_, inner) :: rest => by
    rw [paramSpots, paramPlaces, List.filterMap_append, spotsAll_eq inner, paramSpots_eq rest]

theorem operandSpots_eq : ∀ es : List (Expr × List Outline),
    operandSpots es = (operandPlaces es).filterMap spot?
  | [] => rfl
  | (_, inner) :: rest => by
    rw [operandSpots, operandPlaces, List.filterMap_append, spotsAll_eq inner, operandSpots_eq rest]

end

end Outline

open Outline (placesAll argPlaces paramPlaces operandPlaces)

/-! ## Lists and where they come from -/

/-- Do the lists among the places come from a tree with the given landmarks? -/
structure Stem (xs : List Landmark) (ps : List Outline) : Prop where
  owner : ∀ {n entries extent}, .typeArgs (some n) entries extent ∈ ps →
    ∃ i args, .part i args ∈ ps ∧ i.name = n
  typeArgs : ∀ {owner entries extent}, .typeArgs owner entries extent ∈ ps →
    ∃ as sight, entries = TypeArg.entries as ∧ TypeArg.landmarksAll sight as ⊆ xs
  typeParams : ∀ {entries extent}, .typeParams entries extent ∈ ps →
    ∃ as sight, entries = TypeParam.entries as ∧ TypeParam.landmarksAll sight as ⊆ xs

/-- Do the lists of an outline come from a tree with the given landmarks? -/
abbrev Stems (xs : List Landmark) (os : List Outline) : Prop :=
  Stem xs (placesAll os)

namespace Stem

variable {xs ys : List Landmark} {ps qs : List Outline} {sight : Bool}

theorem nil : Stem xs [] :=
  ⟨by simp, by simp, by simp⟩

theorem mono (h : Stem xs ps) (hsub : xs ⊆ ys) : Stem ys ps := by
  refine ⟨h.owner, fun hp => ?_, fun hp => ?_⟩
  · obtain ⟨as, sight, he, has⟩ := h.typeArgs hp
    exact ⟨as, sight, he, List.Subset.trans has hsub⟩
  · obtain ⟨as, sight, he, has⟩ := h.typeParams hp
    exact ⟨as, sight, he, List.Subset.trans has hsub⟩

theorem union (h : Stem xs ps) (h' : Stem xs qs) : Stem xs (ps ++ qs) := by
  refine ⟨fun hp => ?_, fun hp => ?_, fun hp => ?_⟩
  · rcases List.mem_append.1 hp with hp | hp
    · obtain ⟨i, args, hi, hn⟩ := h.owner hp
      exact ⟨i, args, List.mem_append_left _ hi, hn⟩
    · obtain ⟨i, args, hi, hn⟩ := h'.owner hp
      exact ⟨i, args, List.mem_append_right _ hi, hn⟩
  · exact (List.mem_append.1 hp).elim h.typeArgs h'.typeArgs
  · exact (List.mem_append.1 hp).elim h.typeParams h'.typeParams

theorem append (h : Stem xs ps) (h' : Stem ys qs) : Stem (xs ++ ys) (ps ++ qs) :=
  (h.mono (List.subset_append_left xs ys)).union (h'.mono (List.subset_append_right xs ys))

/-- A place that is no list. -/
theorem cons {o : Outline} (ho : o.spot?.isSome = true) (h : Stem xs ps) : Stem xs (o :: ps) := by
  have hone : Stem xs [o] := by
    refine ⟨fun hp => ?_, fun hp => ?_, fun hp => ?_⟩ <;>
      · obtain rfl := List.mem_singleton.1 hp
        simp [Outline.spot?] at ho
  exact hone.union h

/-- Type arguments that belong to no class. -/
theorem args {as : List TypeArg} {extent : Extent}
    (h : Stem (TypeArg.landmarksAll sight as) (argPlaces (TypeArg.entries as))) :
    Stem (TypeArg.landmarksAll sight as)
      (Outline.typeArgs none (TypeArg.entries as) extent :: argPlaces (TypeArg.entries as)) := by
  have hone : Stem (TypeArg.landmarksAll sight as)
      [Outline.typeArgs none (TypeArg.entries as) extent] := by
    refine ⟨by simp, fun hp => ?_, by simp⟩
    cases List.mem_singleton.1 hp
    exact ⟨as, sight, rfl, List.Subset.refl _⟩
  exact hone.union h

/-- Type arguments behind the name of the class that they belong to. -/
theorem ownedArgs {i : Ident} {as : List TypeArg} {extent : Extent}
    (h : Stem (TypeArg.landmarksAll sight as) (argPlaces (TypeArg.entries as))) :
    Stem (TypeArg.landmarksAll sight as) (Outline.part i as
      :: Outline.typeArgs (some i.name) (TypeArg.entries as) extent
        :: argPlaces (TypeArg.entries as)) := by
  have htwo : Stem (TypeArg.landmarksAll sight as)
      [.part i as, .typeArgs (some i.name) (TypeArg.entries as) extent] := by
    refine ⟨fun hp => ?_, fun hp => ?_, by simp⟩
    · simp only [List.mem_cons, Outline.typeArgs.injEq, reduceCtorEq, false_or, List.not_mem_nil,
        or_false, Option.some.injEq] at hp
      exact ⟨i, as, List.mem_cons_self, hp.1.symm⟩
    · simp only [List.mem_cons, Outline.typeArgs.injEq, reduceCtorEq, false_or, List.not_mem_nil,
        or_false] at hp
      exact ⟨as, sight, hp.2.1, List.Subset.refl _⟩
  exact htwo.union h

/-- Type parameters. -/
theorem params {as : List TypeParam} {extent : Extent}
    (h : Stem (TypeParam.landmarksAll sight as) (paramPlaces (TypeParam.entries as))) :
    Stem (TypeParam.landmarksAll sight as)
      (Outline.typeParams (TypeParam.entries as) extent :: paramPlaces (TypeParam.entries as)) := by
  have hone : Stem (TypeParam.landmarksAll sight as)
      [Outline.typeParams (TypeParam.entries as) extent] := by
    refine ⟨by simp, by simp, fun hp => ?_⟩
    cases List.mem_singleton.1 hp
    exact ⟨as, sight, rfl, List.Subset.refl _⟩
  exact hone.union h

end Stem

namespace Stems

variable {xs ys : List Landmark} {os os' : List Outline} {x : Landmark} {i : Ident}

theorem nil : Stems xs [] :=
  Stem.nil

theorem append (h : Stems xs os) (h' : Stems ys os') : Stems (xs ++ ys) (os ++ os') := by
  rw [Stems, Outline.placesAll_append]
  exact Stem.append h h'

theorem name (h : Stems xs os) : Stems xs (.name i :: os) :=
  Stem.cons rfl h

theorem single {o : Outline} (h : Stem xs o.places) : Stems xs [o] := by
  simpa [Stems, placesAll] using h

/-- The landmark that stands around or in front. -/
theorem landmark (h : Stems xs os) : Stems (x :: xs) os :=
  Stem.mono h (List.subset_cons_self x xs)

end Stems

/-! ## Outlines of trees -/

theorem QualifiedName.stems_outline (n : Stencil.QualifiedName) :
    Stems [] (QualifiedName.outline n) := by
  rw [QualifiedName.outline]
  induction n.segments with
  | nil => exact .nil
  | cons i is ih => exact ih.name

mutual

theorem AnnotationUse.stems_outline (sight : Bool) : ∀ a : Stencil.AnnotationUse,
    Stems (a.landmarks sight) (AnnotationUse.outline a)
  | ⟨name, args, _⟩ =>
    .landmark ((QualifiedName.stems_outline name).append (Group.stems_outline? sight args))

theorem AnnotationUse.stems_outlines (sight : Bool) : ∀ as : List Stencil.AnnotationUse,
    Stems (AnnotationUse.landmarksAll sight as) (AnnotationUse.outlines as)
  | [] => .nil
  | a :: rest => (AnnotationUse.stems_outline sight a).append (AnnotationUse.stems_outlines sight rest)

theorem TypeExpr.stems_outline (sight : Bool) : ∀ t : Stencil.TypeExpr,
    Stems (t.landmarks sight) (TypeExpr.outline t)
  | ⟨annotations, core, _, _⟩ =>
    .landmark ((AnnotationUse.stems_outlines sight annotations).append (TypeCore.stems_outline sight core))

theorem TypeExpr.stems_outline? (sight : Bool) : ∀ t : Option Stencil.TypeExpr,
    Stems (TypeExpr.landmarks? sight t) (TypeExpr.outline? t)
  | none => .nil
  | some t => TypeExpr.stems_outline sight t

theorem TypeExpr.stems_outlines (sight : Bool) : ∀ ts : List Stencil.TypeExpr,
    Stems (TypeExpr.landmarksAll sight ts) (TypeExpr.outlines ts)
  | [] => .nil
  | t :: rest => (TypeExpr.stems_outline sight t).append (TypeExpr.stems_outlines sight rest)

theorem TypeCore.stems_outline (sight : Bool) : ∀ c : Stencil.TypeCore,
    Stems (c.landmarks sight) (TypeCore.outline c)
  | .primitive _ => .nil
  | .named segments => TypeSegment.stems_outlines sight segments

theorem TypeSegment.stems_outlines (sight : Bool) : ∀ ss : List Stencil.TypeSegment,
    Stems (TypeSegment.landmarksAll sight ss) (TypeSegment.outlines ss)
  | [] => .nil
  | ⟨_, none⟩ :: rest => Stem.cons rfl (TypeSegment.stems_outlines sight rest)
  | ⟨_, some ⟨entries, _⟩⟩ :: rest =>
    (Stem.ownedArgs (TypeArg.stem_entries sight entries)).append (TypeSegment.stems_outlines sight rest)

theorem TypeArg.stem_entries (sight : Bool) : ∀ as : List Stencil.TypeArg,
    Stem (TypeArg.landmarksAll sight as) (argPlaces (TypeArg.entries as))
  | [] => .nil
  | a :: rest => Stem.append (TypeArg.stems_outline sight a) (TypeArg.stem_entries sight rest)

theorem TypeArg.stems_outline (sight : Bool) : ∀ a : Stencil.TypeArg,
    Stems (a.landmarks sight) (TypeArg.outline a)
  | .type t => TypeExpr.stems_outline sight t
  | .wildcard _ => .nil
  | .bounded _ t _ => TypeExpr.stems_outline sight t

theorem TypeParam.stems_outline (sight : Bool) : ∀ a : Stencil.TypeParam,
    Stems (a.landmarks sight) (TypeParam.outline a)
  | ⟨annotations, _, bounds, _⟩ =>
    .landmark ((AnnotationUse.stems_outlines false annotations).append
      (Stems.name (TypeExpr.stems_outlines sight bounds)))

theorem TypeParam.stem_entries (sight : Bool) : ∀ as : List Stencil.TypeParam,
    Stem (TypeParam.landmarksAll sight as) (paramPlaces (TypeParam.entries as))
  | [] => .nil
  | a :: rest => Stem.append (TypeParam.stems_outline sight a) (TypeParam.stem_entries sight rest)

theorem TypeParams.stems_outline? (sight : Bool) : ∀ a : Option Stencil.TypeParams,
    Stems (TypeParams.landmarks? sight a) (TypeParams.outline? a)
  | none => .nil
  | some ⟨entries, _⟩ => .single (Stem.params (TypeParam.stem_entries sight entries))

theorem Modifiers.stems_outline (sight : Bool) : ∀ ms : Stencil.Modifiers,
    Stems (ms.landmarks sight) (Modifiers.outline ms)
  | ⟨_, annotations⟩ => AnnotationUse.stems_outlines sight annotations

theorem Group.stems_outline (sight : Bool) : ∀ g : Stencil.Group,
    Stems (g.landmarks sight) (Group.outline g)
  | ⟨_, elems, _⟩ => .landmark (Elem.stems_outlines sight elems)

theorem Group.stems_outline? (sight : Bool) : ∀ g : Option Stencil.Group,
    Stems (Group.landmarks? sight g) (Group.outline? g)
  | none => .nil
  | some g => Group.stems_outline sight g

theorem Expr.stems_outline (sight : Bool) : ∀ e : Stencil.Expr,
    Stems (e.landmarks sight) (Expr.outline e)
  | ⟨elems, _⟩ => Elem.stems_outlines sight elems

theorem Expr.stems_outline? (sight : Bool) : ∀ e : Option Stencil.Expr,
    Stems (Expr.landmarks? sight e) (Expr.outline? e)
  | none => .nil
  | some e => Expr.stems_outline sight e

theorem Expr.stem_entries (sight : Bool) : ∀ es : List Stencil.Expr,
    Stem (Expr.landmarksAll sight es) (operandPlaces (Expr.entries es))
  | [] => .nil
  | e :: rest => Stem.append (Expr.stems_outline sight e) (Expr.stem_entries sight rest)

theorem Elem.stems_outlines (sight : Bool) : ∀ es : List Stencil.Elem,
    Stems (Elem.landmarksAll sight es) (Elem.outlines es)
  | [] => .nil
  | e :: rest => (Elem.stems_outline sight e).append (Elem.stems_outlines sight rest)

theorem Elem.stems_outline (sight : Bool) : ∀ e : Stencil.Elem,
    Stems (e.landmarks sight) (Elem.outline e)
  | .token _ => .nil
  | .ident _ => .name .nil
  | .type t => TypeExpr.stems_outline sight t
  | .typeArgs ⟨entries, _⟩ => .single (Stem.args (TypeArg.stem_entries sight entries))
  | .group g => Group.stems_outline sight g
  | .intrinsic ⟨_, _, _, args, _⟩ =>
    .single (Stem.mono (Stem.cons rfl (Expr.stem_entries sight args)) (List.subset_append_right _ _))
  | .anonymous body => ClassBody.stems_outline sight body
  | .localType decl => TypeDecl.stems_outline sight decl

theorem ClassBody.stems_outline (sight : Bool) : ∀ b : Stencil.ClassBody,
    Stems (b.landmarks sight) (ClassBody.outline b)
  | ⟨constants, members, _⟩ =>
    .landmark ((EnumConstant.stems_outlines sight constants).append (Member.stems_outlines sight members))

theorem ClassBody.stems_outline? (sight : Bool) : ∀ b : Option Stencil.ClassBody,
    Stems (ClassBody.landmarks? sight b) (ClassBody.outline? b)
  | none => .nil
  | some b => ClassBody.stems_outline sight b

theorem EnumConstant.stems_outlines (sight : Bool) : ∀ cs : List Stencil.EnumConstant,
    Stems (EnumConstant.landmarksAll sight cs) (EnumConstant.outlines cs)
  | [] => .nil
  | ⟨annotations, name, args, body⟩ :: rest => by
    have hrest := ((Group.stems_outline? sight args).append
      (ClassBody.stems_outline? sight body)).append (EnumConstant.stems_outlines sight rest)
    have h := (AnnotationUse.stems_outlines false annotations).append (Stems.name (i := name) hrest)
    simpa [EnumConstant.landmarksAll, EnumConstant.landmarks, EnumConstant.outlines] using h

theorem Member.stems_outlines (sight : Bool) : ∀ ms : List Stencil.Member,
    Stems (Member.landmarksAll sight ms) (Member.outlines ms)
  | [] => .nil
  | m :: rest => (Member.stems_outline sight m).append (Member.stems_outlines sight rest)

theorem Member.stems_outline (sight : Bool) : ∀ m : Stencil.Member,
    Stems (m.landmarks sight) (Member.outline m)
  | .field f => FieldDecl.stems_outline sight f
  | .method d => MethodDecl.stems_outline sight d
  | .block _ body => Group.stems_outline sight body
  | .nested decl => TypeDecl.stems_outline sight decl

theorem FieldDecl.stems_outline (sight : Bool) : ∀ f : Stencil.FieldDecl,
    Stems (f.landmarks sight) (FieldDecl.outline f)
  | ⟨modifiers, t, declarators, _⟩ =>
    ((Modifiers.stems_outline sight modifiers).append (TypeExpr.stems_outline sight t)).append
      (Declarator.stems_outlines sight declarators)

theorem Declarator.stems_outlines (sight : Bool) : ∀ ds : List Stencil.Declarator,
    Stems (Declarator.landmarksAll sight ds) (Declarator.outlines ds)
  | [] => .nil
  | ⟨_, _, value⟩ :: rest =>
    Stems.name ((Expr.stems_outline? sight value).append (Declarator.stems_outlines sight rest))

theorem MethodDecl.stems_outline (sight : Bool) : ∀ d : Stencil.MethodDecl,
    Stems (d.landmarks sight) (MethodDecl.outline d)
  | ⟨modifiers, typeParams, returnType, name, params, _, throws, defaultValue, body, _⟩ => by
    have hhead := ((Modifiers.stems_outline sight modifiers).append
      (TypeParams.stems_outline? sight typeParams)).append (TypeExpr.stems_outline? sight returnType)
    have hrest := (((Param.stems_outlines sight params).append
      (TypeExpr.stems_outlines sight throws)).append (Expr.stems_outline? sight defaultValue)).append
        (Group.stems_outline? sight body)
    have h := hhead.append (Stems.name (i := name) hrest)
    simpa [MethodDecl.landmarks, MethodDecl.outline] using h

theorem Param.stems_outlines (sight : Bool) : ∀ as : List Stencil.Param,
    Stems (Param.landmarksAll sight as) (Param.outlines as)
  | [] => .nil
  | ⟨modifiers, t, _, _, _, _⟩ :: rest =>
    ((Modifiers.stems_outline sight modifiers).append (TypeExpr.stems_outline sight t)).append
      (Stems.name (Param.stems_outlines sight rest))

theorem TypeDecl.stems_outline (sight : Bool) : ∀ d : Stencil.TypeDecl,
    Stems (d.landmarks sight) (TypeDecl.outline d)
  | ⟨modifiers, kind, name, typeParams, supertypes, interfaces, body, extent⟩ => by
    have hrest := (((TypeParams.stems_outline? sight typeParams).append
      (TypeExpr.stems_outlines sight supertypes)).append (TypeExpr.stems_outlines sight interfaces)).append
        (ClassBody.stems_outline sight body)
    have h := (Modifiers.stems_outline sight modifiers).append (Stems.name (i := name) hrest)
    refine .landmark ?_
    simpa [TypeDecl.outline] using h

end

/-! ## Files -/

theorem PackageDecl.stems_outline? : ∀ d : Option Stencil.PackageDecl,
    Stems (PackageDecl.landmarks? d) (PackageDecl.outline? d)
  | none => .nil
  | some d => by
    have h := (AnnotationUse.stems_outlines false d.annotations).append
      (QualifiedName.stems_outline d.name)
    rwa [List.append_nil] at h

theorem ImportDecl.stems_outlines (is : List Stencil.ImportDecl) :
    Stems [] (ImportDecl.outlines is) := by
  induction is with
  | nil => exact .nil
  | cons i is ih => exact (QualifiedName.stems_outline i.name).append ih

theorem TypeDecl.stems_outlines (sight : Bool) (ds : List Stencil.TypeDecl) :
    Stems (TypeDecl.landmarksAll sight ds) (TypeDecl.outlines ds) := by
  induction ds with
  | nil => exact .nil
  | cons d ds ih => exact (TypeDecl.stems_outline sight d).append ih

/-- The lists in the outline of a file come from its tree. -/
theorem CompilationUnit.stems_outline (u : Stencil.CompilationUnit) :
    Stems u.landmarks (CompilationUnit.outline u) := by
  have h := ((PackageDecl.stems_outline? u.package).append
    (ImportDecl.stems_outlines u.imports)).append (TypeDecl.stems_outlines true u.types)
  rwa [List.append_nil] at h

end Stencil.Rewrite
