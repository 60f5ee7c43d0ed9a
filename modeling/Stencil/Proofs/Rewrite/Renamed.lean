import Stencil.Proofs.Rewrite.Comment
import Stencil.Rewrite.Arguments

/-!
# Placeholders in rewritten names

A placeholder that is bound to a primitive type does not stay in a name, whether the name stands by
itself or is that of a class with type arguments. A class name takes the types of its slots from its
arguments, and every slot of a bound placeholder has one.

Results: neither a name that is not rewritten nor what another one becomes mentions the placeholder
(`not_mentions_ident`, `not_mentions_segment`).
-/

namespace Stencil

theorem Binding.exists_of_isPrimitive {b : Binding} {p : Placeholder} (h : b.isPrimitive p = true) :
    ∃ t, b.resolve p = some t ∧ t.isGeneric = false := by
  simpa [Binding.isPrimitive, Option.any_eq_true] using h

theorem ConcreteType.keyword?_of_not_isGeneric {t : ConcreteType} (h : t.isGeneric = false) :
    t.keyword? = some t.typeName := by
  cases t <;> first | rfl | contradiction

theorem Vocabulary.name_of_placeholder? {v : Vocabulary} {p : Placeholder} {word : String}
    (h : v.placeholder? word = some p) : v.name p = word := by
  simpa using List.find?_some h

namespace Rewrite

variable {b : Binding} {p q : Placeholder} {name : String} {args : List TypeArg}

theorem not_mentions_of_isApart {v : Vocabulary} {word : String}
    (h : Text.isApart (v.name p).toList word.toList = true) : v.mentions word p = false := by
  obtain ⟨a, as, n, ns, hname, hword, ha, -⟩ := Text.isApart_iff.1 h
  rw [Vocabulary.mentions, Text.mentions, hname, hword]
  exact Text.not_occursIn_of_notMem ha

theorem not_mentions_typeName (p : Placeholder) (t : ConcreteType) :
    ({} : Vocabulary).mentions t.typeName p = false :=
  not_mentions_of_isApart (isApart_of_isWord p ⟨t, .inr rfl⟩)

theorem not_mentions_name (h : p ≠ q) :
    ({} : Vocabulary).mentions (({} : Vocabulary).name q) p = false := by
  cases p <;> cases q <;> first | contradiction | decide

theorem getD_substitute? {v : Vocabulary} {choice : Choice} :
    (substitute? v choice name).getD name = substitute v choice name := by
  simp only [substitute?]
  split
  · rename_i h
    exact h.symm
  · rfl

/-- A name that holds a bound placeholder is rewritten, and other names do not mention it. -/
theorem not_mentions_substitute? {v : Vocabulary} {choice : Choice} {t : ConcreteType}
    (hv : v.isPlain = true) (ht : v.mentions name p = true → choice p = some t) :
    v.mentions ((if v.mentionsAny name then substitute? v choice name else none).getD name) p
      = false := by
  by_cases hp : v.mentions name p = true
  · have hany : v.mentionsAny name = true := List.any_eq_true.2 ⟨p, by cases p <;> decide, hp⟩
    rw [if_pos hany, getD_substitute?]
    exact Vocabulary.not_mentions_substitute hv (ht hp)
  · rw [Bool.not_eq_true] at hp
    split
    · rw [getD_substitute?, Bool.eq_false_iff]
      intro hm
      exact Bool.eq_false_iff.1 hp (Vocabulary.mentions_of_mentions_substitute hv hm)
    · exact hp

/-- What a name becomes does not mention a placeholder that is bound to a primitive type. -/
theorem not_mentions_ident (hp : b.isPrimitive p = true) :
    ({} : Vocabulary).mentions ((renameIdent? {} b name).getD name) p = false := by
  obtain ⟨t, ht, hgeneric⟩ := Binding.exists_of_isPrimitive hp
  cases hq : ({} : Vocabulary).placeholder? name with
  | none =>
    simp only [renameIdent?, hq]
    exact not_mentions_substitute? Vocabulary.isPlain_default fun _ => ht
  | some q =>
    obtain rfl := Vocabulary.name_of_placeholder? hq
    simp only [renameIdent?, hq]
    by_cases hpq : p = q
    · subst hpq
      rw [ht, Option.bind_some, ConcreteType.keyword?_of_not_isGeneric hgeneric]
      exact not_mentions_typeName p t
    · cases hk : (b.resolve q).bind ConcreteType.keyword? with
      | none => exact not_mentions_name hpq
      | some word =>
        obtain ⟨u, -, hu⟩ := Option.bind_eq_some_iff.1 hk
        have hword : u.typeName = word := by rw [ConcreteType.typeName, hu, Option.getD_some]
        rw [Option.getD_some, ← hword]
        exact not_mentions_typeName p u

/-- Every slot of a bound placeholder has a type. -/
theorem segmentChoice_of_mentions {v : Vocabulary} {t : ConcreteType} (ht : b.resolve p = some t)
    (hm : v.mentions name p = true) : ∃ u, segmentChoice v b name args p = some u := by
  have hslot : (v.mentioned name).contains p = true := by
    rw [List.contains_iff_mem]
    exact List.mem_filter.2 ⟨by cases p <;> decide, hm⟩
  simp only [segmentChoice, hslot, if_true]
  split
  · rename_i a _
    simp only [slotType]
    split
    · exact ⟨_, rfl⟩
    · split
      · exact ⟨t, ht⟩
      · exact ⟨_, rfl⟩
  · exact ⟨t, ht⟩

/-- What a class name becomes does not mention a placeholder that is bound to a primitive type. -/
theorem not_mentions_segment (hp : b.isPrimitive p = true) :
    ({} : Vocabulary).mentions ((renameSegment? {} b name args).getD name) p = false := by
  obtain ⟨t, ht, -⟩ := Binding.exists_of_isPrimitive hp
  unfold renameSegment?
  split
  · exact not_mentions_ident hp
  · by_cases hm : ({} : Vocabulary).mentions name p = true
    · obtain ⟨u, hu⟩ := segmentChoice_of_mentions ht hm
      exact not_mentions_substitute? Vocabulary.isPlain_default fun _ => hu
    · exact not_mentions_substitute? (t := t) Vocabulary.isPlain_default fun h => absurd h hm

end Rewrite

end Stencil
