import Stencil.Proofs.Text.Substring
import Stencil.Rewrite.Name

/-!
# Placeholders in substituted names

The substitution exchanges one placeholder after the other. In a plain vocabulary no placeholder
overlaps with a class-name word or with the other placeholder, so an exchange removes one
placeholder from a name and neither adds nor removes the other one.

Results: a placeholder that has a type does not occur in a substituted name
(`Vocabulary.not_mentions_substitute`), and no substitution brings a placeholder into a name
(`Vocabulary.mentions_of_mentions_substitute`).
-/

namespace Stencil

namespace Rewrite

/-- The name with the word for its type in place of one placeholder. -/
def substituteOne (v : Vocabulary) (choice : Choice) (p : Placeholder) (name : String) : String :=
  match choice p with
  | some t => Text.replace name (v.name p) t.boxedName
  | none => name

theorem substitute_eq {v : Vocabulary} {choice : Choice} {name : String} :
    substitute v choice name
      = substituteOne v choice .secondary (substituteOne v choice .primary name) :=
  rfl

theorem substituteOne_of_eq_none {v : Vocabulary} {choice : Choice} {p : Placeholder} {name : String}
    (h : choice p = none) : substituteOne v choice p name = name := by
  rw [substituteOne, h]

end Rewrite

namespace Vocabulary

open Rewrite

variable {v : Vocabulary} {choice : Choice} {p q : Placeholder} {t : ConcreteType} {name : String}

/-- Are the placeholders apart from all class-name words, and from one another? -/
def isPlain (v : Vocabulary) : Bool :=
  (Placeholder.both.all fun p => ConcreteType.all.all fun t =>
    Text.isApart (v.name p).toList t.boxedName.toList)
      && Text.isApart v.primary.toList v.secondary.toList

theorem isPlain_default : ({} : Vocabulary).isPlain = true := by
  decide

theorem isApart_of_isPlain (h : v.isPlain = true) (p : Placeholder) (t : ConcreteType) :
    Text.isApart (v.name p).toList t.boxedName.toList = true := by
  simp only [isPlain, Bool.and_eq_true, List.all_eq_true] at h
  exact h.1 p (by cases p <;> decide) t t.mem_all

theorem name_ne_empty (h : v.isPlain = true) (p : Placeholder) : v.name p ≠ "" := by
  intro hempty
  obtain ⟨a, as, -, -, hname, -⟩ := Text.isApart_iff.1 (isApart_of_isPlain h p .generic)
  simp [hempty] at hname

/-! ## One placeholder -/

theorem mentions_of_mentions_substituteOne (h : v.isPlain = true)
    (hm : v.mentions (substituteOne v choice p name) q = true) : v.mentions name q = true := by
  rw [substituteOne] at hm
  split at hm
  · exact Text.mentions_of_mentions_replace (name_ne_empty h p) (isApart_of_isPlain h q _) hm
  · exact hm

theorem not_mentions_substituteOne (h : v.isPlain = true) (ht : choice p = some t) :
    v.mentions (substituteOne v choice p name) p = false := by
  rw [substituteOne, ht]
  exact Text.mentions_replace_self (isApart_of_isPlain h p t)

/-- The exchange of the primary placeholder leaves the secondary one. -/
theorem mentions_substituteOne_primary (h : v.isPlain = true)
    (hm : v.mentions name .secondary = true) :
    v.mentions (substituteOne v choice .primary name) .secondary = true := by
  rw [substituteOne]
  split
  · simp only [isPlain, Bool.and_eq_true] at h
    exact Text.mentions_replace_of_mentions h.2 hm
  · exact hm

theorem substituteOne_of_not_mentions (hm : v.mentions name p = false) :
    substituteOne v choice p name = name := by
  rw [substituteOne]
  split
  · rw [Text.replace, Text.replaceChars_of_not_occurs hm, String.ofList_toList]
  · rfl

/-! ## Both placeholders -/

theorem mentions_of_mentions_substitute (h : v.isPlain = true)
    (hm : v.mentions (substitute v choice name) q = true) : v.mentions name q = true :=
  mentions_of_mentions_substituteOne h (mentions_of_mentions_substituteOne h hm)

theorem not_mentions_substitute (h : v.isPlain = true) (ht : choice p = some t) :
    v.mentions (substitute v choice name) p = false := by
  rw [substitute_eq]
  cases p with
  | secondary => exact not_mentions_substituteOne h ht
  | primary =>
    rw [Bool.eq_false_iff]
    intro hm
    have hone := mentions_of_mentions_substituteOne h hm
    rw [not_mentions_substituteOne h ht] at hone
    contradiction

end Vocabulary

end Stencil
