import Stencil.Proofs.Token.Spelling
import Stencil.Rewrite.Operation

/-!
# Texts of operations

An operation puts in texts of its own, and for a type that stays a type variable the text of the
variable. None of its own texts holds the letter that a placeholder of the default vocabulary begins
with.

Results: a pattern holds such a letter only within its arguments (`Operation.lacks_pattern`).
-/

namespace Stencil.Rewrite

variable {u : Placeholder} {t : ConcreteType} {target : Target}

/-- Does the letter not stand in what the fragment puts in itself? -/
def Fragment.lacks (c : Char) : Fragment → Bool
  | .fixed text => !text.toList.contains c
  | _ => true

namespace Operation

theorem lacks_isEmptyPattern : (isEmptyPattern t).all (Fragment.lacks u.initial) = true := by
  cases t <;> cases u <;> decide

theorem lacks_emptyText : Fragment.lacks u.initial (.fixed (emptyText t)) = true := by
  cases t <;> cases u <;> decide

theorem lacks_equalsPattern {comparer : Option Nat} {a c : Nat} :
    (equalsPattern t comparer a c).all (Fragment.lacks u.initial) = true := by
  cases comparer <;> cases t <;> cases u <;> rfl

theorem lacks_mixPattern {seeded : Bool} :
    (mixPattern "BitMixer.mix" t seeded).all (Fragment.lacks u.initial) = true := by
  cases seeded <;> cases t <;> cases u <;> decide

theorem lacks_addPattern : (addPattern t).all (Fragment.lacks u.initial) = true := by
  cases t <;> cases u <;> decide

/-- The text of a type variable lacks the letter if the type stays a variable. -/
def LacksVariable (u : Placeholder) (target : Target) : Prop :=
  target.type.isGeneric = true → u.initial ∉ target.variableText.toList

theorem lacks_variableText (h : LacksVariable u target) (hg : target.type.isGeneric = true) :
    Fragment.lacks u.initial (.fixed target.variableText) = true := by
  simpa [Fragment.lacks] using h hg

theorem lacks_comparePattern (h : LacksVariable u target) :
    (comparePattern target).all (Fragment.lacks u.initial) = true := by
  unfold comparePattern
  split
  · rename_i hg
    simp only [List.all_cons, lacks_variableText h hg]
    cases u <;> decide
  · generalize target.type = t
    cases t <;> cases u <;> decide

theorem lacks_newArrayPattern (h : LacksVariable u target) :
    (newArrayPattern target).all (Fragment.lacks u.initial) = true := by
  unfold newArrayPattern
  split
  · rename_i hg
    simp only [List.all_cons, lacks_variableText h hg]
    cases u <;> decide
  · generalize target.type = t
    cases t <;> cases u <;> decide

theorem lacks_castPattern (h : LacksVariable u target) :
    (castPattern target).all (Fragment.lacks u.initial) = true := by
  unfold castPattern
  split
  · rename_i hg
    simp only [List.all_cons, lacks_variableText h hg]
    cases u <;> decide
  · generalize target.type = t
    cases t <;> cases u <;> decide

theorem lacks_pattern {o : Operation} {count : Nat} {pattern : List Fragment}
    (hv : LacksVariable u target) (h : o.pattern "BitMixer.mix" target count = .ok pattern) :
    pattern.all (Fragment.lacks u.initial) = true := by
  unfold Operation.pattern at h
  split at h
  · cases h
    exact lacks_isEmptyPattern
  · cases h
    rw [List.all_cons, lacks_emptyText, List.all_nil, Bool.and_true]
  · cases h
    exact lacks_equalsPattern
  · cases h
    exact lacks_equalsPattern
  · cases h
    exact lacks_comparePattern hv
  · cases h
    exact lacks_mixPattern
  · cases h
    exact lacks_mixPattern
  · cases h
    exact lacks_newArrayPattern hv
  · cases h
    exact lacks_castPattern hv
  · split at h
    · contradiction
    · cases h
      exact lacks_addPattern
  · split at h
    · contradiction
    · cases h
      rfl
  · contradiction

end Operation

end Stencil.Rewrite
