import Stencil.Proofs.Rewrite.Name
import Stencil.Proofs.Token.Spelled
import Stencil.Rewrite.Arguments

/-!
# Names after a substitution

The class-name words begin with capital letters and are made of letters. So a name in which they stand
for placeholders begins and goes on like a name, and it is no keyword, for no keyword holds a capital
letter. Only a name that is a placeholder as a whole can become a keyword.

Results: what a name or a part of a class name becomes is another name, or the keyword of the type of
the placeholder that it is (`renameIdent?_cases`, `renameSegment?_cases`).
-/

namespace Stencil

/-- Is the character a capital ASCII letter? -/
def isCapital (c : Char) : Bool :=
  'A' ≤ c && c ≤ 'Z'

theorem ConcreteType.exists_capital (t : ConcreteType) : ∃ c cs, t.boxedName.toList = c :: cs
    ∧ isCapital c = true ∧ Scan.isNameStart c = true ∧ ∀ x ∈ c :: cs, Scan.isNamePart x = true := by
  cases t <;> exact ⟨_, _, rfl, by decide, by decide, List.all_eq_true.1 (by decide)⟩

/-- Keywords are written in small letters. -/
theorem Kind.not_isCapital_of_ofKeyword? {word : String} {k : Kind} (h : ofKeyword? word = some k) :
    ∀ c ∈ word.toList, isCapital c = false := by
  have hall : (keywords.all fun x => x.1.toList.all fun c => !isCapital c) = true := by
    decide +kernel
  obtain ⟨before, behind, hmem, -⟩ := List.lookup_eq_some_iff.1 h
  have hword := List.all_eq_true.1 hall (word, k) (hmem ▸ List.mem_append_right before List.mem_cons_self)
  intro c hc
  simpa using List.all_eq_true.1 hword c hc

theorem ofKeyword?_eq_none {word : String} {c : Char} (hc : c ∈ word.toList) (h : isCapital c = true) :
    Kind.ofKeyword? word = none := by
  cases hk : Kind.ofKeyword? word with
  | none => rfl
  | some k =>
    have hnot := Kind.not_isCapital_of_ofKeyword? hk c hc
    rw [h] at hnot
    contradiction

/-! ## Exchanges -/

/-- An exchanged text begins like the text or like the word that is put in. -/
theorem Text.head?_replaceChars {pattern new text : List Char} {c : Char} (hnew : new ≠ [])
    (h : c ∈ (Text.replaceChars pattern new text).head?) : c ∈ text.head? ∨ c ∈ new.head? := by
  obtain ⟨n, ns, rfl⟩ := List.exists_cons_of_ne_nil hnew
  rw [Text.replaceChars] at h
  split at h
  · cases text <;> exact .inr (by simpa using h)
  · cases text with
    | nil => simp [Text.replaceFrom] at h
    | cons d ds =>
      simp only [Text.replaceFrom] at h
      split at h
      · exact .inr (by simpa using h)
      · exact .inl (by simpa using h)

theorem isName_iff {text : String} : isName text = true ↔ ∃ c cs, text.toList = c :: cs
    ∧ Scan.isNameStart c = true ∧ (∀ x ∈ cs, Scan.isNamePart x = true)
    ∧ Kind.ofKeyword? text = none := by
  unfold isName
  split
  · rename_i hnil
    simp [hnil]
  · rename_i c cs hcons
    simp [hcons, and_assoc]

theorem isNamePart_of_isNameStart {c : Char} (h : Scan.isNameStart c = true) :
    Scan.isNamePart c = true := by
  simp only [Scan.isNameStart, Bool.or_eq_true] at h
  simp only [Scan.isNamePart, Unicode.isAlphanumeric, Bool.or_eq_true]
  rcases h with (h | h) | h
  · exact .inl (.inl (.inl h))
  · exact .inl (.inr h)
  · exact .inr h

/-- A name in which words stand for a placeholder is a name. -/
theorem isName_replaced {name old : String} (t : ConcreteType) (h : isName name = true) :
    isName (Text.replace name old t.boxedName) = true := by
  by_cases ho : Text.occursIn old.toList name.toList = true
  · obtain ⟨n, ns, hword, hcapital, hstart, hparts⟩ := t.exists_capital
    obtain ⟨c, cs, hname, hc, hcs, -⟩ := isName_iff.1 h
    have hnew : t.boxedName.toList ≠ [] := by simp [hword]
    have hn : n ∈ (Text.replace name old t.boxedName).toList := by
      rw [Text.replace, String.toList_ofList]
      exact Text.mem_replaceChars ho (by simp [hword])
    have hall {x : Char} (hx : x ∈ (Text.replace name old t.boxedName).toList) :
        Scan.isNamePart x = true := by
      rw [Text.replace, String.toList_ofList] at hx
      rcases Text.mem_of_mem_replaceChars hx with hx | hx
      · rw [hname, List.mem_cons] at hx
        rcases hx with rfl | hx
        · exact isNamePart_of_isNameStart hc
        · exact hcs x hx
      · exact hparts x (hword ▸ hx)
    obtain ⟨d, ds, htext⟩ := List.exists_cons_of_ne_nil (List.ne_nil_of_mem hn)
    have hd : Scan.isNameStart d = true := by
      have hhead : d ∈ (Text.replaceChars old.toList t.boxedName.toList name.toList).head? := by
        rw [Text.replace, String.toList_ofList] at htext
        rw [htext]
        rfl
      rcases Text.head?_replaceChars hnew hhead with hd | hd
      · rw [hname] at hd
        exact Option.some.inj hd ▸ hc
      · rw [hword] at hd
        exact Option.some.inj hd ▸ hstart
    refine isName_iff.2 ⟨d, ds, htext, hd, fun x hx => hall ?_, ofKeyword?_eq_none hn hcapital⟩
    rw [htext]
    exact List.mem_cons_of_mem d hx
  · rw [Text.replace, Text.replaceChars_of_not_occurs (Bool.eq_false_iff.2 ho), String.ofList_toList]
    exact h

namespace Rewrite

variable {v : Vocabulary} {b : Binding} {choice : Choice} {name text : String}

theorem isName_substitutedOne {p : Placeholder} (h : isName name = true) :
    isName (substituteOne v choice p name) = true := by
  rw [substituteOne]
  split
  · exact isName_replaced _ h
  · exact h

theorem isName_substituted (h : isName name = true) : isName (substitute v choice name) = true :=
  isName_substitutedOne (isName_substitutedOne h)

/-- A substitution that changes a name makes another name of it. -/
theorem isName_of_substitute? (hname : isName name = true) (h : substitute? v choice name = some text) :
    isName text = true ∧ text ≠ name := by
  simp only [substitute?] at h
  split at h
  · contradiction
  · rename_i hne
    cases h
    exact ⟨isName_substituted hname, hne⟩

/-- A name that changes is a placeholder and becomes the keyword of its type, or it is none and becomes
another name. -/
theorem renameIdent?_cases (hname : isName name = true) (h : renameIdent? v b name = some text) :
    (∃ p t, v.placeholder? name = some p ∧ b.resolve p = some t ∧ t.keyword? = some text)
      ∨ v.placeholder? name = none ∧ isName text = true ∧ text ≠ name := by
  simp only [renameIdent?] at h
  split at h
  · rename_i p hp
    obtain ⟨t, ht, hk⟩ := Option.bind_eq_some_iff.1 h
    exact .inl ⟨p, t, hp, ht, hk⟩
  · rename_i hp
    split at h
    · exact .inr ⟨hp, isName_of_substitute? hname h⟩
    · contradiction

theorem renameSegment?_cases {args : List TypeArg} (hname : isName name = true)
    (h : renameSegment? v b name args = some text) :
    (∃ p t, v.placeholder? name = some p ∧ b.resolve p = some t ∧ t.keyword? = some text)
      ∨ v.placeholder? name = none ∧ isName text = true ∧ text ≠ name := by
  simp only [renameSegment?] at h
  split at h
  · exact renameIdent?_cases hname h
  · rename_i hp
    rw [Option.not_isSome_iff_eq_none] at hp
    split at h
    · exact .inr ⟨hp, isName_of_substitute? hname h⟩
    · contradiction

end Rewrite

end Stencil
