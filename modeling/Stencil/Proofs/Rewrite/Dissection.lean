import Stencil.Proofs.Rewrite.Name

/-!
# Names taken apart

A name is made up of placeholders and of the characters between them. In a plain vocabulary the two
placeholders do not overlap, and a word that is put in for one of them does not bring about the
other one. So the substitution, which exchanges one placeholder after the other, comes to the same
as putting a word in for each piece of the name at once.

Results: a placeholder is mentioned in a name exactly if it is a piece of it
(`Vocabulary.mentions_iff_mem_dissect`), and a substituted name has for each placeholder the word
for its type, or the placeholder itself if it has none (`toList_substitute`).
-/

namespace Stencil

namespace Text

variable {pattern new text xs ys : List Char} {a : Char} {as : List Char} {k : Nat}

/-- The characters still to be passed over are left out. -/
theorem replaceFrom_eq_drop : replaceFrom pattern new k text = replaceFrom pattern new 0 (text.drop k) := by
  induction text generalizing k with
  | nil => cases k <;> simp [replaceFrom]
  | cons c cs ih =>
    cases k with
    | zero => rfl
    | succ k => exact ih

/-- A text that does not hold the first character of the name is passed. -/
theorem replaceFrom_append_of_notMem (ha : a ∉ xs) :
    replaceFrom (a :: as) new 0 (xs ++ ys) = xs ++ replaceFrom (a :: as) new 0 ys := by
  induction xs with
  | nil => rfl
  | cons x xs ih =>
    rw [List.mem_cons, not_or] at ha
    simp [replaceFrom, ih ha.2, ha.1]

/-- A name at the beginning is exchanged, and the exchange goes on behind it. -/
theorem replaceFrom_name_append (h : pattern ≠ []) :
    replaceFrom pattern new 0 (pattern ++ ys) = new ++ replaceFrom pattern new 0 ys := by
  obtain ⟨a, as, rfl⟩ := List.exists_cons_of_ne_nil h
  have hpre : (a :: as).isPrefixOf (a :: (as ++ ys)) = true :=
    List.isPrefixOf_iff_prefix.2 ⟨ys, rfl⟩
  rw [List.cons_append, replaceFrom, if_pos hpre, replaceFrom_eq_drop]
  simp

/-- A name that is exchanged for itself leaves the text as it is. -/
theorem replaceFrom_self (h : pattern ≠ []) : replaceFrom pattern pattern k text = text.drop k := by
  induction text generalizing k with
  | nil => cases k <;> simp [replaceFrom]
  | cons c cs ih =>
    cases k with
    | succ k => exact ih
    | zero =>
      simp only [replaceFrom, List.drop_zero]
      split
      · rename_i hpre
        obtain ⟨rest, hrest⟩ := List.isPrefixOf_iff_prefix.1 hpre
        obtain ⟨a, as, rfl⟩ := List.exists_cons_of_ne_nil h
        rw [List.cons_append, List.cons_eq_cons] at hrest
        rw [ih, ← hrest.1, ← hrest.2]
        simp
      · rw [ih, List.drop_zero]

end Text

/-- A piece of a name. -/
inductive NamePiece where
  /-- A whole placeholder. -/
  | placeholder (p : Placeholder)
  /-- A character outside of placeholders. -/
  | char (c : Char)
deriving DecidableEq, Repr

/-- What is written for a piece: the class-name word of the type, if a placeholder has one, and else
the piece itself. -/
def NamePiece.text (v : Vocabulary) (choice : Rewrite.Choice) : NamePiece → List Char
  | .placeholder p =>
    match choice p with
    | some t => t.boxedName.toList
    | none => (v.name p).toList
  | .char c => [c]

namespace Vocabulary

open Rewrite

variable {v : Vocabulary} {choice : Choice} {p : Placeholder} {text : List Char}

/-- The placeholder that a text begins with. -/
def leading? (v : Vocabulary) (text : List Char) : Option Placeholder :=
  Placeholder.both.find? fun p => (v.name p).toList.isPrefixOf text

/-- The pieces of a text from left to right. The number counts the characters of the last
placeholder still to be passed over. -/
def dissectFrom (v : Vocabulary) : Nat → List Char → List NamePiece
  | _, [] => []
  | k + 1, _ :: cs => dissectFrom v k cs
  | 0, c :: cs =>
    match v.leading? (c :: cs) with
    | some p => .placeholder p :: dissectFrom v ((v.name p).toList.length - 1) cs
    | none => .char c :: dissectFrom v 0 cs

/-- The pieces of a name. -/
def dissect (v : Vocabulary) (name : String) : List NamePiece :=
  v.dissectFrom 0 name.toList

theorem dissectFrom_eq_drop {k : Nat} : v.dissectFrom k text = v.dissectFrom 0 (text.drop k) := by
  induction text generalizing k with
  | nil => cases k <;> simp [dissectFrom]
  | cons c cs ih =>
    cases k with
    | zero => rfl
    | succ k => exact ih

/-- The pieces of a text that begins with a placeholder. -/
theorem dissectFrom_name_append (hne : (v.name p).toList ≠ [])
    (h : v.leading? ((v.name p).toList ++ text) = some p) :
    v.dissectFrom 0 ((v.name p).toList ++ text) = .placeholder p :: v.dissectFrom 0 text := by
  obtain ⟨a, as, hname⟩ := List.exists_cons_of_ne_nil hne
  rw [hname, List.cons_append] at h ⊢
  simp only [dissectFrom]
  rw [h]
  simp only [hname]
  rw [dissectFrom_eq_drop]
  simp

theorem prefix_of_leading? (h : v.leading? text = some p) : (v.name p).toList <+: text :=
  List.isPrefixOf_iff_prefix.1 (List.find?_some (p := fun p => (v.name p).toList.isPrefixOf text) h)

theorem not_prefix_of_leading? (h : v.leading? text = none) (p : Placeholder) :
    ¬(v.name p).toList <+: text := by
  have hp := List.find?_eq_none.1 h p (by cases p <;> decide)
  rwa [List.isPrefixOf_iff_prefix] at hp

/-- A text without pieces, with a placeholder in front, or with another character in front. -/
theorem dissectFrom_induction {motive : List Char → Prop}
    (hne : ∀ p, (v.name p).toList ≠ []) (nil : motive [])
    (placeholder : ∀ p rest, v.leading? ((v.name p).toList ++ rest) = some p → motive rest →
      motive ((v.name p).toList ++ rest))
    (char : ∀ c rest, v.leading? (c :: rest) = none → motive rest → motive (c :: rest))
    (text : List Char) : motive text := by
  induction hn : text.length using Nat.strongRecOn generalizing text with
  | ind n ih =>
    cases text with
    | nil => exact nil
    | cons c cs =>
      cases hlead : v.leading? (c :: cs) with
      | none => exact char c cs hlead (ih cs.length (by simp [← hn]) cs rfl)
      | some p =>
        obtain ⟨rest, hrest⟩ := prefix_of_leading? hlead
        have hlength := congrArg List.length hrest
        have hpos := List.length_pos_iff.2 (hne p)
        rw [List.length_append] at hlength
        rw [← hrest] at hlead ⊢
        exact placeholder p rest hlead (ih rest.length (by omega) rest rfl)

/-- In a plain vocabulary the placeholders have first characters, and these keep them apart. -/
theorem exists_initials (h : v.isPlain = true) : ∃ a as b bs, v.primary.toList = a :: as
    ∧ v.secondary.toList = b :: bs ∧ a ∉ b :: bs ∧ b ∉ a :: as := by
  simp only [isPlain, Bool.and_eq_true] at h
  obtain ⟨a, as, b, bs, hp, hs, ha, hb⟩ := Text.isApart_iff.1 h.2
  refine ⟨a, as, b, bs, hp, hs, ha, ?_⟩
  rw [List.mem_cons, not_or]
  exact ⟨fun heq => ha (heq ▸ List.mem_cons_self), hb⟩

theorem toList_name_ne_nil (h : v.isPlain = true) (p : Placeholder) : (v.name p).toList ≠ [] := by
  simpa using name_ne_empty h p

/-- A placeholder occurs in a text exactly if it is a piece of it. -/
theorem occursIn_iff_mem_dissectFrom (h : v.isPlain = true) :
    Text.occursIn (v.name p).toList text = true ↔ .placeholder p ∈ v.dissectFrom 0 text := by
  obtain ⟨a, as, b, bs, hprimary, hsecondary, ha, hb⟩ := exists_initials h
  induction text using dissectFrom_induction (toList_name_ne_nil h) with
  | nil => simp [dissectFrom, Text.occursIn, toList_name_ne_nil h p]
  | placeholder q rest hlead ih =>
    rw [dissectFrom_name_append (toList_name_ne_nil h q) hlead]
    by_cases hpq : p = q
    · subst hpq
      simp only [List.mem_cons, true_or, iff_true]
      exact Text.occursIn_iff.2 (List.prefix_append _ rest).isInfix
    · have hother : Text.occursIn (v.name p).toList ((v.name q).toList ++ rest)
          = Text.occursIn (v.name p).toList rest := by
        cases p <;> cases q <;> try contradiction
        · simp only [name, hprimary, hsecondary]
          exact Text.occursIn_append_of_notMem ha
        · simp only [name, hprimary, hsecondary]
          exact Text.occursIn_append_of_notMem hb
      simp [hother, ih, hpq]
  | char c rest hlead ih =>
    have hnot := not_prefix_of_leading? hlead p
    rw [← List.isPrefixOf_iff_prefix] at hnot
    simp only [dissectFrom, hlead, List.mem_cons, reduceCtorEq, false_or, Text.occursIn,
      Bool.or_eq_true, hnot, ih]

/-- A placeholder is mentioned in a name exactly if it is a piece of it. -/
theorem mentions_iff_mem_dissect (h : v.isPlain = true) {name : String} :
    v.mentions name p = true ↔ .placeholder p ∈ v.dissect name :=
  occursIn_iff_mem_dissectFrom h

end Vocabulary

namespace Rewrite

open Vocabulary

variable {v : Vocabulary} {choice : Choice} {p : Placeholder}

/-- What is put in for the primary placeholder is passed by the exchange of the secondary one. -/
theorem apart_text_primary (h : v.isPlain = true) {b : Char} {bs : List Char}
    (hs : v.secondary.toList = b :: bs) : ∃ n ns,
    (NamePiece.placeholder .primary).text v choice = n :: ns ∧ b ∉ n :: ns ∧ n ∉ bs := by
  cases hc : choice .primary with
  | none =>
    obtain ⟨a, as, b', bs', hp, hs', ha, hb⟩ := exists_initials h
    cases hs.symm.trans hs'
    refine ⟨a, as, by simpa [NamePiece.text, hc, name] using hp, hb, fun hmem => ?_⟩
    exact ha (List.mem_cons_of_mem b hmem)
  | some t =>
    obtain ⟨b', bs', n, ns, hs', hn, hb, hns⟩ := Text.isApart_iff.1 (isApart_of_isPlain h .secondary t)
    cases hs.symm.trans hs'
    exact ⟨n, ns, by simpa [NamePiece.text, hc] using hn, hb, hns⟩

/-- An exchange puts in what is written for the placeholder, which may be the placeholder itself. -/
theorem toList_substituteOne (h : v.isPlain = true) {name : String} :
    (substituteOne v choice p name).toList
      = Text.replaceFrom (v.name p).toList ((NamePiece.placeholder p).text v choice) 0 name.toList := by
  have hne := toList_name_ne_nil h p
  simp only [substituteOne, NamePiece.text]
  cases choice p with
  | none => simp [Text.replaceFrom_self hne]
  | some t =>
    have hempty : (v.name p).toList.isEmpty = false := by simpa using hne
    simp [Text.replace, Text.replaceChars, hempty]

/-- One exchange after the other comes to the same as both at once. -/
theorem replaceFrom_replaceFrom (h : v.isPlain = true) {text : List Char} :
    Text.replaceFrom v.secondary.toList ((NamePiece.placeholder .secondary).text v choice) 0
        (Text.replaceFrom v.primary.toList ((NamePiece.placeholder .primary).text v choice) 0 text)
      = (v.dissectFrom 0 text).flatMap (NamePiece.text v choice) := by
  obtain ⟨a, as, b, bs, hprimary, hsecondary, ha, -⟩ := exists_initials h
  obtain ⟨n, ns, hword, hb, hn⟩ : ∃ n ns, (NamePiece.placeholder .primary).text v choice = n :: ns
      ∧ b ∉ n :: ns ∧ n ∉ bs := apart_text_primary h hsecondary
  have hp : v.primary.toList ≠ [] := toList_name_ne_nil h .primary
  have hs : v.secondary.toList ≠ [] := toList_name_ne_nil h .secondary
  induction text using dissectFrom_induction (toList_name_ne_nil h) with
  | nil => rfl
  | placeholder q rest hlead ih =>
    rw [dissectFrom_name_append (toList_name_ne_nil h q) hlead, List.flatMap_cons, ← ih]
    cases q with
    | primary =>
      simp only [name]
      rw [Text.replaceFrom_name_append hp, hword, hsecondary]
      exact Text.replaceFrom_append_of_notMem hb
    | secondary =>
      simp only [name]
      rw [hprimary, hsecondary, Text.replaceFrom_append_of_notMem ha, ← hsecondary]
      exact Text.replaceFrom_name_append hs
  | char c rest hlead ih =>
    have hnotPrimary := not_prefix_of_leading? hlead .primary
    have hnotSecondary := not_prefix_of_leading? hlead .secondary
    simp only [name] at hnotPrimary hnotSecondary
    have hstill : ¬v.secondary.toList <+: c :: Text.replaceFrom v.primary.toList (n :: ns) 0 rest := by
      rw [hsecondary, List.cons_prefix_cons] at hnotSecondary ⊢
      exact fun hp => hnotSecondary ⟨hp.1, Text.prefix_of_prefix_replaceFrom hn hp.2⟩
    rw [← List.isPrefixOf_iff_prefix] at hnotPrimary hstill
    rw [← hword] at hstill
    rw [Text.replaceFrom, if_neg hnotPrimary, Text.replaceFrom, if_neg hstill, ih]
    simp only [dissectFrom, hlead]
    rfl

/-- A substituted name has for each placeholder the word for its type, or the placeholder itself if
it has none, and all other characters stay. -/
theorem toList_substitute (h : v.isPlain = true) {name : String} :
    (substitute v choice name).toList = (v.dissect name).flatMap (NamePiece.text v choice) := by
  rw [substitute_eq, toList_substituteOne h, toList_substituteOne h]
  exact replaceFrom_replaceFrom h

end Rewrite

end Stencil
