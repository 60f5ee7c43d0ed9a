/-!
# Occurrences of a name in a text

Whether a name occurs in a text, and the text with every occurrence of a name exchanged for another
word. Both work on lists of characters, with the versions on `String` on top.

Results: a name that does not occur leaves the text as it is (`replaceChars_of_not_occurs`).
-/

namespace Stencil.Text

/-- Does the pattern stand somewhere in the text? The empty pattern stands in every text. -/
def occursIn (pattern : List Char) : List Char → Bool
  | [] => pattern.isEmpty
  | c :: cs => pattern.isPrefixOf (c :: cs) || occursIn pattern cs

/-- The text with each occurrence of a non-empty pattern exchanged, from left to right and without
overlaps. The first argument counts the characters of the last occurrence still to be passed over. -/
def replaceFrom (pattern new : List Char) : Nat → List Char → List Char
  | _, [] => []
  | k + 1, _ :: cs => replaceFrom pattern new k cs
  | 0, c :: cs =>
    if pattern.isPrefixOf (c :: cs) then new ++ replaceFrom pattern new (pattern.length - 1) cs
    else c :: replaceFrom pattern new 0 cs

/-- The text with each occurrence of the pattern exchanged. The empty pattern occurs before each
character and at the end. -/
def replaceChars (pattern new text : List Char) : List Char :=
  if pattern.isEmpty then text.flatMap (fun c => new ++ [c]) ++ new
  else replaceFrom pattern new 0 text

/-- Does the name occur in the text? Model of `contains`. -/
def mentions (text name : String) : Bool :=
  occursIn name.toList text.toList

/-- The text with each occurrence of the name exchanged for another word. Model of `replace`. -/
def replace (text name new : String) : String :=
  String.ofList (replaceChars name.toList new.toList text.toList)

theorem replaceFrom_of_not_occurs {pattern new text : List Char}
    (h : occursIn pattern text = false) : replaceFrom pattern new 0 text = text := by
  induction text with
  | nil => rfl
  | cons c cs ih =>
    rw [occursIn, Bool.or_eq_false_iff] at h
    simp [replaceFrom, h.1, ih h.2]

theorem isEmpty_eq_false_of_not_occurs {pattern text : List Char}
    (h : occursIn pattern text = false) : pattern.isEmpty = false := by
  cases pattern with
  | nil => cases text <;> simp [occursIn] at h
  | cons => rfl

theorem replaceChars_of_not_occurs {pattern new text : List Char}
    (h : occursIn pattern text = false) : replaceChars pattern new text = text := by
  simp [replaceChars, isEmpty_eq_false_of_not_occurs h, replaceFrom_of_not_occurs h]

end Stencil.Text
