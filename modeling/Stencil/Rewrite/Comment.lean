import Stencil.Binding.Instantiation
import Stencil.Unicode.Class

/-!
# Rewriting comments

Comments are texts without structure. A placeholder with a capital letter directly behind it begins
the name of a class, and becomes the class-name word of its type; any other placeholder becomes the
type itself. A placeholder without a type stays. The text is passed step by step, as long as something
is left of it.

Results: a step over a non-empty text that finds no placeholder passes one character
(`commentStep_of_not_found`), and rounds that are laid out are rounds of the loop (`commentRounds_eq`).
-/

namespace Stencil

namespace Rewrite

/-- The placeholder with a type that the text begins with, the primary one before the other, with
its type and the text behind it. -/
def leadingPlaceholder? (v : Vocabulary) (b : Binding) (text : List Char) :
    Option (ConcreteType × List Char) :=
  Placeholder.both.findSome? fun p =>
    let name := (v.name p).toList
    match b.resolve p with
    | some t => if name.isPrefixOf text then some (t, text.drop name.length) else none
    | none => none

/-- The word for a type in front of a text: a capital letter there goes on with the name of a class. -/
def wordBefore (t : ConcreteType) (rest : List Char) : String :=
  if rest.head?.any Unicode.isUppercase then t.boxedName else t.typeName

/-- What is written for the beginning of a text, and the rest of the text. -/
def commentStep (v : Vocabulary) (b : Binding) : List Char → Option (List Char × List Char)
  | [] => none
  | c :: cs =>
    match leadingPlaceholder? v b (c :: cs) with
    | some (t, rest) => some ((wordBefore t rest).toList, rest)
    | none => some ([c], cs)

theorem commentStep_of_not_found {v : Vocabulary} {b : Binding} {c : Char} {cs : List Char}
    (h : leadingPlaceholder? v b (c :: cs) = none) : commentStep v b (c :: cs) = some ([c], cs) := by
  simp [commentStep, h]

end Rewrite

/-- What is written for a text, behind what has been written for the text in front of it. A
placeholder with an empty name is found at one place again and again: the steps do not come to the end
of the text, and there is no result. Model of `rewrite`. -/
def Vocabulary.commentLoop (v : Vocabulary) (b : Binding) (out : String) (text : List Char) :
    Option String :=
  match Rewrite.commentStep v b text with
  | none => some out
  | some (word, rest) => v |>.commentLoop b (out ++ String.ofList word) rest
partial_fixpoint

namespace Rewrite

/-- The loop, with so many of its rounds laid out one behind the other. A text that they come to the
end of is rewritten by mere computation. -/
def commentRounds (v : Vocabulary) (b : Binding) : Nat → String → List Char → Option String
  | 0, out, text => v.commentLoop b out text
  | n + 1, out, text =>
    match commentStep v b text with
    | none => some out
    | some (word, rest) => commentRounds v b n (out ++ String.ofList word) rest

theorem commentRounds_eq {v : Vocabulary} {b : Binding} {n : Nat} {out : String} {text : List Char} :
    commentRounds v b n out text = v.commentLoop b out text := by
  induction n generalizing out text with
  | zero => rfl
  | succ n ih =>
    rw [commentRounds, Vocabulary.commentLoop]
    split
    · rfl
    · exact ih

/-- The comment with its placeholders rewritten. A loop that does not end leaves no text, and the empty
one stands for it here: what is said of whole templates asks for placeholders with names, with which the
loop ends on every comment. Model of `rewrite`. -/
def rewriteComment (v : Vocabulary) (b : Binding) (text : String) : String :=
  (commentRounds v b (text.toList.length + 1) "" text.toList).getD ""

end Rewrite

end Stencil
