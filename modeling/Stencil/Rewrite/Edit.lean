import Stencil.Rewrite.Comment
import Stencil.Rewrite.Error
import Stencil.Text.Quoted
import Stencil.Token.Source

/-!
# Edits of a token stream

An edit puts a text in place of a range of tokens. The text of a range under edits is put together
from the edits' texts and from the tokens between the edits, which are copied as they are; comments
are rewritten.

Results: without edits the check finds nothing (`checkEdits_nil`), and an edit that lies outside the
range is found first (`checkEdits_of_not_contains`).
-/

namespace Stencil.Rewrite

/-- A text to be put in place of a range of tokens. -/
structure Edit where
  /-- The tokens that are replaced. -/
  range : TokenRange
  /-- The text in place of them. -/
  text : String
deriving DecidableEq, Repr

namespace Edit

/-- An edit that leaves nothing. Model of `delete`. -/
def delete (range : TokenRange) : Edit :=
  ⟨range, ""⟩

/-- Does the edit leave nothing? Model of `is_deletion`. -/
def isDeletion (e : Edit) : Bool :=
  e.text.isEmpty

/-- The edit in words. -/
def display (e : Edit) : String :=
  if e.isDeletion then "delete " ++ e.range.display
  else "replace " ++ e.range.display ++ " with " ++ Text.quoted e.text

/-- Edits come in the order of their ranges. -/
def le (e f : Edit) : Bool :=
  (e.range.order f.range).isLE

end Edit

/-- The first fault of edits in order: one outside the range, or one that begins before the one in
front of it ends. Model of `check_edits`. -/
def checkEdits (range : TokenRange) : Option Edit → List Edit → Option SpecializeError
  | _, [] => none
  | previous, e :: rest =>
    if !range.contains e.range then some (.outOfRange e.range range)
    else
      match previous with
      | some p =>
        if e.range.start < p.range.stop then some (.overlapping p.range e.range)
        else checkEdits range (some e) rest
      | none => checkEdits range (some e) rest

@[simp] theorem checkEdits_nil (range : TokenRange) (previous : Option Edit) :
    checkEdits range previous [] = none := by
  cases previous <;> rfl

theorem checkEdits_of_not_contains {range : TokenRange} {previous : Option Edit} {e : Edit}
    {rest : List Edit} (h : range.contains e.range = false) :
    checkEdits range previous (e :: rest) = some (.outOfRange e.range range) := by
  cases previous <;> simp [checkEdits, h]

/-- The text of a token under a binding: comments are rewritten, other tokens stay. -/
def tokenText (v : Vocabulary) (b : Binding) (t : Token) : String :=
  match t.kind.channel with
  | .comment => rewriteComment v b t.text
  | _ => t.text

/-- The text of the tokens of a range. What lies beyond the end of the stream is left out.
Model of `copy_tokens`. -/
def copy (v : Vocabulary) (b : Binding) (tokens : Array Token) (range : TokenRange) : String :=
  String.join ((tokens.extract range.start range.stop).toList.map (tokenText v b))

/-- The text from one index to another, with the texts of edits in order put in. -/
def splice (v : Vocabulary) (b : Binding) (tokens : Array Token) (stop : Nat) :
    Nat → List Edit → String
  | start, [] => copy v b tokens ⟨start, stop⟩
  | start, e :: rest =>
    copy v b tokens ⟨start, e.range.start⟩ ++ e.text ++ splice v b tokens stop e.range.stop rest

/-- The text of a range under edits, which may come in any order. Model of `reconstruct`. -/
def reconstruct (v : Vocabulary) (b : Binding) (tokens : Array Token) (range : TokenRange)
    (edits : List Edit) : Except SpecializeError String :=
  let sorted := edits.mergeSort Edit.le
  match checkEdits range none sorted with
  | some e => .error e
  | none => .ok (splice v b tokens range.stop range.start sorted)

end Stencil.Rewrite
