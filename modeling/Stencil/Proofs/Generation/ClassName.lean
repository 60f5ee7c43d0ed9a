import Mathlib.Data.List.Infix
import Stencil.Proofs.Generation.OutputPath
import Stencil.Proofs.Rewrite.CommentPieces

/-!
# Names of classes

The name of a generated class is written in its declaration, in comments, and in the name of its
file. All three have the same pieces. Identifiers and file names take the class-name word for each
placeholder, and comments take it where a capital letter follows. If one does so behind each
placeholder, the three agree.

Results: a name that goes on behind each placeholder is substituted as it is rewritten in a comment
(`substitute_eq_rewriteComment`), and the identifier, the comment and the stem of the file name agree
on such a name (`names_agree`).
-/

namespace Stencil

variable {v : Vocabulary} {b : Binding} {p : Placeholder}

namespace Rewrite

variable {text rest : List Char} {name extension : String} {choice : Choice}

/-! ## Placeholders in names of classes -/

/-- Does a capital letter follow wherever a placeholder stands in the text? -/
def IsJoined (v : Vocabulary) (text : List Char) : Prop :=
  ∀ p rest, (v.name p).toList ++ rest <:+ text → rest.head?.any Unicode.isUppercase = true

/-- It is enough to look at the ends of the text that begin with a placeholder. -/
theorem isJoined_iff : IsJoined v text ↔ ∀ tail ∈ text.tails, ∀ p ∈ Placeholder.both,
    (v.name p).toList <+: tail →
      (tail.drop (v.name p).toList.length).head?.any Unicode.isUppercase = true := by
  constructor
  · intro h tail htail p _ hpre
    obtain ⟨rest, rfl⟩ := hpre
    rw [List.drop_left]
    exact h p rest ((List.mem_tails _ _).1 htail)
  · intro h p rest hrest
    have hp : p ∈ Placeholder.both := by cases p <;> decide
    have hjoined := h _ ((List.mem_tails _ _).2 hrest) p hp (List.prefix_append _ _)
    rwa [List.drop_left] at hjoined

instance : DecidablePred (IsJoined v) := fun _ => decidable_of_iff _ isJoined_iff.symm

theorem IsJoined.of_suffix (h : IsJoined v text) (hs : rest <:+ text) : IsJoined v rest := by
  intro p more hmore
  exact h p more (hmore.trans hs)

open Vocabulary in
/-- If the text goes on behind each placeholder, the same is written for its pieces in names and in
comments. -/
theorem flatMap_text_eq_written (hv : v.isPlain = true) (h : IsJoined v text) :
    (v.dissectFrom 0 text).flatMap (NamePiece.text v b.resolve) = written v b (v.dissectFrom 0 text) := by
  induction text using dissectFrom_induction (toList_name_ne_nil hv) with
  | nil => rfl
  | placeholder p rest hlead ih =>
    rw [dissectFrom_name_append (toList_name_ne_nil hv p) hlead, List.flatMap_cons, NamePiece.text, written,
      ih (h.of_suffix (List.suffix_append _ _))]
    cases b.resolve p with
    | none => rfl
    | some t =>
      have hjoined := h p rest List.suffix_rfl
      simp only [wordBefore, sources_dissectFrom hv, if_pos hjoined]
  | char c rest hlead ih =>
    rw [dissectFrom, hlead]
    exact congrArg (c :: ·) (ih (h.of_suffix (List.suffix_cons _ _)))

/-- A name that goes on behind each placeholder is substituted as it is rewritten in a comment. -/
theorem substitute_eq_rewriteComment (hv : v.isPlain = true) (h : IsJoined v name.toList) :
    substitute v b.resolve name = rewriteComment v b name := by
  rw [← String.toList_inj, toList_substitute hv, toList_rewriteComment_eq_written hv]
  exact flatMap_text_eq_written hv h

/-- A name that goes on behind each placeholder is no placeholder, and is substituted. -/
theorem getD_renameIdent? (h : IsJoined v name.toList) :
    (renameIdent? v b name).getD name = substitute v b.resolve name := by
  have hnone : v.placeholder? name = none := by
    refine List.find?_eq_none.2 fun p _ hp => ?_
    have hjoined := h p [] (by rw [List.append_nil, beq_iff_eq.1 hp])
    contradiction
  simp only [renameIdent?, hnone, substitute?]
  by_cases hm : v.mentionsAny name = true
  · rw [if_pos hm]
    split
    · rename_i heq
      exact heq.symm
    · rfl
  · rw [if_neg hm, substitute_of_not_mentions (Bool.eq_false_iff.2 hm)]
    rfl

/-! ## Stems of file names -/

theorem substituteOne_append_extension (hdot : '.' ∉ (v.name p).toList)
    (hm : v.mentions extension p = false) :
    substituteOne v choice p (name ++ "." ++ extension) = substituteOne v choice p name ++ "." ++ extension := by
  rw [substituteOne, substituteOne]
  cases choice p with
  | none => rfl
  | some t =>
    have hexchange : Text.replaceChars (v.name p).toList t.boxedName.toList
        (name.toList ++ '.' :: extension.toList)
        = Text.replaceChars (v.name p).toList t.boxedName.toList name.toList ++ '.' :: extension.toList :=
      Text.replaceChars_append_cons hdot hm
    rw [← String.toList_inj]
    simpa [Text.replace] using hexchange

/-- An extension without placeholders stays. -/
theorem substitute_append_extension (hdot : ∀ p, '.' ∉ (v.name p).toList)
    (hm : ∀ p, v.mentions extension p = false) :
    substitute v choice (name ++ "." ++ extension) = substitute v choice name ++ "." ++ extension := by
  rw [substitute_eq, substituteOne_append_extension (hdot .primary) (hm .primary),
    substituteOne_append_extension (hdot .secondary) (hm .secondary), substitute_eq]

theorem substituteOne_ne_empty (hname : name ≠ "") : substituteOne v choice p name ≠ "" := by
  rw [substituteOne]
  split
  · rename_i t _
    obtain ⟨c, hc, -⟩ := t.exists_letter
    have hne : name.toList ≠ [] := by simpa using hname
    simpa [Text.replace] using Text.replaceChars_ne_nil (List.ne_nil_of_mem hc) hne
  · exact hname

end Rewrite

namespace Path

/-- A file name without its extension and the dot in front of it. -/
def stemOf (name : List Char) : List Char :=
  match extensionOf? name with
  | some ext => name.take (name.length - (ext.length + 1))
  | none => name

/-- The stem of the file that the path names. -/
def stem? (p : Path) : Option String :=
  p.fileName?.map fun name => String.ofList (stemOf name.toList)

theorem stemOf_append {front ext : List Char} (hfront : front ≠ []) (hdot : '.' ∉ ext) :
    stemOf (front ++ '.' :: ext) = front := by
  simp [stemOf, extensionOf?_append hfront hdot]

end Path

theorem stem?_outputPath {name extension : String} {template : Path} (hv : ∀ p, '.' ∉ (v.name p).toList)
    (hname : name ≠ "") (hfile : template.fileName? = some (name ++ "." ++ extension))
    (hdot : '.' ∉ extension.toList) (hm : ∀ p, v.mentions extension p = false) :
    (Instantiation.outputPath v ⟨template, b⟩).stem? = some (Rewrite.substitute v b.resolve name) := by
  have hne : (Rewrite.substitute v b.resolve name).toList ≠ [] := by
    rw [ne_eq, String.toList_eq_nil_iff, Rewrite.substitute_eq]
    exact Rewrite.substituteOne_ne_empty (Rewrite.substituteOne_ne_empty hname)
  have hstem := Path.stemOf_append hne hdot
  rw [Path.stem?, fileName?_outputPath, hfile, Option.map_some, Option.map_some,
    Rewrite.substitute_append_extension hv hm]
  simp only [String.toList_append, List.append_assoc]
  rw [show ".".toList ++ extension.toList = '.' :: extension.toList from rfl, hstem, String.ofList_toList]

/-- Let a capital letter follow each placeholder in a name. Then an identifier of this name, the name
in a comment, and the stem of an output whose template has this name, with an extension that mentions
no placeholder, become the same. -/
theorem names_agree {name : String} {template : Path} (extension : String)
    (hjoined : Rewrite.IsJoined {} name.toList) (hname : name ≠ "")
    (hfile : template.fileName? = some (name ++ "." ++ extension)) (hdot : '.' ∉ extension.toList)
    (hextension : ({} : Vocabulary).mentionsAny extension = false) :
    (Rewrite.renameIdent? {} b name).getD name = Rewrite.rewriteComment {} b name
      ∧ (Instantiation.outputPath {} ⟨template, b⟩).stem? = some (Rewrite.rewriteComment {} b name) := by
  have hm (p : Placeholder) : ({} : Vocabulary).mentions extension p = false :=
    Bool.eq_false_iff.2 (List.any_eq_false.1 hextension p (by cases p <;> decide))
  rw [← Rewrite.substitute_eq_rewriteComment Vocabulary.isPlain_default hjoined]
  exact ⟨Rewrite.getD_renameIdent? hjoined,
    stem?_outputPath (fun p => by cases p <;> decide) hname hfile hdot hm⟩

/-- The theorem at a name in which each placeholder stands behind what could be the beginning of it. -/
theorem names_agree_overlap :
    (Rewrite.renameIdent? {} ⟨.int, some .long⟩ "KKTypeVTypeX").getD "KKTypeVTypeX"
        = Rewrite.rewriteComment {} ⟨.int, some .long⟩ "KKTypeVTypeX"
      ∧ (Instantiation.outputPath {} ⟨⟨"a/KKTypeVTypeX.java"⟩, ⟨.int, some .long⟩⟩).stem?
        = some (Rewrite.rewriteComment {} ⟨.int, some .long⟩ "KKTypeVTypeX") :=
  names_agree "java" (by decide) (by decide) (by decide) (by decide) (by decide)

end Stencil
