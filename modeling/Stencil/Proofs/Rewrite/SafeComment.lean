import Stencil.Proofs.Rewrite.CommentPieces
import Stencil.Proofs.Rewrite.CommentToken

/-!
# Rewritten comments

What is asked of a rewritten comment: it is one comment again, and of the same kind, it does not
mention the placeholders that have a type, rewriting it once more changes nothing, and words have been
put in for these placeholders, for all of them and for nothing else.

Results: for every comment of a text and every binding the rewritten comment is of this sort
(`isSafe_rewriteComment`).
-/

namespace Stencil.Rewrite

variable {c : Char}

/-- A text that is one token. -/
theorem tokens_of_scan {k : Kind} {text : String} {cs : List Char} (htext : text.toList = c :: cs)
    (h : scan c cs = .token k cs.length) :
    (Stream.ofString text).tokens.map (·.toLexeme) = [⟨k, text⟩]
      ∧ (Stream.ofString text).problems = [] := by
  have hmore : (scan c cs).more = cs.length := congrArg Finding.more h
  have hpieces : pieces 0 text.toList = [⟨.ok k, text.toList⟩] := by
    rw [htext, pieces, pieces_eq_drop, hmore, List.drop_length, pieces, Piece.ofScan, hmore, h,
      List.take_length]
    rfl
  constructor
  · rw [map_toLexeme_tokens, hpieces, List.map_singleton, Piece.lexeme, String.ofList_toList]
    rfl
  · rw [Stream.ofString, Stream.ofChars, hpieces]
    rfl

/-- A comment is found where it stands. -/
theorem exists_scan_of_comment {source : String} {t : Token} (h : t ∈ (Stream.ofString source).tokens)
    (hk : t.kind.channel = .comment) :
    ∃ c body rest, t.text = String.ofList (c :: body)
      ∧ scan c (body ++ rest) = .token t.kind body.length := by
  obtain ⟨⟨piece, place⟩, hmem, rfl⟩ := List.mem_map.1 h
  obtain ⟨i, hi⟩ := List.mem_iff_getElem?.1 (mem_pieces_of_mem_layOut hmem)
  have hverdict : piece.verdict = .ok piece.kind := by
    have hkind : piece.kind.channel = .comment := hk
    rw [Piece.kind] at hkind ⊢
    cases hv : piece.verdict with
    | ok k => rfl
    | error flaw =>
      rw [hv] at hkind
      contradiction
  obtain ⟨c, body, hchars, hscan⟩ := exists_scan hi hverdict
  exact ⟨c, body, _, congrArg String.ofList hchars, hscan⟩

/-- The pieces make up the text, and wherever a placeholder stands in it, that is one of the pieces. -/
structure IsDissected (v : Vocabulary) (pieces : List NamePiece) (text : List Char) : Prop where
  sources_eq : sources v pieces = text
  placeholder_iff : ∀ p front rest,
    (∃ before after, pieces = before ++ .placeholder p :: after
        ∧ sources v before = front ∧ sources v after = rest)
      ↔ text = front ++ ((v.name p).toList ++ rest)

open Vocabulary in
theorem isDissected_dissect {v : Vocabulary} (hv : v.isPlain = true) (hs : v.IsSimple) (text : String) :
    IsDissected v (v.dissect text) text.toList := by
  have hsources : sources v (v.dissect text) = text.toList := sources_dissectFrom hv
  refine ⟨hsources, fun p front rest => ⟨?_, ?_⟩⟩
  · rintro ⟨before, after, hpieces, rfl, rfl⟩
    rw [← hsources, hpieces, sources_append, sources_cons]
    rfl
  · intro htext
    refine ⟨v.dissectFrom 0 front, v.dissectFrom 0 rest, ?_, sources_dissectFrom hv, sources_dissectFrom hv⟩
    rw [dissect, htext, dissectFrom_append_name hv hs]

/-- What is asked of a rewritten comment. -/
structure IsSafe (v : Vocabulary) (b : Binding) (comment : Lexeme) (out : String) : Prop where
  /-- It is one token of the same kind. -/
  lexemes : (Stream.ofString out).tokens.map (·.toLexeme) = [⟨comment.kind, out⟩]
  /-- It has no flaws. -/
  problems : (Stream.ofString out).problems = []
  /-- No bound placeholder occurs in it. -/
  clean : ∀ p, (b.resolve p).isSome = true → v.mentions out p = false
  /-- Rewriting it once more changes nothing. -/
  settled : rewriteComment v b out = out
  /-- Words are written for the bound placeholders in the comment, and all else is copied. -/
  pieces : ∃ pieces, IsDissected v pieces comment.text.toList ∧ out.toList = written v b pieces

/-- For every comment of a text and every binding, the rewritten comment is a comment of the same kind
without bound placeholders, and differs from the comment in the words for these only. -/
theorem isSafe_rewriteComment {source : String} {t : Token} (h : t ∈ (Stream.ofString source).tokens)
    (hk : t.kind.channel = .comment) (b : Binding) :
    IsSafe {} b t.toLexeme (rewriteComment {} b t.text) := by
  obtain ⟨c, body, rest, htext, hscan⟩ := exists_scan_of_comment h hk
  obtain ⟨d, -, ds, -, hout, hfound⟩ := scan_rewriteComment (b := b) isInner_name hk hscan
  have hone := hfound [] (.inl rfl)
  rw [List.append_nil] at hone
  rw [← htext] at hout
  obtain ⟨hlexemes, hproblems⟩ := tokens_of_scan hout hone
  have hclean (p : Placeholder) (hp : (b.resolve p).isSome = true) :
      ({} : Vocabulary).mentions (rewriteComment {} b t.text) p = false := by
    obtain ⟨u, hu⟩ := Option.isSome_iff_exists.1 hp
    exact not_mentions_rewriteComment hu fun word => isApart_of_isWord p
  have hpieces := isDissected_dissect Vocabulary.isPlain_default Vocabulary.isSimple_default t.text
  exact ⟨hlexemes, hproblems, hclean, rewriteComment_of_not_mentions hclean, _, hpieces,
    toList_rewriteComment_eq_written Vocabulary.isPlain_default⟩

/-- The theorem at a comment in which the two placeholders follow one another, once with a capital
letter behind them and once without. -/
theorem isSafe_rewriteComment_adjacent :
    IsSafe {} ⟨.int, some .generic⟩ ⟨.docComment, "/**KTypeVTypeMap of KTypeVType*/"⟩
      (rewriteComment {} ⟨.int, some .generic⟩ "/**KTypeVTypeMap of KTypeVType*/") := by
  have hmem : ⟨⟨.docComment, "/**KTypeVTypeMap of KTypeVType*/"⟩, ⟨1, 8, 32⟩⟩
      ∈ (Stream.ofString "int a; /**KTypeVTypeMap of KTypeVType*/").tokens := by
    decide +kernel
  exact isSafe_rewriteComment hmem rfl ⟨.int, some .generic⟩

end Stencil.Rewrite
