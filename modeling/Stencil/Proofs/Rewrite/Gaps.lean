import Stencil.Proofs.Rewrite.Copied
import Stencil.Proofs.Rewrite.Identifier
import Stencil.Proofs.Token.Strewn

/-!
# Blanks and comments between copied tokens

Between two code tokens of a template there are blanks and comments only. Copied, they still are: a
rewritten comment is a comment, and the end of the line behind one stays.

Results: the copied tokens in front of a code token are a gap (`Job.gap_copies`), and between two words
the gap is not empty (`Job.index_add_one_lt`).
-/

namespace Stencil

/-! ## Comments -/

theorem Scan.isLineEnd_of_countWhile {cs rest : List Char}
    (h : countWhile (fun c => !isLineEnd c) (cs ++ rest) = cs.length) :
    ∀ c ∈ rest.head?, isLineEnd c = true := by
  intro c hc
  obtain ⟨ds, rfl⟩ := List.head?_eq_some_iff.1 hc
  by_contra hline
  have hall := all_of_countWhile h
  rw [Rewrite.countWhile_append hall, countWhile_cons, if_pos (by simp [hline])] at h
  omega

/-- A comment to the end of its line, or one up to its end mark. -/
inductive IsComment (rest : List Char) : List Char → Prop where
  | line {body : List Char} (hbody : ∀ x ∈ body, Scan.isLineEnd x = false)
    (hrest : ∀ c ∈ rest.head?, Scan.isLineEnd c = true) : IsComment rest ('/' :: '/' :: body)
  | block {body : List Char} (hbody : Scan.blockCommentLength body = some body.length) :
    IsComment rest ('/' :: '*' :: body)

theorem isComment_of_scan {c : Char} {w rest : List Char} {k : Kind} (hk : k.channel = .comment)
    (h : scan c (w ++ rest) = .token k w.length) : IsComment rest (c :: w) := by
  obtain ⟨rfl, d, body, rfl, hd⟩ := Rewrite.slash_of_comment hk h
  rw [Scan.scan_slash, List.cons_append, List.length_cons] at h
  rcases hd with rfl | rfl
  · rw [Scan.slash, Finding.token_inj] at h
    have hlength : Scan.countWhile (fun c => !Scan.isLineEnd c) (body ++ rest) = body.length := by omega
    refine .line (fun x hx => ?_) (Scan.isLineEnd_of_countWhile hlength)
    simpa using Scan.all_of_countWhile hlength x hx
  · cases hlength : Scan.blockCommentLength (body ++ rest) with
    | none =>
      rw [Scan.slash, hlength] at h
      exact absurd h Finding.flawed_ne_token
    | some n =>
      rw [Scan.slash_star hlength, Finding.token_inj] at h
      obtain rfl : n = body.length := by omega
      have halone : Scan.blockCommentLength (body ++ []) = some body.length :=
        Scan.blockCommentLength_congr hlength (Nat.le_refl _)
      rw [List.append_nil] at halone
      exact .block halone

theorem Gap.tail_of_isLineEnd {c : Char} {w : List Char} (h : Gap (c :: w)) (hc : Scan.isLineEnd c = true) :
    Gap w := by
  cases h with
  | blank _ h => exact h
  | line _ _ _ => exact absurd hc (by decide)
  | block _ _ => exact absurd hc (by decide)

/-- A comment in front of a gap, which begins with the end of the line if the comment needs it. -/
theorem IsComment.gap_append {rest cs w : List Char} (h : IsComment rest cs) (hw : Gap w)
    (hrest : ∃ c ∈ rest.head?, Scan.isLineEnd c = true → c ∈ w.head?) : Gap (cs ++ w) := by
  cases h with
  | block hbody => exact .block hbody hw
  | line hbody hline =>
    obtain ⟨c, hc, hcw⟩ := hrest
    obtain ⟨w, rfl⟩ := List.head?_eq_some_iff.1 (hcw (hline c hc))
    exact .line hbody (hline c hc) (hw.tail_of_isLineEnd (hline c hc))

/-! ## Positions and indices -/

theorem Lexeme.IsSpelled.isOfType {x : Lexeme} (h : x.IsSpelled) (hx : x.isWord = true) : x.IsOfType := by
  have hall : (Kind.keywordKinds.all fun k => k.spelling.isSome) = true := by decide
  obtain ⟨k, text⟩ := x
  rw [Lexeme.isWord, Bool.or_eq_true, beq_iff_eq, List.contains_iff_mem] at hx
  rcases hx with rfl | hk
  · exact .name (h.name rfl)
  · obtain ⟨spelled, hspelling⟩ := Option.isSome_iff_exists.1 (List.all_eq_true.1 hall k hk)
    have htext := h.spelling spelled hspelling
    dsimp only at htext
    exact .keyword hk (htext ▸ hspelling)

namespace Rewrite.Job

variable {j : Job} {text : String} {i p : Nat}

/-- Tokens between two code tokens are no code. -/
theorem isCode_eq_false (hs : j.source.Indexed) (hi : j.source.index p < i)
    (hip : i < j.source.index (p + 1)) : (j.source.tokenAt i).isCode = false := by
  rw [Bool.eq_false_iff]
  intro hcode
  obtain ⟨m, -, rfl⟩ := hs.exists_index_eq (Nat.lt_of_lt_of_le hip hs.index_le_size) hcode
  rcases Nat.lt_or_ge p m with hlt | hle
  · exact Nat.not_le_of_gt hip (hs.index_le_index hlt)
  · exact Nat.not_le_of_gt hi (hs.index_le_index hle)

theorem copies_cons {stop : Nat} (hi : i < stop) (hsize : i < j.source.tokens.size) :
    j.copies ⟨i, stop⟩ = .copied i :: j.copies ⟨i + 1, stop⟩ := by
  obtain ⟨n, hn⟩ := Nat.exists_eq_succ_of_ne_zero (show min stop j.source.tokens.size - i ≠ 0 by omega)
  have hn' : min stop j.source.tokens.size - (i + 1) = n := by omega
  dsimp only [copies]
  rw [hn, hn', List.range'_succ, List.map_cons]

theorem copies_of_le {stop : Nat} (h : min stop j.source.tokens.size ≤ i) :
    j.copies ⟨i, stop⟩ = [] := by
  dsimp only [copies]
  rw [Nat.sub_eq_zero_of_le h]
  rfl

theorem copies_self (i : Nat) : j.copies ⟨i, i⟩ = [] :=
  copies_of_le (Nat.min_le_left _ _)

theorem copies_append {m stop : Nat} (hi : i ≤ m) (hm : m ≤ stop) :
    j.copies ⟨i, stop⟩ = j.copies ⟨i, m⟩ ++ j.copies ⟨m, stop⟩ := by
  induction hd : m - i generalizing i with
  | zero =>
    obtain rfl : i = m := by omega
    rw [copies_self, List.nil_append]
  | succ d ih =>
    by_cases hsize : i < j.source.tokens.size
    · rw [copies_cons (by omega) hsize, copies_cons (by omega) hsize, ih (by omega) (by omega),
        List.cons_append]
    · rw [copies_of_le (by omega), copies_of_le (by omega), copies_of_le (by omega), List.append_nil]

/-! ## Gaps -/

/-- A token that is no code is blank or a comment, and a copied blank token is the same. -/
theorem gap_copied_append (hv : ∀ p, IsInner (j.vocabulary.name p).toList)
    (hsource : j.source = .ofString text) (hproblems : j.source.problems = [])
    (hi : i < j.source.tokens.size) (hcode : (j.source.tokenAt i).isCode = false) {w : List Char}
    (hw : Gap w)
    (hrest : ∃ c ∈ (charsFrom text.toList (i + 1)).head?, Scan.isLineEnd c = true → c ∈ w.head?) :
    Gap ((j.chunkText (.copied i)).toList ++ w) := by
  obtain ⟨c, body, htext, -, hscan⟩ := exists_scan_tokenAt hsource hproblems hi
  rw [chunkText, tokenText]
  rw [Token.isCode] at hcode
  generalize (j.source.tokenAt i).kind = k at hscan hcode ⊢
  split
  · rename_i hk
    obtain ⟨d, cs, ds, rfl, hrewritten, hfound⟩ := scan_rewriteComment (b := j.binding) hv hk hscan
    rw [htext, hrewritten]
    exact (isComment_of_scan hk (hfound _ (.inr (.inl rfl)))).gap_append hw hrest
  · rename_i hk
    obtain rfl : k = .whitespace := by
      revert hcode hk
      cases k <;> decide
    have hc : Scan.isSpace c = true := by
      by_contra hc
      have hvisible : (scan c (body ++ charsFrom text.toList (i + 1))).kind.isVisible = true :=
        Scan.isVisible_scan (Bool.eq_false_iff.2 hc)
      rw [hscan] at hvisible
      contradiction
    rw [Scan.scan_of_space hc, Finding.token_inj] at hscan
    rw [htext, String.toList_ofList]
    exact (Gap.of_blank (List.forall_mem_cons.2 ⟨hc, Scan.all_of_countWhile hscan.2⟩)).append hw

/-- Copied tokens between two code tokens, up to the second one. -/
theorem gap_copies (hv : ∀ p, IsInner (j.vocabulary.name p).toList)
    (hsource : j.source = .ofString text) (hproblems : j.source.problems = [])
    (hs : j.source.Indexed) (hp : p + 1 < j.source.code.size) (hi : j.source.index p < i)
    (hip : i ≤ j.source.index (p + 1)) :
    Gap (j.chunksText (j.copies ⟨i, j.source.index (p + 1)⟩)).toList := by
  have hsize := hs.index_lt_size hp
  induction hd : j.source.index (p + 1) - i generalizing i with
  | zero =>
    obtain rfl : i = j.source.index (p + 1) := by omega
    rw [copies_self]
    exact .nil
  | succ d ih =>
    have hgap := ih (i := i + 1) (by omega) (by omega) (by omega)
    rw [copies_cons (by omega) (by omega), chunksText_cons, String.toList_append]
    refine gap_copied_append hv hsource hproblems (by omega) (isCode_eq_false hs hi (by omega)) hgap ?_
    obtain ⟨c, body, htext, hchars, hscan⟩ :=
      exists_scan_tokenAt hsource hproblems (show i + 1 < j.source.tokens.size by omega)
    refine ⟨c, by rw [hchars]; rfl, fun hc => ?_⟩
    rw [Scan.scan_of_space (isSpace_of_isLineEnd hc), Finding.token_inj] at hscan
    have hne : i + 1 ≠ j.source.index (p + 1) := by
      intro heq
      have hcode := hs.isCode_tokenAt_index hp
      rw [← heq, Token.isCode, ← hscan.1] at hcode
      contradiction
    have hhead := congrArg List.head? (take_chunkText_copied hv hsource hproblems
      (show i + 1 < j.source.tokens.size by omega)).2
    rw [List.head?_take, List.head?_take, if_neg (by decide), if_neg (by decide), htext,
      String.toList_ofList] at hhead
    rw [copies_cons (by omega) (by omega), chunksText_cons, String.toList_append, List.head?_append, hhead]
    rfl

/-- Copied tokens are not nothing. -/
theorem toList_copies_ne_nil (hv : ∀ p, IsInner (j.vocabulary.name p).toList)
    (hsource : j.source = .ofString text) (hproblems : j.source.problems = [])
    (hi : i < j.source.tokens.size) {stop : Nat} (hstop : i < stop) :
    (j.chunksText (j.copies ⟨i, stop⟩)).toList ≠ [] := by
  obtain ⟨hne, htake⟩ := take_chunkText_copied hv hsource hproblems hi
  rw [copies_cons hstop hi, chunksText_cons, String.toList_append]
  intro hnil
  rw [(List.append_eq_nil_iff.1 hnil).1, List.take_nil] at htake
  rcases List.take_eq_nil_iff.1 htake.symm with h | h
  · contradiction
  · exact hne h

/-! ## Words -/

theorem exists_isNameStart (hsource : j.source = .ofString text) (hi : i < j.source.tokens.size)
    (hword : (j.source.tokenAt i).toLexeme.isWord = true) :
    ∃ c ∈ (j.source.tokenAt i).text.toList.head?, Scan.isNameStart c = true := by
  have hmem : j.source.tokenAt i ∈ (Source.ofString text).tokens := hsource ▸ Source.tokenAt_mem hi
  obtain ⟨c, hc, hstart | ⟨hsymbol, -⟩⟩ := ((Source.isSpelled_of_mem_tokens hmem).isOfType hword).head
  · exact ⟨c, hc, hstart⟩
  · rw [Lexeme.not_isWord_of_typeSymbols hsymbol] at hword
    contradiction

/-- There is a gap between two words. -/
theorem index_add_one_lt (hsource : j.source = .ofString text) (hproblems : j.source.problems = [])
    (hs : j.source.Indexed) (hp : p + 1 < j.source.code.size)
    (hx : (j.source.codeToken p).toLexeme.isWord = true)
    (hy : (j.source.codeToken (p + 1)).toLexeme.isWord = true) :
    j.source.index p + 1 < j.source.index (p + 1) := by
  have hlt := hs.index_lt_index (Nat.lt_succ_self p) (show p < j.source.code.size by omega)
  have hsize := hs.index_lt_size hp
  refine Nat.lt_of_le_of_ne hlt fun heq => ?_
  rw [Source.codeToken, ← heq] at hy
  rw [← heq] at hsize
  obtain ⟨c, body, htext, -, hscan⟩ := exists_scan_tokenAt hsource hproblems (Nat.lt_of_succ_lt hsize)
  obtain ⟨d, more, htext', hchars, -⟩ := exists_scan_tokenAt hsource hproblems hsize
  obtain ⟨x, hxhead, hxstart⟩ := exists_isNameStart hsource (Nat.lt_of_succ_lt hsize) hx
  obtain ⟨y, hyhead, hystart⟩ := exists_isNameStart hsource hsize hy
  rw [htext, String.toList_ofList] at hxhead
  rw [htext', String.toList_ofList] at hyhead
  obtain rfl : c = x := Option.some.inj hxhead
  obtain rfl : d = y := Option.some.inj hyhead
  -- the first word would go on into the other one
  rw [Scan.scan_of_isNameStart hxstart, Scan.name, Finding.token_inj] at hscan
  rw [countWhile_append (Scan.all_of_countWhile hscan.2), hchars, List.cons_append, Scan.countWhile_cons,
    if_pos (isNamePart_of_isNameStart hystart)] at hscan
  omega

end Rewrite.Job

end Stencil
