import Stencil.Proofs.Rewrite.Chunks
import Stencil.Proofs.Rewrite.CommentToken

/-!
# Tokens that are copied

A copied token is the token of the template, or a comment that has been rewritten. Either is found again
in front of any text that looks like the one behind the token, and begins with the same two characters.

Results: a copied token keeps its own tokens (`Job.keeps_copied`), and where it stood in the text it is
what the scanner finds (`Job.exists_scan_tokenAt`).
-/

namespace Stencil.Rewrite.Job

variable {j : Job} {text : String} {i : Nat} {rest' : List Char}

/-- A token of a text without problems. -/
theorem exists_scan_tokenAt (hsource : j.source = .ofString text) (hp : j.source.problems = [])
    (hi : i < j.source.tokens.size) : ∃ c body, (j.source.tokenAt i).text = String.ofList (c :: body)
      ∧ charsFrom text.toList i = c :: body ++ charsFrom text.toList (i + 1)
      ∧ scan c (body ++ charsFrom text.toList (i + 1)) = .token (j.source.tokenAt i).kind body.length := by
  rw [hsource] at hp hi ⊢
  have htoken : (Stream.ofString text).tokens[i]? = some ((Source.ofString text).tokenAt i) := by
    have hlt : i < (Stream.ofString text).tokens.length := hi
    rw [Source.tokenAt_of_lt hi, List.getElem?_eq_getElem hlt]
    simp [Source.ofString, Source.ofStream]
  have hlexeme := congrArg (fun xs : List Lexeme => xs[i]?) (map_toLexeme_tokens text)
  simp only [List.getElem?_map, htoken, Option.map_some] at hlexeme
  obtain ⟨p, hpiece, hsame⟩ := Option.map_eq_some_iff.1 hlexeme.symm
  have hkind : p.kind = ((Source.ofString text).tokenAt i).kind := congrArg Lexeme.kind hsame
  have htext : String.ofList p.chars = ((Source.ofString text).tokenAt i).text :=
    congrArg Lexeme.text hsame
  obtain ⟨c, body, hchars, hscan⟩ :=
    exists_scan hpiece (verdict_of_problems hp (List.mem_of_getElem? hpiece))
  refine ⟨c, body, ?_, ?_, ?_⟩
  · rw [← htext, hchars]
  · rw [charsFrom_eq_append hpiece, hchars]
  · rw [← hkind]
    exact hscan

/-- What a token becomes is found in front of any text that looks like the one behind the token. -/
theorem keeps_copied (hv : ∀ p, IsInner (j.vocabulary.name p).toList)
    (hsource : j.source = .ofString text) (hp : j.source.problems = []) (hi : i < j.source.tokens.size)
    (ht : Scan.Trails rest' (charsFrom text.toList (i + 1))) :
    visible ((j.chunkText (.copied i)).toList ++ rest')
      = visible (j.chunkText (.copied i)).toList ++ visible rest' := by
  obtain ⟨c, body, htext, -, hscan⟩ := exists_scan_tokenAt hsource hp hi
  rw [chunkText, tokenText]
  generalize (j.source.tokenAt i).kind = k at hscan ⊢
  have keeps {body' : List Char} (hc : Scan.isSpace c = false)
      (hfound : ∀ rest', Scan.Trails rest' (charsFrom text.toList (i + 1)) →
        scan c (body' ++ rest') = .token k body'.length) :
      visible (c :: body' ++ rest') = visible (c :: body') ++ visible rest' := by
    have halone := visible_append_of_scan hc (hfound [] (.inl rfl))
    rw [List.append_nil, visible_nil] at halone
    rw [visible_append_of_scan hc (hfound rest' ht), halone]
    rfl
  cases hc : Scan.isSpace c with
  | true =>
    rw [Scan.scan_of_space hc, Finding.token_inj] at hscan
    obtain ⟨rfl, hlength⟩ := hscan
    have hblank : ∀ x ∈ c :: body, Scan.isSpace x = true :=
      List.forall_mem_cons.2 ⟨hc, Scan.all_of_countWhile hlength⟩
    have halone : visible (c :: body ++ []) = visible [] := visible_append_of_blank hblank
    rw [List.append_nil, visible_nil] at halone
    show visible ((j.source.tokenAt i).text.toList ++ rest')
      = visible (j.source.tokenAt i).text.toList ++ visible rest'
    rw [htext, String.toList_ofList, visible_append_of_blank hblank, halone, List.nil_append]
  | false =>
    split
    · rename_i hk
      obtain ⟨d, cs, ds, -, hcomment, hfound⟩ := scan_rewriteComment (b := j.binding) hv hk hscan
      rw [htext, hcomment]
      exact keeps hc hfound
    · rw [htext, String.toList_ofList]
      exact keeps hc fun rest' ht => Scan.scan_congr hscan ht

/-- What a token becomes begins with the same two characters. -/
theorem take_chunkText_copied (hv : ∀ p, IsInner (j.vocabulary.name p).toList)
    (hsource : j.source = .ofString text) (hp : j.source.problems = []) (hi : i < j.source.tokens.size) :
    (j.source.tokenAt i).text.toList ≠ [] ∧ (j.chunkText (.copied i)).toList.take 2
      = (j.source.tokenAt i).text.toList.take 2 := by
  obtain ⟨c, body, htext, -, hscan⟩ := exists_scan_tokenAt hsource hp hi
  rw [chunkText, tokenText, htext, String.toList_ofList]
  refine ⟨List.cons_ne_nil c body, ?_⟩
  split
  · rename_i hk
    obtain ⟨d, cs, ds, rfl, hcomment, -⟩ := scan_rewriteComment (b := j.binding) hv hk hscan
    rw [hcomment]
    rfl
  · rw [String.toList_ofList]

end Stencil.Rewrite.Job
