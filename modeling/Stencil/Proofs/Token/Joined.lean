import Stencil.Proofs.Token.Lossless
import Stencil.Proofs.Token.Lookahead

/-!
# Tokens of joined texts

Texts that are joined may have other tokens than they have on their own: the last token of one text
goes on into the next one. Blanks that meet do no harm, so tokens are compared without blanks. For
these it is enough to look at one text after the other, together with all that is behind it.

Results: joined texts have the tokens of the single ones exactly if each of them keeps its own in front
of what is behind it (`visible_flatten_iff`).
-/

namespace Stencil

/-- Is the token no blank? -/
def Kind.isVisible (k : Kind) : Bool :=
  k != .whitespace

/-- The tokens of a text that are of the kinds that are asked for, without their places. -/
def lexemes (keep : Kind → Bool) (text : String) : List Lexeme :=
  ((Stream.ofString text).tokens.map (·.toLexeme)).filter fun x => keep x.kind

/-- The piece without what is wrong with it. -/
def Piece.lexeme (p : Piece) : Lexeme :=
  ⟨p.kind, String.ofList p.chars⟩

/-- The tokens of a text that are no blanks. -/
def visible (cs : List Char) : List Lexeme :=
  ((pieces 0 cs).map Piece.lexeme).filter fun x => x.kind.isVisible

variable {c : Char} {cs body rest w : List Char} {k : Kind}

/-! ## Tokens and pieces -/

theorem map_toLexeme_layOut (place : Place) (ps : List Piece) :
    ((layOut place ps).map fun p => p.1.token p.2).map (·.toLexeme) = ps.map Piece.lexeme := by
  induction ps generalizing place with
  | nil => rfl
  | cons p ps ih =>
    rw [layOut, List.map_cons, List.map_cons, ih, List.map_cons]
    rfl

theorem map_toLexeme_tokens (text : String) :
    (Stream.ofString text).tokens.map (·.toLexeme) = (pieces 0 text.toList).map Piece.lexeme :=
  map_toLexeme_layOut .start (pieces 0 text.toList)

theorem lexemes_isVisible (text : String) : lexemes Kind.isVisible text = visible text.toList := by
  rw [lexemes, map_toLexeme_tokens, visible]

/-- Code is no blank. -/
theorem lexemes_isCode (text : String) :
    lexemes Kind.isCode text = (lexemes Kind.isVisible text).filter fun x => x.kind.isCode := by
  have hcode (k : Kind) (h : k.isCode = true) : k.isVisible = true := by
    rw [Kind.isVisible, bne_iff_ne]
    rintro rfl
    contradiction
  rw [lexemes, lexemes, List.filter_filter]
  refine List.filter_congr fun x _ => ?_
  cases h : x.kind.isCode with
  | false => rfl
  | true => rw [hcode _ h, Bool.and_self]

/-! ## Tokens in their place -/

/-- The characters of a text from the token of the given index on. -/
def charsFrom (cs : List Char) (index : Nat) : List Char :=
  ((pieces 0 cs).drop index).flatMap Piece.chars

theorem pieces_charsFrom (cs : List Char) (index : Nat) :
    pieces 0 (charsFrom cs index) = (pieces 0 cs).drop index := by
  induction index generalizing cs with
  | zero => rw [charsFrom, List.drop_zero, flatMap_chars_pieces, List.drop_zero]
  | succ index ih =>
    cases cs with
    | nil => rfl
    | cons c cs =>
      have hstep : pieces 0 (c :: cs) = Piece.ofScan c cs :: pieces 0 (cs.drop (scan c cs).more) := by
        rw [pieces, pieces_eq_drop]
      rw [charsFrom, hstep, List.drop_succ_cons]
      exact ih _

theorem charsFrom_eq_append {cs : List Char} {i : Nat} {p : Piece} (hp : (pieces 0 cs)[i]? = some p) :
    charsFrom cs i = p.chars ++ charsFrom cs (i + 1) := by
  obtain ⟨hi, rfl⟩ := List.getElem?_eq_some_iff.1 hp
  rw [charsFrom, List.drop_eq_getElem_cons hi, List.flatMap_cons, charsFrom]

/-- A token without flaws is found in front of all that is behind it. -/
theorem exists_scan {cs : List Char} {i : Nat} {p : Piece} {k : Kind} (hp : (pieces 0 cs)[i]? = some p)
    (hk : p.verdict = .ok k) :
    ∃ c body, p.chars = c :: body ∧ scan c (body ++ charsFrom cs (i + 1)) = .token k body.length := by
  obtain ⟨hi, hget⟩ := List.getElem?_eq_some_iff.1 hp
  have hpieces := pieces_charsFrom cs i
  rw [List.drop_eq_getElem_cons hi, hget, charsFrom_eq_append hp] at hpieces
  cases hchars : p.chars with
  | nil =>
    have hmem := List.mem_of_getElem? hp
    exact absurd hchars (chars_and_kind_of_mem_pieces hmem).1
  | cons c body =>
    rw [hchars, List.cons_append, pieces, List.cons.injEq] at hpieces
    obtain ⟨hfirst, -⟩ := hpieces
    refine ⟨c, body, rfl, ?_⟩
    have hlength := congrArg (fun p : Piece => p.chars.length) hfirst
    simp only [Piece.length_chars_ofScan, hchars, List.length_cons] at hlength
    have hmore : (scan c (body ++ charsFrom cs (i + 1))).more = body.length := by omega
    have hverdict : (scan c (body ++ charsFrom cs (i + 1))).verdict = .ok k := by
      rw [← hk, ← hfirst]
      rfl
    rw [Finding.token, ← hmore, ← hverdict]

theorem exists_mem_layOut {place : Place} {ps : List Piece} {p : Piece} (h : p ∈ ps) :
    ∃ place', (p, place') ∈ layOut place ps := by
  induction ps generalizing place with
  | nil => contradiction
  | cons q ps ih =>
    rw [layOut]
    rcases List.mem_cons.1 h with rfl | h
    · exact ⟨place, List.mem_cons_self⟩
    · obtain ⟨place', hmem⟩ := ih h
      exact ⟨place', List.mem_cons_of_mem _ hmem⟩

/-- A text without problems has no flawed token. -/
theorem verdict_of_problems {text : String} {p : Piece} (h : (Source.ofString text).problems = [])
    (hp : p ∈ pieces 0 text.toList) : p.verdict = .ok p.kind := by
  obtain ⟨place, hplace⟩ : ∃ place, (p, place) ∈ layOut .start (pieces 0 text.toList) :=
    exists_mem_layOut hp
  simp only [Source.ofString, Source.ofStream, Stream.ofString, Stream.ofChars,
    List.filterMap_eq_nil_iff] at h
  have hproblem := h _ hplace
  rw [Piece.problem?] at hproblem
  rw [Piece.kind]
  cases hverdict : p.verdict with
  | ok k => rfl
  | error flaw =>
    rw [hverdict] at hproblem
    contradiction

/-! ## Kinds -/

namespace Scan

theorem kind_quotedLiteral {quote : Char} {form : String} (hk : k.isCode = true) :
    (quotedLiteral quote k form cs).kind.isCode = true := by
  unfold quotedLiteral
  split
  · exact hk
  · rfl

theorem kind_doubleQuote : (doubleQuote cs).kind.isCode = true := by
  unfold doubleQuote
  split
  · split <;> rfl
  · exact kind_quotedLiteral rfl

theorem mem_kind_name : (name c cs).kind ∈ Kind.identifier :: Kind.keywords.map (·.2) := by
  unfold name
  dsimp only
  cases hword : Kind.ofKeyword? (String.ofList (c :: cs.take (countWhile isNamePart cs))) with
  | none => exact List.mem_cons_self
  | some k =>
    obtain ⟨before, behind, hmem, -⟩ := List.lookup_eq_some_iff.1 hword
    have hkeyword := hmem ▸ List.mem_append_right before List.mem_cons_self
    exact List.mem_cons_of_mem _ (List.mem_map_of_mem (f := (·.2)) hkeyword)

theorem mem_kind_symbol : (symbol c cs).kind ∈ Kind.error :: symbols.map (·.2) := by
  unfold symbol
  split
  · rename_i e he
    exact List.mem_cons_of_mem _ (List.mem_map_of_mem (f := (·.2)) (List.mem_of_find?_eq_some he))
  · exact List.mem_cons_self

theorem mem_kind_slash :
    (slash cs).kind ∈ [Kind.lineComment, .blockComment, .docComment, .slashEqual, .slash, .error] := by
  unfold slash
  split
  · exact List.mem_cons_self
  · split
    · show Kind.error ∈ _
      decide
    · dsimp only [Finding.kind, Finding.token]
      split <;> decide
  · decide
  · decide

/-- What begins with neither a blank nor a slash is code. -/
theorem kind_scan (hspace : isSpace c = false) (hslash : c ≠ '/') : (scan c cs).kind.isCode = true := by
  unfold scan
  rw [if_neg (by simp [hspace]), if_neg (by simpa using hslash)]
  split
  · exact kind_doubleQuote
  split
  · exact kind_quotedLiteral rfl
  split
  · exact List.all_eq_true.1 (by decide) _ mem_kind_number
  split
  · exact List.all_eq_true.1 (by decide) _ mem_kind_number
  split
  · exact List.all_eq_true.1 (by decide +kernel) _ mem_kind_name
  · exact List.all_eq_true.1 (by decide +kernel) _ mem_kind_symbol

theorem scan_of_space (h : isSpace c = true) : scan c cs = .token .whitespace (countWhile isSpace cs) := by
  rw [scan, if_pos h]

theorem scan_slash : scan '/' cs = slash cs := by
  rw [scan, if_neg (by decide), if_pos (by decide)]

/-- Only blanks are not visible. -/
theorem isVisible_scan (h : isSpace c = false) : (scan c cs).kind.isVisible = true := by
  by_cases hslash : c = '/'
  · subst hslash
    rw [scan_slash]
    exact List.all_eq_true.1 (by decide) _ mem_kind_slash
  · have hcode : (scan c cs).kind.isCode = true := kind_scan h hslash
    rw [Kind.isVisible, bne_iff_ne]
    intro hkind
    rw [hkind] at hcode
    contradiction

end Scan

/-! ## One token after the other -/

theorem kind_ofScan : (Piece.ofScan c cs).kind = (scan c cs).kind := rfl

theorem visible_nil : visible [] = [] := rfl

theorem visible_cons (h : Scan.isSpace c = false) :
    visible (c :: cs) = (Piece.ofScan c cs).lexeme :: visible (cs.drop (scan c cs).more) := by
  have hkind : (Piece.ofScan c cs).lexeme.kind.isVisible = true := Scan.isVisible_scan h
  rw [visible, pieces, List.map_cons, List.filter_cons, if_pos hkind, pieces_eq_drop, visible]

theorem visible_cons_of_space (h : Scan.isSpace c = true) :
    visible (c :: cs) = visible (cs.dropWhile Scan.isSpace) := by
  have hkind : ¬(Piece.ofScan c cs).lexeme.kind.isVisible = true := by
    rw [Piece.lexeme, kind_ofScan, Scan.scan_of_space h]
    exact Bool.false_ne_true
  have hdrop : cs.drop (scan c cs).more = cs.dropWhile Scan.isSpace := by
    rw [Scan.scan_of_space h]
    calc cs.drop (cs.takeWhile Scan.isSpace).length
        = (cs.takeWhile Scan.isSpace ++ cs.dropWhile Scan.isSpace).drop
            (cs.takeWhile Scan.isSpace).length := by rw [List.takeWhile_append_dropWhile]
      _ = cs.dropWhile Scan.isSpace := List.drop_left
  rw [visible, pieces, List.map_cons, List.filter_cons, if_neg hkind, pieces_eq_drop, hdrop, visible]

/-- Blanks in front do no harm. -/
theorem visible_dropWhile : visible (cs.dropWhile Scan.isSpace) = visible cs := by
  cases cs with
  | nil => rfl
  | cons c cs =>
    cases h : Scan.isSpace c with
    | true => rw [List.dropWhile_cons_of_pos h, visible_cons_of_space h]
    | false => rw [List.dropWhile_cons_of_neg (by simp [h])]

theorem visible_append_of_blank (h : ∀ x ∈ w, Scan.isSpace x = true) :
    visible (w ++ rest) = visible rest := by
  rw [← visible_dropWhile, List.dropWhile_append_of_pos h, visible_dropWhile]

/-- A token that is found in front of a text is followed by the tokens of the text. -/
theorem visible_append_of_scan (hc : Scan.isSpace c = false)
    (h : scan c (body ++ rest) = .token k body.length) :
    visible (c :: body ++ rest) = ⟨k, String.ofList (c :: body)⟩ :: visible rest := by
  rw [List.cons_append, visible_cons hc, Piece.lexeme, Piece.kind, Piece.ofScan, h]
  simp [Finding.token]

/-- A text keeps its tokens in front of another one if all of them are found there. -/
theorem visible_append_of_prefix {cs : List Char} (h : visible cs <+: visible (cs ++ rest)) :
    visible (cs ++ rest) = visible cs ++ visible rest := by
  induction hlength : cs.length using Nat.strongRecOn generalizing cs with
  | ind n ih =>
    cases cs with
    | nil => rfl
    | cons c cs =>
      rw [List.length_cons] at hlength
      cases hc : Scan.isSpace c with
      | true =>
        -- blanks in front are left out on both sides
        have hblanks : ∀ x ∈ c :: cs.takeWhile Scan.isSpace, Scan.isSpace x = true :=
          List.forall_mem_cons.2 ⟨hc, List.all_eq_true.1 List.all_takeWhile⟩
        have hsplit : c :: cs = (c :: cs.takeWhile Scan.isSpace) ++ cs.dropWhile Scan.isSpace := by
          rw [List.cons_append, List.takeWhile_append_dropWhile]
        have hshorter := (List.dropWhile_suffix (l := cs) Scan.isSpace).length_le
        rw [hsplit, List.append_assoc, visible_append_of_blank hblanks,
          visible_append_of_blank hblanks] at h ⊢
        exact ih _ (by omega) h rfl
      | false =>
        rw [List.cons_append, visible_cons hc, visible_cons hc, List.cons_prefix_cons] at h
        obtain ⟨hsame, h⟩ := h
        have hmore : (scan c (cs ++ rest)).more = (scan c cs).more := by
          have htext := congrArg (fun x : Lexeme => x.text.toList.length) hsame
          simp only [Piece.lexeme, String.toList_ofList, Piece.length_chars_ofScan] at htext
          omega
        have hle := Scan.scan_more_le c cs
        rw [hmore, List.drop_append_of_le_length hle] at h
        rw [List.cons_append, visible_cons hc, visible_cons hc, ← hsame, hmore,
          List.drop_append_of_le_length hle, List.cons_append, ih _ ?_ h rfl]
        rw [List.length_drop]
        omega

/-! ## Texts one after the other -/

/-- Joined texts have the tokens of the single ones exactly if every text keeps its own in front of
all that is behind it. -/
theorem visible_flatten_iff {texts : List (List Char)} : visible texts.flatten = texts.flatMap visible
    ↔ ∀ front text behind, texts = front ++ text :: behind →
      visible (text ++ behind.flatten) = visible text ++ visible behind.flatten := by
  induction texts with
  | nil => simp [visible_nil]
  | cons first texts ih =>
    rw [List.flatten_cons, List.flatMap_cons]
    constructor
    · intro hall front text behind hsplit
      have hkeeps := visible_append_of_prefix ⟨_, hall.symm⟩
      rw [hkeeps, List.append_cancel_left_eq] at hall
      cases front with
      | nil =>
        cases hsplit
        exact hkeeps
      | cons head front =>
        cases hsplit
        exact ih.1 hall front text behind rfl
    · intro hkeeps
      rw [hkeeps [] first texts rfl, ih.2]
      rintro front text behind rfl
      exact hkeeps (first :: front) text behind rfl

end Stencil
