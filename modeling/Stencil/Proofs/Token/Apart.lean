import Stencil.Proofs.Text.Substring
import Stencil.Proofs.Token.Spelled

/-!
# Tokens written apart

What follows a token in its text may be needed to tell where the token ends, but it leaves nothing behind
in the token: with nothing behind it the text of a token is the same token, and a space behind it is as
good as nothing.

Results: every scanner of code finds in front of a space what it finds at the end of the text
(`Scan.scan_append_space`), so the code of a text, written down with single spaces, is read as it was
(`tokens_spacedOut`).
-/

namespace Stencil

namespace Scan

variable {p : Char → Bool} {body rest : List Char} {c : Char} {k : Kind} {n : Nat}

/-! ## Runs and numbers -/

theorem countWhile_append_space (hp : p ' ' = false) :
    countWhile p (body ++ ' ' :: rest) = countWhile p body := by
  induction body with
  | nil =>
    show countWhile p (' ' :: rest) = 0
    rw [countWhile_cons, if_neg (by simp [hp])]
  | cons c body ih => rw [List.cons_append, countWhile_cons, countWhile_cons, ih]

theorem exponentTail_append_space : exponentTail (body ++ ' ' :: rest) = exponentTail body := by
  cases body with
  | nil =>
    show countWhile isDecimalPart ([] ++ ' ' :: rest) = countWhile isDecimalPart []
    exact countWhile_append_space (by decide)
  | cons c body =>
    show (if c == '+' || c == '-' then 1 + countWhile isDecimalPart (body ++ ' ' :: rest)
      else countWhile isDecimalPart (c :: body ++ ' ' :: rest)) = exponentTail (c :: body)
    rw [countWhile_append_space (by decide), countWhile_append_space (by decide)]
    rfl

theorem exponentLength_append_space {marks : List Char} (hmarks : marks.contains ' ' = false) :
    exponentLength marks (body ++ ' ' :: rest) = exponentLength marks body := by
  cases body with
  | nil =>
    show (if marks.contains ' ' then 1 + exponentTail rest else 0) = 0
    rw [if_neg (by simp only [hmarks, Bool.false_eq_true, not_false_eq_true])]
  | cons c body => rw [List.cons_append, exponentLength, exponentTail_append_space, exponentLength]

theorem fractionLength_append_space :
    fractionLength (body ++ ' ' :: rest) = fractionLength body := by
  cases body with
  | nil => exact fractionLength_of_ne (by decide)
  | cons c body =>
    rw [List.cons_append]
    by_cases hc : c = '.'
    · have hhead : (body ++ ' ' :: rest).head?.all (fun c => !isNameStart c && c != '.')
          = body.head?.all (fun c => !isNameStart c && c != '.') := by
        cases body with
        | nil =>
          have hspace : isNameStart ' ' = false := by decide +kernel
          simp [hspace]
        | cons d body => rfl
      rw [hc, fractionLength_point, fractionLength_point, hhead, countWhile_append_space (by decide)]
    · rw [fractionLength_of_ne hc, fractionLength_of_ne hc]

theorem hexFractionLength_append_space :
    hexFractionLength (body ++ ' ' :: rest) = hexFractionLength body := by
  cases body with
  | nil => exact hexFractionLength_of_ne (by decide)
  | cons c body =>
    rw [List.cons_append]
    by_cases hc : c = '.'
    · rw [hc, hexFractionLength, hexFractionLength, countWhile_append_space (by decide)]
    · rw [hexFractionLength_of_ne hc, hexFractionLength_of_ne hc]

theorem finishNumber_append_space {isFloat : Bool} (hn : n ≤ body.length) :
    finishNumber isFloat n (body ++ ' ' :: rest) = finishNumber isFloat n body := by
  have hsuffix (cs : List Char) : numberSuffix isFloat (cs ++ ' ' :: rest) = numberSuffix isFloat cs := by
    cases cs with
    | nil => rfl
    | cons c cs => rfl
  unfold finishNumber
  rw [List.drop_append_of_le_length hn, hsuffix]

theorem decimalNumber_append_space : decimalNumber (body ++ ' ' :: rest) = decimalNumber body := by
  have hwhole := countWhile_le isDecimalPart body
  have hfraction := fractionLength_le (body.drop (countWhile isDecimalPart body))
  have hparts := parts_le hwhole hfraction (exponentLength_le ['e', 'E'] _)
  rw [List.length_drop] at hfraction
  unfold decimalNumber
  dsimp only
  rw [countWhile_append_space (by decide), List.drop_append_of_le_length hwhole, fractionLength_append_space,
    List.drop_append_of_le_length (by omega), exponentLength_append_space (by decide),
    finishNumber_append_space hparts]

theorem hexNumber_append_space : hexNumber (body ++ ' ' :: rest) = hexNumber body := by
  have hwhole := countWhile_le isHexPart body
  have hfraction := hexFractionLength_le (body.drop (countWhile isHexPart body))
  have hparts := parts_le hwhole hfraction (exponentLength_le ['p', 'P'] _)
  rw [List.length_drop] at hfraction
  unfold hexNumber
  dsimp only
  rw [countWhile_append_space (by decide), List.drop_append_of_le_length hwhole,
    hexFractionLength_append_space, List.drop_append_of_le_length (by omega),
    exponentLength_append_space (by decide), finishNumber_append_space hparts]

theorem binaryNumber_append_space : binaryNumber (body ++ ' ' :: rest) = binaryNumber body := by
  unfold binaryNumber
  dsimp only
  rw [countWhile_append_space (by decide), finishNumber_append_space (countWhile_le isBinaryPart body)]

theorem number_append_space : number c (body ++ ' ' :: rest) = number c body := by
  have hdecimal : decimalNumber (c :: (body ++ ' ' :: rest)) = decimalNumber (c :: body) := by
    rw [← List.cons_append, decimalNumber_append_space]
  cases body with
  | nil =>
    show number c (' ' :: rest) = .token (decimalNumber [c]).1 ((decimalNumber [c]).2 - 1)
    rw [number_cons, if_neg (by simp), if_neg (by simp), ← hdecimal]
    rfl
  | cons mark body =>
    rw [List.cons_append, number_cons, number_cons, hexNumber_append_space, binaryNumber_append_space,
      ← List.cons_append, hdecimal]

/-! ## Comments and literals -/

/-- A slash that begins no comment is the operator, or the one of an assignment. -/
theorem slash_append_space (h : slash body = .token k n) (hk : k.isCode = true) :
    slash (body ++ ' ' :: rest) = .token k n := by
  cases body with
  | nil => exact h
  | cons c body =>
    by_cases hslash : c = '/'
    · subst hslash
      rw [slash, Finding.token_inj] at h
      obtain ⟨rfl, -⟩ := h
      contradiction
    by_cases hstar : c = '*'
    · subst hstar
      cases hlength : blockCommentLength body with
      | none =>
        rw [slash, hlength] at h
        exact absurd h Finding.flawed_ne_token
      | some m =>
        rw [slash_star hlength, Finding.token_inj] at h
        obtain ⟨rfl, -⟩ := h
        split at hk <;> contradiction
    by_cases hequal : c = '='
    · subst hequal
      exact h
    · rw [slash_of_ne hslash hstar hequal] at h
      rw [List.cons_append, slash_of_ne hslash hstar hequal]
      exact h

theorem quotedLiteral_append {quote : Char} {kind : Kind} {form : String} (hquote : quote ≠ '\\')
    (h : quotedLiteral quote kind form body = .token k body.length) :
    quotedLiteral quote kind form (body ++ rest) = .token k body.length := by
  have halone : quotedLiteral quote kind form (body ++ []) = .token k body.length := by
    rw [List.append_nil]
    exact h
  exact quotedLiteral_congr hquote halone

/-- A space is no quote, so it makes no text block of what is none. -/
theorem doubleQuote_append_space (h : doubleQuote body = .token k body.length) :
    doubleQuote (body ++ ' ' :: rest) = .token k body.length := by
  by_cases hblock : ∃ ds, body = '"' :: '"' :: ds
  · obtain ⟨ds, rfl⟩ := hblock
    rw [doubleQuote] at h
    split at h
    · rename_i m hlength
      rw [Finding.token_inj, List.length_cons, List.length_cons] at h
      have halone : textBlockLength (ds ++ []) = (m, true) := by
        rw [List.append_nil]
        exact hlength
      have hclosed : textBlockLength (ds ++ ' ' :: rest) = (m, true) :=
        textBlockLength_congr halone (by omega)
      rw [List.cons_append, List.cons_append, doubleQuote, hclosed, Finding.token_inj, List.length_cons,
        List.length_cons]
      exact h
    · exact absurd h Finding.flawed_ne_token
  · have hnone : ∀ ds, body ≠ '"' :: '"' :: ds := by
      intro ds hds
      exact hblock ⟨ds, hds⟩
    have hnone' : ∀ ds, body ++ ' ' :: rest ≠ '"' :: '"' :: ds := by
      intro ds hds
      cases body with
      | nil => cases hds
      | cons a body =>
        cases body with
        | nil => cases hds
        | cons b body =>
          cases hds
          exact hblock ⟨body, rfl⟩
    rw [doubleQuote_of_ne hnone] at h
    rw [doubleQuote_of_ne hnone']
    exact quotedLiteral_append (by decide) h

/-! ## Names and symbols -/

theorem name_append_space : name c (body ++ ' ' :: rest) = name c body := by
  unfold name
  dsimp only
  rw [countWhile_append_space (by decide +kernel),
    List.take_append_of_le_length (countWhile_le isNamePart body)]

theorem symbol_append_space : symbol c (body ++ ' ' :: rest) = symbol c body := by
  have hspace : symbols.all (fun e => !e.1.contains ' ') = true := by decide +kernel
  have hfind : symbols.find? (fun s => s.1.isPrefixOf (c :: (body ++ ' ' :: rest)))
      = symbols.find? (fun s => s.1.isPrefixOf (c :: body)) := by
    rw [← List.head?_filter, ← List.head?_filter]
    refine congrArg List.head? (List.filter_congr ?_)
    intro e he
    have hnone : ' ' ∉ e.1 := by simpa using List.all_eq_true.1 hspace e he
    rw [Bool.eq_iff_iff, List.isPrefixOf_iff_prefix, List.isPrefixOf_iff_prefix, ← List.cons_append]
    exact Text.prefix_append_cons_iff hnone
  unfold symbol
  rw [hfind]

/-! ## All tokens -/

/-- A token of code that is all of a text is found in front of a space too. -/
theorem scan_append_space (hc : isSpace c = false) (h : scan c body = .token k body.length)
    (hk : k.isCode = true) : scan c (body ++ ' ' :: rest) = .token k body.length := by
  have hpoint : (body ++ ' ' :: rest).head?.any Unicode.isDigit = body.head?.any Unicode.isDigit := by
    cases body with
    | nil => rfl
    | cons d body => rfl
  unfold scan at h ⊢
  rw [if_neg (by simp [hc])] at h ⊢
  rw [hpoint, number_append_space, name_append_space, symbol_append_space]
  split
  · rename_i hslash
    rw [if_pos hslash] at h
    exact slash_append_space h hk
  rename_i hslash
  rw [if_neg hslash] at h
  split
  · rename_i hquote
    rw [if_pos hquote] at h
    exact doubleQuote_append_space h
  rename_i hquote
  rw [if_neg hquote] at h
  split
  · rename_i hquote
    rw [if_pos hquote] at h
    exact quotedLiteral_append (by decide) h
  rename_i hquote
  rw [if_neg hquote] at h
  exact h

end Scan

/-! ## Texts of single tokens -/

/-- Is the token found at the beginning of its text, and is it all of the text? -/
def Lexeme.IsWhole (x : Lexeme) : Prop :=
  ∃ c body, x.text.toList = c :: body ∧ Scan.isSpace c = false ∧ scan c body = .token x.kind body.length

/-- The code of a text, flawed text left out. -/
def soundCode (text : String) : List Lexeme :=
  lexemes (fun k => k.isCode && k != .error) text

/-- The texts of the tokens with single spaces between them. -/
def spacedOut (xs : List Lexeme) : String :=
  " ".intercalate (xs.map (·.text))

/-- What follows a token of code is not needed to find it again. -/
theorem isWhole_of_mem_soundCode {text : String} {x : Lexeme} (hx : x ∈ soundCode text) :
    x.IsWhole ∧ x.kind.isCode = true := by
  unfold soundCode at hx
  rw [lexemes, map_toLexeme_tokens, List.mem_filter, List.mem_map, Bool.and_eq_true, bne_iff_ne] at hx
  obtain ⟨⟨p, hp, rfl⟩, hcode, herror⟩ := hx
  obtain ⟨i, hi⟩ := List.mem_iff_getElem?.1 hp
  have hverdict : p.verdict = .ok p.kind := by
    cases hverdict : p.verdict with
    | error flaw => exact absurd ((agrees_of_mem_pieces hp).2.2 ⟨flaw, hverdict⟩) herror
    | ok k => simp [Piece.kind, hverdict]
  obtain ⟨c, body, hchars, hscan⟩ := exists_scan hi hverdict
  have halone : scan c (body ++ []) = .token p.kind body.length := Scan.scan_congr hscan (.inl rfl)
  rw [List.append_nil] at halone
  have htext : p.lexeme.text.toList = c :: body := by
    show (String.ofList p.chars).toList = c :: body
    rw [String.toList_ofList, hchars]
  have hspace : Scan.isSpace c = false := by
    rw [Bool.eq_false_iff]
    intro hspace
    rw [Scan.scan_of_space hspace, Finding.token_inj] at halone
    have hblank : p.lexeme.kind = .whitespace := halone.1.symm
    rw [hblank] at hcode
    contradiction
  exact ⟨⟨c, body, htext, hspace, halone⟩, hcode⟩

/-! ## Tokens with spaces between them -/

variable {x y : Lexeme} {xs : List Lexeme} {c : Char} {body rest : List Char} {k : Kind}

theorem pieces_append_of_scan (h : scan c (body ++ rest) = .token k body.length) :
    pieces 0 (c :: body ++ rest) = ⟨.ok k, c :: body⟩ :: pieces 0 rest := by
  rw [List.cons_append, pieces, pieces_eq_drop, Piece.ofScan, h]
  show Piece.mk (.ok k) (c :: (body ++ rest).take body.length) :: pieces 0 ((body ++ rest).drop body.length)
    = _
  rw [List.take_left, List.drop_left]

/-- One step: a token and the space behind it are a piece each, if what follows is no blank. -/
theorem lexemes_append_space (hx : x.IsWhole) (hcode : x.kind.isCode = true)
    (hrest : ∀ c ∈ rest.head?, Scan.isSpace c = false) :
    (pieces 0 (x.text.toList ++ ' ' :: rest)).map Piece.lexeme
      = x :: ⟨.whitespace, " "⟩ :: (pieces 0 rest).map Piece.lexeme := by
  obtain ⟨c, body, htext, hc, hscan⟩ := hx
  have hspace : scan ' ' ([] ++ rest) = .token .whitespace ([] : List Char).length := by
    have hnone : Scan.countWhile Scan.isSpace rest = 0 := by
      cases rest with
      | nil => rfl
      | cons d rest => rw [Scan.countWhile_cons, if_neg (by simp [hrest d rfl])]
    rw [Scan.scan_of_space (by decide), List.nil_append, hnone]
    rfl
  have hfirst : pieces 0 (c :: body ++ ' ' :: rest) = ⟨.ok x.kind, c :: body⟩ :: pieces 0 (' ' :: rest) :=
    pieces_append_of_scan (Scan.scan_append_space hc hscan hcode)
  have hsecond : pieces 0 (' ' :: rest) = ⟨.ok .whitespace, [' ']⟩ :: pieces 0 rest :=
    pieces_append_of_scan hspace
  rw [htext, hfirst, hsecond, List.map_cons, List.map_cons]
  show Lexeme.mk x.kind (String.ofList (c :: body)) :: Lexeme.mk .whitespace " " :: _ = _
  rw [← htext, String.ofList_toList]

theorem toList_spacedOut_cons : (spacedOut (x :: y :: xs)).toList
    = x.text.toList ++ ' ' :: (spacedOut (y :: xs)).toList := by
  unfold spacedOut
  rw [List.map_cons, List.map_cons, String.intercalate_cons_cons, String.toList_append, String.toList_append,
    List.append_assoc]
  rfl

theorem spacedOut_singleton : spacedOut [x] = x.text :=
  String.intercalate_singleton

/-- A token that is all of a text is the only one. -/
theorem lexemes_of_isWhole (hx : x.IsWhole) : (pieces 0 x.text.toList).map Piece.lexeme = [x] := by
  obtain ⟨c, body, htext, -, hscan⟩ := hx
  have hone : pieces 0 (c :: body ++ []) = ⟨.ok x.kind, c :: body⟩ :: pieces 0 [] :=
    pieces_append_of_scan (by rw [List.append_nil]; exact hscan)
  rw [List.append_nil] at hone
  rw [htext, hone]
  show [Lexeme.mk x.kind (String.ofList (c :: body))] = [x]
  rw [← htext, String.ofList_toList]

/-- What is written down with spaces is read as the tokens with blanks between them. -/
theorem lexemes_spacedOut (hxs : ∀ x ∈ xs, x.IsWhole ∧ x.kind.isCode = true) :
    (pieces 0 (spacedOut xs).toList).map Piece.lexeme = xs.intersperse ⟨.whitespace, " "⟩ := by
  induction xs with
  | nil => rfl
  | cons x xs ih =>
    rw [List.forall_mem_cons] at hxs
    obtain ⟨⟨hx, hcode⟩, hrest⟩ := hxs
    cases xs with
    | nil =>
      rw [spacedOut_singleton]
      exact lexemes_of_isWhole hx
    | cons y ys =>
      have hfirst : ∀ c ∈ (spacedOut (y :: ys)).toList.head?, Scan.isSpace c = false := by
        obtain ⟨d, ds, htext, hd, -⟩ := (hrest y List.mem_cons_self).1
        have hhead : (spacedOut (y :: ys)).toList.head? = some d := by
          cases ys with
          | nil => rw [spacedOut_singleton, htext, List.head?_cons]
          | cons z zs => rw [toList_spacedOut_cons, htext, List.cons_append, List.head?_cons]
        intro c hc
        rw [hhead] at hc
        cases hc
        exact hd
      rw [toList_spacedOut_cons, lexemes_append_space hx hcode hfirst, ih hrest, List.intersperse_cons_cons]

theorem eq_or_mem_of_mem_intersperse {blank : Lexeme} (h : x ∈ xs.intersperse blank) :
    x = blank ∨ x ∈ xs := by
  induction xs with
  | nil => contradiction
  | cons y ys ih =>
    cases ys with
    | nil => exact .inr h
    | cons z zs =>
      rw [List.intersperse_cons_cons, List.mem_cons, List.mem_cons] at h
      rcases h with rfl | rfl | h
      · exact .inr List.mem_cons_self
      · exact .inl rfl
      · exact (ih h).imp_right fun hmem => List.mem_cons_of_mem y hmem

theorem problems_eq_nil {text : String}
    (h : ∀ x ∈ (Stream.ofString text).tokens.map (·.toLexeme), x.kind ≠ .error) :
    (Stream.ofString text).problems = [] := by
  apply problems_eq_nil_iff.2
  intro x hx
  exact h x (List.mem_filter.1 hx).1

/-- The code of a text, whatever the text, is read again if it is written down with single spaces, each
token as what it was, and without flaws. Each token is read again on its own as well. -/
theorem tokens_spacedOut (text : String) :
    (Stream.ofString (spacedOut (soundCode text))).tokens.map (·.toLexeme)
        = (soundCode text).intersperse ⟨.whitespace, " "⟩
      ∧ (Stream.ofString (spacedOut (soundCode text))).problems = []
      ∧ ∀ x ∈ soundCode text, (Stream.ofString x.text).tokens.map (·.toLexeme) = [x]
        ∧ (Stream.ofString x.text).problems = [] := by
  have hwhole : ∀ x ∈ soundCode text, x.IsWhole ∧ x.kind.isCode = true :=
    fun x hx => isWhole_of_mem_soundCode hx
  have hsound : ∀ x ∈ soundCode text, x.kind ≠ .error := by
    intro x hx
    have hkind := (List.mem_filter.1 hx).2
    rw [Bool.and_eq_true, bne_iff_ne] at hkind
    exact hkind.2
  have htokens : (Stream.ofString (spacedOut (soundCode text))).tokens.map (·.toLexeme)
      = (soundCode text).intersperse ⟨.whitespace, " "⟩ := by
    rw [map_toLexeme_tokens]
    exact lexemes_spacedOut hwhole
  refine ⟨htokens, ?_, ?_⟩
  · apply problems_eq_nil
    rw [htokens]
    intro x hx
    rcases eq_or_mem_of_mem_intersperse hx with rfl | hx
    · exact Kind.noConfusion
    · exact hsound x hx
  · intro x hx
    have hone : (Stream.ofString x.text).tokens.map (·.toLexeme) = [x] := by
      rw [map_toLexeme_tokens]
      exact lexemes_of_isWhole (hwhole x hx).1
    refine ⟨hone, problems_eq_nil ?_⟩
    rw [hone]
    intro y hy
    rw [List.mem_singleton.1 hy]
    exact hsound x hx

/-- The theorem at a text of numbers, points and quotes that are told apart by what is behind them; read
on its own the number keeps its point. -/
theorem tokens_spacedOut_points :
    soundCode "1..2 1.a 1. .5 0x1.p \"\"\"\"\"\"\"\" ...>>= #"
        = [⟨.intLiteral, "1"⟩, ⟨.dot, "."⟩, ⟨.floatLiteral, ".2"⟩, ⟨.intLiteral, "1"⟩, ⟨.dot, "."⟩,
          ⟨.identifier, "a"⟩, ⟨.floatLiteral, "1."⟩, ⟨.floatLiteral, ".5"⟩, ⟨.floatLiteral, "0x1.p"⟩,
          ⟨.textBlock, "\"\"\"\"\"\""⟩, ⟨.stringLiteral, "\"\""⟩, ⟨.ellipsis, "..."⟩, ⟨.greater, ">"⟩,
          ⟨.greater, ">"⟩, ⟨.equal, "="⟩]
      ∧ (Stream.ofString "1.").tokens.map (·.toLexeme) = [⟨.floatLiteral, "1."⟩]
      ∧ (Stream.ofString "1.").problems = [] := by
  have hcode : soundCode "1..2 1.a 1. .5 0x1.p \"\"\"\"\"\"\"\" ...>>= #"
      = [⟨.intLiteral, "1"⟩, ⟨.dot, "."⟩, ⟨.floatLiteral, ".2"⟩, ⟨.intLiteral, "1"⟩, ⟨.dot, "."⟩,
        ⟨.identifier, "a"⟩, ⟨.floatLiteral, "1."⟩, ⟨.floatLiteral, ".5"⟩, ⟨.floatLiteral, "0x1.p"⟩,
        ⟨.textBlock, "\"\"\"\"\"\""⟩, ⟨.stringLiteral, "\"\""⟩, ⟨.ellipsis, "..."⟩, ⟨.greater, ">"⟩,
        ⟨.greater, ">"⟩, ⟨.equal, "="⟩] := by
    decide +kernel
  exact ⟨hcode, (tokens_spacedOut _).2.2 ⟨.floatLiteral, "1."⟩ (by rw [hcode]; decide)⟩

end Stencil
