import Mathlib.Data.List.Chain
import Stencil.Proofs.Token.Number
import Stencil.Proofs.Token.Spelled

/-!
# Texts in which tokens are written

A list of names, keywords and symbols is written down with any blanks and comments between the tokens,
or with none where two of them cannot be mistaken for one: only a word in front of a letter or digit
goes on, if no operator stands in front of what would make it a longer one.

Results: what is written so is read so, in front of any text that its last token does not go on into
(`lexemes_of_written`), and adds no problems to those of the text (`problems_of_written`).
-/

namespace Stencil

/-! ## Gaps -/

/-- Blanks and comments. A comment to the end of its line has the end of the line behind it. -/
inductive Gap : List Char → Prop where
  | nil : Gap []
  | blank {c : Char} {w : List Char} (hc : Scan.isSpace c = true) (h : Gap w) : Gap (c :: w)
  | line {c : Char} {body w : List Char} (hbody : ∀ x ∈ body, Scan.isLineEnd x = false)
    (hc : Scan.isLineEnd c = true) (h : Gap w) : Gap ('/' :: '/' :: (body ++ c :: w))
  | block {body w : List Char} (hbody : Scan.blockCommentLength body = some body.length) (h : Gap w) :
    Gap ('/' :: '*' :: (body ++ w))

/-- The code tokens of a text. -/
def code (cs : List Char) : List Lexeme :=
  (visible cs).filter fun x => x.kind.isCode

theorem lexemes_isCode_eq (text : String) : lexemes Kind.isCode text = code text.toList := by
  rw [lexemes_isCode, lexemes_isVisible, code]

variable {c : Char} {body rest w : List Char} {k : Kind}

/-- A run of characters ends where another one is behind it. -/
theorem Scan.countWhile_eq_length {p : Char → Bool} (h : ∀ x ∈ body, p x = true)
    (hrest : ∀ x ∈ rest.head?, p x = false) : countWhile p (body ++ rest) = body.length := by
  have hstop : rest.takeWhile p = [] := by
    cases rest with
    | nil => rfl
    | cons x rest => exact List.takeWhile_cons_of_neg (by simp [hrest x rfl])
  rw [countWhile, List.takeWhile_append_of_pos h, hstop, List.append_nil]

theorem code_append_of_comment (h : Scan.slash (body ++ rest) = .token k body.length)
    (hk : k.isCode = false) : code ('/' :: body ++ rest) = code rest := by
  rw [code, visible_append_of_scan (by decide) (Scan.scan_slash.trans h), List.filter_cons_of_neg, code]
  simp [hk]

theorem code_cons_of_isSpace (hc : Scan.isSpace c = true) : code (c :: rest) = code rest := by
  rw [code, ← List.singleton_append, visible_append_of_blank (by simpa using hc), code]

theorem isSpace_of_isLineEnd (hc : Scan.isLineEnd c = true) : Scan.isSpace c = true := by
  simp only [Scan.isLineEnd, Bool.or_eq_true, beq_iff_eq] at hc
  rcases hc with rfl | rfl <;> decide

/-- Blanks and comments are no code, and what is behind them is read as if they were not there. -/
theorem Gap.code_append (h : Gap w) : code (w ++ rest) = code rest := by
  induction h with
  | nil => rfl
  | @blank c w hc _ ih => rw [List.cons_append, code_cons_of_isSpace hc, ih]
  | @line c body w hbody hc _ ih =>
    have hslash : Scan.slash ('/' :: body ++ (c :: (w ++ rest))) = .token .lineComment (body.length + 1) := by
      have hlength : Scan.countWhile (fun x => !Scan.isLineEnd x) (body ++ (c :: (w ++ rest)))
          = body.length := by
        refine Scan.countWhile_eq_length (fun x hx => by simp [hbody x hx]) fun x hx => ?_
        obtain rfl : c = x := by simpa using hx
        simp [hc]
      rw [List.cons_append, Scan.slash, hlength, Nat.add_comm]
    have htext : '/' :: '/' :: (body ++ c :: w) ++ rest = '/' :: ('/' :: body) ++ (c :: (w ++ rest)) := by
      simp
    rw [htext, code_append_of_comment hslash rfl, code_cons_of_isSpace (isSpace_of_isLineEnd hc), ih]
  | @block body w hbody _ ih =>
    have hbody : Scan.blockCommentLength (body ++ []) = some body.length := by simpa using hbody
    have hlength : Scan.blockCommentLength (body ++ (w ++ rest)) = some body.length :=
      Scan.blockCommentLength_congr hbody (Nat.le_refl _)
    have hslash := Scan.slash_star hlength
    rw [Nat.add_comm] at hslash
    have htext : '/' :: '*' :: (body ++ w) ++ rest = '/' :: ('*' :: body) ++ (w ++ rest) := by simp
    rw [htext, code_append_of_comment hslash (by split <;> rfl), ih]

/-! ## Words -/

namespace Scan

/-- The ranges of code points that blanks are in. -/
def blankRanges : Unicode.Ranges :=
  [(0x9, 0xD), (0x20, 0x20), (0x85, 0x85), (0xA0, 0xA0), (0x1680, 0x1680), (0x2000, 0x200A),
    (0x2028, 0x2029), (0x202F, 0x202F), (0x205F, 0x205F), (0x3000, 0x3000)]

theorem exists_blankRange (h : Unicode.isBlank c = true) :
    ∃ r ∈ blankRanges, r.1 ≤ c.toNat ∧ c.toNat ≤ r.2 :=
  Unicode.Ranges.exists_mem_of_contains h

theorem not_isAlphabetic_of_lt (h : c.toNat < 65) : Unicode.isAlphabetic c = false := by
  rw [Unicode.isAlphabetic, if_pos (by omega), Bool.eq_false_iff]
  intro hletter
  simp only [Unicode.isAsciiLetter, Bool.or_eq_true, Bool.and_eq_true, decide_eq_true_eq, Char.le_def,
    UInt32.le_iff_toNat_le] at hletter
  change 97 ≤ c.toNat ∧ c.toNat ≤ 122 ∨ 65 ≤ c.toNat ∧ c.toNat ≤ 90 at hletter
  omega

theorem not_isAlphabetic_of_isBlank (h : Unicode.isBlank c = true) : Unicode.isAlphabetic c = false := by
  have hall : (blankRanges.all fun r => (List.range' r.1 (r.2 + 1 - r.1)).all fun n =>
      n < 65 || 128 ≤ n && !Unicode.alphabeticRanges.contains n) = true := by
    decide +kernel
  obtain ⟨r, hr, hn, hn'⟩ := exists_blankRange h
  have hblank := List.all_eq_true.1 (List.all_eq_true.1 hall r hr) c.toNat
    (List.mem_range'_1.2 ⟨hn, by omega⟩)
  simp only [Bool.or_eq_true, Bool.and_eq_true, decide_eq_true_eq, Bool.not_eq_true'] at hblank
  rcases hblank with hascii | ⟨hwide, hletter⟩
  · exact not_isAlphabetic_of_lt hascii
  · rw [Unicode.isAlphabetic, if_neg (Nat.not_lt.2 hwide), hletter]

theorem not_isNameStart_of_isSpace (h : isSpace c = true) : isNameStart c = false := by
  rw [isSpace, Bool.or_eq_true, beq_iff_eq] at h
  rcases h with h | rfl
  · have hne : c ≠ '_' ∧ c ≠ '$' := by
      constructor <;> rintro rfl <;> exact absurd h (by decide)
    simp [isNameStart, not_isAlphabetic_of_isBlank h, hne]
  · decide +kernel

theorem not_isDigit_of_isSpace (h : isSpace c = true) : Unicode.isDigit c = false := by
  rw [Bool.eq_false_iff]
  intro hdigit
  have hrange : 48 ≤ c.toNat ∧ c.toNat ≤ 57 := by
    simp only [Unicode.isDigit, Bool.and_eq_true, decide_eq_true_eq, Char.le_def,
      UInt32.le_iff_toNat_le] at hdigit
    exact hdigit
  rw [isSpace, Bool.or_eq_true, beq_iff_eq] at h
  rcases h with h | rfl
  · have hall : (blankRanges.all fun r => r.2 < (48 : Nat) || 57 < r.1) = true := by
      decide
    obtain ⟨r, hr, hn, hn'⟩ := exists_blankRange h
    have hfar := List.all_eq_true.1 hall r hr
    simp only [Bool.or_eq_true, decide_eq_true_eq] at hfar
    omega
  · exact absurd hdigit (by decide)

theorem not_isSpace_of_isNameStart (h : isNameStart c = true) : isSpace c = false := by
  rw [Bool.eq_false_iff]
  exact fun hspace => absurd h (by simp [not_isNameStart_of_isSpace hspace])

theorem not_isDigit_of_isNameStart (h : isNameStart c = true) : Unicode.isDigit c = false := by
  rw [Bool.eq_false_iff]
  exact fun hdigit => absurd h (by simp [not_isNameStart_of_isDigit hdigit])

/-- What begins like a name is one, or a keyword. -/
theorem scan_of_isNameStart (h : isNameStart c = true) : scan c rest = name c rest := by
  have hspace := not_isSpace_of_isNameStart h
  have hdigit := not_isDigit_of_isNameStart h
  have hne : c ≠ '/' ∧ c ≠ '"' ∧ c ≠ '\'' ∧ c ≠ '.' := by
    refine ⟨?_, ?_, ?_, ?_⟩ <;> rintro rfl <;> exact absurd h (by decide)
  simp [scan, hspace, hdigit, hne, h]

theorem name_append (hbody : ∀ x ∈ body, isNamePart x = true)
    (hrest : ∀ x ∈ rest.head?, isNamePart x = false) : name c (body ++ rest)
      = .token ((Kind.ofKeyword? (String.ofList (c :: body))).getD .identifier) body.length := by
  unfold name
  dsimp only
  rw [countWhile_eq_length hbody hrest, List.take_left]

/-! ## Symbols -/

/-- A symbol of one character that no longer one of the text begins with. -/
theorem symbol_of_single (hmem : ([c], k) ∈ symbols)
    (hunique : ∀ e ∈ symbols, e.1 <+: c :: rest → e = ([c], k)) : symbol c rest = .token k 0 := by
  unfold symbol
  split
  · rename_i e he
    have hpre := List.find?_some he
    rw [List.isPrefixOf_iff_prefix] at hpre
    rw [hunique e (List.mem_of_find?_eq_some he) hpre]
    rfl
  · rename_i hnone
    have hno := List.find?_eq_none.1 hnone _ hmem
    simp at hno

/-- A symbol of one character is found unless a character follows that makes it a longer one. -/
theorem symbol_of_forall {longer : List Char}
    (hall : symbols.all (fun e => e.1.head? != some c || e == ([c], k)
      || (e.1[1]?).any longer.contains) = true)
    (hmem : ([c], k) ∈ symbols) (hrest : ∀ x ∈ rest.head?, x ∉ longer) : symbol c rest = .token k 0 := by
  refine symbol_of_single hmem fun e he hpre => ?_
  have hcases := List.all_eq_true.1 hall e he
  obtain ⟨chars, kind⟩ := e
  obtain ⟨tail, htail⟩ := hpre
  cases chars with
  | nil => exact absurd (length_le_of_mem_symbols he).1 (Nat.not_succ_le_zero 0)
  | cons a chars =>
    obtain ⟨rfl, hrest'⟩ := List.cons.inj htail
    cases chars with
    | nil => simpa using hcases
    | cons d chars =>
      have hd : d ∈ longer := by simpa using hcases
      exact absurd hd (hrest d (by rw [← hrest']; rfl))

end Scan

/-! ## Single tokens -/

/-- The symbols that types and type parameters are written with. -/
def Kind.typeSymbols : List Kind :=
  [.less, .greater, .comma, .dot, .question, .leftBracket, .rightBracket, .amp]

namespace Lexeme

/-- A name, a keyword, or one of the symbols that types are written with. -/
inductive IsOfType : Lexeme → Prop where
  | name {text : String} (h : isName text = true) : IsOfType ⟨.identifier, text⟩
  | keyword {k : Kind} {text : String} (hk : k ∈ Kind.keywordKinds) (h : k.spelling = some text) :
    IsOfType ⟨k, text⟩
  | symbol {k : Kind} {text : String} (hk : k ∈ Kind.typeSymbols) (h : k.spelling = some text) :
    IsOfType ⟨k, text⟩

/-- Is the token a name or a keyword? -/
def isWord (x : Lexeme) : Bool :=
  x.kind == .identifier || Kind.keywordKinds.contains x.kind

/-- Does a text make another token of the one that it stands directly behind? -/
def StaysApart (x : Lexeme) (rest : List Char) : Prop :=
  ∀ c ∈ rest.head?, (x.isWord = true → Scan.isNamePart c = false) ∧ (x.kind = .less → c ≠ '<' ∧ c ≠ '=')
    ∧ (x.kind = .dot → c ≠ '.' ∧ Unicode.isDigit c = false) ∧ (x.kind = .amp → c ≠ '&' ∧ c ≠ '=')

end Lexeme

namespace Scan

/-- The characters of a name are found as one. -/
theorem scan_of_isName {text : String} (h : isName text = true)
    (hrest : ∀ x ∈ rest.head?, isNamePart x = false) : ∃ c body, text.toList = c :: body
      ∧ isNameStart c = true ∧ scan c (body ++ rest) = .token .identifier body.length := by
  unfold isName at h
  split at h
  · contradiction
  · rename_i c body htext
    simp only [Bool.and_eq_true, List.all_eq_true, Option.isNone_iff_eq_none] at h
    obtain ⟨⟨hc, hbody⟩, hword⟩ := h
    refine ⟨c, body, htext, hc, ?_⟩
    rw [scan_of_isNameStart hc, name_append hbody hrest, ← htext, String.ofList_toList, hword]
    rfl

/-- The characters of a keyword are found as the keyword. -/
theorem scan_of_keyword {text : String} (hk : k ∈ Kind.keywordKinds) (h : k.spelling = some text)
    (hrest : ∀ x ∈ rest.head?, isNamePart x = false) : ∃ c body, text.toList = c :: body
      ∧ isNameStart c = true ∧ scan c (body ++ rest) = .token k body.length := by
  have hall : (Kind.keywordKinds.all fun k => k.spelling.all fun text =>
      text.toList.head?.any isNameStart && text.toList.tail.all isNamePart
        && Kind.ofKeyword? text == some k) = true := by
    decide +kernel
  have hkeyword := List.all_eq_true.1 hall k hk
  rw [h] at hkeyword
  cases htext : text.toList with
  | nil => simp [htext] at hkeyword
  | cons c body =>
    simp only [Option.all_some, htext, List.head?_cons, Option.any_some, List.tail_cons, Bool.and_eq_true,
      List.all_eq_true, beq_iff_eq] at hkeyword
    obtain ⟨⟨hc, hbody⟩, hword⟩ := hkeyword
    refine ⟨c, body, rfl, hc, ?_⟩
    rw [scan_of_isNameStart hc, name_append hbody hrest, ← htext, String.ofList_toList, hword]
    rfl

theorem scan_eq_symbol (hspace : isSpace c = false) (hquote : c ∉ ['/', '"', '\''])
    (hdigit : Unicode.isDigit c = false) (hname : isNameStart c = false)
    (hpoint : c = '.' → ∀ x ∈ rest.head?, Unicode.isDigit x = false) : scan c rest = symbol c rest := by
  have hnumber : ¬(c == '.' && rest.head?.any Unicode.isDigit) = true := by
    rw [Bool.and_eq_true, beq_iff_eq, Option.any_eq_true]
    rintro ⟨rfl, x, hx, hdigit⟩
    rw [hpoint rfl x hx] at hdigit
    contradiction
  simp only [List.mem_cons, List.not_mem_nil, or_false, not_or] at hquote
  simp [scan, hspace, hquote, hdigit, hname, hnumber]

/-- Is the kind that of a symbol of one character, with these characters as the only ones that make a
longer symbol of it? -/
def isSingle (k : Kind) (c : Char) (longer : List Char) : Bool :=
  k.spelling == some (String.ofList [c]) && symbols.contains ([c], k)
    && symbols.all (fun e => e.1.head? != some c || e == ([c], k) || (e.1[1]?).any longer.contains)
    && !isSpace c && !(['/', '"', '\''].contains c) && !Unicode.isDigit c && !isNameStart c
    && (c != '.' || k == .dot)

/-- The characters of a symbol of types are found as the symbol. -/
theorem scan_of_typeSymbol {text : String} (hk : k ∈ Kind.typeSymbols) (h : k.spelling = some text)
    (hrest : Lexeme.StaysApart ⟨k, text⟩ rest) : ∃ c, text.toList = [c] ∧ isSpace c = false
      ∧ scan c rest = .token k 0 := by
  have single (c : Char) (longer : List Char) (hsingle : isSingle k c longer = true)
      (hlonger : ∀ x ∈ rest.head?, x ∉ longer) : ∃ c, text.toList = [c] ∧ isSpace c = false
        ∧ scan c rest = .token k 0 := by
    simp only [isSingle, Bool.and_eq_true, beq_iff_eq, Bool.not_eq_true', List.contains_eq_mem,
      decide_eq_true_eq, decide_eq_false_iff_not] at hsingle
    obtain ⟨⟨⟨⟨⟨⟨⟨hspelling, hmem⟩, hall⟩, hspace⟩, hquote⟩, hdigit⟩, hname⟩, hpoint⟩ := hsingle
    obtain rfl := Option.some.inj (h.symm.trans hspelling)
    refine ⟨c, String.toList_ofList, hspace, ?_⟩
    rw [scan_eq_symbol hspace hquote hdigit hname fun hc x hx => ?_]
    · exact symbol_of_forall (by simpa using hall) hmem hlonger
    · exact ((hrest x hx).2.2.1 (by simpa [hc] using hpoint)).2
  simp only [Kind.typeSymbols, List.mem_cons, List.not_mem_nil, or_false] at hk
  rcases hk with rfl | rfl | rfl | rfl | rfl | rfl | rfl | rfl
  · refine single '<' ['<', '='] (by decide +kernel) fun x hx => ?_
    simpa using (hrest x hx).2.1 rfl
  · exact single '>' [] (by decide +kernel) (by simp)
  · exact single ',' [] (by decide +kernel) (by simp)
  · refine single '.' ['.'] (by decide +kernel) fun x hx => ?_
    simpa using ((hrest x hx).2.2.1 rfl).1
  · exact single '?' [] (by decide +kernel) (by simp)
  · exact single '[' [] (by decide +kernel) (by simp)
  · exact single ']' [] (by decide +kernel) (by simp)
  · refine single '&' ['&', '='] (by decide +kernel) fun x hx => ?_
    simpa using (hrest x hx).2.2.2 rfl

/-- Any token of types is found as what it is, if what is behind it leaves it so. -/
theorem scan_of_isOfType {x : Lexeme} (h : x.IsOfType) (hrest : x.StaysApart rest) :
    ∃ c body, x.text.toList = c :: body ∧ isSpace c = false
      ∧ scan c (body ++ rest) = .token x.kind body.length := by
  cases h with
  | name h =>
    obtain ⟨c, body, htext, hc, hscan⟩ := scan_of_isName h fun d hd => (hrest d hd).1 rfl
    exact ⟨c, body, htext, not_isSpace_of_isNameStart hc, hscan⟩
  | @keyword k text hk h =>
    have hword : Lexeme.isWord ⟨k, text⟩ = true := by simp [Lexeme.isWord, hk]
    obtain ⟨c, body, htext, hc, hscan⟩ := scan_of_keyword hk h fun d hd => (hrest d hd).1 hword
    exact ⟨c, body, htext, not_isSpace_of_isNameStart hc, hscan⟩
  | symbol hk h =>
    obtain ⟨c, htext, hspace, hscan⟩ := scan_of_typeSymbol hk h hrest
    exact ⟨c, [], htext, hspace, hscan⟩

end Scan

/-- A symbol of types is no word. -/
theorem Lexeme.not_isWord_of_typeSymbols {x : Lexeme} (hk : x.kind ∈ Kind.typeSymbols) :
    x.isWord = false := by
  have hall : Kind.typeSymbols.all (fun k => !(k == .identifier || Kind.keywordKinds.contains k)) = true := by
    decide
  simpa [isWord] using List.all_eq_true.1 hall x.kind hk

/-- A token of types begins like a name, or it is a symbol. -/
theorem Lexeme.IsOfType.head {x : Lexeme} (h : x.IsOfType) : ∃ c, x.text.toList.head? = some c
    ∧ (Scan.isNameStart c = true
      ∨ x.kind ∈ Kind.typeSymbols ∧ x.kind.spelling = some (String.ofList [c])) := by
  have hend : x.StaysApart [] := nofun
  have hword : ∀ c ∈ ([] : List Char).head?, Scan.isNamePart c = false := nofun
  cases h with
  | name h =>
    obtain ⟨c, body, htext, hc, -⟩ := Scan.scan_of_isName h hword
    exact ⟨c, by simp [htext], .inl hc⟩
  | keyword hk h =>
    obtain ⟨c, body, htext, hc, -⟩ := Scan.scan_of_keyword hk h hword
    exact ⟨c, by simp [htext], .inl hc⟩
  | symbol hk h =>
    obtain ⟨c, htext, -⟩ := Scan.scan_of_typeSymbol hk h hend
    refine ⟨c, by simp [htext], .inr ⟨hk, ?_⟩⟩
    rw [← htext, String.ofList_toList]
    exact h

theorem Lexeme.IsOfType.isCode {x : Lexeme} (h : x.IsOfType) : x.kind.isCode = true := by
  have hall : (Kind.keywordKinds ++ Kind.typeSymbols).all Kind.isCode = true := by decide
  cases h with
  | name _ => rfl
  | keyword hk _ => exact List.all_eq_true.1 hall _ (List.mem_append_left _ hk)
  | symbol hk _ => exact List.all_eq_true.1 hall _ (List.mem_append_right _ hk)

theorem Lexeme.IsOfType.kind_ne_error {x : Lexeme} (h : x.IsOfType) : x.kind ≠ .error := by
  have hall : (Kind.keywordKinds ++ Kind.typeSymbols).all (· != .error) = true := by decide
  cases h with
  | name _ => exact nofun
  | keyword hk _ => exact bne_iff_ne.1 (List.all_eq_true.1 hall _ (List.mem_append_left _ hk))
  | symbol hk _ => exact bne_iff_ne.1 (List.all_eq_true.1 hall _ (List.mem_append_right _ hk))

/-! ## Lists of tokens -/

namespace Lexeme

/-- Can the second token stand behind the first one without a gap, words apart? -/
def Fits (x y : Lexeme) : Prop :=
  (x.kind = .less → y.kind ≠ .less) ∧ (x.kind = .dot → y.isWord = true) ∧ (x.kind = .amp → y.kind ≠ .amp)

/-- Does nothing that could follow make another token of this one, a word apart? -/
def IsClosed (x : Lexeme) : Prop :=
  x.kind ≠ .less ∧ x.kind ≠ .dot ∧ x.kind ≠ .amp

theorem IsClosed.fits {x y : Lexeme} (h : x.IsClosed) : x.Fits y :=
  ⟨fun hless => absurd hless h.1, fun hdot => absurd hdot h.2.1, fun hamp => absurd hamp h.2.2⟩

end Lexeme

/-- Tokens of types in an order in which only words could be mistaken for longer ones. -/
structure Phrase (xs : List Lexeme) : Prop where
  tokens : ∀ x ∈ xs, x.IsOfType
  fits : xs.IsChain Lexeme.Fits
  closed : ∀ x ∈ xs.getLast?, x.IsClosed

/-- The tokens written down one after the other in front of a text, with gaps of any length in front of
each. Only between a word and a letter or digit the gap must not be empty. -/
inductive Written (rest : List Char) : List Lexeme → List Char → Prop where
  | done : Written rest [] rest
  | token {x : Lexeme} {xs : List Lexeme} {w cs : List Char} (hw : Gap w)
    (hword : x.isWord = true → cs.head?.any Scan.isNamePart = false) (h : Written rest xs cs) :
    Written rest (x :: xs) (w ++ (x.text.toList ++ cs))

theorem Phrase.nil : Phrase [] :=
  ⟨by simp, .nil, by simp⟩

theorem Phrase.singleton {x : Lexeme} (hx : x.IsOfType) (hclosed : x.IsClosed) : Phrase [x] :=
  ⟨by simpa using hx, .singleton x, by simpa using hclosed⟩

/-- What could stand at the end of a text can stand in front of anything. -/
theorem Phrase.append {xs ys : List Lexeme} (hx : Phrase xs) (hy : Phrase ys) : Phrase (xs ++ ys) := by
  refine ⟨fun x h => ?_, ?_, fun x h => ?_⟩
  · exact (List.mem_append.1 h).elim (hx.tokens x) (hy.tokens x)
  · exact List.isChain_append.2 ⟨hx.fits, hy.fits, fun x h _ _ => (hx.closed x h).fits⟩
  · cases ys with
    | nil => exact hx.closed x (by simpa using h)
    | cons y ys => exact hy.closed x (by simpa using h)

/-- A token that needs another one behind it stands in front of one that fits. -/
theorem Phrase.cons {x y : Lexeme} {ys : List Lexeme} (hx : x.IsOfType) (hxy : x.Fits y)
    (hy : Phrase (y :: ys)) : Phrase (x :: y :: ys) := by
  refine ⟨?_, List.isChain_cons_cons.2 ⟨hxy, hy.fits⟩, fun z hz => hy.closed z (by simpa using hz)⟩
  rintro z (_ | ⟨_, hz⟩)
  · exact hx
  · exact hy.tokens z hz

theorem Phrase.tail {x : Lexeme} {xs : List Lexeme} (h : Phrase (x :: xs)) : Phrase xs := by
  refine ⟨fun y hy => h.tokens y (List.mem_cons_of_mem x hy), h.fits.tail, fun y hy => h.closed y ?_⟩
  cases xs with
  | nil => contradiction
  | cons z xs => simpa using hy

/-- A gap begins with a blank or a slash. -/
theorem Gap.of_head? {w : List Char} (h : Gap w) (hc : c ∈ w.head?) : Scan.isSpace c = true ∨ c = '/' := by
  cases h with
  | nil => contradiction
  | blank hc' _ =>
    obtain rfl := Option.some.inj hc
    exact .inl hc'
  | line _ _ _ => exact .inr (Option.some.inj hc).symm
  | block _ _ => exact .inr (Option.some.inj hc).symm

/-- The symbols of types begin with different characters, and none of them like an assignment. -/
theorem Kind.ne_of_typeSymbols (hk : k ∈ typeSymbols) (h : k.spelling = some (String.ofList [c])) :
    (k ≠ .less → c ≠ '<') ∧ (k ≠ .amp → c ≠ '&') ∧ c ≠ '=' := by
  have hall : (typeSymbols.all fun k => (k == .less || k.spelling != some (String.ofList ['<']))
      && (k == .amp || k.spelling != some (String.ofList ['&']))
      && k.spelling != some (String.ofList ['='])) = true := by
    decide +kernel
  have hsymbol := List.all_eq_true.1 hall k hk
  simp only [Bool.and_eq_true, Bool.or_eq_true, beq_iff_eq, bne_iff_ne, h] at hsymbol
  obtain ⟨⟨hless, hamp⟩, hequal⟩ := hsymbol
  refine ⟨fun hne => ?_, fun hne => ?_, ?_⟩
  · rintro rfl
    exact hless.resolve_left hne rfl
  · rintro rfl
    exact hamp.resolve_left hne rfl
  · rintro rfl
    exact hequal rfl

/-- The first character of what is written is that of a gap or of the first token. -/
theorem Written.of_head? {xs : List Lexeme} {cs : List Char} (h : Written rest xs cs)
    (hx : ∀ x ∈ xs, x.IsOfType) (hc : c ∈ cs.head?) : xs = [] ∨ Scan.isSpace c = true ∨ c = '/'
      ∨ ∃ x ∈ xs.head?, x.text.toList.head? = some c := by
  cases h with
  | done => exact .inl rfl
  | @token x xs w cs hw _ h =>
    refine .inr ?_
    cases w with
    | cons d w =>
      rcases hw.of_head? (c := c) (by simpa using hc) with hspace | hslash
      · exact .inl hspace
      · exact .inr (.inl hslash)
    | nil =>
      obtain ⟨d, hd, -⟩ := (hx x List.mem_cons_self).head
      refine .inr (.inr ⟨x, rfl, ?_⟩)
      rw [List.nil_append, List.head?_append, hd] at hc
      rw [hd, ← hc]
      rfl

/-- What stands directly behind a token of a phrase leaves it as it is. -/
theorem Written.staysApart {x : Lexeme} {xs : List Lexeme} {cs : List Char} (h : Written rest xs cs)
    (hx : Phrase (x :: xs)) (hword : x.isWord = true → cs.head?.any Scan.isNamePart = false) :
    x.StaysApart cs := by
  intro c hc
  refine ⟨fun hxword => (Option.any_eq_false _ _).1 (hword hxword) c hc, ?_⟩
  rcases h.of_head? hx.tail.tokens hc with rfl | hspace | rfl | ⟨y, hy, htext⟩
  · have hclosed := hx.closed x rfl
    exact ⟨fun hless => absurd hless hclosed.1, fun hdot => absurd hdot hclosed.2.1,
      fun hamp => absurd hamp hclosed.2.2⟩
  · have hne : c ≠ '<' ∧ c ≠ '=' ∧ c ≠ '.' ∧ c ≠ '&' := by
      refine ⟨?_, ?_, ?_, ?_⟩ <;> rintro rfl <;> exact absurd hspace (by decide)
    exact ⟨fun _ => ⟨hne.1, hne.2.1⟩, fun _ => ⟨hne.2.2.1, Scan.not_isDigit_of_isSpace hspace⟩,
      fun _ => ⟨hne.2.2.2, hne.2.1⟩⟩
  · exact ⟨fun _ => by decide, fun _ => by decide, fun _ => by decide⟩
  · obtain ⟨ys, rfl⟩ := List.head?_eq_some_iff.1 hy
    have hfits : x.Fits y := (List.isChain_cons_cons.1 hx.fits).1
    obtain ⟨d, hd, hname | ⟨hk, hspelling⟩⟩ := (hx.tail.tokens y List.mem_cons_self).head
    · obtain rfl := Option.some.inj (htext.symm.trans hd)
      have hne : c ≠ '<' ∧ c ≠ '=' ∧ c ≠ '.' ∧ c ≠ '&' := by
        refine ⟨?_, ?_, ?_, ?_⟩ <;> rintro rfl <;> exact absurd hname (by decide)
      exact ⟨fun _ => ⟨hne.1, hne.2.1⟩, fun _ => ⟨hne.2.2.1, Scan.not_isDigit_of_isNameStart hname⟩,
        fun _ => ⟨hne.2.2.2, hne.2.1⟩⟩
    · obtain rfl := Option.some.inj (htext.symm.trans hd)
      obtain ⟨hless, hamp, hequal⟩ := Kind.ne_of_typeSymbols hk hspelling
      refine ⟨fun h => ⟨hless (hfits.1 h), hequal⟩, fun h => ?_, fun h => ⟨hamp (hfits.2.2 h), hequal⟩⟩
      exact absurd (hfits.2.1 h) (Bool.eq_false_iff.1 (Lexeme.not_isWord_of_typeSymbols hk))

/-- What is written down is read again, and what is behind it is read as if nothing were in front. -/
theorem code_of_written {xs : List Lexeme} {text : List Char} (h : Written rest xs text)
    (hx : Phrase xs) : code text = xs ++ code rest := by
  induction h with
  | done => rfl
  | @token x xs w cs hw hword h ih =>
    have hapart := h.staysApart hx hword
    obtain ⟨c, body, htext, hspace, hscan⟩ := Scan.scan_of_isOfType (hx.tokens x List.mem_cons_self) hapart
    have hcode : x.kind.isCode = true := (hx.tokens x List.mem_cons_self).isCode
    rw [hw.code_append, htext, code, visible_append_of_scan hspace hscan, ← htext, String.ofList_toList,
      List.filter_cons, if_pos hcode, ← code, ih hx.tail]
    rfl

/-- What is written down in front of a text is read in front of the tokens of the text. -/
theorem lexemes_of_written {text rest : String} {xs : List Lexeme}
    (h : Written rest.toList xs text.toList) (hx : Phrase xs) :
    lexemes Kind.isCode text = xs ++ lexemes Kind.isCode rest := by
  rw [lexemes_isCode_eq, lexemes_isCode_eq, code_of_written h hx]

/-- What is written down has no flaws. -/
theorem problems_of_written {text rest : String} {xs : List Lexeme}
    (h : Written rest.toList xs text.toList) (hx : Phrase xs) :
    (Source.ofString text).problems = [] ↔ (Source.ofString rest).problems = [] := by
  rw [problems_eq_nil_iff, problems_eq_nil_iff, lexemes_of_written h hx]
  constructor
  · exact fun h x hmem => h x (List.mem_append_right xs hmem)
  · intro h x hmem
    rcases List.mem_append.1 hmem with hmem | hmem
    · exact (hx.tokens x hmem).kind_ne_error
    · exact h x hmem

end Stencil
