import Stencil.Binding.Vocabulary
import Stencil.Token.Source

/-!
# Letters that only names are made of

The letters that the placeholders of the default vocabulary begin with stand in no blank, number,
keyword or symbol. Only tokens whose text is up to their author can hold them: names, quoted
literals and comments.

Results: in a source without flaws a token of any other kind does not hold these letters
(`Source.initial_notMem`), and no token marks the end of the text (`Source.kind_ne_eof`).
-/

namespace Stencil

/-- The letter that the placeholder begins with in the default vocabulary. -/
def Placeholder.initial : Placeholder → Char
  | .primary => 'K'
  | .secondary => 'V'

/-- Are the texts of the kind up to their author? -/
def Kind.isFree : Kind → Bool
  | .identifier | .charLiteral | .stringLiteral | .textBlock | .lineComment | .blockComment
  | .docComment => true
  | _ => false

namespace Scan

variable {p : Placeholder} {P : Char → Bool} {cs : List Char}

/-! ## Beginnings of a text -/

theorem notMem_of_all {xs : List Char} {c : Char} (h : ∀ x ∈ xs, P x = true) (hc : P c = false) :
    c ∉ xs := by
  intro hmem
  rw [h c hmem] at hc
  contradiction

theorem all_take_countWhile : ∀ x ∈ cs.take (countWhile P cs), P x = true := by
  rw [countWhile, ← List.prefix_iff_eq_take.1 (List.takeWhile_prefix P)]
  exact List.all_eq_true.1 List.all_takeWhile

theorem all_take_mono {Q : Char → Bool} {n : Nat} (hPQ : ∀ x, P x = true → Q x = true)
    (h : ∀ x ∈ cs.take n, P x = true) : ∀ x ∈ cs.take n, Q x = true :=
  fun x hx => hPQ x (h x hx)

theorem all_take_add {m n : Nat} (hm : ∀ x ∈ cs.take m, P x = true)
    (hn : ∀ x ∈ (cs.drop m).take n, P x = true) : ∀ x ∈ cs.take (m + n), P x = true := by
  intro x hx
  rw [List.take_add, List.mem_append] at hx
  exact hx.elim (hm x) (hn x)

theorem all_take_cons {c : Char} {n : Nat} (hc : P c = true) (hn : ∀ x ∈ cs.take n, P x = true) :
    ∀ x ∈ (c :: cs).take (1 + n), P x = true := by
  intro x hx
  rw [Nat.add_comm, List.take_succ_cons, List.mem_cons] at hx
  rcases hx with rfl | hx
  · exact hc
  · exact hn x hx

theorem all_take_zero : ∀ x ∈ cs.take 0, P x = true := by
  simp

/-! ## Numbers -/

/-- The characters that numbers are made of: digits, points, signs, and the letters of marks and
suffixes. -/
def isNumberPart (c : Char) : Bool :=
  isHexPart c || ".+-xXpPlL".toList.contains c

theorem isNumberPart_initial (p : Placeholder) : isNumberPart p.initial = false := by
  cases p <;> decide

theorem isNumberPart_of_isHexPart (c : Char) (h : isHexPart c = true) : isNumberPart c = true := by
  rw [isNumberPart, h, Bool.true_or]

theorem isNumberPart_of_isDecimalPart (c : Char) (h : isDecimalPart c = true) :
    isNumberPart c = true := by
  refine isNumberPart_of_isHexPart c ?_
  simp only [isDecimalPart, isHexPart, Unicode.isHexDigit, Bool.or_eq_true] at h ⊢
  exact h.imp (fun h => .inl (.inl h)) id

theorem isNumberPart_of_isBinaryPart (c : Char) (h : isBinaryPart c = true) :
    isNumberPart c = true := by
  simp only [isBinaryPart, Bool.or_eq_true, beq_iff_eq] at h
  obtain (rfl | rfl) | rfl := h <;> decide

theorem isNumberPart_of_mem {marks : List Char} {c : Char} (hm : marks.all isNumberPart = true)
    (hc : marks.contains c = true) : isNumberPart c = true :=
  List.all_eq_true.1 hm c (List.contains_iff_mem.1 hc)

theorem all_take_decimal : ∀ x ∈ cs.take (countWhile isDecimalPart cs), isNumberPart x = true :=
  all_take_mono isNumberPart_of_isDecimalPart all_take_countWhile

theorem all_take_hex : ∀ x ∈ cs.take (countWhile isHexPart cs), isNumberPart x = true :=
  all_take_mono isNumberPart_of_isHexPart all_take_countWhile

theorem all_take_exponentLength {marks : List Char} (hm : marks.all isNumberPart = true) :
    ∀ x ∈ cs.take (exponentLength marks cs), isNumberPart x = true := by
  cases cs with
  | nil => simp
  | cons c cs =>
    simp only [exponentLength]
    split
    · rename_i hc
      refine all_take_cons (isNumberPart_of_mem hm hc) ?_
      cases cs with
      | nil => simp
      | cons d ds =>
        simp only [exponentTail]
        split
        · rename_i hd
          refine all_take_cons ?_ all_take_decimal
          simp only [Bool.or_eq_true, beq_iff_eq] at hd
          obtain rfl | rfl := hd <;> decide
        · exact all_take_decimal
    · exact all_take_zero

theorem all_take_fractionLength : ∀ x ∈ cs.take (fractionLength cs), isNumberPart x = true := by
  unfold fractionLength
  split
  · split
    · exact all_take_cons (by decide) all_take_decimal
    · exact all_take_zero
  · exact all_take_zero

theorem all_take_hexFractionLength :
    ∀ x ∈ cs.take (hexFractionLength cs), isNumberPart x = true := by
  unfold hexFractionLength
  split
  · exact all_take_cons (by decide) all_take_hex
  · exact all_take_zero

theorem all_take_numberSuffix {isFloat : Bool} :
    ∀ x ∈ cs.take (numberSuffix isFloat cs).2, isNumberPart x = true := by
  have one {marks : List Char} {c : Char} {ds : List Char} (hm : marks.all isNumberPart = true)
      (hc : marks.contains c = true) : ∀ x ∈ (c :: ds).take 1, isNumberPart x = true :=
    all_take_cons (isNumberPart_of_mem hm hc) all_take_zero
  cases cs with
  | nil => simp [numberSuffix]
  | cons c ds =>
    simp only [numberSuffix]
    split
    · rename_i hc
      exact one (by decide) hc
    · split
      · rename_i hc
        rw [Bool.and_eq_true] at hc
        exact one (by decide) hc.1
      · exact all_take_zero

theorem all_take_finishNumber {isFloat : Bool} {n : Nat}
    (h : ∀ x ∈ cs.take n, isNumberPart x = true) :
    ∀ x ∈ cs.take (finishNumber isFloat n cs).2, isNumberPart x = true :=
  all_take_add h all_take_numberSuffix

theorem all_take_decimalNumber : ∀ x ∈ cs.take (decimalNumber cs).2, isNumberPart x = true := by
  refine all_take_finishNumber (all_take_add (all_take_add all_take_decimal ?_) ?_)
  · exact all_take_fractionLength
  · exact all_take_exponentLength (by decide)

theorem all_take_hexNumber {c : Char} (hc : isNumberPart c = true) :
    ∀ x ∈ (c :: cs).take (hexNumber cs).more, isNumberPart x = true := by
  simp only [hexNumber]
  split
  · exact all_take_cons hc all_take_zero
  · refine all_take_cons hc (all_take_finishNumber (all_take_add (all_take_add ?_ ?_) ?_))
    · exact all_take_hex
    · exact all_take_hexFractionLength
    · exact all_take_exponentLength (by decide)

theorem all_take_binaryNumber {c : Char} (hc : isNumberPart c = true) :
    ∀ x ∈ (c :: cs).take (binaryNumber cs).more, isNumberPart x = true := by
  simp only [binaryNumber]
  split
  · exact all_take_cons hc all_take_zero
  · refine all_take_cons hc (all_take_finishNumber ?_)
    exact all_take_mono isNumberPart_of_isBinaryPart all_take_countWhile

theorem all_take_number {c : Char} (hc : isNumberPart c = true) :
    ∀ x ∈ c :: cs.take (number c cs).more, isNumberPart x = true := by
  rw [List.forall_mem_cons]
  refine ⟨hc, ?_⟩
  have decimal {n : Nat} (h : ∀ x ∈ (c :: cs).take n, isNumberPart x = true) :
      ∀ x ∈ cs.take (n - 1), isNumberPart x = true := by
    cases n with
    | zero => simp
    | succ n => exact fun x hx => h x (List.mem_cons_of_mem c hx)
  cases cs with
  | nil => simp
  | cons mark rest =>
    simp only [number]
    split
    · rename_i hx
      refine all_take_hexNumber ?_
      simp only [Bool.and_eq_true, Bool.or_eq_true, beq_iff_eq] at hx
      obtain ⟨-, rfl | rfl⟩ := hx <;> decide
    · split
      · rename_i hb
        refine all_take_binaryNumber ?_
        simp only [Bool.and_eq_true, Bool.or_eq_true, beq_iff_eq] at hb
        obtain ⟨-, rfl | rfl⟩ := hb <;> decide
      · exact decimal all_take_decimalNumber

theorem mem_kind_numberSuffix {isFloat : Bool} :
    (numberSuffix isFloat cs).1 ∈ [Kind.intLiteral, .floatLiteral] := by
  cases cs with
  | nil => cases isFloat <;> decide
  | cons c cs =>
    simp only [numberSuffix]
    split
    · decide
    · split
      · decide
      · cases isFloat <;> decide

/-- What begins like a number is one, or it is flawed. -/
theorem mem_kind_number {c : Char} : (number c cs).kind ∈ [Kind.intLiteral, .floatLiteral, .error] := by
  have hsuffix {n : Nat} {isFloat : Bool} {ds : List Char} :
      (Finding.token (numberSuffix isFloat ds).1 n).kind ∈ [Kind.intLiteral, .floatLiteral, .error] :=
    List.mem_append_left [Kind.error] mem_kind_numberSuffix
  cases cs with
  | nil => exact hsuffix
  | cons mark rest =>
    unfold number
    dsimp only
    split
    · unfold hexNumber
      dsimp only
      split
      · decide
      · exact hsuffix
    · split
      · unfold binaryNumber
        dsimp only
        split
        · decide
        · exact hsuffix
      · exact hsuffix

theorem number_ne_eof {c : Char} {k : Kind} (h : (number c cs).verdict = .ok k) : k ≠ .eof := by
  have hkind : (number c cs).kind = k := by rw [Finding.kind, h]
  rintro rfl
  exact absurd (hkind ▸ mem_kind_number) (by decide)

/-! ## Keywords and symbols -/

/-- Does the kind of a token agree with its text, as far as the letters of placeholders go? -/
def IsSpelled (p : Placeholder) (k : Kind) (chars : List Char) : Prop :=
  k ≠ .eof ∧ (k.isFree = true ∨ p.initial ∉ chars)

theorem isSpelled_of_mem_keywords {word : String} {k : Kind} (h : (word, k) ∈ Kind.keywords) :
    IsSpelled p k word.toList := by
  have hall : Kind.keywords.all (fun e => e.2 != .eof && !e.1.toList.contains p.initial) = true := by
    cases p <;> decide +kernel
  have he := List.all_eq_true.1 hall _ h
  simp only [Bool.and_eq_true, bne_iff_ne, Bool.not_eq_true', List.contains_eq_mem,
    decide_eq_false_iff_not] at he
  exact ⟨he.1, .inr he.2⟩

theorem isSpelled_of_mem_symbols {e : List Char × Kind} (h : e ∈ symbols) :
    IsSpelled p e.2 e.1 := by
  have hall : symbols.all (fun e => e.2 != .eof && !e.1.contains p.initial) = true := by
    cases p <;> decide +kernel
  have he := List.all_eq_true.1 hall _ h
  simp only [Bool.and_eq_true, bne_iff_ne, Bool.not_eq_true', List.contains_eq_mem,
    decide_eq_false_iff_not] at he
  exact ⟨he.1, .inr he.2⟩

/-! ## All tokens -/

/-- Does what has been found at a character agree with the characters? -/
def Spells (p : Placeholder) (f : Finding) (c : Char) (cs : List Char) : Prop :=
  ∀ k, f.verdict = .ok k → IsSpelled p k (c :: cs.take f.more)

variable {c : Char} {k : Kind} {n : Nat}

theorem spells_token (h : IsSpelled p k (c :: cs.take n)) : Spells p (.token k n) c cs := by
  rintro _ ⟨⟩
  exact h

theorem spells_flawed {flaw : Flaw} : Spells p (.flawed flaw n) c cs :=
  nofun

theorem spells_of_isFree (h : k.isFree = true) : Spells p (.token k n) c cs :=
  spells_token ⟨by rintro rfl; contradiction, .inl h⟩

theorem spells_quotedLiteral {quote : Char} {form : String} (hk : k.isFree = true) :
    Spells p (quotedLiteral quote k form cs) c cs := by
  unfold quotedLiteral
  split
  · exact spells_of_isFree hk
  · exact spells_flawed

theorem spells_doubleQuote : Spells p (doubleQuote cs) c cs := by
  unfold doubleQuote
  split
  · split
    · exact spells_of_isFree rfl
    · exact spells_flawed
  · exact spells_quotedLiteral rfl

theorem spells_slash : Spells p (slash cs) '/' cs := by
  unfold slash
  split
  · exact spells_of_isFree rfl
  · split
    · exact spells_flawed
    · refine spells_of_isFree ?_
      split <;> rfl
  · exact spells_token ⟨by simp, .inr (by cases p <;> simp [Placeholder.initial])⟩
  · exact spells_token ⟨by simp, .inr (by cases p <;> simp [Placeholder.initial])⟩

theorem spells_number (hc : isNumberPart c = true) : Spells p (number c cs) c cs :=
  fun _ h => ⟨number_ne_eof h, .inr (notMem_of_all (all_take_number hc) (isNumberPart_initial p))⟩

theorem spells_name : Spells p (name c cs) c cs := by
  unfold name
  dsimp only
  cases hword : Kind.ofKeyword? (String.ofList (c :: cs.take (countWhile isNamePart cs))) with
  | none => exact spells_of_isFree rfl
  | some k =>
    obtain ⟨before, behind, hmem, -⟩ := List.lookup_eq_some_iff.1 hword
    have hspelled := isSpelled_of_mem_keywords (p := p) (hmem ▸ List.mem_append_right before
      List.mem_cons_self)
    rw [String.toList_ofList] at hspelled
    exact spells_token hspelled

theorem spells_symbol : Spells p (symbol c cs) c cs := by
  unfold symbol
  split
  · rename_i e he
    have hpre := List.find?_some he
    rw [List.isPrefixOf_iff_prefix, List.prefix_iff_eq_take] at hpre
    have hspelled := isSpelled_of_mem_symbols (p := p) (List.mem_of_find?_eq_some he)
    have hne : e.1.length ≠ 0 := by
      have hall : symbols.all (fun e => e.1.length != 0) = true := by decide +kernel
      simpa using List.all_eq_true.1 hall e (List.mem_of_find?_eq_some he)
    obtain ⟨n, hn⟩ := Nat.exists_eq_succ_of_ne_zero hne
    rw [hn, List.take_succ_cons] at hpre
    rw [hpre] at hspelled
    rw [hn]
    exact spells_token hspelled
  · exact spells_flawed

theorem spells_scan : Spells p (scan c cs) c cs := by
  unfold scan
  split
  · rename_i hspace
    refine spells_token ⟨by simp, .inr (notMem_of_all (P := isSpace) ?_ (by cases p <;> decide))⟩
    rw [List.forall_mem_cons]
    exact ⟨hspace, all_take_countWhile⟩
  · split
    · rename_i hslash
      rw [beq_iff_eq] at hslash
      subst hslash
      exact spells_slash
    · split
      · exact spells_doubleQuote
      · split
        · exact spells_quotedLiteral rfl
        · split
          · rename_i hdigit
            refine spells_number (isNumberPart_of_isDecimalPart c ?_)
            rw [isDecimalPart, hdigit, Bool.true_or]
          · split
            · rename_i hpoint
              rw [Bool.and_eq_true, beq_iff_eq] at hpoint
              refine spells_number ?_
              rw [hpoint.1]
              decide
            · split
              · exact spells_name
              · exact spells_symbol

end Scan

/-! ## Sources -/

theorem isSpelled_of_mem_pieces {p : Placeholder} {x : Piece} {n : Nat} {cs : List Char} {k : Kind}
    (hx : x ∈ pieces n cs) (hk : x.verdict = .ok k) : Scan.IsSpelled p k x.chars := by
  induction cs generalizing n with
  | nil => cases n <;> simp [pieces] at hx
  | cons c cs ih =>
    cases n with
    | succ n => exact ih hx
    | zero =>
      rw [pieces, List.mem_cons] at hx
      rcases hx with rfl | hx
      · exact Scan.spells_scan k hk
      · exact ih hx

theorem mem_pieces_of_mem_layOut {place : Place} {xs : List Piece} {e : Piece × Place}
    (h : e ∈ layOut place xs) : e.1 ∈ xs := by
  induction xs generalizing place with
  | nil => simp [layOut] at h
  | cons x xs ih =>
    rw [layOut, List.mem_cons] at h
    rcases h with rfl | h
    · exact List.mem_cons_self
    · exact List.mem_cons_of_mem x (ih h)

namespace Source

/-- What the tokens of a source without flaws hold. -/
theorem isSpelled_of_mem {text : String} (hs : (ofString text).problems = []) {t : Token}
    (ht : t ∈ (ofString text).tokens) (p : Placeholder) : Scan.IsSpelled p t.kind t.text.toList := by
  simp only [ofString, ofStream, Stream.ofString, Stream.ofChars, List.mem_toArray, List.mem_map] at ht
  obtain ⟨e, he, rfl⟩ := ht
  simp only [ofString, ofStream, Stream.ofString, Stream.ofChars, List.filterMap_eq_nil_iff] at hs
  have hproblem := hs e he
  cases hverdict : e.1.verdict with
  | error flaw => simp [Piece.problem?, hverdict] at hproblem
  | ok k =>
    have hspelled := isSpelled_of_mem_pieces (p := p) (mem_pieces_of_mem_layOut he) hverdict
    simpa [Piece.token, Piece.kind, hverdict] using hspelled

variable {s : Source} {i : Nat}

theorem tokenAt_mem (hi : i < s.tokens.size) : s.tokenAt i ∈ s.tokens := by
  rw [tokenAt, Array.getElem?_eq_getElem hi, Option.getD_some]
  exact Array.getElem_mem hi

theorem kind_ne_eof {text : String} (hs : (ofString text).problems = [])
    (hi : i < (ofString text).tokens.size) : ((ofString text).tokenAt i).kind ≠ .eof :=
  (isSpelled_of_mem hs (tokenAt_mem hi) .primary).1

theorem initial_notMem {text : String} (hs : (ofString text).problems = [])
    (hi : i < (ofString text).tokens.size)
    (hk : ((ofString text).tokenAt i).kind.isFree = false) (p : Placeholder) :
    p.initial ∉ ((ofString text).tokenAt i).text.toList := by
  refine (isSpelled_of_mem hs (tokenAt_mem hi) p).2.resolve_left fun h => ?_
  rw [hk] at h
  contradiction

end Source

end Stencil
