import Stencil.Proofs.Token.Joined

/-!
# Tokens that are spelled by their kind

A keyword or a symbol has one spelling, and a name is any word that is no keyword. The scanner looks
for tokens without a table of what it may find, so that the kinds it gives agree with the texts is a
property of each of its branches.

Results: of all tokens of a text, those of a kind with a spelling are spelled so, and the names are
names (`isSpelled_of_mem_lexemes`); the problems of a text show in the kinds of its tokens
(`problems_eq_nil_iff`).
-/

namespace Stencil

/-- Is the text that of a name: does it begin and go on like one, and is it no keyword? -/
def isName (text : String) : Bool :=
  match text.toList with
  | [] => false
  | c :: cs => Scan.isNameStart c && cs.all Scan.isNamePart && (Kind.ofKeyword? text).isNone

/-- Is the text the one that the kind is spelled by, or that of a name if the kind is that of names? Of
other kinds nothing is said. -/
structure Lexeme.IsSpelled (x : Lexeme) : Prop where
  spelling : ∀ text, x.kind.spelling = some text → x.text = text
  name : x.kind = .identifier → isName x.text = true

namespace Scan

variable {c : Char} {cs : List Char} {k : Kind} {n : Nat}

/-- Does the kind of what is found at a character agree with its text? The kind of flawed text is found
by its flaw only. -/
def Agrees (f : Finding) (c : Char) (cs : List Char) : Prop :=
  ∀ k, f.verdict = .ok k → k ≠ .error ∧ Lexeme.IsSpelled ⟨k, String.ofList (c :: cs.take f.more)⟩

theorem agrees_token (hk : k ≠ .error) (h : Lexeme.IsSpelled ⟨k, String.ofList (c :: cs.take n)⟩) :
    Agrees (.token k n) c cs := by
  rintro _ ⟨⟩
  exact ⟨hk, h⟩

theorem agrees_flawed {flaw : Flaw} : Agrees (.flawed flaw n) c cs :=
  nofun

/-! ## Kinds without a spelling -/

/-- Is the kind one that does not tell the text, and that of no names? -/
def IsUntold (k : Kind) : Prop :=
  k.spelling = none ∧ k ≠ .identifier ∧ k ≠ .error

theorem isSpelled_of_isUntold {text : String} (h : IsUntold k) : Lexeme.IsSpelled ⟨k, text⟩ :=
  ⟨fun _ htext => absurd (h.1.symm.trans htext) (by simp), fun hname => absurd hname h.2.1⟩

theorem agrees_of_isUntold (h : IsUntold k) : Agrees (.token k n) c cs :=
  agrees_token h.2.2 (isSpelled_of_isUntold h)

theorem agrees_quotedLiteral {quote : Char} {form : String} (hk : IsUntold k) :
    Agrees (quotedLiteral quote k form cs) c cs := by
  unfold quotedLiteral
  split
  · exact agrees_of_isUntold hk
  · exact agrees_flawed

theorem agrees_doubleQuote : Agrees (doubleQuote cs) c cs := by
  unfold doubleQuote
  split
  · split
    · exact agrees_of_isUntold ⟨rfl, by decide, by decide⟩
    · exact agrees_flawed
  · exact agrees_quotedLiteral ⟨rfl, by decide, by decide⟩

theorem isUntold_numberSuffix {isFloat : Bool} : IsUntold (numberSuffix isFloat cs).1 := by
  have hkind : (numberSuffix isFloat cs).1 ∈ [Kind.intLiteral, .floatLiteral] := mem_kind_numberSuffix
  simp only [List.mem_cons, List.not_mem_nil, or_false] at hkind
  rcases hkind with hkind | hkind
  · rw [hkind]
    exact ⟨rfl, by decide, by decide⟩
  · rw [hkind]
    exact ⟨rfl, by decide, by decide⟩

theorem agrees_number : Agrees (number c cs) c cs := by
  have decimal {n : Nat} {ds : List Char} : Agrees (.token (decimalNumber ds).1 n) c cs :=
    agrees_of_isUntold isUntold_numberSuffix
  unfold number
  split
  · split
    · unfold hexNumber
      dsimp only
      split
      · exact agrees_flawed
      · exact agrees_of_isUntold isUntold_numberSuffix
    · split
      · unfold binaryNumber
        dsimp only
        split
        · exact agrees_flawed
        · exact agrees_of_isUntold isUntold_numberSuffix
      · exact decimal
  · exact decimal

/-! ## Names, keywords and symbols -/

theorem spelling_of_mem_keywords {word : String} (h : (word, k) ∈ Kind.keywords) :
    k.spelling = some word ∨ k = .reserved := by
  have hall : Kind.keywords.all (fun e => e.2.spelling == some e.1 || e.2 == .reserved) = true := by
    decide +kernel
  simpa using List.all_eq_true.1 hall _ h

theorem spelling_of_mem_symbols {e : List Char × Kind} (h : e ∈ symbols) :
    e.2.spelling = some (String.ofList e.1) := by
  have hall : symbols.all (fun e => e.2.spelling == some (String.ofList e.1)) = true := by
    decide +kernel
  simpa using List.all_eq_true.1 hall e h

theorem isSpelled_of_spelling {text : String} (h : k.spelling = some text) :
    Lexeme.IsSpelled ⟨k, text⟩ := by
  refine ⟨fun text' h' => Option.some.inj (h.symm.trans h'), fun hname => ?_⟩
  obtain rfl : k = .identifier := hname
  contradiction

theorem agrees_of_spelling (h : k.spelling = some (String.ofList (c :: cs.take n))) :
    Agrees (.token k n) c cs := by
  refine agrees_token ?_ (isSpelled_of_spelling h)
  rintro rfl
  contradiction

theorem agrees_name (hc : isNameStart c = true) : Agrees (name c cs) c cs := by
  unfold name
  dsimp only
  cases hword : Kind.ofKeyword? (String.ofList (c :: cs.take (countWhile isNamePart cs))) with
  | none =>
    refine agrees_token (by decide) ⟨nofun, fun _ => ?_⟩
    have hall : (cs.take (countWhile isNamePart cs)).all isNamePart = true :=
      List.all_eq_true.2 all_take_countWhile
    rw [isName, String.toList_ofList]
    simp only [hc, hall, hword, Option.isNone_none, Bool.and_self]
  | some k =>
    obtain ⟨before, behind, hmem, -⟩ := List.lookup_eq_some_iff.1 hword
    have hspelling := spelling_of_mem_keywords (hmem ▸ List.mem_append_right before List.mem_cons_self)
    rcases hspelling with hspelling | rfl
    · exact agrees_of_spelling hspelling
    · exact agrees_of_isUntold ⟨rfl, by decide, by decide⟩

theorem agrees_symbol : Agrees (symbol c cs) c cs := by
  unfold symbol
  split
  · rename_i e he
    have hmem := List.mem_of_find?_eq_some he
    have hpre := List.find?_some he
    rw [List.isPrefixOf_iff_prefix, List.prefix_iff_eq_take] at hpre
    obtain ⟨n, hn⟩ := Nat.exists_eq_succ_of_ne_zero (Nat.ne_of_gt (length_le_of_mem_symbols hmem).1)
    rw [hn, List.take_succ_cons] at hpre
    have hspelling := spelling_of_mem_symbols hmem
    rw [hpre] at hspelling
    rw [hn]
    exact agrees_of_spelling hspelling
  · exact agrees_flawed

/-! ## All tokens -/

theorem agrees_slash : Agrees (slash cs) '/' cs := by
  unfold slash
  split
  · exact agrees_of_isUntold ⟨rfl, by decide, by decide⟩
  · split
    · exact agrees_flawed
    · dsimp only
      split
      · exact agrees_of_isUntold ⟨rfl, by decide, by decide⟩
      · exact agrees_of_isUntold ⟨rfl, by decide, by decide⟩
  · exact agrees_of_spelling rfl
  · exact agrees_of_spelling rfl

theorem agrees_scan : Agrees (scan c cs) c cs := by
  unfold scan
  split
  · exact agrees_of_isUntold ⟨rfl, by decide, by decide⟩
  split
  · rename_i hslash
    obtain rfl := beq_iff_eq.1 hslash
    exact agrees_slash
  split
  · exact agrees_doubleQuote
  split
  · exact agrees_quotedLiteral ⟨rfl, by decide, by decide⟩
  split
  · exact agrees_number
  split
  · exact agrees_number
  split
  · rename_i hname
    exact agrees_name hname
  · exact agrees_symbol

end Scan

/-! ## Texts -/

theorem agrees_of_mem_pieces {x : Piece} {i : Nat} {cs : List Char} (hx : x ∈ pieces i cs) :
    x.lexeme.IsSpelled ∧ (x.kind = .error ↔ ∃ flaw, x.verdict = .error flaw) := by
  induction cs generalizing i with
  | nil => cases i <;> simp [pieces] at hx
  | cons c cs ih =>
    cases i with
    | succ i => exact ih hx
    | zero =>
      rw [pieces, List.mem_cons] at hx
      rcases hx with rfl | hx
      · cases hverdict : (scan c cs).verdict with
        | ok k =>
          have hagrees := Scan.agrees_scan k hverdict
          simpa [Piece.lexeme, Piece.kind, Piece.ofScan, hverdict, and_comm] using hagrees
        | error flaw =>
          have hkind : (Piece.ofScan c cs).kind = .error := by
            simp [Piece.kind, Piece.ofScan, hverdict]
          have hspelled : Lexeme.IsSpelled ⟨.error, String.ofList (Piece.ofScan c cs).chars⟩ :=
            ⟨fun _ h => by contradiction, fun h => by contradiction⟩
          rw [Piece.lexeme, hkind]
          exact ⟨hspelled, iff_of_true rfl ⟨flaw, hverdict⟩⟩
      · exact ih hx

/-- Whatever the text, its tokens are spelled as their kinds demand. -/
theorem isSpelled_of_mem_lexemes {keep : Kind → Bool} {text : String} {x : Lexeme}
    (hx : x ∈ lexemes keep text) : x.IsSpelled := by
  rw [lexemes, map_toLexeme_tokens, List.mem_filter, List.mem_map] at hx
  obtain ⟨⟨p, hp, rfl⟩, -⟩ := hx
  exact (agrees_of_mem_pieces hp).1

theorem Source.isSpelled_of_mem_tokens {text : String} {k : Token} (h : k ∈ (Source.ofString text).tokens) :
    k.toLexeme.IsSpelled := by
  have hmem : k.toLexeme ∈ lexemes (fun _ => true) text := by
    rw [lexemes, List.mem_filter]
    exact ⟨List.mem_map_of_mem (List.mem_toArray.1 h), rfl⟩
  exact isSpelled_of_mem_lexemes hmem

/-- A text has problems exactly if it has tokens of the kind of flawed text. -/
theorem problems_eq_nil_iff {text : String} :
    (Source.ofString text).problems = [] ↔ ∀ x ∈ lexemes Kind.isCode text, x.kind ≠ .error := by
  rw [lexemes, map_toLexeme_tokens]
  constructor
  · intro h x hx herror
    rw [List.mem_filter, List.mem_map] at hx
    obtain ⟨⟨p, hp, rfl⟩, -⟩ := hx
    obtain ⟨flaw, hflaw⟩ := (agrees_of_mem_pieces hp).2.1 herror
    rw [verdict_of_problems h hp] at hflaw
    contradiction
  · intro h
    simp only [Source.ofString, Source.ofStream, Stream.ofString, Stream.ofChars,
      List.filterMap_eq_nil_iff]
    intro e he
    have hp := mem_pieces_of_mem_layOut he
    cases hverdict : e.1.verdict with
    | ok k => simp [Piece.problem?, hverdict]
    | error flaw =>
      have herror : e.1.kind = .error := (agrees_of_mem_pieces hp).2.2 ⟨flaw, hverdict⟩
      refine absurd herror (h e.1.lexeme (List.mem_filter.2 ⟨List.mem_map_of_mem hp, ?_⟩))
      simp [Piece.lexeme, herror, Kind.isCode, Kind.channel]

end Stencil
