import Mathlib.Data.List.Basic
import Stencil.Proofs.Grammar.Unit
import Stencil.Proofs.Token.Spelling

/-!
# Reading loses nothing

A token never reaches past the end of its text and is never empty, so a reader that asks for token
after token passes over the whole text and comes to its end.

Results:
* `Scan.scan_more_le`: what `scan` finds lies in the text, for every scanner it calls;
* `Reader.token_of_rest_cons`: one step of a reader hands out exactly the characters it passes over;
* `Stream.isLossless_ofString`: reading ends, its tokens are those of the stream, and they make up
  the text again, for texts with flaws as well as for texts that the grammar accepts.
-/

namespace Stencil

/-! ## How far a token reaches -/

namespace Scan

variable {cs : List Char}

theorem exponentTail_le (cs : List Char) : exponentTail cs ≤ cs.length := by
  unfold exponentTail
  split
  · exact Nat.le_refl 0
  · rename_i c cs
    have htail := countWhile_le isDecimalPart cs
    have hwhole := countWhile_le isDecimalPart (c :: cs)
    split
    · rw [List.length_cons]
      omega
    · exact hwhole

theorem exponentLength_le (marks cs : List Char) : exponentLength marks cs ≤ cs.length := by
  unfold exponentLength
  split
  · exact Nat.le_refl 0
  · rename_i c cs
    have htail := exponentTail_le cs
    rw [List.length_cons]
    split <;> omega

theorem fractionLength_le (cs : List Char) : fractionLength cs ≤ cs.length := by
  unfold fractionLength
  split
  · rename_i cs
    have hdigits := countWhile_le isDecimalPart cs
    rw [List.length_cons]
    split <;> omega
  · exact Nat.zero_le _

theorem hexFractionLength_le (cs : List Char) : hexFractionLength cs ≤ cs.length := by
  unfold hexFractionLength
  split
  · rename_i cs
    have hdigits := countWhile_le isHexPart cs
    rw [List.length_cons]
    omega
  · exact Nat.zero_le _

theorem numberSuffix_le (isFloat : Bool) (cs : List Char) :
    (numberSuffix isFloat cs).2 ≤ cs.length := by
  cases cs with
  | nil => exact Nat.zero_le _
  | cons c cs =>
    simp only [numberSuffix, List.length_cons]
    split
    · exact Nat.le_add_left 1 _
    · split
      · exact Nat.le_add_left 1 _
      · exact Nat.zero_le _

theorem finishNumber_le (isFloat : Bool) {n : Nat} (hn : n ≤ cs.length) :
    (finishNumber isFloat n cs).2 ≤ cs.length := by
  have hsuffix := numberSuffix_le isFloat (cs.drop n)
  rw [List.length_drop] at hsuffix
  show n + (numberSuffix isFloat (cs.drop n)).2 ≤ cs.length
  omega

/-- Parts that each lie in what the part before leaves over lie in the text together. -/
theorem parts_le {whole fraction exponent : Nat} (hw : whole ≤ cs.length)
    (hf : fraction ≤ (cs.drop whole).length)
    (he : exponent ≤ (cs.drop (whole + fraction)).length) :
    whole + fraction + exponent ≤ cs.length := by
  rw [List.length_drop] at hf he
  omega

theorem decimalNumber_le (cs : List Char) : (decimalNumber cs).2 ≤ cs.length := by
  unfold decimalNumber
  apply finishNumber_le
  apply parts_le
  · exact countWhile_le isDecimalPart cs
  · exact fractionLength_le _
  · exact exponentLength_le _ _

theorem hexNumber_more_le (cs : List Char) : (hexNumber cs).more ≤ 1 + cs.length := by
  unfold hexNumber
  dsimp only
  split
  · exact Nat.le_add_right 1 _
  · apply Nat.add_le_add_left
    apply finishNumber_le
    apply parts_le
    · exact countWhile_le isHexPart cs
    · exact hexFractionLength_le _
    · exact exponentLength_le _ _

theorem binaryNumber_more_le (cs : List Char) : (binaryNumber cs).more ≤ 1 + cs.length := by
  unfold binaryNumber
  dsimp only
  split
  · exact Nat.le_add_right 1 _
  · apply Nat.add_le_add_left
    apply finishNumber_le
    exact countWhile_le isBinaryPart cs

theorem number_more_le (c : Char) (cs : List Char) : (number c cs).more ≤ cs.length := by
  have hdecimal := decimalNumber_le (c :: cs)
  rw [List.length_cons] at hdecimal
  unfold number
  split
  · rename_i mark rest
    rw [List.length_cons, Nat.add_comm]
    split
    · exact hexNumber_more_le rest
    · split
      · exact binaryNumber_more_le rest
      · show (decimalNumber (c :: mark :: rest)).2 - 1 ≤ 1 + rest.length
        rw [List.length_cons] at hdecimal
        omega
  · show (decimalNumber [c]).2 - 1 ≤ 0
    rw [List.length_nil] at hdecimal
    omega

theorem slash_more_le (cs : List Char) : (slash cs).more ≤ cs.length := by
  unfold slash
  split
  · rename_i cs
    have hline := countWhile_le (fun c => !isLineEnd c) cs
    show 1 + countWhile (fun c => !isLineEnd c) cs ≤ cs.length + 1
    omega
  · rename_i cs
    rw [List.length_cons]
    split
    · exact Nat.le_of_eq (Nat.add_comm 1 _)
    · rename_i n hn
      show 1 + n ≤ cs.length + 1
      have hblock := blockCommentLength_le hn
      omega
  · exact Nat.le_add_left 1 _
  · exact Nat.zero_le _

theorem quotedLiteral_more_le (quote : Char) (kind : Kind) (form : String) (cs : List Char) :
    (quotedLiteral quote kind form cs).more ≤ cs.length := by
  have hquoted := quotedLength_le quote cs
  unfold quotedLiteral
  split
  · rename_i n hn
    rwa [hn] at hquoted
  · rename_i n hn
    rwa [hn] at hquoted

theorem doubleQuote_more_le (cs : List Char) : (doubleQuote cs).more ≤ cs.length := by
  unfold doubleQuote
  split
  · rename_i cs
    have hblock := textBlockLength_le cs
    rw [List.length_cons, List.length_cons, Nat.add_assoc, Nat.add_comm]
    split
    · rename_i n hn
      rw [hn] at hblock
      exact Nat.add_le_add_left hblock 2
    · rename_i n hn
      rw [hn] at hblock
      exact Nat.add_le_add_left hblock 2
  · exact quotedLiteral_more_le _ _ _ cs

theorem symbol_more_le (c : Char) (cs : List Char) : (symbol c cs).more ≤ cs.length := by
  unfold symbol
  split
  · rename_i e he
    have hprefix := List.find?_some he
    rw [List.isPrefixOf_iff_prefix] at hprefix
    have hlength := hprefix.length_le
    rw [List.length_cons] at hlength
    show e.1.length - 1 ≤ cs.length
    omega
  · exact Nat.zero_le _

theorem scan_more_le (c : Char) (cs : List Char) : (scan c cs).more ≤ cs.length := by
  unfold scan
  split
  · exact countWhile_le isSpace cs
  split
  · exact slash_more_le cs
  split
  · exact doubleQuote_more_le cs
  split
  · exact quotedLiteral_more_le _ _ _ cs
  split
  · exact number_more_le c cs
  split
  · exact number_more_le c cs
  split
  · exact countWhile_le isNamePart cs
  · exact symbol_more_le c cs

end Scan

namespace Piece

variable (c : Char) (cs : List Char)

theorem length_chars_ofScan : (ofScan c cs).chars.length = (scan c cs).more + 1 := by
  show (c :: cs.take (scan c cs).more).length = (scan c cs).more + 1
  rw [List.length_cons, List.length_take, Nat.min_eq_left (Scan.scan_more_le c cs)]

theorem chars_ofScan_append : (ofScan c cs).chars ++ cs.drop (scan c cs).more = c :: cs := by
  show c :: cs.take (scan c cs).more ++ cs.drop (scan c cs).more = c :: cs
  rw [List.cons_append, List.take_append_drop]

/-- No piece marks the end of the text: flawed text has a kind of its own too. -/
theorem kind_ofScan_ne_eof : (ofScan c cs).kind ≠ .eof := by
  have hspells : Scan.Spells .primary (scan c cs) c cs := Scan.spells_scan
  unfold kind
  split
  · rename_i k hk
    exact (hspells k hk).1
  · simp

end Piece

theorem chars_and_kind_of_mem_pieces {p : Piece} {k : Nat} {cs : List Char} (hp : p ∈ pieces k cs) :
    p.chars ≠ [] ∧ p.kind ≠ .eof := by
  induction cs generalizing k with
  | nil => cases k <;> simp [pieces] at hp
  | cons c cs ih =>
    cases k with
    | succ k => exact ih hp
    | zero =>
      rw [pieces, List.mem_cons] at hp
      rcases hp with rfl | hp
      · exact ⟨List.cons_ne_nil c _, Piece.kind_ofScan_ne_eof c cs⟩
      · exact ih hp

/-! ## Reading -/

namespace Reader

/-- The tokens that a reader hands out up to and with the first end mark, and the flaws it has found
by then. There is no result if the end mark is not among the first `n` tokens. -/
def readAll : Nat → Reader → Option (List Token × List LexicalProblem)
  | 0, _ => none
  | n + 1, r =>
    let t := r.token.1
    if t.kind = .eof then some ([t], r.token.2.problems)
    else (readAll n r.token.2).map fun result => (t :: result.1, result.2)

variable {r : Reader} {c : Char} {cs : List Char}

theorem token_of_rest_nil (h : r.rest = []) :
    r.token = (r.place.endToken, { r with ended := true }) := by
  simp only [token, h]

/-- One step: the token is what `scan` finds, its text is what the reader passes over, and that is
one character at least. -/
theorem token_of_rest_cons (h : r.rest = c :: cs) :
    r.token.1 = (Piece.ofScan c cs).token r.place
      ∧ r.token.1.text.toList ++ r.token.2.rest = r.rest
      ∧ r.token.1.text.toList.length = (scan c cs).more + 1
      ∧ r.token.1.kind ≠ .eof := by
  have htoken : r.token.1 = (Piece.ofScan c cs).token r.place := by
    simp only [token, h]
  have hrest : r.token.2.rest = cs.drop (scan c cs).more := by
    simp only [token, h]
  have htext : r.token.1.text.toList = (Piece.ofScan c cs).chars := by
    rw [htoken, Piece.token, String.toList_ofList]
  refine ⟨htoken, ?_, ?_, ?_⟩
  · rw [htext, hrest, h, Piece.chars_ofScan_append]
  · rw [htext, Piece.length_chars_ofScan]
  · rw [htoken]
    exact Piece.kind_ofScan_ne_eof c cs

/-- A whole run: a reader hands out the pieces of what it still has to read, one after the other, and
then the end mark. Every step passes over a character, so the characters left over bound the number
of steps. -/
theorem readAll_eq {n : Nat} (hn : r.rest.length < n) :
    readAll n r = some
      ((layOut r.place (pieces 0 r.rest)).map (fun p => p.1.token p.2)
          ++ [(r.place.after r.rest).endToken],
        r.problems ++ (layOut r.place (pieces 0 r.rest)).filterMap fun p => p.1.problem? p.2) := by
  induction n generalizing r with
  | zero => omega
  | succ n ih =>
    cases hrest : r.rest with
    | nil =>
      rw [readAll, token_of_rest_nil hrest]
      simp [Place.endToken, pieces, layOut]
    | cons c cs =>
      obtain ⟨htoken, happend, hlength, hkind⟩ := token_of_rest_cons hrest
      have hshorter : r.token.2.rest.length < n := by
        have htotal := congrArg List.length happend
        rw [List.length_append] at htotal
        omega
      have hafter : (r.place.after (Piece.ofScan c cs).chars).after (cs.drop (scan c cs).more)
          = r.place.after (c :: cs) := by
        rw [← Place.after_append, Piece.chars_ofScan_append]
      have hnext : r.token.2 = { r with
          rest := cs.drop (scan c cs).more
          place := r.place.after (Piece.ofScan c cs).chars
          problems := r.problems ++ ((Piece.ofScan c cs).problem? r.place).toList } := by
        simp only [token, hrest]
      rw [readAll, if_neg hkind, ih hshorter, Option.map_some, htoken, hnext]
      rw [pieces, pieces_eq_drop (scan c cs).more cs]
      simp only [layOut, List.map_cons, List.cons_append, List.filterMap_cons, hafter]
      cases (Piece.ofScan c cs).problem? r.place <;> simp

end Reader

/-! ## The text of the tokens -/

theorem map_fst_layOut (place : Place) (ps : List Piece) : (layOut place ps).map (·.1) = ps := by
  induction ps generalizing place with
  | nil => rfl
  | cons p ps ih => rw [layOut, List.map_cons, ih]

theorem toList_join_map_token (xs : List (Piece × Place)) :
    (String.join ((xs.map fun x => x.1.token x.2).map (·.text))).toList
      = (xs.map (·.1)).flatMap Piece.chars := by
  induction xs with
  | nil => rfl
  | cons x xs ih =>
    rw [List.map_cons, List.map_cons, String.join_cons, String.toList_append, ih, List.map_cons,
      List.flatMap_cons, Piece.token, String.toList_ofList]

namespace Stream

/-- The tokens of the stream make up the text, exactly the last one marks the end, and exactly the
last one is empty. -/
structure IsLossless (s : Stream) (text : String) : Prop where
  join_eq : String.join (s.all.map (·.text)) = text
  of_mem : ∀ t ∈ s.tokens, t.text ≠ "" ∧ t.kind ≠ .eof
  stop : s.stop.text = "" ∧ s.stop.kind = .eof

theorem join_tokens (text : String) :
    String.join ((ofString text).tokens.map (·.text)) = text := by
  apply String.toList_inj.1
  rw [ofString, ofChars]
  show (String.join (((layOut .start (pieces 0 text.toList)).map
    fun p => p.1.token p.2).map (·.text))).toList = text.toList
  rw [toList_join_map_token, map_fst_layOut, flatMap_chars_pieces, List.drop_zero]

theorem ne_empty_of_mem_tokens {text : String} {t : Token} (ht : t ∈ (ofString text).tokens) :
    t.text ≠ "" ∧ t.kind ≠ .eof := by
  obtain ⟨e, he, rfl⟩ := List.mem_map.1 ht
  obtain ⟨hchars, hkind⟩ := chars_and_kind_of_mem_pieces (mem_pieces_of_mem_layOut he)
  refine ⟨fun hempty => hchars ?_, hkind⟩
  rw [← String.toList_ofList (l := e.1.chars)]
  show ((e.1.token e.2).text).toList = []
  rw [hempty]
  rfl

theorem isLossless (text : String) : (ofString text).IsLossless text where
  join_eq := by
    rw [all, List.map_append, String.join_append, join_tokens]
    show text ++ String.join [""] = text
    rw [String.join_cons, String.join_nil, String.append_empty, String.append_empty]
  of_mem _ := ne_empty_of_mem_tokens
  stop := ⟨rfl, rfl⟩

/-- Reading any text ends, after one token more than it has characters at the latest, and gives the
tokens and the flaws of its stream. That stream is lossless, and so is the source that the grammar
keeps of a text that it accepts. -/
theorem isLossless_ofString (text : String) :
    Reader.readAll (text.length + 1) (.ofString text)
        = some ((ofString text).all, (ofString text).problems)
      ∧ (ofString text).IsLossless text
      ∧ ∀ intrinsics file, ParsedFile.ofString text intrinsics = .ok file →
          file.source.text file.source.whole = text := by
  refine ⟨?_, isLossless text, fun intrinsics file hfile => ?_⟩
  · have hrun := Reader.readAll_eq (r := .ofString text) (n := text.length + 1) (by
      show text.toList.length < text.length + 1
      rw [String.length_toList]
      omega)
    rw [hrun]
    rfl
  · obtain ⟨hsource, -⟩ := ParsedFile.reads_of_ofString hfile
    rw [hsource, Source.text]
    have hall : ((Source.ofString text).tokens.extract (Source.ofString text).whole.start
        (Source.ofString text).whole.stop).toList = (ofString text).tokens := by
      simp [Source.whole, Source.size, Source.ofString, Source.ofStream]
    rw [hall, join_tokens]

/-- The theorem at a file with a comment, a number and a byte order mark, which the grammar accepts. -/
theorem isLossless_ofString_sample : ∃ file,
    ParsedFile.ofString "\uFEFFclass A \x7b int a = 0x1p3; /* é */ \x7d\n" "Intrinsics" = .ok file
      ∧ file.source.tokens.size = 20
      ∧ file.source.text file.source.whole = "\uFEFFclass A \x7b int a = 0x1p3; /* é */ \x7d\n" := by
  have hok : (match ParsedFile.ofString
        "\uFEFFclass A \x7b int a = 0x1p3; /* é */ \x7d\n" "Intrinsics" with
      | .ok file => file.source.tokens.size == 20
      | .error _ => false) = true := by
    decide +kernel
  cases hfile : ParsedFile.ofString
      "\uFEFFclass A \x7b int a = 0x1p3; /* é */ \x7d\n" "Intrinsics" with
  | error problems => simp [hfile] at hok
  | ok file =>
    rw [hfile, beq_iff_eq] at hok
    exact ⟨file, rfl, hok, (isLossless_ofString _).2.2 _ file hfile⟩

end Stream

end Stencil
