import Mathlib.Data.List.DropRight
import Stencil.Proofs.Token.Lossless

/-!
# Lines and columns

The place of a token is not looked up in the text. It is carried along from token to token, through
every character that a token holds: comments over several lines, escapes that take the end of a line
with them, text with flaws.

Results: the place behind a text is told by the line feeds in it and by what stands behind the last of
them (`Place.start_after`), so every span tells where its token stands, and words of 32 bits can hold the
spans of a text shorter than `2 ^ 32` bytes (`Stream.tells_of_all_eq`). The exceptions are end marks: behind
`2 ^ 32 - 1` bytes on one line, or as many line feeds, a number is one too large (`Stream.not_fits_stop`).
-/

namespace Stencil

/-! ## Bytes -/

theorem byteLength_append (cs ds : List Char) :
    byteLength (cs ++ ds) = byteLength cs + byteLength ds := by
  induction cs with
  | nil => exact (Nat.zero_add _).symm
  | cons c cs ih =>
    show c.utf8Size + byteLength (cs ++ ds) = c.utf8Size + byteLength cs + byteLength ds
    rw [ih, Nat.add_assoc]

theorem byteLength_toList (text : String) : byteLength text.toList = text.utf8ByteSize := by
  have hchars (cs : List Char) : byteLength cs = (String.ofList cs).utf8ByteSize := by
    induction cs with
    | nil => rfl
    | cons c cs ih =>
      rw [← List.singleton_append, String.ofList_append, String.utf8ByteSize_append, ← ih,
        byteLength_append]
      simp [byteLength]
  rw [hchars, String.ofList_toList]

/-- A character takes a byte at least. -/
theorem length_le_byteLength (cs : List Char) : cs.length ≤ byteLength cs := by
  induction cs with
  | nil => exact Nat.le_refl 0
  | cons c cs ih =>
    show cs.length + 1 ≤ c.utf8Size + byteLength cs
    have hpos := c.utf8Size_pos
    omega

theorem byteLength_replicate {c : Char} (h : c.utf8Size = 1) (n : Nat) :
    byteLength (List.replicate n c) = n := by
  induction n with
  | zero => rfl
  | succ n ih =>
    show c.utf8Size + byteLength (List.replicate n c) = n + 1
    rw [h, ih, Nat.add_comm]

/-- A line feed takes no more than a byte. -/
theorem length_eq_byteLength {cs : List Char} (h : ∀ c ∈ cs, c = '\n') : cs.length = byteLength cs := by
  rw [List.eq_replicate_of_mem h, byteLength_replicate rfl, List.length_replicate]

/-! ## Places -/

/-- What stands behind the last line feed of a text: all of it, if there is none. -/
def lastLine (cs : List Char) : List Char :=
  cs.rtakeWhile (· != '\n')

/-- A text without line feeds is one line. -/
theorem lastLine_of_not_mem {cs : List Char} (h : '\n' ∉ cs) : lastLine cs = cs :=
  List.rtakeWhile_eq_self_iff.2 fun c hc => by simpa using ne_of_mem_of_not_mem hc h

theorem byteLength_lastLine_le (cs : List Char) : byteLength (lastLine cs) ≤ byteLength cs := by
  obtain ⟨front, hfront⟩ := List.rtakeWhile_suffix (· != '\n') cs
  have hsum := byteLength_append front (lastLine cs)
  rw [lastLine, hfront] at hsum
  unfold lastLine
  omega

/-- A line feed is not in the last line. -/
theorem byteLength_lastLine_lt {cs : List Char} (h : '\n' ∈ cs) :
    byteLength (lastLine cs) < byteLength cs := by
  obtain ⟨front, hfront⟩ := List.rtakeWhile_suffix (· != '\n') cs
  have hmem : '\n' ∈ front := by
    rw [← hfront, List.mem_append] at h
    exact h.resolve_right fun hlast => by simpa using List.mem_rtakeWhile_imp hlast
  have hsum := byteLength_append front (lastLine cs)
  have hpos := List.length_pos_of_mem hmem
  have hle := length_le_byteLength front
  rw [lastLine, hfront] at hsum
  unfold lastLine
  omega

/-- What is not a line feed takes a byte, too. -/
theorem count_lt_byteLength {cs : List Char} {c : Char} (hc : c ∈ cs) (h : c ≠ '\n') :
    cs.count '\n' < byteLength cs := by
  refine Nat.lt_of_lt_of_le (Nat.lt_of_le_of_ne List.count_le_length ?_) (length_le_byteLength cs)
  exact fun hall => h (List.count_eq_length.1 hall c hc).symm

/-- The place behind a text. The induction is on its last character: a line feed ends the last line,
and every other character goes on with it. -/
theorem Place.start_after (cs : List Char) :
    Place.start.after cs = ⟨1 + cs.count '\n', 1 + byteLength (lastLine cs)⟩ := by
  induction cs using List.reverseRecOn with
  | nil => rfl
  | append_singleton cs c ih =>
    rw [Place.after_append, ih]
    show Place.next _ c = _
    unfold Place.next lastLine
    split
    · rename_i hfeed
      rw [hfeed, List.count_append, List.count_singleton_self, List.rtakeWhile_concat_neg _ _ _ (by decide)]
      rfl
    · rename_i hother
      have hcount : [c].count '\n' = 0 := List.count_singleton.trans (if_neg (by simpa using hother))
      rw [List.count_append, hcount, List.rtakeWhile_concat_pos _ _ _ (by simpa using hother),
        byteLength_append]
      show _ = Place.mk _ (1 + (byteLength (List.rtakeWhile (fun x => x != '\n') cs) + (c.utf8Size + 0)))
      rw [Nat.add_zero, Nat.add_zero, Nat.add_assoc]

/-! ## Spans -/

namespace Span

/-- Does the span tell where the text stands that has the other text in front of it? -/
structure Tells (s : Span) (before text : String) : Prop where
  line : s.line = 1 + before.toList.count '\n'
  column : s.column = 1 + byteLength (lastLine before.toList)
  length : s.length = text.utf8ByteSize

/-- Can words of 32 bits hold the numbers of the span? -/
def Fits (s : Span) : Prop :=
  s.line < UInt32.size ∧ s.column < UInt32.size ∧ s.length < UInt32.size

/-- Does the text have as many bytes as words of 32 bits can count, and are they all on one line, or all of
them line feeds? -/
def Overruns (text : String) : Prop :=
  text.utf8ByteSize + 1 = UInt32.size ∧ ('\n' ∉ text.toList ∨ ∀ c ∈ text.toList, c = '\n')

/-- The numbers of a span in a text shorter than `2 ^ 32` bytes are too large only behind all of the text,
where the line or the column can be one too much. -/
theorem Tells.fits_iff {s : Span} {before text : String} (h : s.Tells before text)
    (hsize : before.utf8ByteSize + text.utf8ByteSize < UInt32.size) : s.Fits ↔ ¬Overruns before := by
  have hbytes := byteLength_toList before
  have hfeeds : before.toList.count '\n' ≤ before.utf8ByteSize :=
    hbytes ▸ Nat.le_trans List.count_le_length (length_le_byteLength _)
  have hlast : byteLength (lastLine before.toList) ≤ before.utf8ByteSize :=
    hbytes ▸ byteLength_lastLine_le _
  rw [Fits, h.line, h.column, h.length]
  constructor
  · rintro ⟨hline, hcolumn, -⟩ ⟨hfull, hone | hall⟩
    · rw [lastLine_of_not_mem hone] at hcolumn
      omega
    · rw [List.count_eq_length.2 fun c hc => (hall c hc).symm, length_eq_byteLength hall] at hline
      omega
  · intro hroom
    by_cases hfull : before.utf8ByteSize + 1 = UInt32.size
    · obtain ⟨hmany, hother⟩ := not_or.1 fun hcase => hroom ⟨hfull, hcase⟩
      have hcolumn := byteLength_lastLine_lt (not_not.1 hmany)
      obtain ⟨c, hc, hne⟩ := not_forall₂.1 hother
      have hline := count_lt_byteLength hc hne
      exact ⟨by omega, by omega, by omega⟩
    · exact ⟨by omega, by omega, by omega⟩

end Span

/-- On one line the column goes on with every byte. -/
theorem Place.start_after_of_not_mem {cs : List Char} (h : '\n' ∉ cs) :
    Place.start.after cs = ⟨1, 1 + byteLength cs⟩ := by
  rw [Place.start_after, List.count_eq_zero_of_not_mem h, lastLine_of_not_mem h]

theorem Place.tells_spanOf (before text : String) :
    ((Place.start.after before.toList).spanOf text.toList).Tells before text := by
  rw [Place.start_after]
  exact ⟨rfl, rfl, byteLength_toList text⟩

/-! ## Tokens -/

/-- Tokens laid out from a place on, with the end mark behind them: each of them stands at the place
that the texts of the earlier ones lead to. One piece is one step, and it leads on as far as its text. -/
theorem span_of_layOut_eq {place : Place} {ps : List Piece} {earlier later : List Token} {t : Token}
    (h : (layOut place ps).map (fun p => p.1.token p.2) ++ [(place.after (ps.flatMap Piece.chars)).endToken]
      = earlier ++ t :: later) :
    t.span = (place.after (String.join (earlier.map (·.text))).toList).spanOf t.text.toList := by
  induction ps generalizing place earlier with
  | nil =>
    cases earlier with
    | nil =>
      obtain ⟨rfl, -⟩ := List.cons.inj h
      rfl
    | cons e earlier => simp [layOut] at h
  | cons p ps ih =>
    cases earlier with
    | nil =>
      obtain ⟨rfl, -⟩ := List.cons.inj h
      show place.spanOf p.chars = place.spanOf (String.ofList p.chars).toList
      rw [String.toList_ofList]
    | cons e earlier =>
      obtain ⟨rfl, hrest⟩ := List.cons.inj h
      rw [List.flatMap_cons, Place.after_append] at hrest
      rw [ih hrest, List.map_cons, String.join_cons, String.toList_append, Place.after_append]
      show Place.spanOf _ _
        = ((place.after (String.ofList p.chars).toList).after _).spanOf t.text.toList
      rw [String.toList_ofList]

namespace Stream

/-- Whatever the text, the span of each of its tokens, the end mark and flawed ones among them, tells
where the token stands behind the texts of the earlier tokens, which are what the text has in front of it.
Words of 32 bits can hold the spans of a text shorter than `2 ^ 32` bytes, except for that of the end mark
of a text of the very last such length with all of it on one line, or with nothing but line feeds. -/
theorem tells_of_all_eq (text : String) {earlier later : List Token} {t : Token}
    (h : (ofString text).all = earlier ++ t :: later) :
    text = String.join (earlier.map (·.text)) ++ (t.text ++ String.join (later.map (·.text)))
      ∧ t.span.Tells (String.join (earlier.map (·.text))) t.text
      ∧ (text.utf8ByteSize < UInt32.size → (t.span.Fits ↔ ¬(t.kind = .eof ∧ Span.Overruns text))) := by
  have htext : text = String.join (earlier.map (·.text)) ++ (t.text ++ String.join (later.map (·.text))) := by
    rw [← (isLossless text).join_eq, h, List.map_append, String.join_append, List.map_cons, String.join_cons]
  have htells : t.span.Tells (String.join (earlier.map (·.text))) t.text := by
    have hspan : t.span
        = (Place.start.after (String.join (earlier.map (·.text))).toList).spanOf t.text.toList := by
      have hlaid : (layOut .start (pieces 0 text.toList)).map (fun p => p.1.token p.2)
          ++ [(Place.start.after ((pieces 0 text.toList).flatMap Piece.chars)).endToken]
          = earlier ++ t :: later := by
        rw [flatMap_chars_pieces, List.drop_zero]
        exact h
      exact span_of_layOut_eq hlaid
    rw [hspan]
    exact Place.tells_spanOf _ _
  refine ⟨htext, htells, fun hsize => ?_⟩
  have hbytes := congrArg String.utf8ByteSize htext
  rw [String.utf8ByteSize_append, String.utf8ByteSize_append] at hbytes
  rw [htells.fits_iff (by omega)]
  change (ofString text).tokens ++ [(ofString text).stop] = earlier ++ t :: later at h
  rcases List.eq_nil_or_concat later with rfl | ⟨front, last, rfl⟩
  · obtain ⟨-, hstop⟩ := List.append_inj' h rfl
    obtain rfl := List.singleton_inj.1 hstop
    have hbefore : String.join (earlier.map (·.text)) = text := by
      rw [htext]
      exact (String.append_empty).symm
    rw [hbefore]
    exact not_congr (iff_and_self.2 fun _ => rfl)
  · -- a token with a text of its own leaves room for the number behind the bytes in front of it
    rw [List.concat_eq_append, ← List.cons_append, ← List.append_assoc] at h
    obtain ⟨htokens, -⟩ := List.append_inj' h rfl
    obtain ⟨hne, hkind⟩ := ne_empty_of_mem_tokens
      (htokens ▸ List.mem_append_right earlier List.mem_cons_self)
    have hpos : 0 < t.text.utf8ByteSize := Nat.pos_of_ne_zero (by simpa using hne)
    refine iff_of_true (fun hover => ?_) (fun hstop => hkind hstop.1)
    have hfull := hover.1
    omega

/-- The end mark behind the largest number of bytes that words of 32 bits can count, all on one line, has a
column that they cannot. -/
theorem not_fits_stop {text : String} (hline : '\n' ∉ text.toList)
    (hsize : text.utf8ByteSize + 1 = UInt32.size) :
    (ofString text).stop.span.column = UInt32.size ∧ ¬(ofString text).stop.span.Fits := by
  have hcolumn : (ofString text).stop.span.column = UInt32.size := by
    show (Place.start.after text.toList).column = UInt32.size
    rw [Place.start_after_of_not_mem hline, byteLength_toList]
    show 1 + text.utf8ByteSize = UInt32.size
    omega
  exact ⟨hcolumn, fun h => Nat.lt_irrefl _ (hcolumn ▸ h.2.1)⟩

/-- So a text shorter than `2 ^ 32` bytes need not have spans that words of 32 bits can hold. -/
theorem not_fits_blanks :
    (String.ofList (List.replicate (UInt32.size - 1) ' ')).utf8ByteSize < UInt32.size
      ∧ ∃ earlier t, (ofString (String.ofList (List.replicate (UInt32.size - 1) ' '))).all = earlier ++ [t]
        ∧ t.kind = .eof ∧ t.span.column = UInt32.size ∧ ¬t.span.Fits := by
  have hbytes (n : Nat) : (String.ofList (List.replicate n ' ')).utf8ByteSize = n := by
    rw [← byteLength_toList, String.toList_ofList, byteLength_replicate rfl]
  have hline (n : Nat) : '\n' ∉ (String.ofList (List.replicate n ' ')).toList := by
    rw [String.toList_ofList]
    intro hmem
    cases List.eq_of_mem_replicate hmem
  have hsize : UInt32.size - 1 + 1 = UInt32.size := rfl
  generalize UInt32.size - 1 = n at hsize ⊢
  obtain ⟨hcolumn, hfits⟩ := not_fits_stop (hline n) (by rw [hbytes, hsize])
  exact ⟨by rw [hbytes]; omega, _, _, rfl, rfl, hcolumn, hfits⟩

/-- The theorem at a flawed token behind a comment and a string that both take the end of a line with
them, with a character of two bytes on the way. -/
theorem tells_of_all_eq_swallowedLines :
    (ofString "/* é\n*/ \"a\\\nb\" #").all
        = [⟨⟨.blockComment, "/* é\n*/"⟩, ⟨1, 1, 8⟩⟩, ⟨⟨.whitespace, " "⟩, ⟨2, 3, 1⟩⟩,
            ⟨⟨.stringLiteral, "\"a\\\nb\""⟩, ⟨2, 4, 6⟩⟩, ⟨⟨.whitespace, " "⟩, ⟨3, 3, 1⟩⟩]
          ++ ⟨⟨.error, "#"⟩, ⟨3, 4, 1⟩⟩ :: [⟨⟨.eof, ""⟩, ⟨3, 5, 0⟩⟩]
      ∧ (Span.mk 3 4 1).Tells "/* é\n*/ \"a\\\nb\" " "#" ∧ (Span.mk 3 4 1).Fits := by
  have hall : (ofString "/* é\n*/ \"a\\\nb\" #").all
      = [⟨⟨.blockComment, "/* é\n*/"⟩, ⟨1, 1, 8⟩⟩, ⟨⟨.whitespace, " "⟩, ⟨2, 3, 1⟩⟩,
          ⟨⟨.stringLiteral, "\"a\\\nb\""⟩, ⟨2, 4, 6⟩⟩, ⟨⟨.whitespace, " "⟩, ⟨3, 3, 1⟩⟩]
        ++ ⟨⟨.error, "#"⟩, ⟨3, 4, 1⟩⟩ :: [⟨⟨.eof, ""⟩, ⟨3, 5, 0⟩⟩] := by
    decide +kernel
  obtain ⟨-, htells, hfits⟩ := tells_of_all_eq _ hall
  exact ⟨hall, htells, (hfits (by decide +kernel)).2 fun h => by cases h.1⟩

end Stream

end Stencil
