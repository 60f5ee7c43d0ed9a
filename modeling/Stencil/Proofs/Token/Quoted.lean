import Mathlib.Data.List.DropRight
import Stencil.Proofs.Token.Spelled

/-!
# Literals between quotes

A literal ends at its closing quote and is given up at the end of the line. A backslash takes the character
behind it along, whatever that is. If it is the end of the line, the literal goes on in the next one.

Results: a quote is closed exactly if a text without quotes stands in front of the next one, where escapes
count as such text (`Scan.quotedLength_closed_iff`); a quote that is not closed on its line is closed
exactly if the line ends in a backslash that is not escaped itself and the quote is closed behind
(`Scan.closes_iff_of_not_closes`), so this is where a literal is more than a line
(`Stream.quoted_of_tokens_eq`), and nowhere else (`Stream.keepsLines_iff`).
-/

namespace Stencil

/-- Is the kind that of a literal which is to keep to its line? A text block is not. -/
def Kind.isLineLiteral (k : Kind) : Bool :=
  k == .stringLiteral || k == .charLiteral

namespace Scan

variable {quote c : Char} {cs body rest : List Char}

/-! ## Between two quotes -/

/-- What stands between two quotes: characters other than the quote, backslashes and the ends of lines,
and backslashes with a character each, which may be any. -/
inductive Enclosed (quote : Char) : List Char → Prop where
  | nil : Enclosed quote []
  | plain {c : Char} {cs : List Char} (hquote : c ≠ quote) (hescape : c ≠ '\\')
    (hend : isLineEnd c = false) (h : Enclosed quote cs) : Enclosed quote (c :: cs)
  | escape {c : Char} {cs : List Char} (h : Enclosed quote cs) : Enclosed quote ('\\' :: c :: cs)

/-- Is a quote in front of the text closed in it? -/
def Closes (quote : Char) (cs : List Char) : Prop :=
  ∃ body behind, cs = body ++ quote :: behind ∧ Enclosed quote body

/-- Does the text end in a backslash that is not escaped itself: are the backslashes at its end odd in
number? -/
def Dangles (cs : List Char) : Prop :=
  (cs.rtakeWhile (· == '\\')).length % 2 = 1

/-- What the text has on its first line. -/
def firstLine (cs : List Char) : List Char :=
  cs.takeWhile fun c => !isLineEnd c

theorem Enclosed.append (h : Enclosed quote body) (h' : Enclosed quote cs) : Enclosed quote (body ++ cs) := by
  induction h with
  | nil => exact h'
  | plain hquote hescape hend _ ih => exact .plain hquote hescape hend ih
  | escape _ ih => exact .escape ih

/-- The scanner passes over what is enclosed. -/
theorem quotedLength_append (h : Enclosed quote body) : quotedLength quote (body ++ cs)
    = (body.length + (quotedLength quote cs).1, (quotedLength quote cs).2) := by
  induction h with
  | nil => rw [List.nil_append, List.length_nil, Nat.zero_add]
  | @plain c body hquote hescape hend _ ih =>
    rw [List.cons_append, quotedLength_cons hescape, if_neg (by simp [hend]), if_neg (by simpa using hquote),
      ih, List.length_cons]
    show (_ + 1, _) = _
    rw [Nat.add_right_comm]
  | @escape c body _ ih =>
    rw [List.cons_append, List.cons_append, quotedLength_escape, ih, List.length_cons, List.length_cons]
    show (_ + 2, _) = _
    rw [Nat.add_right_comm]

/-- The scanner stops behind what is enclosed: at the end of the text, at a last backslash, at the end of
the line or at the closing quote. -/
theorem exists_enclosed (quote : Char) (cs : List Char) : ∃ body rest, cs = body ++ rest
    ∧ Enclosed quote body ∧ (rest = [] ∨ rest = ['\\'] ∨ (∃ e more, rest = e :: more ∧ isLineEnd e = true)
      ∨ ∃ behind, rest = quote :: behind) := by
  fun_induction quotedLength quote cs with
  | case1 => exact ⟨[], [], rfl, .nil, .inl rfl⟩
  | case2 c cs _ ih =>
    obtain ⟨body, rest, rfl, hbody, hrest⟩ := ih
    exact ⟨'\\' :: c :: body, rest, rfl, .escape hbody, hrest⟩
  | case3 c cs _ hend => exact ⟨[], c :: cs, rfl, .nil, .inr (.inr (.inl ⟨c, cs, rfl, hend⟩))⟩
  | case4 c cs _ _ hquote =>
    rw [beq_iff_eq] at hquote
    subst hquote
    exact ⟨[], c :: cs, rfl, .nil, .inr (.inr (.inr ⟨cs, rfl⟩))⟩
  | case5 c cs hescape hend hquote _ ih =>
    by_cases hc : c = '\\'
    · subst hc
      cases cs with
      | nil => exact ⟨[], ['\\'], rfl, .nil, .inr (.inl rfl)⟩
      | cons d cs => exact absurd rfl (hescape d cs rfl)
    · obtain ⟨body, rest, rfl, hbody, hrest⟩ := ih
      refine ⟨c :: body, rest, rfl, .plain ?_ hc ?_ hbody, hrest⟩
      · simpa using hquote
      · simpa using hend

/-! ## Quotes -/

/-- Is the character one that a quote may be: neither a backslash nor the end of a line? -/
def IsQuote (c : Char) : Prop :=
  c ≠ '\\' ∧ isLineEnd c = false

theorem quotedLength_quote (hquote : IsQuote quote) : quotedLength quote (quote :: rest) = (1, true) := by
  rw [quotedLength_cons hquote.1, if_neg (by simp [hquote.2]), if_pos (by simp)]

theorem quotedLength_lineEnd (hend : isLineEnd c = true) : quotedLength quote (c :: rest) = (0, false) := by
  have hescape : c ≠ '\\' := by
    rintro rfl
    contradiction
  rw [quotedLength_cons hescape, if_pos hend]

theorem quotedLength_backslash (hquote : IsQuote quote) : quotedLength quote ['\\'] = (1, false) := by
  simp [quotedLength, isLineEnd, Ne.symm hquote.1]

theorem quotedLength_of_enclosed (hquote : IsQuote quote) (h : Enclosed quote body) :
    quotedLength quote (body ++ quote :: rest) = (body.length + 1, true) := by
  rw [quotedLength_append h, quotedLength_quote hquote]

/-- The scanner finds the closing quote exactly if there is one. -/
theorem quotedLength_closed_iff (hquote : IsQuote quote) :
    (quotedLength quote cs).2 = true ↔ Closes quote cs := by
  constructor
  · intro hclosed
    obtain ⟨body, rest, rfl, hbody, hrest⟩ := exists_enclosed quote cs
    rw [quotedLength_append hbody] at hclosed
    obtain rfl | rfl | ⟨e, more, rfl, hend⟩ | ⟨behind, rfl⟩ := hrest
    · contradiction
    · rw [quotedLength_backslash hquote] at hclosed
      contradiction
    · rw [quotedLength_lineEnd hend] at hclosed
      contradiction
    · exact ⟨body, behind, rfl, hbody⟩
  · rintro ⟨body, behind, rfl, hbody⟩
    rw [quotedLength_of_enclosed hquote hbody]

/-! ## Backslashes at the end -/

theorem length_rtakeWhile_cons (p : Char → Bool) (c : Char) (cs : List Char) :
    ((c :: cs).rtakeWhile p).length = if (cs.rtakeWhile p).length = cs.length
      then cs.length + (if p c then 1 else 0) else (cs.rtakeWhile p).length := by
  unfold List.rtakeWhile
  rw [List.reverse_cons, List.takeWhile_append, List.length_reverse, List.length_reverse]
  simp only [List.length_reverse]
  split
  · rw [List.length_append, List.length_reverse]
    cases hc : p c <;> simp [hc]
  · rfl

/-- What is enclosed ends in no backslash that is not escaped. -/
theorem Enclosed.not_dangles (h : Enclosed quote body) : ¬Dangles body := by
  have heven : (body.rtakeWhile (· == '\\')).length % 2 = 0 := by
    induction h with
    | nil => rfl
    | @plain c body _ hescape _ _ ih =>
      have hc : (c == '\\') = false := by simpa using hescape
      rw [length_rtakeWhile_cons, hc, if_neg Bool.false_ne_true, Nat.add_zero]
      split <;> omega
    | @escape c body _ ih =>
      have hle := (List.rtakeWhile_suffix (· == '\\') body).length_le
      rw [length_rtakeWhile_cons, length_rtakeWhile_cons, List.length_cons]
      simp only [beq_self_eq_true, if_true]
      split_ifs <;> omega
  unfold Dangles
  omega

theorem Enclosed.dangles (h : Enclosed quote body) : Dangles (body ++ ['\\']) := by
  have heven := h.not_dangles
  unfold Dangles at heven ⊢
  rw [List.rtakeWhile_concat_pos _ _ _ (by decide), List.length_append, List.length_singleton]
  omega

/-! ## Lines -/

theorem isLineEnd_of_mem_firstLine (hc : c ∈ firstLine cs) : isLineEnd c = false := by
  simpa using List.mem_takeWhile_imp hc

/-- Behind the first line there is nothing, or there is its end. -/
theorem exists_firstLine_append (cs : List Char) : cs = firstLine cs
    ∨ ∃ e more, cs = firstLine cs ++ e :: more ∧ isLineEnd e = true := by
  have hsplit : firstLine cs ++ cs.dropWhile (fun c => !isLineEnd c) = cs := List.takeWhile_append_dropWhile
  cases hrest : cs.dropWhile (fun c => !isLineEnd c) with
  | nil =>
    rw [hrest, List.append_nil] at hsplit
    exact .inl hsplit.symm
  | cons e more =>
    rw [hrest] at hsplit
    have hne : cs.dropWhile (fun c => !isLineEnd c) ≠ [] := by
      rw [hrest]
      exact List.cons_ne_nil e more
    have hend := List.head_dropWhile_not (fun c => !isLineEnd c) hne
    simp only [hrest, List.head_cons, Bool.not_eq_false'] at hend
    exact .inr ⟨e, more, hsplit.symm, hend⟩

theorem closes_append (hquote : IsQuote quote) (hbody : Enclosed quote body) :
    Closes quote (body ++ cs) ↔ Closes quote cs := by
  rw [← quotedLength_closed_iff hquote, ← quotedLength_closed_iff hquote, quotedLength_append hbody]

theorem not_closes_of_isLineEnd (hquote : IsQuote quote) (hend : isLineEnd c = true) :
    ¬Closes quote (c :: cs) := by
  rw [← quotedLength_closed_iff hquote, quotedLength_lineEnd hend]
  exact Bool.false_ne_true

/-- A quote that is not closed on its line is closed exactly if the last backslash of the line takes the
end of the line along and the quote is closed behind it. -/
theorem closes_iff_of_not_closes (hquote : IsQuote quote) (hopen : ¬Closes quote (firstLine cs)) :
    Closes quote cs ↔ Dangles (firstLine cs)
      ∧ ∃ e more, cs = firstLine cs ++ e :: more ∧ Closes quote more := by
  obtain ⟨body, rest, hline, hbody, hrest⟩ := exists_enclosed quote (firstLine cs)
  obtain rfl | rfl | ⟨e, more, rfl, hend⟩ | ⟨behind, rfl⟩ := hrest
  · -- the line ends without a backslash, and the literal with it
    rw [List.append_nil] at hline
    refine iff_of_false ?_ fun h => hbody.not_dangles (hline ▸ h.1)
    rcases exists_firstLine_append cs with hcs | ⟨e, more, hcs, hend⟩
    · rwa [← hcs] at hopen
    · rw [hcs, hline, closes_append hquote hbody]
      exact not_closes_of_isLineEnd hquote hend
  · have hdangles : Dangles (firstLine cs) := hline ▸ hbody.dangles
    rcases exists_firstLine_append cs with hcs | ⟨e, more, hcs, -⟩
    · -- the text ends with the backslash
      refine iff_of_false (by rwa [← hcs] at hopen) ?_
      rintro ⟨-, e, more, hcs', -⟩
      have hlength := congrArg List.length (hcs.symm.trans hcs')
      rw [List.length_append, List.length_cons] at hlength
      omega
    · have hescape : Enclosed quote (body ++ ['\\', e]) := hbody.append (.escape .nil)
      have hsplit : firstLine cs ++ e :: more = (body ++ ['\\', e]) ++ more := by
        rw [hline, List.append_assoc, List.append_assoc]
        rfl
      have hbehind : Closes quote cs ↔ Closes quote more := by
        rw [hcs, hsplit, closes_append hquote hescape]
      rw [hbehind]
      constructor
      · intro hclosed
        exact ⟨hdangles, e, more, hcs, hclosed⟩
      · rintro ⟨-, e', more', hcs', hclosed⟩
        obtain ⟨-, rfl⟩ := List.cons.inj (List.append_cancel_left (hcs.symm.trans hcs'))
        exact hclosed
  · have hmem : e ∈ firstLine cs := by
      rw [hline]
      exact List.mem_append_right body List.mem_cons_self
    rw [isLineEnd_of_mem_firstLine hmem] at hend
    contradiction
  · exact absurd ⟨body, behind, hline, hbody⟩ hopen

/-- What is enclosed has no end of a line exactly if it ends on its line. -/
theorem closes_firstLine_iff (hquote : IsQuote quote) (hbody : Enclosed quote body) :
    Closes quote (firstLine (body ++ quote :: rest)) ↔ ∀ c ∈ body, isLineEnd c = false := by
  constructor
  · rintro ⟨body', behind, hline, hbody'⟩
    have hcs : ∃ tail, body ++ quote :: rest = body' ++ quote :: tail := by
      obtain ⟨tail, htail⟩ := List.takeWhile_prefix (l := body ++ quote :: rest) fun c => !isLineEnd c
      refine ⟨behind ++ tail, ?_⟩
      rw [← htail]
      show firstLine (body ++ quote :: rest) ++ tail = _
      rw [hline, List.append_assoc, List.cons_append]
    obtain ⟨tail, hcs⟩ := hcs
    -- the scanner finds the same closing quote in both ways
    have hlength : (body.length + 1, true) = (body'.length + 1, true) := by
      rw [← quotedLength_of_enclosed hquote hbody, hcs, quotedLength_of_enclosed hquote hbody']
    rw [Prod.mk.injEq, Nat.add_right_cancel_iff] at hlength
    obtain ⟨rfl, -⟩ := List.append_inj hcs hlength.1
    intro c hc
    apply isLineEnd_of_mem_firstLine
    rw [hline]
    exact List.mem_append_left _ hc
  · intro hnone
    refine ⟨body, firstLine rest, ?_, hbody⟩
    unfold firstLine
    rw [List.takeWhile_append_of_pos (by simpa using hnone), List.takeWhile_cons_of_pos (by simp [hquote.2])]

/-! ## Quotes that begin a token -/

/-- The quotes of literals, with the kinds of the literals and their names in messages. -/
def quotes : List (Char × Kind × String) :=
  [('"', .stringLiteral, "string"), ('\'', .charLiteral, "character")]

theorem isQuote_of_mem {q : Char × Kind × String} (hq : q ∈ quotes) : IsQuote q.1 := by
  simp only [quotes, List.mem_cons, List.not_mem_nil, or_false] at hq
  rcases hq with rfl | rfl <;> exact ⟨by decide, by decide⟩

theorem ne_error_of_mem {q : Char × Kind × String} (hq : q ∈ quotes) : q.2.1 ≠ .error := by
  simp only [quotes, List.mem_cons, List.not_mem_nil, or_false] at hq
  rcases hq with rfl | rfl <;> decide

theorem scan_of_mem_quotes {q : Char × Kind × String} (hq : q ∈ quotes)
    (hblock : q.1 = '"' → ∀ ds, cs ≠ '"' :: '"' :: ds) :
    scan q.1 cs = quotedLiteral q.1 q.2.1 q.2.2 cs := by
  simp only [quotes, List.mem_cons, List.not_mem_nil, or_false] at hq
  rcases hq with rfl | rfl
  · show doubleQuote cs = _
    exact doubleQuote_of_ne (hblock rfl)
  · rfl

theorem quotedLiteral_of_closes {kind : Kind} {form : String} (hquote : IsQuote quote)
    (hbody : Enclosed quote body) :
    quotedLiteral quote kind form (body ++ quote :: rest) = .token kind (body.length + 1) := by
  unfold quotedLiteral
  rw [quotedLength_of_enclosed hquote hbody]

theorem quotedLiteral_of_not_closes {kind : Kind} {form : String} (hquote : IsQuote quote)
    (hopen : ¬Closes quote cs) :
    quotedLiteral quote kind form cs = .flawed (.unterminatedLiteral form) (quotedLength quote cs).1 := by
  have hlength : quotedLength quote cs = ((quotedLength quote cs).1, false) := by
    refine Prod.ext rfl ?_
    rw [Bool.eq_false_iff, ne_eq, quotedLength_closed_iff hquote]
    exact hopen
  unfold quotedLiteral
  rw [hlength]

/-! ## Only quotes begin literals -/

theorem not_isLineLiteral_of_mem {k : Kind} {ks : List Kind}
    (hall : ks.all (fun k => !k.isLineLiteral) = true) (hk : k ∈ ks) : ¬k.isLineLiteral = true := by
  have hnot := List.all_eq_true.1 hall k hk
  rwa [Bool.not_eq_true', ← Bool.not_eq_true] at hnot

/-- A literal begins with its quote, and with no text block. -/
theorem exists_quote_of_isLineLiteral (h : (scan c cs).kind.isLineLiteral = true) :
    ∃ q ∈ quotes, q.1 = c ∧ (q.1 = '"' → ∀ ds, cs ≠ '"' :: '"' :: ds) := by
  unfold scan at h
  split at h
  · contradiction
  split at h
  · exact absurd h (not_isLineLiteral_of_mem (by decide) mem_kind_slash)
  split at h
  · rename_i hquote
    rw [beq_iff_eq] at hquote
    refine ⟨_, List.mem_cons_self, hquote.symm, ?_⟩
    rintro - ds rfl
    rw [doubleQuote] at h
    split at h <;> contradiction
  split at h
  · rename_i hquote
    rw [beq_iff_eq] at hquote
    refine ⟨_, List.mem_cons_of_mem _ List.mem_cons_self, hquote.symm, ?_⟩
    intro hne
    contradiction
  split at h
  · exact absurd h (not_isLineLiteral_of_mem (by decide) mem_kind_number)
  split at h
  · exact absurd h (not_isLineLiteral_of_mem (by decide) mem_kind_number)
  split at h
  · exact absurd h (not_isLineLiteral_of_mem (by decide +kernel) mem_kind_name)
  · exact absurd h (not_isLineLiteral_of_mem (by decide +kernel) mem_kind_symbol)

end Scan

/-! ## Tokens in their text -/

/-- Each token is what is found at its place, in front of the texts of all later ones. -/
theorem exists_ofScan_of_tokens_eq {text : String} {earlier later : List Token} {t : Token}
    (h : (Stream.ofString text).tokens = earlier ++ t :: later) : ∃ c cs place,
      t.text.toList ++ (String.join (later.map (·.text))).toList = c :: cs
        ∧ t = (Piece.ofScan c cs).token place
        ∧ ∀ problem ∈ (Piece.ofScan c cs).problem? place, problem ∈ (Stream.ofString text).problems := by
  have hlaid : (layOut .start (pieces 0 text.toList)).map (fun p => p.1.token p.2)
      = earlier ++ t :: later := h
  obtain ⟨front, behind, hsplit, rfl, hbehind⟩ := List.map_eq_append_iff.1 hlaid
  obtain ⟨⟨p, place⟩, others, rfl, rfl, rfl⟩ := List.map_eq_cons_iff.1 hbehind
  have hdrop : (pieces 0 text.toList).drop front.length = p :: others.map (·.1) := by
    rw [← map_fst_layOut .start (pieces 0 text.toList), hsplit, List.map_append, List.map_cons]
    exact List.drop_left' (List.length_map _)
  have hchars : charsFrom text.toList front.length
      = p.chars ++ (String.join ((others.map fun x => x.1.token x.2).map (·.text))).toList := by
    rw [charsFrom, hdrop, List.flatMap_cons, toList_join_map_token]
  have hpieces := pieces_charsFrom text.toList front.length
  rw [hdrop] at hpieces
  cases hfrom : charsFrom text.toList front.length with
  | nil =>
    rw [hfrom] at hpieces
    contradiction
  | cons c cs =>
    rw [hfrom, pieces, List.cons.injEq] at hpieces
    obtain ⟨rfl, -⟩ := hpieces
    refine ⟨c, cs, place, ?_, rfl, ?_⟩
    · show (String.ofList _).toList ++ _ = _
      rw [String.toList_ofList, ← hchars, hfrom]
    · intro problem hproblem
      have hmem : (Piece.ofScan c cs, place) ∈ layOut .start (pieces 0 text.toList) := by
        rw [hsplit]
        exact List.mem_append_right front List.mem_cons_self
      exact List.mem_filterMap.2 ⟨_, hmem, hproblem⟩

section Quotes

open Scan

variable {q : Char × Kind × String} {cs body rest : List Char}

/-- The piece of a quote that is closed ends there. -/
theorem Piece.ofScan_of_enclosed (hq : q ∈ quotes)
    (hblock : q.1 = '"' → ∀ ds, body ++ q.1 :: rest ≠ '"' :: '"' :: ds) (hbody : Enclosed q.1 body) :
    Piece.ofScan q.1 (body ++ q.1 :: rest) = ⟨.ok q.2.1, q.1 :: (body ++ [q.1])⟩ := by
  have hscan := (scan_of_mem_quotes hq hblock).trans (quotedLiteral_of_closes (isQuote_of_mem hq) hbody)
  have htake : (body ++ q.1 :: rest).take (body.length + 1) = body ++ [q.1] := by
    rw [List.take_length_add_append]
    rfl
  rw [Piece.ofScan, hscan]
  show Piece.mk _ (q.1 :: (body ++ q.1 :: rest).take (body.length + 1)) = _
  rw [htake]
  rfl

/-- The piece of a quote that is not closed is flawed. -/
theorem Piece.verdict_of_not_closes (hq : q ∈ quotes)
    (hblock : q.1 = '"' → ∀ ds, cs ≠ '"' :: '"' :: ds) (hopen : ¬Closes q.1 cs) :
    (Piece.ofScan q.1 cs).verdict = .error (.unterminatedLiteral q.2.2) := by
  show (scan q.1 cs).verdict = _
  rw [scan_of_mem_quotes hq hblock, quotedLiteral_of_not_closes (isQuote_of_mem hq) hopen]
  rfl

/-- Does a token begin at the quote, with the text behind it? The text is that of the token and of the
later ones. Where a text block begins no literal does. -/
structure Token.BeginsAt (t : Token) (later : List Token) (q : Char × Kind × String) (cs : List Char) :
    Prop where
  quote : q ∈ quotes
  text : t.text.toList ++ (String.join (later.map (·.text))).toList = q.1 :: cs
  noBlock : q.1 = '"' → ∀ ds, cs ≠ '"' :: '"' :: ds

/-- Literals begin at quotes. A quote begins a literal if it is closed and flawed text if not. The literal
has an end of a line in it exactly if the quote is not closed on its line, and then the quote is closed
exactly if the last backslash of the line takes the end of the line along and a closing quote is behind. -/
theorem Stream.quoted_of_tokens_eq {text : String} {earlier later : List Token} {t : Token}
    (h : (ofString text).tokens = earlier ++ t :: later) :
    (t.kind.isLineLiteral = true → ∃ q cs, t.BeginsAt later q cs)
      ∧ ∀ q cs, t.BeginsAt later q cs →
        (t.kind = q.2.1 ↔ Closes q.1 cs)
        ∧ (¬Closes q.1 cs → t.kind = .error ∧ ⟨.unterminatedLiteral q.2.2, t.span⟩ ∈ (ofString text).problems)
        ∧ (t.kind = q.2.1 → ((∃ c ∈ t.text.toList, isLineEnd c = true) ↔ ¬Closes q.1 (firstLine cs)))
        ∧ (¬Closes q.1 (firstLine cs) → (Closes q.1 cs ↔ Dangles (firstLine cs)
          ∧ ∃ e more, cs = firstLine cs ++ e :: more ∧ Closes q.1 more)) := by
  obtain ⟨c, ds, place, htext, rfl, hproblems⟩ := exists_ofScan_of_tokens_eq h
  constructor
  · intro hkind
    obtain ⟨q, hq, rfl, hblock⟩ := exists_quote_of_isLineLiteral hkind
    exact ⟨q, ds, hq, htext, hblock⟩
  · intro q cs hbegins
    obtain ⟨hq, hquote, hblock⟩ := hbegins
    obtain ⟨rfl, rfl⟩ := List.cons.inj (htext.symm.trans hquote)
    have hisQuote : IsQuote q.1 := isQuote_of_mem hq
    by_cases hclosed : Closes q.1 ds
    · obtain ⟨body, rest, rfl, hbody⟩ := hclosed
      have hpiece := Piece.ofScan_of_enclosed hq hblock hbody
      have hclosed : Closes q.1 (body ++ q.1 :: rest) := ⟨body, rest, rfl, hbody⟩
      have hline : Closes q.1 (firstLine (body ++ q.1 :: rest)) ↔ ∀ c ∈ body, isLineEnd c = false :=
        closes_firstLine_iff hisQuote hbody
      rw [hpiece]
      refine ⟨iff_of_true rfl hclosed, fun hopen => absurd hclosed hopen, fun _ => ?_,
        closes_iff_of_not_closes hisQuote⟩
      show (∃ c ∈ (String.ofList (q.1 :: (body ++ [q.1]))).toList, isLineEnd c = true) ↔ _
      rw [String.toList_ofList, hline]
      simp [hisQuote.2]
    · have hverdict := Piece.verdict_of_not_closes hq hblock hclosed
      have hkind : (Piece.ofScan q.1 ds).kind = .error := by rw [Piece.kind, hverdict]
      have hproblem := hproblems ⟨.unterminatedLiteral q.2.2, place.spanOf (Piece.ofScan q.1 ds).chars⟩ (by
        rw [Piece.problem?, hverdict]
        rfl)
      have hne : (Piece.ofScan q.1 ds).kind ≠ q.2.1 := by
        rw [hkind]
        exact (ne_error_of_mem hq).symm
      refine ⟨iff_of_false hne hclosed, fun _ => ⟨hkind, hproblem⟩, fun h => absurd h hne,
        closes_iff_of_not_closes hisQuote⟩

/-- Is every literal of the text on one line, and is every quote that is not closed on its line flawed
text without its counterpart? -/
structure Stream.KeepsLines (text : String) : Prop where
  literal : ∀ t ∈ (ofString text).tokens, t.kind.isLineLiteral = true →
    ∀ c ∈ t.text.toList, isLineEnd c = false
  flawed : ∀ earlier t later q cs, (ofString text).tokens = earlier ++ t :: later → t.BeginsAt later q cs →
    ¬Closes q.1 (firstLine cs) →
    t.kind = .error ∧ ⟨.unterminatedLiteral q.2.2, t.span⟩ ∈ (ofString text).problems

/-- Literals keep to their lines exactly if there is no quote that is open at the end of its line, where a
backslash that is not escaped stands, and closed behind it. -/
theorem Stream.keepsLines_iff (text : String) : KeepsLines text ↔
    ∀ earlier t later q cs, (ofString text).tokens = earlier ++ t :: later → t.BeginsAt later q cs →
      ¬Closes q.1 (firstLine cs) → Dangles (firstLine cs) →
      ∀ e more, cs = firstLine cs ++ e :: more → ¬Closes q.1 more := by
  constructor
  · intro hkeeps earlier t later q cs hsplit hbegins hopen hdangles e more hcs hclosed
    obtain ⟨hkind, -, -, hbehind⟩ := (quoted_of_tokens_eq hsplit).2 q cs hbegins
    have hliteral : t.kind = q.2.1 := hkind.2 (hbehind hopen |>.2 ⟨hdangles, e, more, hcs, hclosed⟩)
    have herror := (hkeeps.flawed earlier t later q cs hsplit hbegins hopen).1
    exact ne_error_of_mem hbegins.quote (hliteral.symm.trans herror)
  · intro hnone
    have hopen {earlier later : List Token} {t : Token} {q : Char × Kind × String} {cs : List Char}
        (hsplit : (ofString text).tokens = earlier ++ t :: later) (hbegins : t.BeginsAt later q cs)
        (hline : ¬Closes q.1 (firstLine cs)) : ¬Closes q.1 cs := by
      obtain ⟨-, -, -, hbehind⟩ := (quoted_of_tokens_eq hsplit).2 q cs hbegins
      intro hclosed
      obtain ⟨hdangles, e, more, hcs, hmore⟩ := (hbehind hline).1 hclosed
      exact hnone earlier t later q cs hsplit hbegins hline hdangles e more hcs hmore
    constructor
    · intro t ht hquoted
      obtain ⟨earlier, later, hsplit⟩ := List.append_of_mem ht
      obtain ⟨hbegin, hquotes⟩ := quoted_of_tokens_eq hsplit
      obtain ⟨q, cs, hbegins⟩ := hbegin hquoted
      obtain ⟨hkind, hflawed, hends, -⟩ := hquotes q cs hbegins
      have hclosed : Closes q.1 cs := by
        by_contra hnot
        rw [(hflawed hnot).1] at hquoted
        contradiction
      have hline : Closes q.1 (firstLine cs) := by
        by_contra hnot
        exact hopen hsplit hbegins hnot hclosed
      intro c hc
      rw [Bool.eq_false_iff]
      intro hend
      exact (hends (hkind.2 hclosed)).1 ⟨c, hc, hend⟩ hline
    · intro earlier t later q cs hsplit hbegins hline
      obtain ⟨-, hflawed, -⟩ := (quoted_of_tokens_eq hsplit).2 q cs hbegins
      exact hflawed (hopen hsplit hbegins hline)

/-- A string that goes on in the next line. -/
theorem Stream.not_keepsLines : ¬∀ text, KeepsLines text := by
  intro hall
  have hmem : ⟨⟨.stringLiteral, "\"a\\\nb\""⟩, ⟨1, 1, 6⟩⟩ ∈ (ofString "\"a\\\nb\"").tokens := by
    decide +kernel
  have hend := (hall _).literal _ hmem rfl '\n' (by decide)
  contradiction

end Quotes

end Stencil
