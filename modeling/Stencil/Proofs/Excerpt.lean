import Stencil.Proofs.Grammar.Unit
import Stencil.Proofs.Token.Lines
import Stencil.Proofs.Token.Source

/-!
# Diagnostics with the line that they are about

A diagnostic has the place of a token, which was found by counting line feeds as the text was read. Its
report looks up the line of that number in the text cut at the ends of its lines. The two agree on every
line but one: behind a line feed at its end a text has no further line, and that is where its end mark
stands.

Results: the line with the number of a token is the one that the token begins in, and it is there unless
the token is the end mark behind a line feed (`Stream.line?_of_all_eq`). Every diagnostic stands at a
token, and its report shows the line and a marker below, with that one exception
(`Diagnostic.shows_iff_of_ofString`).
-/

namespace Stencil

/-! ## Lines -/

namespace Text

/-- What stands behind a line: a line feed, a carriage return and a line feed, or nothing at the end of the
text. A carriage return in front of a line feed is never part of the line. -/
inductive EndsLine (line : List Char) : List Char → Prop where
  | last : EndsLine line []
  | feed (rest : List Char) (h : line.getLast? ≠ some '\r') : EndsLine line ('\n' :: rest)
  | returnFeed (rest : List Char) : EndsLine line ('\r' :: '\n' :: rest)

/-- Is this the text of the line with the given number, without the end of the line? -/
def IsLine (text : String) (number : Nat) (line : String) : Prop :=
  ∃ before after, text.toList = before ++ line.toList ++ after ∧ number = 1 + before.count '\n'
    ∧ lastLine before = [] ∧ '\n' ∉ line.toList ∧ EndsLine line.toList after

variable {before behind cs line : List Char} {c : Char}

theorem notMem_lastLine : '\n' ∉ lastLine cs := by
  intro h
  have hother := List.mem_rtakeWhile_imp h
  simp at hother

theorem lastLine_of_notMem (h : '\n' ∉ cs) : lastLine cs = cs := by
  apply List.rtakeWhile_eq_self_iff.2
  intro x hx
  exact bne_iff_ne.2 fun hfeed => h (hfeed ▸ hx)

/-- A character in front of a line feed is not in the last line. -/
theorem lastLine_cons_of_mem (h : '\n' ∈ cs) : lastLine (c :: cs) = lastLine cs := by
  unfold lastLine List.rtakeWhile
  rw [List.reverse_cons, List.takeWhile_append, if_neg]
  intro hlength
  have hall := List.takeWhile_eq_self_iff.1
    ((List.takeWhile_prefix (· != '\n')).eq_of_length hlength) '\n' (List.mem_reverse.2 h)
  contradiction

theorem lastLine_feed_cons : lastLine ('\n' :: cs) = lastLine cs := by
  by_cases h : '\n' ∈ cs
  · exact lastLine_cons_of_mem h
  · rw [lastLine_of_notMem h]
    unfold lastLine List.rtakeWhile
    have hall : cs.reverse.takeWhile (· != '\n') = cs.reverse := by
      apply List.takeWhile_eq_self_iff.2
      intro x hx
      exact bne_iff_ne.2 fun hfeed => h (hfeed ▸ List.mem_reverse.1 hx)
    rw [List.reverse_cons, List.takeWhile_append, hall, if_pos rfl]
    simp

/-- A text is what stands in front of its last line, and the last line. -/
theorem exists_append_lastLine (cs : List Char) :
    ∃ front, cs = front ++ lastLine cs ∧ lastLine front = [] := by
  refine ⟨cs.rdropWhile (· != '\n'), List.rdropWhile_append_rtakeWhile.symm, ?_⟩
  apply List.rtakeWhile_eq_nil_iff.2
  exact List.rdropWhile_last_not _ _

/-- A text is cut into one piece more than it has line feeds. -/
theorem length_splitLineFeeds (cs : List Char) : (splitLineFeeds cs).length = cs.count '\n' + 1 := by
  induction cs with
  | nil => rfl
  | cons c cs ih =>
    unfold splitLineFeeds
    split
    · rename_i hfeed
      rw [hfeed, List.length_cons, ih, List.count_cons_self]
    · rename_i hother
      rw [List.count_cons_of_ne hother]
      split
      · rename_i hnil
        rw [hnil] at ih
        contradiction
      · rename_i line rest hcons
        rw [hcons] at ih
        exact ih

/-- The piece that a place lies in goes from the line feed in front of the place to the one behind it. -/
theorem getElem?_splitLineFeeds (before behind : List Char) :
    (splitLineFeeds (before ++ behind))[before.count '\n']?
      = some (lastLine before ++ behind.takeWhile (· != '\n')) := by
  induction before with
  | nil =>
    show (splitLineFeeds behind)[0]? = some (behind.takeWhile (· != '\n'))
    induction behind with
    | nil => rfl
    | cons c behind ih =>
      unfold splitLineFeeds
      split
      · rename_i hfeed
        simp [hfeed]
      · rename_i hother
        rw [List.takeWhile_cons_of_pos (by simpa using hother)]
        split
        · rename_i hnil
          rw [hnil] at ih
          contradiction
        · rename_i line rest hcons
          rw [hcons] at ih
          show some (c :: line) = some (c :: _)
          rw [Option.some.inj ih]
  | cons c before ih =>
    rw [List.cons_append]
    unfold splitLineFeeds
    split
    · rename_i hfeed
      rw [hfeed, List.count_cons_self, lastLine_feed_cons, List.getElem?_cons_succ]
      exact ih
    · rename_i hother
      rw [List.count_cons_of_ne hother]
      split
      · rename_i hnil
        rw [hnil] at ih
        contradiction
      · rename_i line rest hcons
        rw [hcons] at ih
        by_cases hmem : '\n' ∈ before
        · rw [lastLine_cons_of_mem hmem]
          obtain ⟨n, hn⟩ : ∃ n, before.count '\n' = n + 1 :=
            Nat.exists_eq_succ_of_ne_zero (Nat.pos_iff_ne_zero.1 (List.count_pos_iff.2 hmem))
          rw [hn] at ih ⊢
          exact ih
        · have hnot : '\n' ∉ c :: before := by
            intro h
            rcases List.mem_cons.1 h with h | h
            · exact hother h.symm
            · exact hmem h
          rw [lastLine_of_notMem hmem, List.count_eq_zero.2 hmem] at ih
          rw [lastLine_of_notMem hnot, List.count_eq_zero.2 hmem]
          show some (c :: line) = some (c :: (before ++ _))
          rw [Option.some.inj ih]

/-- The line that a place lies in, if a line feed ends it. -/
theorem getElem?_lines_of_mem (h : '\n' ∈ behind) : (lines (before ++ behind))[before.count '\n']?
    = some (dropCarriageReturn (lastLine before ++ behind.takeWhile (· != '\n'))) := by
  have hpiece := getElem?_splitLineFeeds before behind
  have hlength := length_splitLineFeeds (before ++ behind)
  have hpos : 0 < behind.count '\n' := List.count_pos_iff.2 h
  rw [List.count_append] at hlength
  unfold lines
  rw [List.getElem?_append_left, List.getElem?_map, List.getElem?_dropLast, if_pos, hpiece]
  · rfl
  · omega
  · rw [List.length_map, List.length_dropLast]
    omega

/-- The line that a place lies in, if it is the last one. Where nothing stands in it there is no line. -/
theorem getElem?_lines_of_notMem (h : '\n' ∉ behind) : (lines (before ++ behind))[before.count '\n']?
    = if lastLine before ++ behind = [] then none else some (lastLine before ++ behind) := by
  have hpiece := getElem?_splitLineFeeds before behind
  have hlength := length_splitLineFeeds (before ++ behind)
  rw [List.count_append, List.count_eq_zero.2 h, Nat.add_zero] at hlength
  have hwhole : behind.takeWhile (· != '\n') = behind := by
    apply List.takeWhile_eq_self_iff.2
    intro x hx
    exact bne_iff_ne.2 fun hfeed => h (hfeed ▸ hx)
  rw [hwhole] at hpiece
  have hlast : (splitLineFeeds (before ++ behind)).getLast? = some (lastLine before ++ behind) := by
    rw [List.getLast?_eq_getElem?, hlength, Nat.add_sub_cancel, hpiece]
  unfold lines
  rw [List.getElem?_append_right, hlast, Option.getD_some, List.length_map, List.length_dropLast, hlength]
  · rw [Nat.add_sub_cancel, Nat.sub_self]
    by_cases hempty : lastLine before ++ behind = []
    · rw [if_pos hempty, hempty]
      rfl
    · rw [if_neg hempty, List.isEmpty_eq_false_iff.2 hempty]
      rfl
  · rw [List.length_map, List.length_dropLast, hlength]
    omega

/-- A line without its carriage return, and what is behind it. -/
theorem endsLine_dropCarriageReturn (line rest : List Char) :
    ∃ after, line ++ '\n' :: rest = dropCarriageReturn line ++ after
      ∧ EndsLine (dropCarriageReturn line) after := by
  unfold dropCarriageReturn
  split
  · rename_i hreturn
    refine ⟨'\r' :: '\n' :: rest, ?_, .returnFeed rest⟩
    obtain ⟨front, rfl⟩ := List.getLast?_eq_some_iff.1 hreturn
    simp
  · rename_i hreturn
    exact ⟨'\n' :: rest, rfl, .feed rest hreturn⟩

theorem mem_of_mem_dropCarriageReturn (h : c ∈ dropCarriageReturn line) : c ∈ line := by
  unfold dropCarriageReturn at h
  split at h
  · exact (List.dropLast_sublist line).subset h
  · exact h

/-- A text with a line feed, cut at the first one. -/
theorem exists_eq_takeWhile_append (h : '\n' ∈ cs) :
    ∃ rest, cs = cs.takeWhile (· != '\n') ++ '\n' :: rest := by
  cases hrest : cs.dropWhile (· != '\n') with
  | nil =>
    have hall := List.dropWhile_eq_nil_iff.1 hrest '\n' h
    simp at hall
  | cons x rest =>
    have hne : cs.dropWhile (· != '\n') ≠ [] := by
      rw [hrest]
      exact List.cons_ne_nil x rest
    have hfeed := List.head_dropWhile_not (· != '\n') hne
    simp only [hrest, List.head_cons, bne_eq_false_iff_eq] at hfeed
    have hwhole := (List.takeWhile_append_dropWhile (p := (· != '\n')) (l := cs)).symm
    rw [hrest, hfeed] at hwhole
    exact ⟨rest, hwhole⟩

/-- The line that a place lies in. There is none exactly if the place is at the end of the text and nothing
stands behind the last line feed. -/
theorem line?_of_append {text : String} (h : text.toList = before ++ behind) :
    (∃ line, line? text (1 + before.count '\n') = some line
        ∧ IsLine text (1 + before.count '\n') line ∧ lastLine before ++ behind ≠ [])
      ∨ line? text (1 + before.count '\n') = none ∧ lastLine before = [] ∧ behind = [] := by
  have hlookup : line? text (1 + before.count '\n')
      = (lines (before ++ behind))[before.count '\n']?.map String.ofList := by
    unfold line?
    rw [if_neg (by omega), Nat.add_sub_cancel_left, h]
  obtain ⟨front, hfront, hempty⟩ := exists_append_lastLine before
  have hcount : before.count '\n' = front.count '\n' := by
    have hsum := congrArg (List.count '\n') hfront
    rw [List.count_append, List.count_eq_zero.2 notMem_lastLine] at hsum
    exact hsum
  by_cases hmem : '\n' ∈ behind
  · rw [getElem?_lines_of_mem hmem] at hlookup
    obtain ⟨rest, hrest⟩ := exists_eq_takeWhile_append hmem
    obtain ⟨after, hafter, hends⟩ :=
      endsLine_dropCarriageReturn (lastLine before ++ behind.takeWhile (· != '\n')) rest
    have hne : lastLine before ++ behind ≠ [] :=
      List.append_ne_nil_of_right_ne_nil _ (List.ne_nil_of_mem hmem)
    refine .inl ⟨_, hlookup, ⟨front, after, ?_, by rw [hcount], hempty, ?_, ?_⟩, hne⟩
    · rw [String.toList_ofList, List.append_assoc, ← hafter, List.append_assoc, ← hrest,
        ← List.append_assoc, ← hfront]
      exact h
    · rw [String.toList_ofList]
      intro hfeed
      rcases List.mem_append.1 (mem_of_mem_dropCarriageReturn hfeed) with hfeed | hfeed
      · exact notMem_lastLine hfeed
      · have hother := List.mem_takeWhile_imp hfeed
        simp at hother
    · rw [String.toList_ofList]
      exact hends
  · rw [getElem?_lines_of_notMem hmem] at hlookup
    by_cases hnone : lastLine before ++ behind = []
    · rw [if_pos hnone] at hlookup
      obtain ⟨hlast, hbehind⟩ := List.append_eq_nil_iff.1 hnone
      exact .inr ⟨hlookup, hlast, hbehind⟩
    · rw [if_neg hnone] at hlookup
      refine .inl ⟨_, hlookup, ⟨front, [], ?_, by rw [hcount], hempty, ?_, .last⟩, hnone⟩
      · rw [String.toList_ofList, List.append_nil, ← List.append_assoc, ← hfront]
        exact h
      · rw [String.toList_ofList]
        intro hfeed
        rcases List.mem_append.1 hfeed with hfeed | hfeed
        · exact notMem_lastLine hfeed
        · exact hmem hfeed

end Text

/-! ## The line of a token -/

namespace Stream

/-- Nothing stands behind the end mark, and it has no text. -/
theorem eq_nil_of_all_eq {text : String} {earlier later : List Token} {t : Token}
    (h : (ofString text).all = earlier ++ t :: later) (heof : t.kind = .eof) : later = [] ∧ t.text = "" := by
  change (ofString text).tokens ++ [(ofString text).stop] = earlier ++ t :: later at h
  rcases List.eq_nil_or_concat later with rfl | ⟨between, last, rfl⟩
  · obtain ⟨-, hstop⟩ := List.append_inj' h rfl
    obtain ⟨rfl, -⟩ := List.cons.inj hstop
    exact ⟨rfl, rfl⟩
  · rw [List.concat_eq_append, ← List.cons_append, ← List.append_assoc] at h
    obtain ⟨htokens, -⟩ := List.append_inj' h rfl
    have hmem : t ∈ (ofString text).tokens := by
      rw [htokens]
      exact List.mem_append_right _ List.mem_cons_self
    exact absurd heof (ne_empty_of_mem_tokens hmem).2

/-- The line with the number of a token is the one that the token begins in. It is missing only for the
end mark of a text that has nothing in its last line. -/
theorem line?_of_all_eq {text : String} {earlier later : List Token} {t : Token}
    (h : (ofString text).all = earlier ++ t :: later) :
    (∃ line, Text.line? text t.span.line = some line ∧ Text.IsLine text t.span.line line
        ∧ ¬ (t.kind = .eof ∧ lastLine text.toList = []))
      ∨ Text.line? text t.span.line = none ∧ t.kind = .eof ∧ lastLine text.toList = [] := by
  have htext : text = String.join (earlier.map (·.text)) ++ (t.text ++ String.join (later.map (·.text))) := by
    rw [← (isLossless text).join_eq, h, List.map_append, String.join_append, List.map_cons, String.join_cons]
  have hline : t.span.line = 1 + (String.join (earlier.map (·.text))).toList.count '\n' := by
    have hlaid : (layOut .start (pieces 0 text.toList)).map (fun p => p.1.token p.2)
        ++ [(Place.start.after ((pieces 0 text.toList).flatMap Piece.chars)).endToken]
        = earlier ++ t :: later := by
      rw [flatMap_chars_pieces, List.drop_zero]
      exact h
    rw [span_of_layOut_eq hlaid, Place.start_after]
    rfl
  have hcut := congrArg String.toList htext
  rw [String.toList_append] at hcut
  rw [hline]
  rcases Text.line?_of_append hcut with ⟨line, hshown, hisLine, hne⟩ | ⟨hnone, hlast, hbehind⟩
  · refine .inl ⟨line, hshown, hisLine, ?_⟩
    rintro ⟨heof, hlast⟩
    obtain ⟨rfl, hempty⟩ := eq_nil_of_all_eq h heof
    apply hne
    rw [hcut, hempty] at hlast
    rw [hempty]
    simpa using hlast
  · refine .inr ⟨hnone, ?_, ?_⟩
    · have hempty : t.text = "" := by
        rw [String.toList_append, List.append_eq_nil_iff] at hbehind
        exact String.toList_inj.1 hbehind.1
      have hmem : t ∈ (ofString text).tokens ++ [(ofString text).stop] := by
        show t ∈ (ofString text).all
        rw [h]
        exact List.mem_append_right _ List.mem_cons_self
      rcases List.mem_append.1 hmem with hmem | hmem
      · exact absurd hempty (ne_empty_of_mem_tokens hmem).1
      · rw [List.mem_singleton.1 hmem]
        rfl
    · rw [hcut, hbehind, List.append_nil]
      exact hlast

end Stream

/-! ## Reports -/

namespace Diagnostic

/-- Does the report show the line that the diagnostic names, behind the number of the line, and below it a
caret with one blank less in front of it than the number of the column? -/
def Shows (d : Diagnostic) (text : String) : Prop :=
  ∃ line front back, Text.IsLine text d.span.line line
    ∧ d.report text = front ++ (lineNumber d.span.line ++ " | " ++ line
      ++ "\n  | " ++ String.ofList (List.replicate (d.span.column - 1) ' ') ++ "^" ++ back)

/-- Can the message stand in a report without being taken for a part of an excerpt? -/
structure PlainMessage (message : String) : Prop where
  noFeed : '\n' ∉ message.toList
  begins : ∃ c, message.toList.head? = some c ∧ c ≠ '|'

variable {text : String} {d : Diagnostic}

theorem shows_of_line? {line : String} (h : Text.line? text d.span.line = some line)
    (hline : Text.IsLine text d.span.line line) : d.Shows text := by
  have hmarker : marker d.span = "^" ++ String.ofList (List.replicate (d.span.length - 1) '~') := by
    apply String.toList_inj.1
    unfold marker
    rw [String.toList_append, String.toList_ofList, String.toList_ofList, String.toList_ofList]
    rfl
  refine ⟨line, "error at " ++ toString d.span.line ++ ":" ++ toString (max d.span.column 1) ++ ": "
    ++ d.fault.text ++ "\n" ++ (if d.message.isEmpty then "" else "  " ++ d.message ++ "\n") ++ "  |\n",
    String.ofList (List.replicate (d.span.length - 1) '~') ++ "\n", hline, ?_⟩
  unfold report excerpt
  rw [h, hmarker]
  simp only [String.append_assoc]

/-- Two ways to cut a text at a line feed, if there is none in what the first way has in front of it. -/
theorem feed_cuts {front behind front' behind' : List Char} (hfront : '\n' ∉ front)
    (h : front ++ '\n' :: behind = front' ++ '\n' :: behind') :
    behind = behind' ∨ ∃ between, behind = between ++ '\n' :: behind' := by
  rcases List.append_eq_append_iff.1 h with ⟨between, rfl, hbetween⟩ | ⟨between, rfl, hbetween⟩
  · cases between with
    | nil => exact .inl (List.cons.inj hbetween).2
    | cons c between =>
      obtain ⟨rfl, hrest⟩ := List.cons.inj hbetween
      exact .inr ⟨between, hrest⟩
  · cases between with
    | nil => exact .inl (List.cons.inj hbetween).2.symm
    | cons c between =>
      obtain ⟨rfl, -⟩ := List.cons.inj hbetween
      exact absurd (List.mem_append_right _ List.mem_cons_self) hfront

theorem notMem_toString (n : Nat) : '\n' ∉ (toString n).toList := by
  intro h
  rw [Nat.toString_eq_repr, Nat.toList_repr] at h
  have hdigit := Nat.isDigit_of_mem_toDigits (by decide) (by decide) h
  contradiction

theorem notMem_text (f : Fault) : '\n' ∉ f.text.toList := by
  cases f <;> decide

/-- A report without an excerpt shows no line. It has line feeds behind the place and behind the message
only, and what follows them is two blanks and the message, or nothing. -/
theorem not_shows_of_line? (h : Text.line? text d.span.line = none) (hmessage : PlainMessage d.message) :
    ¬ d.Shows text := by
  rintro ⟨line, front, back, -, hreport⟩
  have hfront : '\n' ∉ ("error at " ++ toString d.span.line ++ ":" ++ toString (max d.span.column 1)
      ++ ": " ++ d.fault.text).toList := by
    simp only [String.toList_append, List.mem_append, not_or]
    exact ⟨⟨⟨⟨⟨by decide, notMem_toString _⟩, by decide⟩, notMem_toString _⟩, by decide⟩, notMem_text _⟩
  obtain ⟨front', behind', hcut⟩ : ∃ front' behind', ("error at " ++ toString d.span.line ++ ":"
      ++ toString (max d.span.column 1) ++ ": " ++ d.fault.text).toList
      ++ '\n' :: (if d.message.isEmpty then "" else "  " ++ d.message ++ "\n").toList
      = front' ++ '\n' :: ' ' :: ' ' :: '|' :: behind' := by
    have hwhole := congrArg String.toList hreport
    unfold report excerpt at hwhole
    rw [h] at hwhole
    refine ⟨(front ++ (lineNumber d.span.line ++ " | " ++ line)).toList,
      ' ' :: (String.ofList (List.replicate (d.span.column - 1) ' ') ++ "^" ++ back).toList, ?_⟩
    simpa [String.toList_append] using hwhole
  split at hcut
  · rcases feed_cuts hfront hcut with hbehind | ⟨between, hbetween⟩
    · cases hbehind
    · cases between <;> cases hbetween
  · have hmiddle : '\n' ∉ ' ' :: ' ' :: d.message.toList := by
      simpa using hmessage.noFeed
    have htail : ("  " ++ d.message ++ "\n").toList = (' ' :: ' ' :: d.message.toList) ++ '\n' :: [] := by
      rw [String.toList_append, String.toList_append]
      rfl
    rw [htail] at hcut
    rcases feed_cuts hfront hcut with hbehind | ⟨between, hbetween⟩
    · obtain ⟨c, hc, hne⟩ := hmessage.begins
      obtain ⟨cs, hcs⟩ := List.head?_eq_some_iff.1 hc
      rw [hcs] at hbehind
      simp at hbehind
      exact hne hbehind.1
    · rcases feed_cuts hmiddle hbetween with hbehind | ⟨between, hbetween⟩
      · cases hbehind
      · cases between <;> cases hbetween

end Diagnostic

/-! ## Diagnostics of a text -/

open Diagnostic

theorem notMem_description (k : Kind) : '\n' ∉ k.description.toList := by
  cases k <;> decide

theorem notMem_display (s : Span) : '\n' ∉ s.display.toList := by
  unfold Span.display
  rw [String.toList_append, String.toList_append, List.mem_append, List.mem_append, not_or, not_or]
  exact ⟨⟨notMem_toString _, by decide⟩, notMem_toString _⟩

theorem Diagnostic.PlainMessage.append {front rest : String} (h : PlainMessage front)
    (hrest : '\n' ∉ rest.toList) : PlainMessage (front ++ rest) := by
  obtain ⟨c, hc, hne⟩ := h.begins
  constructor
  · rw [String.toList_append, List.mem_append, not_or]
    exact ⟨h.noFeed, hrest⟩
  · refine ⟨c, ?_, hne⟩
    rw [String.toList_append, List.head?_append, hc]
    rfl

theorem Mistake.plainMessage_diagnostic (source : Source) (p : Nat) (m : Mistake) :
    PlainMessage (m.diagnostic source p).message := by
  have hexpected : PlainMessage "expected " := ⟨by decide, 'e', by decide, by decide⟩
  cases m with
  | expected kind =>
    exact ((hexpected.append (notMem_description _)).append (by decide)).append (notMem_description _)
  | expectedIdentifier => exact .append ⟨by decide, 'e', by decide, by decide⟩ (notMem_description _)
  | expectedType => exact .append ⟨by decide, 'e', by decide, by decide⟩ (notMem_description _)
  | expectedDeclaration => exact .append ⟨by decide, 'e', by decide, by decide⟩ (notMem_description _)
  | expectedInitializer => exact .append ⟨by decide, 'e', by decide, by decide⟩ (notMem_description _)
  | unexpected => exact .append ⟨by decide, 'u', by decide, by decide⟩ (notMem_description _)
  | strayTypeParams =>
    show PlainMessage "type parameters are only allowed on methods and constructors"
    exact ⟨by decide, 't', by decide, by decide⟩
  | unclosed delimiter opened =>
    exact (((((((hexpected.append (notMem_description _)).append (by decide)).append
      (notMem_description _)).append (by decide)).append (notMem_display _)).append (by decide)).append
      (notMem_description _))
  | endOfText =>
    show PlainMessage "unexpected end of file"
    exact ⟨by decide, 'u', by decide, by decide⟩
  | exhausted =>
    show PlainMessage "nesting too deep"
    exact ⟨by decide, 'n', by decide, by decide⟩

theorem Mistake.span_diagnostic (source : Source) (p : Nat) (m : Mistake) :
    (m.diagnostic source p).span = (source.codeToken p).span := by
  cases m <;> rfl

theorem Source.codeToken_mem_all (text : String) (p : Nat) :
    (ofString text).codeToken p ∈ (Stream.ofString text).all := by
  show (ofString text).tokens[(ofString text).index p]?.getD (ofString text).stop
    ∈ (Stream.ofString text).tokens ++ [(Stream.ofString text).stop]
  cases htoken : (ofString text).tokens[(ofString text).index p]? with
  | none => exact List.mem_append_right _ List.mem_cons_self
  | some t =>
    apply List.mem_append_left
    have hmem := Array.mem_of_getElem? htoken
    simpa [ofString, ofStream] using hmem

/-- A diagnostic of a text stands at a token of it. At the end mark it is about a mistake in the grammar,
since the end mark has no flaws. -/
theorem ParsedFile.exists_token_of_ofString {text receiver : String} {ds : List Diagnostic}
    (h : ofString text receiver = .error ds) {d : Diagnostic} (hd : d ∈ ds) :
    ∃ t ∈ (Stream.ofString text).all, d.span = t.span ∧ (t.kind = .eof → PlainMessage d.message) := by
  unfold ofString at h
  dsimp only at h
  split at h
  · split at h
    · cases h
    · rename_i m p hrun
      obtain rfl := Except.error.inj h
      obtain rfl := List.mem_singleton.1 hd
      refine ⟨_, Source.codeToken_mem_all text p, m.span_diagnostic _ _, fun _ => ?_⟩
      exact m.plainMessage_diagnostic _ _
  · obtain rfl := Except.error.inj h
    obtain ⟨problem, hproblem, rfl⟩ := List.mem_map.1 hd
    obtain ⟨placed, hplaced, hflaw⟩ := List.mem_filterMap.1 hproblem
    refine ⟨placed.1.token placed.2, List.mem_append_left _ (List.mem_map_of_mem hplaced), ?_⟩
    unfold Piece.problem? at hflaw
    split at hflaw
    · cases hflaw
    · rename_i flaw hverdict
      obtain rfl := Option.some.inj hflaw
      refine ⟨rfl, fun heof => ?_⟩
      have hkind : placed.1.kind = .error := by
        unfold Piece.kind
        rw [hverdict]
      exact absurd (hkind.symm.trans heof) (by decide)

/-- The empty text is a file without declarations. -/
theorem ParsedFile.ofString_empty_ne_error (receiver : String) (ds : List Diagnostic) :
    ofString "" receiver ≠ .error ds := by
  intro h
  have hproblems : (Source.ofString "").problems.isEmpty = true := rfl
  have hrun : (Grammar.complete Grammar.compilationUnit).run (.ofSource (.ofString "") receiver) 0
      = .ok ⟨none, [], []⟩ 0 :=
    rfl
  unfold ofString at h
  dsimp only at h
  rw [if_pos hproblems, hrun] at h
  cases h

/-- Whatever is wrong with a text, each diagnostic has the span of a token, and its report shows the line
of that token with the marker in its column, unless the token is the end mark and the text ends in a line
feed: behind it there is no line to show. -/
theorem Diagnostic.shows_iff_of_ofString {text receiver : String} {ds : List Diagnostic}
    (h : ParsedFile.ofString text receiver = .error ds) {d : Diagnostic} (hd : d ∈ ds) :
    ∃ t ∈ (Stream.ofString text).all, d.span = t.span
      ∧ (d.Shows text ↔ ¬ (t.kind = .eof ∧ text.toList.getLast? = some '\n')) := by
  obtain ⟨t, ht, hspan, hplain⟩ := ParsedFile.exists_token_of_ofString h hd
  obtain ⟨earlier, later, hall⟩ := List.append_of_mem ht
  refine ⟨t, ht, hspan, ?_⟩
  rcases Stream.line?_of_all_eq hall with ⟨line, hline, hisLine, hnot⟩ | ⟨hnone, heof, hlast⟩
  · rw [← hspan] at hline hisLine
    apply iff_of_true
    · exact shows_of_line? hline hisLine
    · rintro ⟨heof, hfeed⟩
      obtain ⟨front, hfront⟩ := List.getLast?_eq_some_iff.1 hfeed
      apply hnot
      refine ⟨heof, ?_⟩
      unfold lastLine
      rw [hfront, List.rtakeWhile_concat_neg _ _ _ (by decide)]
  · rw [← hspan] at hnone
    apply iff_of_false
    · exact not_shows_of_line? hnone (hplain heof)
    · rw [not_not]
      refine ⟨heof, ?_⟩
      have hne : text.toList ≠ [] := by
        intro hempty
        rw [String.toList_eq_nil_iff] at hempty
        exact ParsedFile.ofString_empty_ne_error receiver ds (hempty ▸ h)
      have hfeed := List.rtakeWhile_eq_nil_iff.1 hlast hne
      rw [bne_iff_ne, not_not] at hfeed
      rw [List.getLast?_eq_getLast_of_ne_nil hne, hfeed]

/-- The theorem at a semicolon that is missing at the end of a text with two sorts of line ends, where the
line of the end mark has a tabulator. -/
theorem Diagnostic.shows_semicolon :
    ∃ d : Diagnostic, ParsedFile.ofString "class A \x7b\r\n\n\tint x" "Intrinsics" = .error [d]
      ∧ d.span = ⟨3, 7, 0⟩ ∧ d.Shows "class A \x7b\r\n\n\tint x" := by
  have herror : (match ParsedFile.ofString "class A \x7b\r\n\n\tint x" "Intrinsics" with
      | .ok _ => none
      | .error ds => some ds) = some [.unexpectedEnd ⟨3, 7, 0⟩] := by
    decide +kernel
  cases hfile : ParsedFile.ofString "class A \x7b\r\n\n\tint x" "Intrinsics" with
  | ok file => simp [hfile] at herror
  | error ds =>
    rw [hfile] at herror
    obtain rfl := Option.some.inj herror
    obtain ⟨t, -, -, hshows⟩ := shows_iff_of_ofString hfile List.mem_cons_self
    refine ⟨_, rfl, rfl, hshows.2 ?_⟩
    rintro ⟨-, hfeed⟩
    simp at hfeed

/-- A text that ends too early behind a line feed is refused with a diagnostic whose report shows no line. -/
theorem Diagnostic.not_shows_end : ¬ ∀ (text receiver : String) (ds : List Diagnostic),
    ParsedFile.ofString text receiver = .error ds → ∀ d ∈ ds, d.Shows text := by
  intro hall
  have herror : (match ParsedFile.ofString "class A \x7b\n" "Intrinsics" with
      | .ok _ => none
      | .error ds => some ds) = some [.unexpectedEnd ⟨2, 1, 0⟩] := by
    decide +kernel
  cases hfile : ParsedFile.ofString "class A \x7b\n" "Intrinsics" with
  | ok file => simp [hfile] at herror
  | error ds =>
    rw [hfile] at herror
    obtain rfl := Option.some.inj herror
    refine not_shows_of_line? ?_ ?_ (hall _ _ _ hfile _ List.mem_cons_self)
    · decide
    · exact ⟨by decide, 'u', by decide, by decide⟩

end Stencil
