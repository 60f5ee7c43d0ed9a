import Stencil.Proofs.Token.Written

/-!
# Texts that are tokens and gaps

A text of a list of tokens may have a gap at its end as well as in front of each token. Two such texts
one after the other are one of the tokens of both, unless a word meets a letter or digit.

Results: texts of tokens are put together (`Strewn.append`), and they are read as their tokens
(`Strewn.code_eq`).
-/

namespace Stencil

/-- Is there no letter or digit at the beginning of the text? -/
def IsLoose (cs : List Char) : Prop :=
  cs.head?.any Scan.isNamePart = false

/-- The tokens written down one after the other with gaps in front of each and behind the last one. -/
def Strewn (xs : List Lexeme) (cs : List Char) : Prop :=
  ∃ w, Gap w ∧ Written w xs cs

/-- Do the tokens begin with no word? -/
def IsOpen (xs : List Lexeme) : Prop :=
  ∀ x ∈ xs.head?, x.isWord = false

/-- Do the tokens end with no word? -/
def IsShut (xs : List Lexeme) : Prop :=
  ∀ x ∈ xs.getLast?, x.isWord = false

variable {w cs ds : List Char} {xs ys : List Lexeme} {x : Lexeme}

theorem IsOpen.nil : IsOpen [] :=
  nofun

theorem IsOpen.append (hx : IsOpen xs) (hy : IsOpen ys) : IsOpen (xs ++ ys) := by
  cases xs with
  | nil => exact hy
  | cons x xs => exact hx

/-! ## Gaps -/

theorem Gap.append (hw : Gap w) (h : Gap cs) : Gap (w ++ cs) := by
  induction hw with
  | nil => exact h
  | blank hc _ ih => exact .blank hc ih
  | line hbody hc _ ih =>
    rw [List.cons_append, List.cons_append, List.append_assoc]
    exact .line hbody hc ih
  | block hbody _ ih =>
    rw [List.cons_append, List.cons_append, List.append_assoc]
    exact .block hbody ih

theorem Gap.of_blank (h : ∀ c ∈ w, Scan.isSpace c = true) : Gap w := by
  induction w with
  | nil => exact .nil
  | cons c w ih =>
    rw [List.forall_mem_cons] at h
    exact .blank h.1 (ih h.2)

theorem Scan.not_isNumeric_of_isSpace {c : Char} (h : isSpace c = true) : Unicode.isNumeric c = false := by
  have hdigit := not_isDigit_of_isSpace h
  rw [isSpace, Bool.or_eq_true, beq_iff_eq] at h
  rcases h with h | rfl
  · have hall : (blankRanges.all fun r => (List.range' r.1 (r.2 + 1 - r.1)).all fun n =>
        n < 128 || !Unicode.numericRanges.contains n) = true := by
      decide +kernel
    obtain ⟨r, hr, hn, hn'⟩ := exists_blankRange h
    have hblank := List.all_eq_true.1 (List.all_eq_true.1 hall r hr) c.toNat
      (List.mem_range'_1.2 ⟨hn, by omega⟩)
    simp only [Bool.or_eq_true, decide_eq_true_eq, Bool.not_eq_true'] at hblank
    rw [Unicode.isNumeric]
    split
    · exact hdigit
    · rename_i hwide
      exact hblank.resolve_left hwide
  · decide +kernel

theorem Scan.not_isNamePart_of_isSpace {c : Char} (h : isSpace c = true) : isNamePart c = false := by
  have hstart := not_isNameStart_of_isSpace h
  simp only [isNameStart, Bool.or_eq_false_iff] at hstart
  simp [isNamePart, Unicode.isAlphanumeric, hstart, not_isNumeric_of_isSpace h]

theorem Gap.isLoose (h : Gap w) : IsLoose w := by
  rw [IsLoose, Option.any_eq_false]
  intro c hc
  rcases h.of_head? hc with hspace | rfl
  · exact Scan.not_isNamePart_of_isSpace hspace
  · decide +kernel

theorem IsLoose.append (hc : IsLoose cs) (hd : IsLoose ds) : IsLoose (cs ++ ds) := by
  cases cs with
  | nil => exact hd
  | cons c cs => exact hc

theorem IsLoose.append_of_ne_nil (hc : IsLoose cs) (hne : cs ≠ []) : IsLoose (cs ++ ds) := by
  obtain ⟨c, cs, rfl⟩ := List.exists_cons_of_ne_nil hne
  exact hc

/-! ## Tokens -/

theorem Strewn.of_gap (h : Gap w) : Strewn [] w :=
  ⟨w, h, .done⟩

theorem Strewn.token (x : Lexeme) : Strewn [x] x.text.toList := by
  refine ⟨[], .nil, ?_⟩
  have hwritten : Written [] [x] ([] ++ (x.text.toList ++ [])) := .token .nil (fun _ => rfl) .done
  rwa [List.nil_append, List.append_nil] at hwritten

/-- A gap in front of tokens belongs to the first of them. -/
theorem Strewn.behind (hw : Gap w) (h : Strewn xs cs) : Strewn xs (w ++ cs) := by
  obtain ⟨w', hw', h⟩ := h
  cases h with
  | done => exact .of_gap (hw.append hw')
  | token hfront hword h =>
    refine ⟨w', hw', ?_⟩
    rw [← List.append_assoc]
    exact .token (hw.append hfront) hword h

theorem not_isNamePart_of_symbol {c : Char} (hx : x.IsOfType) (hword : x.isWord = false)
    (hc : x.text.toList.head? = some c) : Scan.isNamePart c = false := by
  have hall : (Kind.typeSymbols.all fun k => k.spelling.all fun text =>
      !text.toList.head?.any Scan.isNamePart) = true := by
    decide +kernel
  cases hx with
  | name _ => cases hword
  | keyword hk _ => simp [Lexeme.isWord, hk] at hword
  | symbol hk h =>
    have hfirst := List.all_eq_true.1 hall _ hk
    dsimp only at hc
    rw [h, Option.all_some, hc, Option.any_some, Bool.not_eq_true'] at hfirst
    exact hfirst

/-- Tokens of which the first one is no word begin with no letter or digit. -/
theorem Strewn.isLoose (h : Strewn xs cs) (hx : ∀ x ∈ xs, x.IsOfType) (hopen : IsOpen xs) :
    IsLoose cs := by
  obtain ⟨w, hw, h⟩ := h
  cases xs with
  | nil =>
    cases h
    exact hw.isLoose
  | cons x xs =>
    rw [IsLoose, Option.any_eq_false]
    intro c hc
    obtain hnil | hspace | rfl | ⟨y, hy, htext⟩ := h.of_head? hx hc
    · contradiction
    · exact Scan.not_isNamePart_of_isSpace hspace
    · decide +kernel
    · obtain rfl : x = y := Option.some.inj hy
      exact not_isNamePart_of_symbol (hx x List.mem_cons_self) (hopen x rfl) htext

theorem Written.eq_nil (h : Written w xs []) (hx : ∀ x ∈ xs, x.IsOfType) : xs = [] := by
  generalize hcs : ([] : List Char) = cs at h
  cases h with
  | done => rfl
  | token _ _ _ =>
    obtain ⟨c, hc, -⟩ := (hx _ List.mem_cons_self).head
    have htext := (List.append_eq_nil_iff.1 (List.append_eq_nil_iff.1 hcs.symm).2).1
    rw [htext] at hc
    contradiction

/-- Two texts meet where the first one ends with no word or the other one begins with no letter or
digit. -/
theorem Strewn.append (hx : Strewn xs cs) (hy : Strewn ys ds) (htokens : ∀ x ∈ xs, x.IsOfType)
    (h : IsShut xs ∨ IsLoose ds) : Strewn (xs ++ ys) (cs ++ ds) := by
  obtain ⟨w, hw, hwritten⟩ := hx
  induction hwritten with
  | done => exact hy.behind hw
  | @token x xs front cs hfront hword hrest ih =>
    rw [List.forall_mem_cons] at htokens
    obtain ⟨w', hw', hwritten⟩ : Strewn (xs ++ ys) (cs ++ ds) := by
      refine ih htokens.2 (h.imp_left fun hshut y hy => hshut y ?_)
      rw [List.getLast?_cons, Option.mem_def.1 hy]
      rfl
    refine ⟨w', hw', ?_⟩
    rw [List.append_assoc, List.append_assoc, List.cons_append]
    refine .token hfront (fun hword' => ?_) hwritten
    cases cs with
    | cons c cs => exact hword hword'
    | nil =>
      -- nothing is behind the word, so it is the last token
      obtain rfl := hrest.eq_nil htokens.2
      refine h.elim (fun hshut => ?_) id
      rw [hshut x rfl] at hword'
      contradiction

/-- The text is read as its tokens. -/
theorem Strewn.code_eq (h : Strewn xs cs) (hx : Phrase xs) : code cs = xs := by
  obtain ⟨w, hw, h⟩ := h
  have hgap : code (w ++ []) = code [] := hw.code_append
  rw [List.append_nil] at hgap
  rw [code_of_written h hx, hgap]
  exact List.append_nil xs

end Stencil
