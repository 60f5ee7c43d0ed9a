import Stencil.Proofs.Grammar.Stretch

/-!
# Positions and indices

The positions of code tokens and their indices in the stream come in the same order, and every code
token has a position.

Results: the index of a later position is larger (`index_lt_index`), exactly the code tokens have
positions (`isCode_tokenAt_index`, `exists_index_eq`), and what the grammar sees at a position is the
token of that index (`word_ofSource`).
-/

namespace Stencil.Source

/-! ## The table of code -/

theorem mem_codeIndices {n i : Nat} {ts : List Token} :
    i ∈ codeIndices n ts ↔ n ≤ i ∧ ∃ t, ts[i - n]? = some t ∧ t.isCode = true := by
  induction ts generalizing n with
  | nil => simp [codeIndices]
  | cons t ts ih =>
    have hstep : i ∈ codeIndices (n + 1) ts ↔
        n < i ∧ ∃ t', (t :: ts)[i - n]? = some t' ∧ t'.isCode = true := by
      rw [ih]
      refine and_congr_right fun h => ?_
      rw [show i - n = i - (n + 1) + 1 by omega, List.getElem?_cons_succ]
    simp only [codeIndices]
    by_cases hi : i = n
    · subst hi
      by_cases ht : t.isCode = true <;> simp [ht, hstep]
    · have hlt : n ≤ i ↔ n < i := by omega
      by_cases ht : t.isCode = true <;> simp [ht, hstep, hi, hlt]

theorem pairwise_codeIndices (n : Nat) (ts : List Token) :
    (codeIndices n ts).Pairwise (· < ·) := by
  induction ts generalizing n with
  | nil => simp [codeIndices]
  | cons t ts ih =>
    simp only [codeIndices]
    split
    · refine List.pairwise_cons.2 ⟨fun i hi => ?_, ih (n + 1)⟩
      exact (mem_codeIndices.1 hi).1
    · exact ih (n + 1)

/-- Is the table of code that of the tokens? -/
def Indexed (s : Source) : Prop :=
  s.code.toList = codeIndices 0 s.tokens.toList

theorem indexed_ofString (text : String) : (ofString text).Indexed := by
  simp [Indexed, ofString, ofStream]

/-! ## Indices of positions -/

variable {s : Source} {p q i : Nat}

theorem index_of_lt (hp : p < s.code.size) : s.index p = s.code[p] := by
  simp [index, hp]

theorem index_of_size_le (hp : s.code.size ≤ p) : s.index p = s.tokens.size := by
  simp [index, hp]

theorem Indexed.mem_code (hs : s.Indexed) :
    i ∈ s.code ↔ i < s.tokens.size ∧ (s.tokenAt i).isCode = true := by
  rw [← Array.mem_toList_iff, hs, mem_codeIndices]
  by_cases hi : i < s.tokens.size <;> simp [tokenAt, hi]

theorem Indexed.index_lt_size (hs : s.Indexed) (hp : p < s.code.size) :
    s.index p < s.tokens.size := by
  rw [index_of_lt hp]
  exact (hs.mem_code.1 (Array.getElem_mem hp)).1

theorem Indexed.isCode_tokenAt_index (hs : s.Indexed) (hp : p < s.code.size) :
    (s.tokenAt (s.index p)).isCode = true := by
  rw [index_of_lt hp]
  exact (hs.mem_code.1 (Array.getElem_mem hp)).2

theorem Indexed.exists_index_eq (hs : s.Indexed) (hi : i < s.tokens.size)
    (hc : (s.tokenAt i).isCode = true) : ∃ p, p < s.code.size ∧ s.index p = i := by
  obtain ⟨p, hp, rfl⟩ := Array.mem_iff_getElem.1 (hs.mem_code.2 ⟨hi, hc⟩)
  exact ⟨p, hp, index_of_lt hp⟩

theorem Indexed.index_lt_index (hs : s.Indexed) (hpq : p < q) (hp : p < s.code.size) :
    s.index p < s.index q := by
  by_cases hq : q < s.code.size
  · have h := pairwise_codeIndices 0 s.tokens.toList
    rw [← hs, List.pairwise_iff_getElem] at h
    have hlt := h p q (by simpa using hp) (by simpa using hq) hpq
    rwa [Array.getElem_toList, Array.getElem_toList, ← index_of_lt hp, ← index_of_lt hq] at hlt
  · rw [index_of_size_le (Nat.le_of_not_lt hq)]
    exact hs.index_lt_size hp

theorem Indexed.index_le_index (hs : s.Indexed) (hpq : p ≤ q) : s.index p ≤ s.index q := by
  by_cases h : p < q ∧ p < s.code.size
  · exact Nat.le_of_lt (hs.index_lt_index h.1 h.2)
  · by_cases hp : p < s.code.size
    · obtain rfl : p = q := by omega
      exact Nat.le_refl _
    · exact Nat.le_of_eq (by rw [index_of_size_le (by omega), index_of_size_le (by omega)])

theorem Indexed.eq_of_index_eq (hs : s.Indexed) (hp : p < s.code.size) (hq : q < s.code.size)
    (h : s.index p = s.index q) : p = q := by
  rcases Nat.lt_trichotomy p q with hpq | hpq | hpq
  · exact absurd h (Nat.ne_of_lt (hs.index_lt_index hpq hp))
  · exact hpq
  · exact absurd h.symm (Nat.ne_of_lt (hs.index_lt_index hpq hq))

theorem Indexed.index_le_size (hs : s.Indexed) : s.index p ≤ s.tokens.size := by
  by_cases hp : p < s.code.size
  · exact Nat.le_of_lt (hs.index_lt_size hp)
  · exact Nat.le_of_eq (index_of_size_le (by omega))

/-- A token directly behind a code token that is no code itself stands in front of the next one. -/
theorem Indexed.add_two_le_index (hs : s.Indexed) (hp : p + 1 < s.code.size)
    (hc : (s.tokenAt (s.index p + 1)).isCode = false) : s.index p + 2 ≤ s.index (p + 1) := by
  have hlt := hs.index_lt_index (show p < p + 1 by omega) (by omega)
  have hne : s.index (p + 1) ≠ s.index p + 1 := by
    intro h
    have hcode := hs.isCode_tokenAt_index hp
    rw [h, hc] at hcode
    contradiction
  omega

/-! ## Tokens of a range -/

theorem tokenAt_of_lt (hi : i < s.tokens.size) : s.tokenAt i = s.tokens[i] := by
  simp [tokenAt, hi]

theorem mem_extract_iff {t : Token} {a b : Nat} :
    t ∈ s.tokens.extract a b ↔ ∃ i, a ≤ i ∧ i < b ∧ i < s.tokens.size ∧ s.tokenAt i = t := by
  rw [Array.mem_extract_iff_getElem]
  constructor
  · rintro ⟨n, hn, rfl⟩
    exact ⟨a + n, by omega, by omega, by omega, tokenAt_of_lt (by omega)⟩
  · rintro ⟨i, ha, hb, hi, rfl⟩
    refine ⟨i - a, by omega, ?_⟩
    rw [tokenAt_of_lt hi]
    congr 1
    omega

/-! ## Words -/

variable {receiver : String}

theorem size_ofSource : (Script.ofSource s receiver).size = s.code.size :=
  rfl

theorem word_ofSource (hp : p < s.code.size) :
    (Script.ofSource s receiver).word p = (s.codeToken p).toLexeme := by
  simp [Script.word, Script.ofSource, codeToken, index_of_lt, hp]

theorem kind_ofSource (hp : p < s.code.size) :
    (Script.ofSource s receiver).kind p = (s.codeToken p).kind := by
  rw [Script.kind, word_ofSource hp]

/-- What the grammar sees at a position is a code token, unless it is the end of the text. -/
theorem lt_size_of_kind_ne (h : (Script.ofSource s receiver).kind p ≠ .eof) : p < s.code.size := by
  have hp := Stretch.lt_size_of_kind_ne h
  rwa [size_ofSource] at hp

end Stencil.Source
