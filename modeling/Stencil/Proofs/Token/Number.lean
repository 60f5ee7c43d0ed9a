import Stencil.Proofs.Token.Trail

/-!
# What a number sees behind it

A number is made up of runs of digits, a fraction, an exponent and a suffix, and each of them is empty or
begins with a mark of its own.

Results: the same number is found in front of a text that begins with the same two characters
(`Scan.number_congr`).
-/

namespace Stencil

namespace Scan

variable {p : Char → Bool} {body rest rest' : List Char} {c : Char} {k : Kind} {n : Nat}
  {isFloat : Bool}

theorem exponentTail_congr (h : exponentTail (body ++ rest) ≤ body.length) (ht : Trails rest' rest) :
    exponentTail (body ++ rest') = exponentTail (body ++ rest) := by
  cases body with
  | nil =>
    rw [List.nil_append, List.length_nil, Nat.le_zero] at h
    rw [List.nil_append, List.nil_append, h]
    refine ht.eq_zero h rfl fun c cs cs' hzero => ?_
    simp only [exponentTail, countWhile_cons] at hzero ⊢
    split at hzero
    · omega
    · rename_i hsign
      rw [if_neg hsign]
      split at hzero
      · omega
      · rename_i hdigit
        rw [if_neg hdigit]
  | cons c body =>
    simp only [List.cons_append, exponentTail, List.length_cons] at h ⊢
    split
    · rename_i hsign
      rw [if_pos hsign] at h
      rw [countWhile_congr (by omega) ht]
    · rename_i hsign
      rw [if_neg hsign] at h
      rw [← List.cons_append] at h ⊢
      exact countWhile_congr h ht

theorem exponentLength_congr {marks : List Char} (h : exponentLength marks (body ++ rest) ≤ body.length)
    (ht : Trails rest' rest) :
    exponentLength marks (body ++ rest') = exponentLength marks (body ++ rest) := by
  cases body with
  | nil =>
    rw [List.nil_append, List.length_nil, Nat.le_zero] at h
    rw [List.nil_append, List.nil_append, h]
    refine ht.eq_zero h rfl fun c cs cs' hzero => ?_
    rw [exponentLength] at hzero ⊢
    split at hzero
    · omega
    · rename_i hmark
      rw [if_neg hmark]
  | cons c body =>
    simp only [List.cons_append, exponentLength, List.length_cons] at h ⊢
    split
    · rename_i hmark
      rw [if_pos hmark] at h
      rw [exponentTail_congr (by omega) ht]
    · rfl

theorem fractionLength_point {cs : List Char} : fractionLength ('.' :: cs)
    = if cs.head?.all fun c => !isNameStart c && c != '.' then 1 + countWhile isDecimalPart cs else 0 :=
  rfl

theorem fractionLength_of_ne {cs : List Char} (hc : c ≠ '.') : fractionLength (c :: cs) = 0 := by
  unfold fractionLength
  split
  · rename_i heq
    exact absurd (List.cons.inj heq).1 hc
  · rfl

/-- A number that leaves a point over ends in front of it. -/
theorem fractionLength_congr (h : fractionLength (body ++ rest) ≤ body.length) (ht : Trails rest' rest)
    (hpoint : fractionLength (body ++ rest) = 0 → body.head? ≠ some '.') :
    fractionLength (body ++ rest') = fractionLength (body ++ rest) := by
  cases body with
  | nil =>
    rw [List.nil_append, List.length_nil, Nat.le_zero] at h
    rw [List.nil_append, List.nil_append, h]
    obtain rfl | ⟨c, cs, cs', rfl, rfl, hhead⟩ := ht.cases
    · rfl
    · by_cases hc : c = '.'
      · subst hc
        rw [fractionLength_point] at h ⊢
        rw [hhead.resolve_right fun hone => hone.2 rfl]
        split at h
        · omega
        · rename_i hnot
          rw [if_neg hnot]
      · exact fractionLength_of_ne hc
  | cons c body =>
    rw [List.cons_append] at h hpoint
    rw [List.cons_append, List.cons_append]
    by_cases hc : c = '.'
    · subst hc
      rw [fractionLength_point] at h hpoint ⊢
      rw [fractionLength_point]
      split at hpoint
      · rename_i hnext
        have hnext' : ((body ++ rest').head?.all fun c => !isNameStart c && c != '.') = true := by
          cases body with
          | cons d body => exact hnext
          | nil =>
            obtain rfl | ⟨d, cs, cs', rfl, rfl, -⟩ := ht.cases
            · rfl
            · exact hnext
        rw [if_pos hnext, List.length_cons] at h
        rw [if_pos hnext, if_pos hnext', countWhile_congr (by omega) ht]
      · exact absurd rfl (hpoint rfl)
    · rw [fractionLength_of_ne hc, fractionLength_of_ne hc]

theorem hexFractionLength_of_ne {cs : List Char} (hc : c ≠ '.') : hexFractionLength (c :: cs) = 0 := by
  unfold hexFractionLength
  split
  · rename_i heq
    exact absurd (List.cons.inj heq).1 hc
  · rfl

theorem hexFractionLength_congr (h : hexFractionLength (body ++ rest) ≤ body.length)
    (ht : Trails rest' rest) : hexFractionLength (body ++ rest') = hexFractionLength (body ++ rest) := by
  cases body with
  | nil =>
    rw [List.nil_append, List.length_nil, Nat.le_zero] at h
    rw [List.nil_append, List.nil_append, h]
    refine ht.eq_zero h rfl fun c cs cs' hzero => hexFractionLength_of_ne ?_
    rintro rfl
    rw [hexFractionLength] at hzero
    omega
  | cons c body =>
    rw [List.cons_append] at h
    rw [List.cons_append, List.cons_append]
    by_cases hc : c = '.'
    · subst hc
      rw [hexFractionLength, List.length_cons] at h
      rw [hexFractionLength, hexFractionLength, countWhile_congr (by omega) ht]
    · rw [hexFractionLength_of_ne hc, hexFractionLength_of_ne hc]

theorem numberSuffix_congr (h : (numberSuffix isFloat (body ++ rest)).2 ≤ body.length)
    (ht : Trails rest' rest) :
    numberSuffix isFloat (body ++ rest') = numberSuffix isFloat (body ++ rest) := by
  cases body with
  | nil =>
    rw [List.nil_append, List.length_nil, Nat.le_zero] at h
    rw [List.nil_append, List.nil_append]
    obtain rfl | ⟨c, cs, cs', rfl, rfl, -⟩ := ht.cases
    · cases rest with
      | nil => rfl
      | cons c cs =>
        simp only [numberSuffix] at h ⊢
        split at h
        · contradiction
        · rename_i hfloat
          rw [if_neg hfloat]
          split at h
          · contradiction
          · rename_i hlong
            rw [if_neg hlong]
    · rfl
  | cons c body => rfl

theorem finishNumber_congr (hn : n ≤ body.length)
    (h : (finishNumber isFloat n (body ++ rest)).2 ≤ body.length) (ht : Trails rest' rest) :
    finishNumber isFloat n (body ++ rest') = finishNumber isFloat n (body ++ rest) := by
  simp only [finishNumber, List.drop_append_of_le_length hn] at h ⊢
  rw [numberSuffix_congr (by rw [List.length_drop]; omega) ht]

theorem le_finishNumber {cs : List Char} : n ≤ (finishNumber isFloat n cs).2 :=
  Nat.le_add_right n _

/-- The digits in front and the exponent of a number whose parts make up the text in front. -/
theorem whole_and_exponent_congr {marks : List Char} {whole fraction exponent : Nat}
    (hwhole : countWhile p (body ++ rest) = whole)
    (hexponent : exponentLength marks (body.drop (whole + fraction) ++ rest) = exponent)
    (hparts : whole + fraction + exponent ≤ body.length) (ht : Trails rest' rest) :
    countWhile p (body ++ rest') = whole
      ∧ exponentLength marks ((body ++ rest').drop (whole + fraction)) = exponent := by
  constructor
  · rw [countWhile_congr (by omega) ht, hwhole]
  · rw [List.drop_append_of_le_length (by omega), exponentLength_congr ?_ ht, hexponent]
    rw [hexponent, List.length_drop]
    omega

theorem decimalNumber_congr (h : (decimalNumber (body ++ rest)).2 = body.length) (ht : Trails rest' rest) :
    decimalNumber (body ++ rest') = decimalNumber (body ++ rest) := by
  unfold decimalNumber at h ⊢
  dsimp only at h ⊢
  generalize hwhole : countWhile isDecimalPart (body ++ rest) = whole at h
  generalize hfraction : fractionLength ((body ++ rest).drop whole) = fraction at h
  generalize hexponent : exponentLength ['e', 'E'] ((body ++ rest).drop (whole + fraction)) = exponent at h
  have hparts := Nat.le_trans le_finishNumber (Nat.le_of_eq h)
  rw [List.drop_append_of_le_length (by omega)] at hfraction hexponent
  obtain ⟨hwhole', hexponent'⟩ := whole_and_exponent_congr hwhole hexponent hparts ht
  have hfraction' : fractionLength ((body ++ rest').drop whole) = fraction := by
    rw [List.drop_append_of_le_length (by omega), fractionLength_congr ?_ ht ?_, hfraction]
    · rw [hfraction, List.length_drop]
      omega
    · -- neither an exponent nor a suffix begins with a point
      intro hzero hhead
      obtain ⟨more, hmore⟩ := List.head?_eq_some_iff.1 hhead
      obtain rfl : fraction = 0 := by rw [← hfraction, hzero]
      rw [Nat.add_zero, hmore] at hexponent
      obtain rfl : exponent = 0 := hexponent.symm
      simp only [finishNumber, Nat.add_zero] at h
      rw [List.drop_append_of_le_length (by omega), hmore] at h
      have hlength := congrArg List.length hmore
      rw [List.length_drop, List.length_cons, ← h] at hlength
      simp [numberSuffix] at hlength
  rw [hwhole', hfraction', hexponent']
  exact finishNumber_congr hparts (Nat.le_of_eq h) ht

theorem hexNumber_congr (h : hexNumber (body ++ rest) = .token k (1 + body.length))
    (ht : Trails rest' rest) : hexNumber (body ++ rest') = .token k (1 + body.length) := by
  unfold hexNumber at h ⊢
  dsimp only at h ⊢
  generalize hwhole : countWhile isHexPart (body ++ rest) = whole at h
  generalize hfraction : hexFractionLength ((body ++ rest).drop whole) = fraction at h
  generalize hexponent : exponentLength ['p', 'P'] ((body ++ rest).drop (whole + fraction)) = exponent at h
  split at h
  · exact absurd h Finding.flawed_ne_token
  · rename_i hsome
    rw [Finding.token_inj] at h
    have hlength : (finishNumber (fraction != 0 || exponent != 0) (whole + fraction + exponent)
        (body ++ rest)).2 = body.length := by omega
    have hparts := Nat.le_trans le_finishNumber (Nat.le_of_eq hlength)
    rw [List.drop_append_of_le_length (by omega)] at hfraction hexponent
    obtain ⟨hwhole', hexponent'⟩ := whole_and_exponent_congr hwhole hexponent hparts ht
    have hfraction' : hexFractionLength ((body ++ rest').drop whole) = fraction := by
      rw [List.drop_append_of_le_length (by omega), hexFractionLength_congr ?_ ht, hfraction]
      rw [hfraction, List.length_drop]
      omega
    rw [hwhole', hfraction', hexponent', if_neg hsome,
      finishNumber_congr hparts (Nat.le_of_eq hlength) ht, Finding.token_inj]
    exact h

theorem binaryNumber_congr (h : binaryNumber (body ++ rest) = .token k (1 + body.length))
    (ht : Trails rest' rest) : binaryNumber (body ++ rest') = .token k (1 + body.length) := by
  unfold binaryNumber at h ⊢
  dsimp only at h ⊢
  generalize hwhole : countWhile isBinaryPart (body ++ rest) = whole at h
  split at h
  · exact absurd h Finding.flawed_ne_token
  · rename_i hsome
    rw [Finding.token_inj] at h
    have hlength : (finishNumber false whole (body ++ rest)).2 = body.length := by omega
    have hparts := Nat.le_trans le_finishNumber (Nat.le_of_eq hlength)
    have hwhole' : countWhile isBinaryPart (body ++ rest') = whole := by
      rw [countWhile_congr (by omega) ht, hwhole]
    rw [hwhole', if_neg hsome, finishNumber_congr hparts (Nat.le_of_eq hlength) ht, Finding.token_inj]
    exact h

theorem not_isNameStart_of_isDigit (h : Unicode.isDigit c = true) : isNameStart c = false := by
  have hrange : 48 ≤ c.toNat ∧ c.toNat ≤ 57 := by
    simp only [Unicode.isDigit, Bool.and_eq_true, decide_eq_true_eq, Char.le_def,
      UInt32.le_iff_toNat_le] at h
    exact h
  have hletter : Unicode.isAsciiLetter c = false := by
    rw [Bool.eq_false_iff]
    intro hletter
    simp only [Unicode.isAsciiLetter, Bool.or_eq_true, Bool.and_eq_true, decide_eq_true_eq, Char.le_def,
      UInt32.le_iff_toNat_le] at hletter
    change 97 ≤ c.toNat ∧ c.toNat ≤ 122 ∨ 65 ≤ c.toNat ∧ c.toNat ≤ 90 at hletter
    omega
  have hne : c ≠ '_' ∧ c ≠ '$' := by
    constructor
    · rintro rfl
      exact absurd h (by decide)
    · rintro rfl
      exact absurd h (by decide)
  rw [isNameStart, Unicode.isAlphabetic, if_pos (by omega), hletter]
  simp [hne]

/-- A digit is a number. -/
theorem one_le_decimalNumber {cs : List Char} (h : Unicode.isDigit c = true) :
    1 ≤ (decimalNumber (c :: cs)).2 := by
  unfold decimalNumber
  refine Nat.le_trans ?_ le_finishNumber
  rw [countWhile_cons, isDecimalPart, h, Bool.true_or, if_pos rfl]
  omega

/-- A point with a digit behind it is a number. -/
theorem two_le_decimalNumber {cs : List Char} (h : cs.head?.any Unicode.isDigit = true) :
    2 ≤ (decimalNumber ('.' :: cs)).2 := by
  obtain ⟨d, hd, hdigit⟩ := (Option.any_eq_true _ _).1 h
  obtain ⟨ds, rfl⟩ := List.head?_eq_some_iff.1 hd
  unfold decimalNumber
  refine Nat.le_trans ?_ le_finishNumber
  rw [countWhile_cons, if_neg (by decide), List.drop_zero, fractionLength_point, if_pos ?_,
    countWhile_cons, isDecimalPart, hdigit, Bool.true_or, if_pos rfl]
  · omega
  · have hpoint : d ≠ '.' := by
      rintro rfl
      exact absurd hdigit (by decide)
    rw [hd, Option.all_some, not_isNameStart_of_isDigit hdigit]
    simpa using hpoint

theorem number_cons {mark : Char} {cs : List Char} : number c (mark :: cs)
    = if c == '0' && (mark == 'x' || mark == 'X') then hexNumber cs
      else if c == '0' && (mark == 'b' || mark == 'B') then binaryNumber cs
      else .token (decimalNumber (c :: mark :: cs)).1 ((decimalNumber (c :: mark :: cs)).2 - 1) :=
  rfl

theorem hexNumber_ne_token_zero {cs : List Char} : hexNumber cs ≠ .token k 0 := by
  unfold hexNumber
  dsimp only
  split
  · exact Finding.flawed_ne_token
  · rw [ne_eq, Finding.token_inj]
    omega

theorem binaryNumber_ne_token_zero {cs : List Char} : binaryNumber cs ≠ .token k 0 := by
  unfold binaryNumber
  dsimp only
  split
  · exact Finding.flawed_ne_token
  · rw [ne_eq, Finding.token_inj]
    omega

theorem number_point {cs : List Char} :
    number '.' cs = .token (decimalNumber ('.' :: cs)).1 ((decimalNumber ('.' :: cs)).2 - 1) := by
  cases cs <;> rfl

/-- A number that ends in front of a character does not take it for the mark of another base. -/
theorem number_cons_of_token_zero {mark : Char} {cs : List Char} (h : number c (mark :: cs) = .token k 0)
    (ds : List Char) : number c (mark :: ds)
      = .token (decimalNumber (c :: mark :: ds)).1 ((decimalNumber (c :: mark :: ds)).2 - 1) := by
  rw [number_cons] at h ⊢
  split at h
  · exact absurd h hexNumber_ne_token_zero
  · rename_i hx
    rw [if_neg hx]
    split at h
    · exact absurd h binaryNumber_ne_token_zero
    · rename_i hb
      rw [if_neg hb]

theorem decimalToken_congr (hpos : 1 ≤ (decimalNumber (c :: (body ++ rest))).2)
    (h : Finding.token (decimalNumber (c :: (body ++ rest))).1
      ((decimalNumber (c :: (body ++ rest))).2 - 1) = .token k body.length) (ht : Trails rest' rest) :
    Finding.token (decimalNumber (c :: (body ++ rest'))).1
      ((decimalNumber (c :: (body ++ rest'))).2 - 1) = .token k body.length := by
  rw [← h]
  rw [Finding.token_inj] at h
  have hsame : decimalNumber (c :: body ++ rest') = decimalNumber (c :: body ++ rest) := by
    refine decimalNumber_congr ?_ ht
    rw [List.length_cons, List.cons_append]
    omega
  rw [← List.cons_append, hsame]
  rfl

theorem number_congr (hpos : 1 ≤ (decimalNumber (c :: (body ++ rest))).2)
    (h : number c (body ++ rest) = .token k body.length) (ht : Trails rest' rest) :
    number c (body ++ rest') = .token k body.length := by
  cases body with
  | nil =>
    have hdecimal : Finding.token (decimalNumber (c :: ([] ++ rest))).1
        ((decimalNumber (c :: ([] ++ rest))).2 - 1) = .token k ([] : List Char).length := by
      rw [← h]
      cases rest with
      | nil => rfl
      | cons mark cs => exact (number_cons_of_token_zero h cs).symm
    have hother := decimalToken_congr hpos hdecimal ht
    obtain rfl | ⟨mark, cs, cs', rfl, rfl, -⟩ := ht.cases
    · exact hother
    · rw [List.nil_append, number_cons_of_token_zero h cs']
      exact hother
  | cons mark body =>
    rw [List.cons_append, number_cons] at h
    rw [List.cons_append, number_cons]
    rw [List.length_cons, Nat.add_comm] at h ⊢
    split
    · rename_i hx
      rw [if_pos hx] at h
      exact hexNumber_congr h ht
    · rename_i hx
      rw [if_neg hx] at h
      split
      · rename_i hb
        rw [if_pos hb] at h
        exact binaryNumber_congr h ht
      · rename_i hb
        rw [if_neg hb] at h
        rw [Nat.add_comm, ← List.length_cons (a := mark), ← List.cons_append] at h ⊢
        exact decimalToken_congr hpos h ht

end Scan

end Stencil
