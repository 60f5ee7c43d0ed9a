import Stencil.Proofs.Token.Number

/-!
# What is behind a token

A token of any kind does not see more than two characters behind it. So another text may stand behind it
that begins with the same two characters, or none at all.

Results: in both cases the same token is found (`Scan.scan_congr`).
-/

namespace Stencil

namespace Scan

variable {body rest rest' : List Char} {c : Char} {k : Kind} {n : Nat}

/-! ## Comments -/

theorem two_le_blockCommentLength {cs : List Char} (h : blockCommentLength cs = some n) : 2 ≤ n := by
  fun_induction blockCommentLength cs generalizing n with
  | case1 => simp only [Option.some.injEq] at h; omega
  | case2 c cs _ ih =>
    obtain ⟨m, hm, rfl⟩ := Option.map_eq_some_iff.1 h
    have := ih hm
    omega
  | case3 => contradiction

theorem exists_cons_cons {cs : List Char} (h : 2 ≤ cs.length) : ∃ a b ds, cs = a :: b :: ds :=
  match cs, h with
  | a :: b :: ds, _ => ⟨a, b, ds, rfl⟩

/-- A comment that is closed does not see what is behind it. -/
theorem blockCommentLength_congr (h : blockCommentLength (body ++ rest) = some n) (hn : n ≤ body.length) :
    blockCommentLength (body ++ rest') = some n := by
  have hbody : 2 ≤ body.length := Nat.le_trans (two_le_blockCommentLength h) hn
  generalize hcs : body ++ rest = cs at h
  fun_induction blockCommentLength cs generalizing body n with
  | case1 cs =>
    cases h
    obtain ⟨a, b, body, rfl⟩ := exists_cons_cons hbody
    simp only [List.cons_append, List.cons.injEq] at hcs
    obtain ⟨rfl, rfl, -⟩ := hcs
    rfl
  | case2 c cs hopen ih =>
    obtain ⟨m, hm, rfl⟩ := Option.map_eq_some_iff.1 h
    obtain ⟨a, b, body, rfl⟩ := exists_cons_cons hbody
    rw [List.cons_append, List.cons.injEq] at hcs
    obtain ⟨rfl, hcs⟩ := hcs
    rw [List.length_cons] at hn
    have hm' := Nat.le_of_succ_le_succ hn
    have hrest := ih hm' (Nat.le_trans (two_le_blockCommentLength hm) hm') hcs hm
    rw [List.cons_append, blockCommentLength, hrest]
    · rfl
    · rintro ds rfl heq
      refine hopen (body ++ rest) rfl ?_
      rw [← hcs, List.cons_append, (List.cons.inj heq).1]
  | case3 => contradiction

theorem slash_of_ne {cs : List Char} (hslash : c ≠ '/') (hstar : c ≠ '*') (hequal : c ≠ '=') :
    slash (c :: cs) = .token .slash 0 := by
  unfold slash
  split
  · rename_i heq
    exact absurd (List.cons.inj heq).1 hslash
  · rename_i heq
    exact absurd (List.cons.inj heq).1 hstar
  · rename_i heq
    exact absurd (List.cons.inj heq).1 hequal
  · rfl

theorem slash_star {cs : List Char} (h : blockCommentLength cs = some n) : slash ('*' :: cs)
    = .token (if ['*'].isPrefixOf cs && !(['*', '/'].isPrefixOf cs) then .docComment else .blockComment)
      (1 + n) := by
  rw [slash, h]

/-- A slash on its own begins neither a comment nor a longer symbol. -/
theorem ne_of_slash_token_zero {cs : List Char} (h : slash (c :: cs) = .token k 0) :
    c ≠ '/' ∧ c ≠ '*' ∧ c ≠ '=' := by
  refine ⟨?_, ?_, ?_⟩
  · rintro rfl
    rw [slash, Finding.token_inj] at h
    omega
  · rintro rfl
    cases hlength : blockCommentLength cs with
    | none =>
      rw [slash, hlength] at h
      exact Finding.flawed_ne_token h
    | some n =>
      rw [slash_star hlength, Finding.token_inj] at h
      omega
  · rintro rfl
    rw [slash, Finding.token_inj] at h
    omega

theorem slash_congr (h : slash (body ++ rest) = .token k body.length) (ht : Trails rest' rest) :
    slash (body ++ rest') = .token k body.length := by
  cases body with
  | nil =>
    rw [List.nil_append, List.length_nil] at h ⊢
    cases rest with
    | nil =>
      obtain rfl | ⟨d, cs, cs', hrest, -, -⟩ := ht.cases
      · exact h
      · contradiction
    | cons d cs =>
      obtain ⟨hslash, hstar, hequal⟩ := ne_of_slash_token_zero h
      rw [slash_of_ne hslash hstar hequal] at h
      obtain rfl | ⟨d', ds, cs', hrest, rfl, -⟩ := ht.cases
      · exact h
      · rw [← (List.cons.inj hrest).1, slash_of_ne hslash hstar hequal]
        exact h
  | cons c body =>
    rw [List.cons_append, List.length_cons] at h ⊢
    by_cases hslash : c = '/'
    · subst hslash
      rw [slash, Finding.token_inj] at h ⊢
      rw [countWhile_congr (by omega) ht]
      exact h
    by_cases hstar : c = '*'
    · subst hstar
      cases hlength : blockCommentLength (body ++ rest) with
      | none =>
        rw [slash, hlength] at h
        exact absurd h Finding.flawed_ne_token
      | some n =>
        rw [slash_star hlength, Finding.token_inj] at h
        have hn : n = body.length := by omega
        obtain ⟨a, b, ds, rfl⟩ := exists_cons_cons (hn ▸ two_le_blockCommentLength hlength)
        rw [slash_star (blockCommentLength_congr hlength (by omega)), Finding.token_inj]
        exact h
    by_cases hequal : c = '='
    · subst hequal
      exact h
    · rw [slash_of_ne hslash hstar hequal, Finding.token_inj] at h
      omega

/-! ## Quoted literals -/

theorem one_le_quotedLength {quote : Char} {cs : List Char} (h : quotedLength quote cs = (n, true)) :
    1 ≤ n := by
  fun_induction quotedLength quote cs generalizing n <;> simp_all <;> omega

theorem eq_of_closed {length : Nat × Bool} (h : length.2 = true) : length = (length.1, true) :=
  Prod.ext rfl h

theorem quotedLength_escape {quote : Char} {cs : List Char} : quotedLength quote ('\\' :: c :: cs)
    = ((quotedLength quote cs).1 + 2, (quotedLength quote cs).2) := by
  rw [quotedLength]

theorem quotedLength_cons {quote : Char} {cs : List Char} (hc : c ≠ '\\') : quotedLength quote (c :: cs)
    = if isLineEnd c then (0, false) else if c == quote then (1, true)
      else ((quotedLength quote cs).1 + 1, (quotedLength quote cs).2) := by
  rw [quotedLength]
  exact fun _ _ heq => absurd heq hc

/-- A literal that is closed does not see what is behind it. -/
theorem quotedLength_congr {quote : Char} (hquote : quote ≠ '\\')
    (h : quotedLength quote (body ++ rest) = (n, true)) (hn : n ≤ body.length) :
    quotedLength quote (body ++ rest') = (n, true) := by
  induction hlength : body.length using Nat.strongRecOn generalizing body n with
  | ind m ih =>
    cases body with
    | nil =>
      have hone := one_le_quotedLength h
      rw [List.length_nil] at hn
      omega
    | cons c body =>
      rw [List.length_cons] at hn hlength
      rw [List.cons_append] at h ⊢
      by_cases hc : c = '\\'
      · subst hc
        cases body with
        | nil =>
          -- the backslash takes a character behind the body with it, or nothing closes the literal
          cases rest with
          | nil => simp [quotedLength, Ne.symm hquote, isLineEnd] at h
          | cons d cs =>
            rw [List.nil_append, quotedLength_escape, Prod.mk.injEq] at h
            rw [List.length_nil] at hn
            omega
        | cons d body =>
          rw [List.length_cons] at hn hlength
          rw [List.cons_append, quotedLength_escape, Prod.mk.injEq] at h
          have hrest := ih body.length (by omega) (eq_of_closed h.2) (by omega) rfl
          rw [List.cons_append, quotedLength_escape, hrest, ← h.1]
      · rw [quotedLength_cons hc] at h ⊢
        split at h
        · cases h
        · rename_i hend
          rw [if_neg hend]
          split at h
          · rename_i hclose
            rw [if_pos hclose]
            exact h
          · rename_i hopen
            rw [Prod.mk.injEq] at h
            have hrest := ih body.length (by omega) (eq_of_closed h.2) (by omega) rfl
            rw [if_neg hopen, hrest, ← h.1]

theorem quotedLiteral_congr {quote : Char} {kind : Kind} {form : String} (hquote : quote ≠ '\\')
    (h : quotedLiteral quote kind form (body ++ rest) = .token k body.length) :
    quotedLiteral quote kind form (body ++ rest') = .token k body.length := by
  unfold quotedLiteral at h
  split at h
  · rename_i n hlength
    rw [Finding.token_inj] at h
    rw [quotedLiteral, quotedLength_congr hquote hlength (Nat.le_of_eq h.2), Finding.token_inj]
    exact h
  · exact absurd h Finding.flawed_ne_token

theorem textBlockLength_escape {cs : List Char} : textBlockLength ('\\' :: c :: cs)
    = ((textBlockLength cs).1 + 2, (textBlockLength cs).2) := by
  rw [textBlockLength]

theorem textBlockLength_cons {cs : List Char} (hc : c ≠ '\\')
    (hopen : ∀ ds, c = '"' → cs ≠ '"' :: '"' :: ds) :
    textBlockLength (c :: cs) = ((textBlockLength cs).1 + 1, (textBlockLength cs).2) := by
  rw [textBlockLength]
  · exact fun ds hquote heq => hopen ds hquote heq
  · exact fun _ _ heq => absurd heq hc

/-- A text block has a last quote, and two more in front of it. -/
theorem three_le_textBlockLength {cs : List Char} (h : textBlockLength cs = (n, true)) : 3 ≤ n := by
  fun_induction textBlockLength cs generalizing n
  · cases h
  · cases h
    exact Nat.le_refl 3
  · rename_i ih
    rw [Prod.mk.injEq] at h
    obtain ⟨rfl, hclosed⟩ := h
    exact Nat.le_add_right_of_le (ih (eq_of_closed hclosed))
  · rename_i ih
    rw [Prod.mk.injEq] at h
    obtain ⟨rfl, hclosed⟩ := h
    exact Nat.le_add_right_of_le (ih (eq_of_closed hclosed))

/-- A text block that is closed does not see what is behind it. -/
theorem textBlockLength_congr (h : textBlockLength (body ++ rest) = (n, true)) (hn : n ≤ body.length) :
    textBlockLength (body ++ rest') = (n, true) := by
  induction hlength : body.length using Nat.strongRecOn generalizing body n with
  | ind m ih =>
    have hthree := three_le_textBlockLength h
    obtain ⟨c, d, ds, rfl⟩ := exists_cons_cons (show 2 ≤ body.length by omega)
    cases ds with
    | nil =>
      simp only [List.length_cons, List.length_nil] at hn
      omega
    | cons e body =>
      simp only [List.length_cons] at hn hlength
      simp only [List.cons_append] at h ⊢
      by_cases hc : c = '\\'
      · subst hc
        rw [textBlockLength_escape, Prod.mk.injEq] at h
        rw [← List.cons_append] at h
        have hrest := ih (body.length + 1) (by omega) (eq_of_closed h.2)
          (by rw [List.length_cons]; omega) rfl
        rw [textBlockLength_escape, ← List.cons_append, hrest, ← h.1]
      · by_cases hclose : c = '"' ∧ d = '"' ∧ e = '"'
        · obtain ⟨rfl, rfl, rfl⟩ := hclose
          exact h
        · have hopen {cs : List Char} : ∀ ds, c = '"' → d :: e :: cs ≠ '"' :: '"' :: ds := by
            rintro ds rfl heq
            simp only [List.cons.injEq] at heq
            exact hclose ⟨rfl, heq.1, heq.2.1⟩
          rw [textBlockLength_cons hc hopen, Prod.mk.injEq, ← List.cons_append, ← List.cons_append] at h
          have hrest := ih (body.length + 2) (by omega) (eq_of_closed h.2)
            (by simp only [List.length_cons]; omega) rfl
          rw [textBlockLength_cons hc hopen, ← List.cons_append, ← List.cons_append, hrest, ← h.1]

/-- Only two quotes behind a quote open a text block. -/
theorem doubleQuote_of_ne {cs : List Char} (h : ∀ ds, cs ≠ '"' :: '"' :: ds) :
    doubleQuote cs = quotedLiteral '"' .stringLiteral "string" cs := by
  unfold doubleQuote
  split
  · rename_i ds
    exact absurd rfl (h ds)
  · rfl

theorem doubleQuote_congr (h : doubleQuote (body ++ rest) = .token k body.length)
    (ht : Trails rest' rest) : doubleQuote (body ++ rest') = .token k body.length := by
  by_cases hblock : ∃ ds, body ++ rest = '"' :: '"' :: ds
  · obtain ⟨ds, hds⟩ := hblock
    rw [hds, doubleQuote] at h
    split at h
    · rename_i n hlength
      rw [Finding.token_inj] at h
      obtain ⟨a, b, body, rfl⟩ := exists_cons_cons (show 2 ≤ body.length by omega)
      simp only [List.cons_append, List.cons.injEq] at hds
      obtain ⟨rfl, rfl, rfl⟩ := hds
      simp only [List.length_cons] at h ⊢
      rw [List.cons_append, List.cons_append, doubleQuote,
        textBlockLength_congr hlength (by omega), Finding.token_inj]
      exact h
    · exact absurd h Finding.flawed_ne_token
  · rw [not_exists] at hblock
    rw [doubleQuote_of_ne hblock] at h
    rw [doubleQuote_of_ne, quotedLiteral_congr (by decide) h]
    exact fun ds hds => absurd (ht.pair hds) (not_exists.2 hblock)

/-! ## Names and symbols -/

theorem name_congr (h : name c (body ++ rest) = .token k body.length) (ht : Trails rest' rest) :
    name c (body ++ rest') = .token k body.length := by
  unfold name at h ⊢
  dsimp only at h ⊢
  rw [Finding.token_inj] at h
  rw [countWhile_congr (Nat.le_of_eq h.2) ht, Finding.token_inj]
  have htake {cs : List Char} : (body ++ cs).take (countWhile isNamePart (body ++ rest)) = body := by
    rw [h.2, List.take_left]
  rw [htake] at h ⊢
  exact h

theorem length_le_of_mem_symbols {e : List Char × Kind} (h : e ∈ symbols) :
    1 ≤ e.1.length ∧ e.1.length ≤ 3 := by
  have hall : symbols.all (fun e => 1 ≤ e.1.length && e.1.length ≤ 3) = true := by decide +kernel
  simpa using List.all_eq_true.1 hall e h

/-- The text in which the other one stands has no other symbols in front. -/
theorem prefix_of_trails {e : List Char} (he : e.length ≤ 3) (ht : Trails rest' rest)
    (h : e <+: c :: (body ++ rest')) : e <+: c :: (body ++ rest) := by
  rcases ht with rfl | htake | ⟨d, cs, rfl, rfl, -⟩
  · rw [List.append_nil] at h
    exact h.trans (List.prefix_append (c :: body) rest)
  · have hsame : (c :: (body ++ rest')).take 3 = (c :: (body ++ rest)).take 3 := by
      have hle : 2 - body.length ≤ 2 := Nat.sub_le 2 _
      rw [List.take_succ_cons, List.take_succ_cons, List.take_append, List.take_append,
        ← Nat.min_eq_left hle, ← List.take_take, ← List.take_take, htake]
    have hpre := List.prefix_take_iff.2 ⟨h, he⟩
    rw [hsame] at hpre
    exact hpre.trans (List.take_prefix 3 _)
  · refine h.trans ⟨cs, ?_⟩
    rw [List.cons_append, List.append_assoc, List.singleton_append]

theorem symbol_congr (h : symbol c (body ++ rest) = .token k body.length) (ht : Trails rest' rest) :
    symbol c (body ++ rest') = .token k body.length := by
  unfold symbol at h
  split at h
  · rename_i e he
    rw [Finding.token_inj] at h
    have hmem := List.mem_of_find?_eq_some he
    have hlength : e.1.length = (c :: body).length := by
      have hone := (length_le_of_mem_symbols hmem).1
      rw [List.length_cons]
      omega
    have hpre := List.find?_some he
    rw [List.isPrefixOf_iff_prefix, ← List.cons_append] at hpre
    have hsymbol : e.1 = c :: body :=
      (List.prefix_of_prefix_length_le hpre (List.prefix_append _ _) (Nat.le_of_eq hlength)).eq_of_length
        hlength
    have hfind : symbols.find? (fun s => s.1.isPrefixOf (c :: (body ++ rest'))) = some e := by
      rw [List.find?_eq_some_iff_append] at he ⊢
      obtain ⟨-, before, behind, hsplit, hnone⟩ := he
      refine ⟨?_, before, behind, hsplit, fun a ha => ?_⟩
      · rw [List.isPrefixOf_iff_prefix, hsymbol, ← List.cons_append]
        exact List.prefix_append _ _
      · have hnot := hnone a ha
        rw [Bool.not_eq_true', Bool.eq_false_iff, ne_eq, List.isPrefixOf_iff_prefix] at hnot ⊢
        refine fun hpre => hnot (prefix_of_trails ?_ ht hpre)
        exact (length_le_of_mem_symbols (hsplit ▸ List.mem_append_left _ ha)).2
    rw [symbol, hfind, Finding.token_inj]
    exact h
  · exact absurd h Finding.flawed_ne_token

/-! ## All tokens -/

/-- The same token is found if what is behind it begins with the same two characters, or if nothing is
behind it. -/
theorem scan_congr (h : scan c (body ++ rest) = .token k body.length) (ht : Trails rest' rest) :
    scan c (body ++ rest') = .token k body.length := by
  unfold scan at h ⊢
  split at h
  · rename_i hc
    rw [if_pos hc]
    rw [Finding.token_inj] at h ⊢
    rw [countWhile_congr (Nat.le_of_eq h.2) ht]
    exact h
  rename_i hc
  rw [if_neg hc]
  split at h
  · rename_i hc
    rw [if_pos hc]
    exact slash_congr h ht
  rename_i hc
  rw [if_neg hc]
  split at h
  · rename_i hc
    rw [if_pos hc]
    exact doubleQuote_congr h ht
  rename_i hc
  rw [if_neg hc]
  split at h
  · rename_i hc
    rw [if_pos hc]
    exact quotedLiteral_congr (by decide) h
  rename_i hc
  rw [if_neg hc]
  split at h
  · rename_i hdigit
    rw [if_pos hdigit]
    exact number_congr (one_le_decimalNumber hdigit) h ht
  rename_i hc
  rw [if_neg hc]
  split at h
  · rename_i hpoint
    rw [Bool.and_eq_true, beq_iff_eq] at hpoint
    obtain ⟨rfl, hnext⟩ := hpoint
    have htwo := two_le_decimalNumber hnext
    have hlength := h
    rw [number_point, Finding.token_inj] at hlength
    cases body with
    | nil =>
      rw [List.length_nil] at hlength
      omega
    | cons d body =>
      rw [List.cons_append, List.head?_cons] at hnext
      rw [List.cons_append, List.head?_cons, hnext, if_pos (by decide)]
      exact number_congr (Nat.le_trans (by decide) htwo) h ht
  rename_i hpoint
  have hpoint' : ¬(c == '.' && (body ++ rest').head?.any Unicode.isDigit) = true := by
    rw [Bool.and_eq_true, Option.any_eq_true] at hpoint ⊢
    rintro ⟨hc, d, hd, hdigit⟩
    exact hpoint ⟨hc, d, ht.head? hd, hdigit⟩
  rw [if_neg hpoint']
  split at h
  · rename_i hc
    rw [if_pos hc]
    exact name_congr h ht
  · rename_i hc
    rw [if_neg hc]
    exact symbol_congr h ht

end Scan

end Stencil
