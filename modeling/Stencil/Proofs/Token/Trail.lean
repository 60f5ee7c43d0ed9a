import Stencil.Proofs.Token.Spelling

/-!
# What a token sees behind it

Where a token ends is decided by the characters behind it, but never by more than two of them: a point
belongs to a number unless a name or another point follows it, and three points are one token.

Results: a run of characters has the same length in front of a text that begins with the same two
characters, or of one that is no point, or of none at all (`Scan.countWhile_congr`).
-/

namespace Stencil

namespace Finding

theorem token_inj {k k' : Kind} {m n : Nat} : token k m = token k' n ↔ k = k' ∧ m = n := by
  simp [token]

theorem flawed_ne_token {flaw : Flaw} {k : Kind} {m n : Nat} : flawed flaw m ≠ token k n := by
  simp [flawed, token]

end Finding

namespace Scan

variable {p : Char → Bool} {body rest rest' : List Char} {c : Char}

/-- Does the first text look like the second one to a token in front of it, or is it empty? A single
character will do, but for a point, which is taken for part of a number or not by what follows it. -/
def Trails (rest' rest : List Char) : Prop :=
  rest' = [] ∨ rest'.take 2 = rest.take 2 ∨ ∃ c cs, rest = c :: cs ∧ rest' = [c] ∧ c ≠ '.'

theorem Trails.cases (h : Trails rest' rest) :
    rest' = [] ∨ ∃ c cs cs', rest = c :: cs ∧ rest' = c :: cs'
      ∧ (cs'.head? = cs.head? ∨ cs' = [] ∧ c ≠ '.') := by
  rcases h with h | h | ⟨c, cs, rfl, rfl, hc⟩
  · exact .inl h
  · cases rest' with
    | nil => exact .inl rfl
    | cons c cs' =>
      cases rest with
      | nil => contradiction
      | cons d cs =>
        rw [List.take_succ_cons, List.take_succ_cons, List.cons.injEq] at h
        obtain ⟨rfl, htake⟩ := h
        refine .inr ⟨c, cs, cs', rfl, rfl, .inl ?_⟩
        have hhead := congrArg List.head? htake
        rwa [List.head?_take, List.head?_take, if_neg (by decide), if_neg (by decide)] at hhead
  · exact .inr ⟨c, cs, [], rfl, rfl, .inr ⟨rfl, hc⟩⟩

/-- What is empty at the beginning of one text, for its first character, is so at that of the other. -/
theorem Trails.eq_zero {f : List Char → Nat} (ht : Trails rest' rest) (h : f rest = 0) (hnil : f [] = 0)
    (hfirst : ∀ c cs cs', f (c :: cs) = 0 → f (c :: cs') = 0) : f rest' = 0 := by
  obtain rfl | ⟨c, cs, cs', rfl, rfl, -⟩ := ht.cases
  · exact hnil
  · exact hfirst c cs cs' h

theorem Trails.head? {d : Char} (ht : Trails rest' rest) (h : (body ++ rest').head? = some d) :
    (body ++ rest).head? = some d := by
  cases body with
  | nil =>
    obtain rfl | ⟨c, cs, cs', rfl, rfl, -⟩ := ht.cases
    · contradiction
    · exact h
  | cons c body => exact h

/-- A pair of characters that begins in front of the text is there too if the other text stands. -/
theorem Trails.pair {a b : Char} {ds : List Char} (ht : Trails rest' rest)
    (h : body ++ rest' = a :: b :: ds) : ∃ es, body ++ rest = a :: b :: es := by
  cases body with
  | nil =>
    rw [List.nil_append] at h
    obtain rfl | ⟨c, cs, cs', rfl, rfl, hhead | ⟨rfl, -⟩⟩ := ht.cases
    · cases h
    · cases h
      obtain ⟨es, rfl⟩ := List.head?_eq_some_iff.1 hhead.symm
      exact ⟨es, rfl⟩
    · cases h
  | cons c body =>
    cases body with
    | nil =>
      obtain rfl | ⟨d, cs, cs', rfl, rfl, -⟩ := ht.cases
      · cases h
      · cases h
        exact ⟨cs, rfl⟩
    | cons d body =>
      cases h
      exact ⟨body ++ rest, rfl⟩

/-! ## Runs of characters -/

theorem countWhile_cons {cs : List Char} :
    countWhile p (c :: cs) = if p c then 1 + countWhile p cs else 0 := by
  unfold countWhile
  by_cases hc : p c <;> simp [hc, Nat.add_comm]

/-- A run that ends where a text does is all of the text. -/
theorem all_of_countWhile (h : countWhile p (body ++ rest) = body.length) : ∀ x ∈ body, p x = true := by
  have htake : (body ++ rest).take (countWhile p (body ++ rest)) = body := by rw [h, List.take_left]
  rw [← htake]
  exact all_take_countWhile

theorem countWhile_congr (h : countWhile p (body ++ rest) ≤ body.length) (ht : Trails rest' rest) :
    countWhile p (body ++ rest') = countWhile p (body ++ rest) := by
  induction body with
  | nil =>
    rw [List.nil_append, List.length_nil, Nat.le_zero] at h
    rw [List.nil_append, List.nil_append, h]
    refine ht.eq_zero h rfl fun c cs cs' hzero => ?_
    rw [countWhile_cons] at hzero ⊢
    split at hzero
    · omega
    · rename_i hc
      rw [if_neg hc]
  | cons c body ih =>
    rw [List.cons_append, countWhile_cons, List.length_cons] at h
    rw [List.cons_append, List.cons_append, countWhile_cons, countWhile_cons]
    split
    · rename_i hc
      rw [if_pos hc] at h
      rw [ih (by omega)]
    · rfl

end Scan

end Stencil
