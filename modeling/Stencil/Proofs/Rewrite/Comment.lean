import Stencil.Proofs.Rewrite.Name
import Stencil.Rewrite.Comment

/-!
# Placeholders in rewritten comments

A comment is rewritten from the left to the right. Where a bound placeholder stands a word is
written, and a character is copied only where none stands. A placeholder that is apart from the
words cannot come about between the two. If the bound placeholders have names, each step shortens the
text that is left, so there are no more steps than characters.

Results: the steps over a text can be counted (`commentLoop_eq`), so the loop ends on every comment
(`endsComments_of_isNamed`), a comment in which no bound
placeholder occurs stays as it is (`rewriteComment_of_not_mentions`), and a bound placeholder does not
occur in a rewritten comment (`not_mentions_rewriteComment`).
-/

namespace Stencil.Rewrite

variable {v : Vocabulary} {b : Binding} {p : Placeholder} {t : ConcreteType}
variable {out rest text word : List Char} {n : Nat}

/-- Has every placeholder with a type a name? -/
def IsNamed (v : Vocabulary) (b : Binding) : Prop :=
  ∀ p, (b.resolve p).isSome = true → v.name p ≠ ""

theorem isNamed_of_isPlain (hv : v.isPlain = true) : IsNamed v b :=
  fun p _ => Vocabulary.name_ne_empty hv p

/-- Is the text a word that is written for a placeholder? -/
def IsWord (word : List Char) : Prop :=
  ∃ t : ConcreteType, word = t.boxedName.toList ∨ word = t.typeName.toList

theorem isWord_wordBefore (t : ConcreteType) (rest : List Char) : IsWord (wordBefore t rest).toList := by
  refine ⟨t, ?_⟩
  rw [wordBefore]
  split
  · exact .inl rfl
  · exact .inr rfl

/-! ## Steps -/

/-- The placeholder that is found is in front of the text. -/
theorem exists_of_leadingPlaceholder? (h : leadingPlaceholder? v b text = some (t, rest)) :
    ∃ p, b.resolve p = some t ∧ text = (v.name p).toList ++ rest := by
  obtain ⟨p, -, hp⟩ := List.exists_of_findSome?_eq_some h
  dsimp only at hp
  split at hp
  · rename_i t' ht
    split at hp
    · rename_i hpre
      cases hp
      obtain ⟨more, rfl⟩ := List.isPrefixOf_iff_prefix.1 hpre
      exact ⟨p, ht, by rw [List.drop_left]⟩
    · contradiction
  · contradiction

/-- Where no bound placeholder is found none stands. -/
theorem not_prefix_of_leadingPlaceholder? (ht : b.resolve p = some t)
    (h : leadingPlaceholder? v b text = none) : ¬(v.name p).toList <+: text := by
  intro hpre
  have hp := List.findSome?_eq_none_iff.1 h p (by cases p <;> decide)
  rw [← List.isPrefixOf_iff_prefix] at hpre
  simp [ht, hpre] at hp

theorem leadingPlaceholder?_eq_none
    (h : ∀ p, (b.resolve p).isSome = true → ¬(v.name p).toList <+: text) :
    leadingPlaceholder? v b text = none := by
  refine List.findSome?_eq_none_iff.2 fun p _ => ?_
  dsimp only
  split
  · rename_i t ht
    rw [if_neg]
    rw [List.isPrefixOf_iff_prefix]
    exact h p (ht ▸ rfl)
  · rfl

/-- A bound placeholder in front is found, unless the primary one is found before it. -/
theorem leadingPlaceholder?_append (ht : b.resolve p = some t)
    (hfirst : p = .primary ∨ ¬(v.name .primary).toList <+: (v.name p).toList ++ rest) :
    leadingPlaceholder? v b ((v.name p).toList ++ rest) = some (t, rest) := by
  cases p with
  | primary => simp [leadingPlaceholder?, Placeholder.both, ht]
  | secondary =>
    have hnot := hfirst.resolve_left Placeholder.noConfusion
    have hprimary : b.resolve .primary = some b.primary := rfl
    simp [leadingPlaceholder?, Placeholder.both, ht, hprimary, hnot]

theorem commentStep_of_found (hne : text ≠ []) (h : leadingPlaceholder? v b text = some (t, rest)) :
    commentStep v b text = some ((wordBefore t rest).toList, rest) := by
  cases text with
  | nil => contradiction
  | cons c cs => rw [commentStep, h]

/-- A step writes a word for a placeholder in front of the text, or it copies a character where no
bound placeholder stands. -/
theorem commentStep_cases (h : commentStep v b text = some (out, rest)) :
    (∃ p t, b.resolve p = some t ∧ text = (v.name p).toList ++ rest ∧ out = (wordBefore t rest).toList)
      ∨ ∃ c, text = c :: rest ∧ out = [c] ∧ leadingPlaceholder? v b text = none := by
  cases text with
  | nil => contradiction
  | cons c cs =>
    simp only [commentStep] at h
    split at h
    · rename_i t rest' hlead
      cases h
      obtain ⟨p, ht, htext⟩ := exists_of_leadingPlaceholder? hlead
      exact .inl ⟨p, t, ht, htext, rfl⟩
    · rename_i hlead
      cases h
      exact .inr ⟨c, rfl, rfl, hlead⟩

theorem commentStep_eq_none_iff : commentStep v b text = none ↔ text = [] := by
  cases text with
  | nil => simp [commentStep]
  | cons c cs =>
    simp only [commentStep, reduceCtorEq, iff_false]
    split <;> simp

theorem length_lt_of_commentStep (hv : IsNamed v b) (h : commentStep v b text = some (out, rest)) :
    rest.length < text.length := by
  rcases commentStep_cases h with ⟨p, t, ht, rfl, -⟩ | ⟨c, rfl, -, -⟩
  · have hne : (v.name p).toList ≠ [] := by simpa using hv p (ht ▸ rfl)
    have hpos := List.length_pos_iff.2 hne
    rw [List.length_append]
    omega
  · exact Nat.lt_succ_self _

/-! ## Counted steps -/

/-- What at most so many steps write. -/
def commentSteps (v : Vocabulary) (b : Binding) : Nat → List Char → List Char
  | 0, _ => []
  | n + 1, text =>
    match commentStep v b text with
    | none => []
    | some (out, rest) => out ++ commentSteps v b n rest

/-- What is written in the end has been written by some number of steps. -/
theorem exists_of_commentLoop {out result : String} (h : v.commentLoop b out text = some result) :
    ∃ n, result.toList = out.toList ++ commentSteps v b n text := by
  refine Vocabulary.commentLoop.partial_correctness v b
    (fun out text result => ∃ n, result.toList = out.toList ++ commentSteps v b n text)
    (fun loop ih out text result h => ?_) out text result h
  split at h
  · cases h
    exact ⟨0, by simp [commentSteps]⟩
  · rename_i word rest hstep
    obtain ⟨n, hn⟩ := ih _ _ _ h
    refine ⟨n + 1, ?_⟩
    rw [hn, commentSteps, hstep, String.toList_append, String.toList_ofList, List.append_assoc]

/-- If the placeholders have names there are no more steps than characters. -/
theorem commentLoop_eq {out : String} (hv : IsNamed v b) (hn : text.length ≤ n) :
    v.commentLoop b out text = some (out ++ String.ofList (commentSteps v b n text)) := by
  induction n generalizing out text with
  | zero =>
    rw [Nat.le_zero, List.length_eq_zero_iff] at hn
    subst hn
    rw [Vocabulary.commentLoop]
    simp [commentStep, commentSteps]
  | succ n ih =>
    rw [Vocabulary.commentLoop, commentSteps]
    cases hstep : commentStep v b text with
    | none => simp
    | some step =>
      obtain ⟨word, rest⟩ := step
      have hshorter := length_lt_of_commentStep hv hstep
      dsimp only
      rw [ih (by omega), String.ofList_append, String.append_assoc]

theorem toList_rewriteComment {text : String} (hv : IsNamed v b) :
    (rewriteComment v b text).toList = commentSteps v b text.toList.length text.toList := by
  rw [rewriteComment, commentRounds_eq, commentLoop_eq hv (Nat.le_refl _), Option.getD_some, String.empty_append,
    String.toList_ofList]

/-- Does the loop over every comment end, with what is written for the comment? -/
def EndsComments (v : Vocabulary) (b : Binding) : Prop :=
  ∀ text : String, v.commentLoop b "" text.toList = some (rewriteComment v b text)

theorem endsComments_of_isNamed (hv : IsNamed v b) : EndsComments v b := by
  intro text
  have hloop : v.commentLoop b "" text.toList = _ := commentLoop_eq hv (Nat.le_refl _)
  rw [rewriteComment, commentRounds_eq, hloop, Option.getD_some]

/-! ## Texts without placeholders -/

/-- A text in which no bound placeholder occurs is passed character by character. -/
theorem commentSteps_of_not_occursIn
    (h : ∀ p, (b.resolve p).isSome = true → Text.occursIn (v.name p).toList text = false) :
    commentSteps v b text.length text = text := by
  induction text with
  | nil => rfl
  | cons c cs ih =>
    have hname (p : Placeholder) (hp : (b.resolve p).isSome = true) := Bool.or_eq_false_iff.1 (h p hp)
    have hlead : leadingPlaceholder? v b (c :: cs) = none := by
      refine leadingPlaceholder?_eq_none fun p hp => ?_
      rw [← List.isPrefixOf_iff_prefix, (hname p hp).1]
      exact Bool.false_ne_true
    rw [List.length_cons, commentSteps, commentStep_of_not_found hlead]
    exact congrArg (c :: ·) (ih fun p hp => (hname p hp).2)

/-- A comment that mentions no bound placeholder stays as it is. -/
theorem rewriteComment_of_not_mentions {text : String}
    (h : ∀ p, (b.resolve p).isSome = true → v.mentions text p = false) :
    rewriteComment v b text = text := by
  have hv : IsNamed v b := by
    intro p hp hempty
    have hne := Text.isEmpty_eq_false_of_not_occurs (h p hp)
    simp [hempty] at hne
  rw [← String.toList_inj, toList_rewriteComment hv]
  exact commentSteps_of_not_occursIn h

theorem rewriteComment_of_not_mentionsAny {text : String} (h : v.mentionsAny text = false) :
    rewriteComment v b text = text := by
  refine rewriteComment_of_not_mentions fun p _ => Bool.eq_false_iff.2 fun hp => ?_
  exact Bool.false_ne_true (h.symm.trans (List.any_eq_true.2 ⟨p, by cases p <;> decide, hp⟩))

/-! ## Placeholders that are apart from the words -/

/-- Where no word begins, characters have been copied. -/
theorem prefix_of_prefix_commentSteps {q : List Char}
    (hq : ∀ word, IsWord word → ∃ c cs, word = c :: cs ∧ c ∉ q)
    (h : q <+: commentSteps v b n text) : q <+: text := by
  induction n generalizing q text with
  | zero =>
    rw [commentSteps, List.prefix_nil] at h
    exact h ▸ List.nil_prefix
  | succ n ih =>
    cases q with
    | nil => exact List.nil_prefix
    | cons x q =>
      rw [commentSteps] at h
      split at h
      · simp at h
      · rename_i out rest hstep
        rcases commentStep_cases hstep with ⟨-, t, -, -, rfl⟩ | ⟨c, rfl, rfl, -⟩
        · obtain ⟨c, cs, hword, hc⟩ := hq _ (isWord_wordBefore t rest)
          rw [hword, List.cons_append, List.cons_prefix_cons] at h
          exact absurd (h.1 ▸ List.mem_cons_self) hc
        · rw [List.singleton_append, List.cons_prefix_cons] at h
          refine List.cons_prefix_cons.2 ⟨h.1, ih (fun word hword => ?_) h.2⟩
          obtain ⟨d, ds, hd, hmem⟩ := hq word hword
          exact ⟨d, ds, hd, fun hin => hmem (List.mem_cons_of_mem x hin)⟩

theorem not_occursIn_commentSteps (ht : b.resolve p = some t)
    (hw : ∀ word, IsWord word → Text.isApart (v.name p).toList word = true) :
    Text.occursIn (v.name p).toList (commentSteps v b n text) = false := by
  obtain ⟨a, as, -, -, hname, -⟩ := Text.isApart_iff.1 (hw _ ⟨.generic, .inl rfl⟩)
  have hwords (word : List Char) (h : IsWord word) : ∃ c cs, word = c :: cs ∧ a ∉ c :: cs ∧ c ∉ as := by
    obtain ⟨a', as', c, cs, hname', hword, ha, hc⟩ := Text.isApart_iff.1 (hw word h)
    obtain ⟨rfl, rfl⟩ := List.cons.inj (hname.symm.trans hname')
    exact ⟨c, cs, hword, ha, hc⟩
  induction n generalizing text with
  | zero => simp [commentSteps, Text.occursIn, hname]
  | succ n ih =>
    rw [commentSteps]
    split
    · simp [Text.occursIn, hname]
    · rename_i out rest hstep
      rcases commentStep_cases hstep with ⟨-, t, -, -, rfl⟩ | ⟨c, rfl, rfl, hlead⟩
      · obtain ⟨c, cs, hword, ha, -⟩ := hwords _ (isWord_wordBefore t rest)
        rw [hword, hname, Text.occursIn_append_of_notMem ha, ← hname]
        exact ih
      · rw [List.singleton_append, Text.occursIn, ih, Bool.or_false, ← Bool.not_eq_true,
          List.isPrefixOf_iff_prefix, hname, List.cons_prefix_cons]
        rintro ⟨rfl, hpre⟩
        refine not_prefix_of_leadingPlaceholder? ht hlead ?_
        rw [hname]
        refine List.cons_prefix_cons.2 ⟨rfl, prefix_of_prefix_commentSteps (fun word h => ?_) hpre⟩
        obtain ⟨d, ds, hd, -, hmem⟩ := hwords word h
        exact ⟨d, ds, hd, hmem⟩

theorem not_mentions_rewriteComment {text : String} (ht : b.resolve p = some t)
    (hw : ∀ word, IsWord word → Text.isApart (v.name p).toList word = true) :
    v.mentions (rewriteComment v b text) p = false := by
  rw [Vocabulary.mentions, Text.mentions, rewriteComment, commentRounds_eq]
  cases hloop : v.commentLoop b "" text.toList with
  | none =>
    obtain ⟨a, as, -, -, hname, -⟩ := Text.isApart_iff.1 (hw _ ⟨.generic, .inl rfl⟩)
    simp [Text.occursIn, hname]
  | some result =>
    obtain ⟨n, hn⟩ := exists_of_commentLoop hloop
    rw [Option.getD_some, hn]
    exact not_occursIn_commentSteps ht hw

theorem isApart_of_isWord (p : Placeholder) {word : List Char} (h : IsWord word) :
    Text.isApart (({} : Vocabulary).name p).toList word = true := by
  obtain ⟨t, rfl | rfl⟩ := h <;> cases p <;> cases t <;> decide

end Stencil.Rewrite
