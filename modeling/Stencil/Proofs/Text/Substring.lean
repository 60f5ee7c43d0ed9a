import Stencil.Text.Substring

/-!
# Occurrences after an exchange

Which names occur in a text after the occurrences of a name have been exchanged for a word. A name
whose first character is not in the word can only begin outside of the words that were put in, and a
name that does not hold the word's first character cannot go on into one.

Results: an exchange leaves no occurrence of the exchanged name (`not_occursIn_replaceFrom`), makes
no occurrence of another one (`occursIn_of_occursIn_replaceFrom`), and keeps the occurrences of a
name that cannot overlap with it (`occursIn_replaceFrom`). It puts in no other characters than those
of the word (`mem_of_mem_replaceChars`), and reaches across no character that is not in the name
(`replaceFrom_append_cons`).
-/

namespace Stencil.Text

variable {pattern new text xs ys : List Char} {a n : Char} {as ns : List Char} {k : Nat}

/-! ## Occurrences -/

theorem occursIn_iff : occursIn pattern text = true ↔ pattern <:+: text := by
  induction text with
  | nil => simp [occursIn]
  | cons c cs ih => simp [occursIn, ih, List.infix_cons_iff]

theorem occursIn_append_right (h : occursIn pattern ys = true) :
    occursIn pattern (xs ++ ys) = true :=
  occursIn_iff.2 ((occursIn_iff.1 h).trans (List.suffix_append xs ys).isInfix)

theorem occursIn_cons {c : Char} (h : occursIn pattern ys = true) :
    occursIn pattern (c :: ys) = true := by
  rw [occursIn, h, Bool.or_true]

/-- A name does not begin in a text that does not hold its first character. -/
theorem occursIn_append_of_notMem (ha : a ∉ xs) :
    occursIn (a :: as) (xs ++ ys) = occursIn (a :: as) ys := by
  induction xs with
  | nil => rfl
  | cons x xs ih =>
    rw [List.mem_cons, not_or] at ha
    simp [occursIn, ih ha.2, ha.1]

theorem not_occursIn_of_notMem (ha : a ∉ text) : occursIn (a :: as) text = false := by
  have h : occursIn (a :: as) (text ++ []) = occursIn (a :: as) [] := occursIn_append_of_notMem ha
  simpa [occursIn] using h

/-! ## Exchanges -/

/-- Where the word's first character does not stand in a beginning of the new text, nothing has been
exchanged. -/
theorem prefix_of_prefix_replaceFrom {q : List Char} (hn : n ∉ q)
    (h : q <+: replaceFrom pattern (n :: ns) 0 text) : q <+: text := by
  induction text generalizing q with
  | nil => simpa [replaceFrom] using h
  | cons c cs ih =>
    cases q with
    | nil => exact List.nil_prefix
    | cons x q =>
      rw [List.mem_cons, not_or] at hn
      simp only [replaceFrom] at h
      split at h
      · rw [List.cons_append, List.cons_prefix_cons] at h
        exact absurd h.1.symm hn.1
      · rw [List.cons_prefix_cons] at h ⊢
        exact ⟨h.1, ih hn.2 h.2⟩

/-- A beginning of the text that the exchanged name cannot begin in stays. -/
theorem prefix_replaceFrom {q : List Char} (ha : a ∉ q) (h : q <+: text) :
    q <+: replaceFrom (a :: as) new 0 text := by
  induction text generalizing q with
  | nil => simpa [replaceFrom] using h
  | cons c cs ih =>
    cases q with
    | nil => exact List.nil_prefix
    | cons x q =>
      rw [List.mem_cons, not_or] at ha
      rw [List.cons_prefix_cons] at h
      have hac : (a == c) = false := by simpa [← h.1] using ha.1
      simp only [replaceFrom, List.isPrefixOf, hac, Bool.false_and, Bool.false_eq_true, if_false]
      exact List.cons_prefix_cons.2 ⟨h.1, ih ha.2 h.2⟩

theorem occursIn_of_occursIn_replaceFrom (ha : a ∉ n :: ns) (hn : n ∉ as)
    (h : occursIn (a :: as) (replaceFrom pattern (n :: ns) k text) = true) :
    occursIn (a :: as) text = true := by
  induction text generalizing k with
  | nil => cases k <;> simpa [replaceFrom] using h
  | cons c cs ih =>
    cases k with
    | succ k => exact occursIn_cons (ih h)
    | zero =>
      simp only [replaceFrom] at h
      split at h
      · rw [occursIn_append_of_notMem ha] at h
        exact occursIn_cons (ih h)
      · simp only [occursIn, Bool.or_eq_true, List.isPrefixOf_iff_prefix, List.cons_prefix_cons] at h ⊢
        exact h.imp (fun h => ⟨h.1, prefix_of_prefix_replaceFrom hn h.2⟩) ih

theorem not_occursIn_replaceFrom (ha : a ∉ n :: ns) (hn : n ∉ as) :
    occursIn (a :: as) (replaceFrom (a :: as) (n :: ns) k text) = false := by
  induction text generalizing k with
  | nil => cases k <;> simp [replaceFrom, occursIn]
  | cons c cs ih =>
    cases k with
    | succ k => exact ih
    | zero =>
      simp only [replaceFrom]
      split
      · rw [occursIn_append_of_notMem ha, ih]
      · rename_i hc
        rw [List.isPrefixOf_iff_prefix, List.cons_prefix_cons] at hc
        simp only [occursIn, ih, Bool.or_false]
        rw [← Bool.not_eq_true, List.isPrefixOf_iff_prefix, List.cons_prefix_cons]
        exact fun h => hc ⟨h.1, prefix_of_prefix_replaceFrom hn h.2⟩

/-- Names that do not hold each other's first characters do not overlap. -/
theorem occursIn_replaceFrom {b : Char} {bs : List Char} (hab : a ∉ b :: bs) (hba : b ∉ a :: as)
    (h : occursIn (b :: bs) (text.drop k) = true) :
    occursIn (b :: bs) (replaceFrom (a :: as) new k text) = true := by
  induction text generalizing k with
  | nil => simp [occursIn] at h
  | cons c cs ih =>
    cases k with
    | succ k => exact ih (by simpa using h)
    | zero =>
      simp only [replaceFrom]
      split
      · rename_i hp
        rw [List.isPrefixOf_iff_prefix] at hp
        obtain ⟨rest, hrest⟩ := hp
        refine occursIn_append_right (ih ?_)
        rw [List.drop_zero, ← hrest, occursIn_append_of_notMem hba] at h
        have hcs : cs = as ++ rest := by simpa using (List.cons_eq_cons.1 hrest.symm).2
        simpa [hcs] using h
      · simp only [List.drop_zero, occursIn, Bool.or_eq_true, List.isPrefixOf_iff_prefix,
          List.cons_prefix_cons] at h ⊢
        refine h.imp (fun h => ⟨h.1, prefix_replaceFrom ?_ h.2⟩) fun h => ih (by simpa using h)
        exact fun ha => hab (List.mem_cons_of_mem b ha)

/-! ## Texts with a character between them -/

/-- A name without a character ends before this character. -/
theorem prefix_append_cons_iff {c : Char} (hc : c ∉ pattern) :
    pattern <+: xs ++ c :: ys ↔ pattern <+: xs := by
  constructor
  · intro h
    have hfront : xs ++ [c] <+: xs ++ c :: ys := ⟨ys, by simp⟩
    rcases List.prefix_or_prefix_of_prefix h hfront with hp | hp
    · rcases List.prefix_concat_iff.1 hp with rfl | hp
      · exact absurd (List.mem_append_right xs (List.mem_singleton_self c)) hc
      · exact hp
    · exact absurd (hp.subset (List.mem_append_right xs (List.mem_singleton_self c))) hc
  · exact fun h => h.trans (List.prefix_append xs (c :: ys))

/-- A name without a character is exchanged on each side of this character on its own. -/
theorem replaceFrom_append_cons {c : Char} (hc : c ∉ pattern) (hne : pattern ≠ [])
    (hk : k ≤ xs.length) :
    replaceFrom pattern new k (xs ++ c :: ys)
      = replaceFrom pattern new k xs ++ c :: replaceFrom pattern new 0 ys := by
  induction xs generalizing k with
  | nil =>
    obtain rfl : k = 0 := Nat.le_zero.1 hk
    have hnot : ¬pattern.isPrefixOf (c :: ys) = true := by
      rw [List.isPrefixOf_iff_prefix]
      intro h
      rw [← List.nil_append (c :: ys), prefix_append_cons_iff hc] at h
      exact hne (List.prefix_nil.1 h)
    rw [List.nil_append]
    simp only [replaceFrom]
    rw [if_neg hnot]
    rfl
  | cons x xs ih =>
    cases k with
    | succ k => exact ih (Nat.le_of_succ_le_succ hk)
    | zero =>
      have hiff : pattern.isPrefixOf (x :: (xs ++ c :: ys)) = pattern.isPrefixOf (x :: xs) := by
        rw [Bool.eq_iff_iff, List.isPrefixOf_iff_prefix, List.isPrefixOf_iff_prefix, ← List.cons_append]
        exact prefix_append_cons_iff hc
      rw [List.cons_append, replaceFrom, replaceFrom, hiff]
      split
      · rename_i hp
        have hlength := (List.isPrefixOf_iff_prefix.1 hp).length_le
        rw [List.length_cons] at hlength
        rw [ih (by omega), List.append_assoc]
      · rw [ih (Nat.zero_le _)]
        rfl

/-! ## Characters -/

theorem mem_of_mem_replaceFrom {c : Char} (h : c ∈ replaceFrom pattern new k text) :
    c ∈ text ∨ c ∈ new := by
  induction text generalizing k with
  | nil => cases k <;> simp [replaceFrom] at h
  | cons d ds ih =>
    cases k with
    | succ k => exact (ih h).imp_left (List.mem_cons_of_mem d)
    | zero =>
      simp only [replaceFrom] at h
      split at h
      · rcases List.mem_append.1 h with h | h
        · exact .inr h
        · exact (ih h).imp_left (List.mem_cons_of_mem d)
      · rcases List.mem_cons.1 h with rfl | h
        · exact .inl List.mem_cons_self
        · exact (ih h).imp_left (List.mem_cons_of_mem d)

theorem mem_of_mem_replaceChars {c : Char} (h : c ∈ replaceChars pattern new text) :
    c ∈ text ∨ c ∈ new := by
  rw [replaceChars] at h
  split at h
  · simp only [List.mem_append, List.mem_flatMap, List.mem_singleton] at h
    rcases h with ⟨d, hd, h | rfl⟩ | h
    · exact .inr h
    · exact .inl hd
    · exact .inr h
  · exact mem_of_mem_replaceFrom h

/-- An exchange at a place where the name stands puts the word in. -/
theorem mem_replaceChars {c : Char} (ho : occursIn pattern text = true) (hc : c ∈ new) :
    c ∈ replaceChars pattern new text := by
  rw [replaceChars]
  split
  · exact List.mem_append_right _ hc
  · rename_i hne
    induction text with
    | nil => simp [occursIn, hne] at ho
    | cons d ds ih =>
      simp only [replaceFrom]
      split
      · exact List.mem_append_left _ hc
      · rename_i hd
        rw [occursIn, Bool.or_eq_true] at ho
        exact List.mem_cons_of_mem d (ih (ho.resolve_left hd))

theorem replaceChars_ne_nil (hnew : new ≠ []) (htext : text ≠ []) :
    replaceChars pattern new text ≠ [] := by
  by_cases ho : occursIn pattern text = true
  · obtain ⟨c, hc⟩ := List.exists_mem_of_ne_nil new hnew
    exact List.ne_nil_of_mem (mem_replaceChars ho hc)
  · rw [replaceChars_of_not_occurs (Bool.eq_false_iff.2 ho)]
    exact htext

/-- If the name is not in what follows a character, only what comes before is exchanged. -/
theorem replaceChars_append_cons {c : Char} (hc : c ∉ pattern) (h : occursIn pattern ys = false) :
    replaceChars pattern new (xs ++ c :: ys) = replaceChars pattern new xs ++ c :: ys := by
  have hempty := isEmpty_eq_false_of_not_occurs h
  have hne : pattern ≠ [] := by simpa using hempty
  rw [replaceChars, replaceChars, hempty]
  simp only [Bool.false_eq_true, if_false]
  rw [replaceFrom_append_cons hc hne (Nat.zero_le _), replaceFrom_of_not_occurs h]

/-! ## Names and words -/

/-- Can the name neither begin in the word nor go on into it? -/
def isApart : (name word : List Char) → Bool
  | a :: as, n :: ns => !(n :: ns).contains a && !as.contains n
  | _, _ => false

theorem isApart_iff : isApart pattern new = true ↔
    ∃ a as n ns, pattern = a :: as ∧ new = n :: ns ∧ a ∉ n :: ns ∧ n ∉ as := by
  cases pattern <;> cases new <;> simp [isApart, and_assoc]

theorem mentions_of_mentions_replace {text name other new : String} (hname : name ≠ "")
    (h : isApart other.toList new.toList = true)
    (hm : mentions (replace text name new) other = true) : mentions text other = true := by
  obtain ⟨a, as, n, ns, ho, hn, ha, hns⟩ := isApart_iff.1 h
  have hempty : name.toList.isEmpty = false := by simpa using hname
  simp only [mentions, replace, replaceChars, hempty, String.toList_ofList, ho, hn] at hm ⊢
  exact occursIn_of_occursIn_replaceFrom ha hns hm

theorem mentions_replace_self {text name new : String}
    (h : isApart name.toList new.toList = true) : mentions (replace text name new) name = false := by
  obtain ⟨a, as, n, ns, hname, hn, ha, hns⟩ := isApart_iff.1 h
  simp only [mentions, replace, replaceChars, String.toList_ofList, hname, hn]
  exact not_occursIn_replaceFrom ha hns

/-- A name that is apart from another one stays where that one is exchanged. -/
theorem mentions_replace_of_mentions {text name other new : String}
    (h : isApart name.toList other.toList = true) (hm : mentions text other = true) :
    mentions (replace text name new) other = true := by
  obtain ⟨a, as, b, bs, hname, hother, hab, hba⟩ := isApart_iff.1 h
  simp only [mentions, replace, replaceChars, String.toList_ofList, hname, hother] at hm ⊢
  refine occursIn_replaceFrom hab ?_ hm
  rw [List.mem_cons, not_or]
  exact ⟨fun heq => hab (heq ▸ List.mem_cons_self), hba⟩

end Stencil.Text
