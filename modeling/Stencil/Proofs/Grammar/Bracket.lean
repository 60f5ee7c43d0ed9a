import Stencil.Proofs.Grammar.Stretch

/-!
# Brackets

Round, square and curly brackets are well nested if each opening one is closed by its counterpart and
what stands between the two is well nested too. Of a run of code tokens only the brackets count.

Results: a well-nested run goes on with what closes the brackets around it: behind a well-nested
beginning of a well-nested run the rest is well nested (`WellNested.of_append`), so a bracket that is
open at the beginning of a run has one counterpart only (`Script.eq_of_counterparts`).
-/

namespace Stencil

/-- Is it one of the six brackets? -/
def Kind.isBracket (k : Kind) : Bool :=
  k.isOpenDelimiter || k.isCloseDelimiter

/-- Brackets each of which has its counterpart, with well-nested brackets between the two. -/
inductive WellNested : List Kind → Prop where
  | nil : WellNested []
  | pair (d : Delimiter) {inner rest : List Kind} (hinner : WellNested inner)
    (hrest : WellNested rest) : WellNested (d.opening :: (inner ++ d.closing :: rest))

/-! ## The six brackets -/

namespace Delimiter

variable {d e : Delimiter}

theorem isBracket_opening (d : Delimiter) : d.opening.isBracket = true := by
  cases d <;> rfl

theorem isBracket_closing (d : Delimiter) : d.closing.isBracket = true := by
  cases d <;> rfl

theorem isCloseDelimiter_closing (d : Delimiter) : d.closing.isCloseDelimiter = true := by
  cases d <;> rfl

theorem opening_inj : d.opening = e.opening ↔ d = e := by
  cases d <;> cases e <;> simp [opening]

theorem opening_ne_closing (d e : Delimiter) : d.opening ≠ e.closing := by
  cases d <;> cases e <;> simp [opening, closing]

theorem exists_opening {k : Kind} (h : k.isOpenDelimiter = true) : ∃ d : Delimiter, k = d.opening := by
  cases k <;> first | contradiction | exact ⟨.paren, rfl⟩ | exact ⟨.bracket, rfl⟩ | exact ⟨.brace, rfl⟩

theorem exists_closing {k : Kind} (h : k.isCloseDelimiter = true) : ∃ d : Delimiter, k = d.closing := by
  cases k <;> first | contradiction | exact ⟨.paren, rfl⟩ | exact ⟨.bracket, rfl⟩ | exact ⟨.brace, rfl⟩

end Delimiter

/-! ## Well-nested brackets -/

namespace WellNested

variable {d : Delimiter} {ks ls rest : List Kind}

theorem append (hk : WellNested ks) (hl : WellNested ls) : WellNested (ks ++ ls) := by
  induction hk with
  | nil => exact hl
  | @pair d inner rest hinner _ _ ih =>
    have hsplit : d.opening :: (inner ++ d.closing :: rest) ++ ls
        = d.opening :: (inner ++ d.closing :: (rest ++ ls)) := by simp
    rw [hsplit]
    exact .pair d hinner ih

theorem wrap (d : Delimiter) (h : WellNested ks) : WellNested (d.opening :: (ks ++ [d.closing])) :=
  .pair d h .nil

/-- A bracket that opens is closed further on. -/
theorem exists_of_opening (h : WellNested (d.opening :: ks)) : ∃ inner rest,
    ks = inner ++ d.closing :: rest ∧ WellNested inner ∧ WellNested rest := by
  generalize heq : d.opening :: ks = ls at h
  cases h with
  | nil => contradiction
  | @pair e inner rest hinner hrest =>
    obtain ⟨hde, rfl⟩ := List.cons.inj heq
    obtain rfl := Delimiter.opening_inj.1 hde
    exact ⟨inner, rest, rfl, hinner, hrest⟩

theorem not_closing : ¬WellNested (d.closing :: ks) := by
  intro h
  generalize heq : d.closing :: ks = ls at h
  cases h with
  | nil => contradiction
  | pair e _ _ => exact Delimiter.opening_ne_closing e d (List.cons.inj heq).1.symm

/-- Behind well-nested brackets the brackets still to be closed are those from before. -/
theorem of_append (hk : WellNested ks) (h : WellNested (ks ++ ls)) : WellNested ls := by
  induction hlength : ks.length using Nat.strongRecOn generalizing ks ls with
  | ind n ih =>
    cases hk with
    | nil => exact h
    | @pair d inner rest hinner hrest =>
      simp only [List.length_cons, List.length_append] at hlength
      rw [List.cons_append] at h
      obtain ⟨inner', rest', heq, hinner', hrest'⟩ := h.exists_of_opening
      rw [List.append_assoc, List.cons_append] at heq
      -- both pairs close at the same bracket, as neither can close within the other one
      obtain ⟨more, hmore, htail⟩ | ⟨more, hmore, htail⟩ := List.append_eq_append_iff.1 heq
      · cases more with
        | nil =>
          obtain ⟨-, rfl⟩ := List.cons.inj htail
          exact ih rest.length (by omega) hrest hrest' rfl
        | cons k more =>
          obtain ⟨rfl, -⟩ := List.cons.inj htail
          exact absurd (ih inner.length (by omega) hinner (hmore ▸ hinner') rfl) not_closing
      · cases more with
        | nil =>
          obtain ⟨-, rfl⟩ := List.cons.inj htail
          exact ih rest.length (by omega) hrest hrest' rfl
        | cons k more =>
          obtain ⟨rfl, -⟩ := List.cons.inj htail
          have hshorter : inner'.length < n := by
            rw [hmore, List.length_append, List.length_cons] at hlength
            omega
          exact absurd (ih inner'.length hshorter hinner' (hmore ▸ hinner) rfl) not_closing

end WellNested

/-! ## The brackets of a run of tokens -/

namespace Script

variable {s : Script} {p m m' q : Nat} {d e : Delimiter}

/-- The code tokens from a position up to another one. -/
def code (s : Script) (p q : Nat) : List Lexeme :=
  (s.words.extract p q).toList

/-- The brackets among the code tokens from a position up to another one. -/
def brackets (s : Script) (p q : Nat) : List Kind :=
  ((s.code p q).map (·.kind)).filter Kind.isBracket

@[simp] theorem code_self : s.code p p = [] := by
  simp [code]

theorem code_append (hpm : p ≤ m) (hmq : m ≤ q) : s.code p q = s.code p m ++ s.code m q := by
  rw [code, code, code, ← Array.toList_append, Array.extract_append_extract,
    Nat.min_eq_left hpm, Nat.max_eq_right hmq]

theorem code_succ (hp : p < s.size) : s.code p (p + 1) = [s.word p] := by
  have hp : p < s.words.size := size_words ▸ hp
  rw [code, Array.toList_extract, List.extract_eq_take_drop, Nat.add_sub_cancel_left,
    List.drop_eq_getElem_cons (by simpa using hp)]
  simp [word_eq, hp]

@[simp] theorem brackets_self : s.brackets p p = [] := by
  simp [brackets]

theorem brackets_append (hpm : p ≤ m) (hmq : m ≤ q) :
    s.brackets p q = s.brackets p m ++ s.brackets m q := by
  rw [brackets, code_append hpm hmq, List.map_append, List.filter_append, brackets, brackets]

theorem brackets_succ : s.brackets p (p + 1) = if (s.kind p).isBracket then [s.kind p] else [] := by
  by_cases hp : p < s.size
  · rw [brackets, code_succ hp, List.map_singleton, List.filter_cons, List.filter_nil]
    rfl
  · have hend : s.words.size ≤ p := size_words ▸ Nat.le_of_not_lt hp
    have hkind : s.kind p = .eof := by simp [kind, word_eq, hend]
    rw [hkind, brackets, code, Array.extract_empty_of_size_le_start hend]
    rfl

theorem brackets_of_opening (hp : s.kind p = d.opening) (hpq : p < q) :
    s.brackets p q = d.opening :: s.brackets (p + 1) q := by
  rw [brackets_append p.le_succ hpq, brackets_succ, hp, if_pos d.isBracket_opening]
  rfl

theorem brackets_of_closing (hq : s.kind q = d.closing) (hpq : p ≤ q) :
    s.brackets p (q + 1) = s.brackets p q ++ [d.closing] := by
  rw [brackets_append hpq q.le_succ, brackets_succ, hq, if_pos d.isBracket_closing]

theorem brackets_of_not (hp : (s.kind p).isBracket = false) (hpq : p < q) :
    s.brackets p q = s.brackets (p + 1) q := by
  rw [brackets_append p.le_succ hpq, brackets_succ, if_neg (by simp [hp])]
  rfl

/-- A bracket of a run stands at one of its positions. -/
theorem exists_of_brackets_eq {inner rest : List Kind} {k : Kind} (hpq : p ≤ q)
    (h : s.brackets p q = inner ++ k :: rest) :
    ∃ m, p ≤ m ∧ m < q ∧ s.kind m = k ∧ s.brackets p m = inner ∧ s.brackets (m + 1) q = rest := by
  induction hlength : q - p generalizing p inner with
  | zero =>
    obtain rfl : p = q := by omega
    simp at h
  | succ n ih =>
    have hlt : p < q := by omega
    by_cases hp : (s.kind p).isBracket
    · rw [brackets_append p.le_succ hlt, brackets_succ, if_pos hp, List.singleton_append] at h
      cases inner with
      | nil =>
        obtain ⟨hk, hrest⟩ := List.cons.inj h
        exact ⟨p, p.le_refl, hlt, hk, brackets_self, hrest⟩
      | cons x inner =>
        obtain ⟨hx, h⟩ := List.cons.inj h
        obtain ⟨m, hpm, hmq, hk, hinner, hrest⟩ := ih hlt h (by omega)
        refine ⟨m, by omega, hmq, hk, ?_, hrest⟩
        rw [brackets_append p.le_succ hpm, brackets_succ, if_pos hp, hinner, hx]
        rfl
    · rw [Bool.not_eq_true] at hp
      rw [brackets_of_not hp hlt] at h
      obtain ⟨m, hpm, hmq, hk, hinner, hrest⟩ := ih hlt h (by omega)
      exact ⟨m, by omega, hmq, hk, brackets_of_not hp hpm ▸ hinner, hrest⟩

/-- A well-nested run within brackets does not pass the one that closes them. -/
theorem le_of_closing (hq : s.kind q = d.closing) (hpq : p ≤ q)
    (h : WellNested (s.brackets p q)) (hm : WellNested (s.brackets p m)) : m ≤ q := by
  refine Nat.le_of_not_lt fun hqm => ?_
  rw [brackets_append (Nat.le_succ_of_le hpq) hqm, brackets_of_closing hq hpq, List.append_assoc] at hm
  exact WellNested.not_closing (h.of_append hm)

/-- The bracket that closes those around a run is the only one that does. -/
theorem eq_of_counterparts (hm : s.kind m = d.closing) (hm' : s.kind m' = e.closing) (hpm : p ≤ m)
    (hpm' : p ≤ m') (h : WellNested (s.brackets p m)) (h' : WellNested (s.brackets p m')) : m = m' :=
  Nat.le_antisymm (le_of_closing hm' hpm' h' h) (le_of_closing hm hpm h h')

/-- What is left of a well-nested run behind a well-nested beginning. -/
theorem wellNested_behind (hpm : p ≤ m) (hmq : m ≤ q) (h : WellNested (s.brackets p q))
    (hm : WellNested (s.brackets p m)) : WellNested (s.brackets m q) := by
  rw [brackets_append hpm hmq] at h
  exact hm.of_append h

end Script

end Stencil
