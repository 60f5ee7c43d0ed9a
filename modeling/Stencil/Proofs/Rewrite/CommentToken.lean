import Stencil.Proofs.Rewrite.Comment
import Stencil.Proofs.Token.Joined

/-!
# Rewritten comments are comments

The words that a comment is rewritten with have neither a mark of comments nor a line end in them. If
the placeholders are without them too, as those of the default vocabulary are, a rewritten comment
begins and ends where the comment did.

Results: the token that a rewritten comment begins with is the whole of it and of the same kind
(`scan_rewriteComment`).
-/

namespace Stencil.Rewrite

variable {v : Vocabulary} {b : Binding} {cs ds rest rest' w x : List Char} {c : Char} {k : Kind} {n : Nat}

/-- Is the text not empty, and without marks of comments and line ends? -/
def IsInner (w : List Char) : Prop :=
  w ≠ [] ∧ ∀ x ∈ w, x ≠ '*' ∧ x ≠ '/' ∧ Scan.isLineEnd x = false

/-- The second text is the first one with other words in place of some of its words. -/
inductive Reworded : List Char → List Char → Prop where
  | nil : Reworded [] []
  | copy {c : Char} {cs ds : List Char} : Reworded cs ds → Reworded (c :: cs) (c :: ds)
  | word {w x cs ds : List Char} : IsInner w → IsInner x → Reworded cs ds → Reworded (w ++ cs) (x ++ ds)

/-! ## Rewriting replaces words -/

theorem isInner_of_all
    (h : (!w.isEmpty && w.all fun x => x != '*' && x != '/' && !Scan.isLineEnd x) = true) : IsInner w := by
  simp only [Bool.and_eq_true, Bool.not_eq_true', List.isEmpty_eq_false_iff, List.all_eq_true,
    bne_iff_ne] at h
  exact ⟨h.1, fun x hx => ⟨(h.2 x hx).1.1, (h.2 x hx).1.2, (h.2 x hx).2⟩⟩

theorem isInner_of_isWord (h : IsWord w) : IsInner w := by
  obtain ⟨t, rfl | rfl⟩ := h
  · cases t <;> exact isInner_of_all (by decide)
  · cases t <;> exact isInner_of_all (by decide)

theorem isInner_name (p : Placeholder) : IsInner (({} : Vocabulary).name p).toList := by
  cases p <;> exact isInner_of_all (by decide)

theorem isNamed_of_isInner (hv : ∀ p, IsInner (v.name p).toList) : IsNamed v b := by
  intro p _ hempty
  exact (hv p).1 (by rw [hempty]; rfl)

/-- A step copies a character, or it writes a word for a placeholder. -/
theorem reworded_commentStep (hv : ∀ p, IsInner (v.name p).toList) {text out : List Char}
    (h : commentStep v b text = some (out, rest)) (hrest : Reworded rest ds) :
    Reworded text (out ++ ds) := by
  rcases commentStep_cases h with ⟨p, t, -, rfl, rfl⟩ | ⟨c, rfl, rfl, -⟩
  · exact .word (hv p) (isInner_of_isWord (isWord_wordBefore t rest)) hrest
  · exact .copy hrest

theorem reworded_commentSteps (hv : ∀ p, IsInner (v.name p).toList) {text : List Char}
    (hn : text.length ≤ n) : Reworded text (commentSteps v b n text) := by
  induction n generalizing text with
  | zero =>
    rw [Nat.le_zero, List.length_eq_zero_iff] at hn
    subst hn
    exact .nil
  | succ n ih =>
    rw [commentSteps]
    split
    · rename_i hstep
      rw [commentStep_eq_none_iff.1 hstep]
      exact .nil
    · rename_i out rest hstep
      have hshorter := length_lt_of_commentStep (isNamed_of_isInner hv) hstep
      exact reworded_commentStep hv hstep (ih (by omega))

/-! ## What words do not change -/

/-- Marks of comments stand in front of both texts, or of none. -/
theorem Reworded.prefix_iff {q : List Char} (h : Reworded cs ds) (hq : ∀ x ∈ q, x = '*' ∨ x = '/') :
    q <+: ds ↔ q <+: cs := by
  induction h generalizing q with
  | nil => rfl
  | copy _ ih =>
    cases q with
    | nil => simp
    | cons a q =>
      rw [List.forall_mem_cons] at hq
      rw [List.cons_prefix_cons, List.cons_prefix_cons, ih hq.2]
  | word hw hx _ ih =>
    cases q with
    | nil => simp
    | cons a q =>
      rw [List.forall_mem_cons] at hq
      have hnot {w more : List Char} (hw : IsInner w) : ¬a :: q <+: w ++ more := by
        intro hpre
        cases w with
        | nil => exact hw.1 rfl
        | cons d w =>
          rw [List.cons_append, List.cons_prefix_cons] at hpre
          obtain ⟨rfl, -⟩ := hpre
          obtain ⟨hstar, hslash, -⟩ := hw.2 a List.mem_cons_self
          exact hq.1.elim hstar hslash
      exact iff_of_false (hnot hx) (hnot hw)

/-- No line end comes about. -/
theorem Reworded.not_isLineEnd (h : Reworded cs ds) (hcs : ∀ x ∈ cs, Scan.isLineEnd x = false) :
    ∀ x ∈ ds, Scan.isLineEnd x = false := by
  induction h with
  | nil => exact hcs
  | copy _ ih =>
    rw [List.forall_mem_cons] at hcs ⊢
    exact ⟨hcs.1, ih hcs.2⟩
  | word _ hx _ ih =>
    rw [List.forall_mem_append] at hcs ⊢
    exact ⟨fun x hmem => (hx.2 x hmem).2.2, ih hcs.2⟩

theorem eq_nil_of_reworded_nil (h : Reworded [] ds) : ds = [] := by
  generalize hcs : ([] : List Char) = cs at h
  cases h with
  | nil => rfl
  | copy _ => contradiction
  | word hw _ _ => exact absurd (List.append_eq_nil_iff.1 hcs.symm).1 hw.1

theorem blockCommentLength_append (h : ∀ x ∈ w, x ≠ '*') :
    Scan.blockCommentLength (w ++ rest) = (Scan.blockCommentLength rest).map (· + w.length) := by
  induction w with
  | nil => simp
  | cons c w ih =>
    rw [List.forall_mem_cons] at h
    rw [List.cons_append, Scan.blockCommentLength, ih h.2, Option.map_map]
    · rfl
    · exact fun _ hc => absurd hc h.1

theorem blockCommentLength_cons (h : c = '*' → ¬['/'] <+: cs) :
    Scan.blockCommentLength (c :: cs) = (Scan.blockCommentLength cs).map (· + 1) := by
  rw [Scan.blockCommentLength]
  rintro ds hc rfl
  exact h hc (List.prefix_append ['/'] ds)

/-- A mark is copied. -/
theorem Reworded.exists_of_mark (h : Reworded (c :: cs) ds) (hc : c = '*' ∨ c = '/') :
    ∃ es, ds = c :: es ∧ Reworded cs es := by
  generalize htext : c :: cs = text at h
  cases h with
  | nil => contradiction
  | copy h =>
    cases htext
    exact ⟨_, rfl, h⟩
  | word hw _ _ =>
    obtain ⟨d, w, rfl⟩ := List.exists_cons_of_ne_nil hw.1
    cases htext
    obtain ⟨hstar, hslash, -⟩ := hw.2 c List.mem_cons_self
    exact absurd hc (not_or.2 ⟨hstar, hslash⟩)

/-- A comment that is closed at its end still is. -/
theorem Reworded.blockCommentLength_eq (h : Reworded cs ds)
    (hclosed : Scan.blockCommentLength (cs ++ rest) = some cs.length) :
    Scan.blockCommentLength (ds ++ rest') = some ds.length := by
  induction h with
  | nil =>
    have htwo := Scan.two_le_blockCommentLength hclosed
    contradiction
  | @copy c cs ds h ih =>
    have hlength := Scan.two_le_blockCommentLength hclosed
    rw [List.length_cons] at hlength
    have front {es more : List Char} (hes : 1 ≤ es.length) (hpre : ['/'] <+: es ++ more) :
        ['/'] <+: es := List.prefix_of_prefix_length_le hpre (List.prefix_append es more) hes
    rw [List.cons_append] at hclosed ⊢
    by_cases hmark : c = '*' ∧ ['/'] <+: cs
    · -- the end mark is all that is left
      obtain ⟨rfl, more, rfl⟩ := hmark
      have htwo : some 2 = some (['/'] ++ more).length.succ := hclosed
      obtain rfl : more = [] := by simpa using htwo
      obtain ⟨es, rfl, hnil⟩ := h.exists_of_mark (.inr rfl)
      rw [eq_nil_of_reworded_nil hnil]
      rfl
    · rw [not_and] at hmark
      rw [blockCommentLength_cons fun hc hpre => hmark hc (front (by omega) hpre),
        Option.map_eq_some_iff] at hclosed
      obtain ⟨n, hn, hclosed⟩ := hclosed
      obtain rfl : n = cs.length := by
        rw [List.length_cons] at hclosed
        omega
      have hds := ih hn
      have htwo := Scan.two_le_blockCommentLength hds
      rw [blockCommentLength_cons, hds]
      · rfl
      · intro hc hpre
        exact hmark hc ((h.prefix_iff (by simp)).1 (front (by omega) hpre))
  | @word w x cs ds hw hx h ih =>
    rw [List.append_assoc, blockCommentLength_append fun x hmem => (hw.2 x hmem).1,
      Option.map_eq_some_iff] at hclosed
    obtain ⟨n, hn, hlength⟩ := hclosed
    rw [List.length_append] at hlength
    obtain rfl : n = cs.length := by omega
    rw [List.append_assoc, blockCommentLength_append fun x hmem => (hx.2 x hmem).1, ih hn,
      Option.map_some, List.length_append, Nat.add_comm]

/-! ## Comments -/

/-- Only a slash begins a comment, and another mark is behind it. -/
theorem slash_of_comment (hk : k.channel = .comment) (h : scan c (w ++ rest) = .token k w.length) :
    c = '/' ∧ ∃ d body, w = d :: body ∧ (d = '/' ∨ d = '*') := by
  have hkind : (scan c (w ++ rest)).kind = k := by rw [h]; rfl
  have hcode : k.isCode = false := by rw [Kind.isCode, hk]; rfl
  have hspace : Scan.isSpace c = false := by
    rw [Bool.eq_false_iff]
    intro hspace
    rw [Scan.scan_of_space hspace, Finding.token_inj] at h
    rw [← h.1] at hk
    contradiction
  have hc : c = '/' := by
    by_contra hslash
    rw [← hkind, Scan.kind_scan hspace hslash] at hcode
    contradiction
  subst hc
  rw [Scan.scan_slash] at h
  refine ⟨rfl, ?_⟩
  have front {d : Char} {ds : List Char} (hlength : 1 ≤ w.length) (heq : w ++ rest = d :: ds)
      (hd : d = '/' ∨ d = '*') : ∃ d body, w = d :: body ∧ (d = '/' ∨ d = '*') := by
    cases w with
    | nil => contradiction
    | cons e body =>
      cases heq
      exact ⟨d, body, rfl, hd⟩
  unfold Scan.slash at h
  split at h
  · rename_i cs heq
    rw [Finding.token_inj] at h
    exact front (by omega) heq (.inl rfl)
  · rename_i cs heq
    split at h
    · exact absurd h Finding.flawed_ne_token
    · rw [Finding.token_inj] at h
      exact front (by omega) heq (.inr rfl)
  · rw [Finding.token_inj] at h
    rw [← h.1] at hk
    contradiction
  · rw [Finding.token_inj] at h
    rw [← h.1] at hk
    contradiction

theorem countWhile_append {p : Char → Bool} (h : ∀ x ∈ w, p x = true) :
    Scan.countWhile p (w ++ rest) = w.length + Scan.countWhile p rest := by
  rw [Scan.countWhile, List.takeWhile_append_of_pos h, List.length_append, Scan.countWhile]

/-- The rest of a comment to the end of the line. -/
theorem slash_lineComment (hw : Reworded cs ds) (ht : Scan.Trails rest' rest)
    (h : Scan.slash ('/' :: (cs ++ rest)) = .token k (cs.length + 1)) :
    Scan.slash ('/' :: (ds ++ rest')) = .token k (ds.length + 1) := by
  rw [Scan.slash, Finding.token_inj] at h ⊢
  have hlength : Scan.countWhile (fun c => !Scan.isLineEnd c) (cs ++ rest) = cs.length := by omega
  have hall : ∀ x ∈ cs, (!Scan.isLineEnd x) = true := Scan.all_of_countWhile hlength
  have hall' : ∀ x ∈ ds, (!Scan.isLineEnd x) = true := by
    simp only [Bool.not_eq_true'] at hall ⊢
    exact hw.not_isLineEnd hall
  rw [countWhile_append hall] at hlength
  have hrest' : Scan.countWhile (fun c => !Scan.isLineEnd c) ([] ++ rest')
      = Scan.countWhile (fun c => !Scan.isLineEnd c) ([] ++ rest) := by
    refine Scan.countWhile_congr ?_ ht
    rw [List.nil_append, List.length_nil]
    omega
  rw [List.nil_append, List.nil_append] at hrest'
  rw [countWhile_append hall', hrest']
  exact ⟨h.1, by omega⟩

/-- The rest of a comment up to its end mark. -/
theorem slash_blockComment (hw : Reworded cs ds)
    (h : Scan.slash ('*' :: (cs ++ rest)) = .token k (cs.length + 1)) :
    Scan.slash ('*' :: (ds ++ rest')) = .token k (ds.length + 1) := by
  cases hlength : Scan.blockCommentLength (cs ++ rest) with
  | none =>
    rw [Scan.slash, hlength] at h
    exact absurd h Finding.flawed_ne_token
  | some n =>
    rw [Scan.slash_star hlength, Finding.token_inj] at h
    obtain rfl : n = cs.length := by omega
    have hlength' : Scan.blockCommentLength (ds ++ rest') = some ds.length :=
      hw.blockCommentLength_eq hlength
    have hcs := Scan.two_le_blockCommentLength hlength
    have hds := Scan.two_le_blockCommentLength hlength'
    have hmarks {q : List Char} (hq : q.length ≤ 2) (hall : ∀ x ∈ q, x = '*' ∨ x = '/') :
        q.isPrefixOf (ds ++ rest') = q.isPrefixOf (cs ++ rest) := by
      have front {es more : List Char} (hes : 2 ≤ es.length) : q <+: es ++ more ↔ q <+: es :=
        ⟨fun hp => List.prefix_of_prefix_length_le hp (List.prefix_append es more) (by omega),
          fun hp => hp.trans (List.prefix_append es more)⟩
      rw [Bool.eq_iff_iff, List.isPrefixOf_iff_prefix, List.isPrefixOf_iff_prefix, front hds, front hcs]
      exact hw.prefix_iff hall
    rw [Scan.slash_star hlength', Finding.token_inj, hmarks (by decide) (by simp),
      hmarks (by decide) (by simp)]
    exact ⟨h.1, Nat.add_comm 1 _⟩

/-- A rewritten comment is one token of the same kind, and begins with the same two characters. -/
theorem scan_rewriteComment (hv : ∀ p, IsInner (v.name p).toList) (hk : k.channel = .comment)
    (h : scan c (w ++ rest) = .token k w.length) :
    ∃ d cs ds, w = d :: cs ∧ (rewriteComment v b (String.ofList (c :: w))).toList = c :: d :: ds
      ∧ ∀ rest', Scan.Trails rest' rest → scan c (d :: ds ++ rest') = .token k (d :: ds).length := by
  obtain ⟨rfl, d, cs, rfl, hd⟩ := slash_of_comment hk h
  have hall := reworded_commentSteps (b := b) hv (Nat.le_refl ('/' :: d :: cs).length)
  obtain ⟨es, hes, hbehind⟩ := hall.exists_of_mark (.inr rfl)
  obtain ⟨ds, rfl, hwords⟩ := hbehind.exists_of_mark hd.symm
  refine ⟨d, cs, ds, rfl, ?_, fun rest' ht => ?_⟩
  · rw [toList_rewriteComment (isNamed_of_isInner hv), String.toList_ofList, hes]
  · rw [Scan.scan_slash, List.cons_append, List.length_cons] at h ⊢
    rcases hd with rfl | rfl
    · exact slash_lineComment hwords ht h
    · exact slash_blockComment hwords h

end Stencil.Rewrite
